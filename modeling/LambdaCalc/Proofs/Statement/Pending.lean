import LambdaCalc.Proofs.Session
import LambdaCalc.Text.Terminal

set_option autoImplicit false

/-! # Pending statements

Running a session tries its pending statements in order, up to the first one that stops. The results
in front of that one are kept, it is dropped itself, and those behind it stay pending
(`Session.run_of_ok`, `Session.run_of_error`). So a session that is run again whenever it has
stopped comes to an end, and each statement has had its result collected once by then, in order, or
has been what a run stopped at (`Session.run_processes_once`). This relies on no line being listed
twice, which taking statements and running them keep (`Session.nodup_keys_take`,
`Session.nodup_keys_run`). -/

namespace LambdaCalc

/-! ## The first element that stops -/

namespace Outcome

variable {α β : Type}

/-- What a calculation stops for, if it does. -/
def stop? : Outcome α → Option Stop
  | .ok _ => none
  | .error stop => some stop

/-- A calculation for every element of a list stops at the first element for which it does. -/
theorem mapM_eq_error {f : α → Outcome β} {values : List α} {stop : Stop} :
    values.mapM f = .error stop ↔ ∃ (before : List α) (value : α) (after : List α)
      (results : List β), values = before ++ value :: after ∧ before.map f = results.map .ok
        ∧ f value = .error stop := by
  induction values with
  | nil => exact ⟨nofun, fun ⟨_, _, _, _, hnil, _⟩ => by simp at hnil⟩
  | cons first values ih =>
    rw [List.mapM_cons]
    constructor
    · intro h
      cases hfirst : f first with
      | error stop' =>
        rw [hfirst] at h
        obtain rfl := Except.error.inj h
        exact ⟨[], first, values, [], rfl, rfl, hfirst⟩
      | ok result =>
        have hrest : values.mapM f = .error stop := by
          rw [hfirst] at h
          cases hrest : values.mapM f with
          | error stop' =>
            rw [hrest] at h
            exact h
          | ok results =>
            rw [hrest] at h
            cases h
        obtain ⟨before, value, after, results, rfl, hbefore, hstop⟩ := ih.mp hrest
        exact ⟨first :: before, value, after, result :: results, rfl,
          by rw [List.map_cons, List.map_cons, hfirst, hbefore], hstop⟩
    · rintro ⟨before, value, after, results, hvalues, hbefore, hstop⟩
      cases before with
      | nil =>
        obtain ⟨rfl, rfl⟩ := List.cons.inj hvalues
        rw [hstop]
        rfl
      | cons _ before =>
        obtain ⟨rfl, rfl⟩ := List.cons.inj hvalues
        cases results with
        | nil => cases hbefore
        | cons result results =>
          obtain ⟨hfirst, hbefore⟩ := List.cons.inj hbefore
          rw [hfirst, ih.mpr ⟨before, value, after, results, rfl, hbefore, hstop⟩]
          rfl

variable {f : α → Outcome β} {values : List α} {results : List β}

theorem filterMap_toOption (h : values.map f = results.map .ok) :
    values.filterMap (fun value => (f value).toOption) = results := by
  have hmap : (values.map f).filterMap Except.toOption = results := by
    rw [h, List.filterMap_map]
    exact List.filterMap_some
  rwa [List.filterMap_map] at hmap

theorem filterMap_stop? (h : values.map f = results.map .ok) :
    values.filterMap (fun value => (f value).stop?) = [] := by
  have hmap : (values.map f).filterMap stop? = [] := by
    rw [h, List.filterMap_map]
    exact List.filterMap_eq_nil_iff.mpr fun _ _ => rfl
  rwa [List.filterMap_map] at hmap

end Outcome

/-- Erasing the first key leaves the other entries, if no key is listed twice. -/
theorem OrderedTable.erase_first {κ ν : Type} [DecidableEq κ] {key : κ} {value : ν}
    {entries : List (κ × ν)} (h : (mk ((key, value) :: entries)).keys.Nodup) :
    (mk ((key, value) :: entries)).erase key = { entries } := by
  have hnot : key ∉ entries.map (·.1) := (List.nodup_cons.mp h).1
  rw [erase, List.filter_cons_of_neg (by simp), OrderedTable.mk.injEq, List.filter_eq_self]
  intro entry hmem
  rw [decide_eq_true_iff]
  rintro rfl
  exact hnot (List.mem_map_of_mem hmem)

namespace Reporter

variable (reporter : Reporter) (path : String) (place : Place)

theorem enter_clear : (reporter.clear path).enter path place = reporter.enter path place := by
  simp only [enter, clear, OrderedTable.put_put]

theorem clear_enter : (reporter.enter path place).clear path = reporter.clear path := by
  simp only [enter, clear, OrderedTable.put_put]

theorem clear_clear : (reporter.clear path).clear path = reporter.clear path := by
  simp only [clear, OrderedTable.put_put]

end Reporter

namespace Session

/-! ## One run -/

/-- The result of a pending statement. -/
def resultOf (session : Session) (entry : Int × String) : Outcome Result :=
  session.table.resultOf entry.2

/-- A session that has tried some statements without having been stopped: their results are kept,
    and others are still pending. -/
def past (session : Session) (tried : List (Int × String)) (results : List Result)
    (left : List (Int × String)) : Session :=
  { session with
    reporter := if tried.isEmpty then session.reporter else session.reporter.clear session.path
    pending := { entries := left }
    results := session.results ++ results }

/-- Whatever has been tried before, the reporter knows the next statement in the same way. -/
theorem entered_past (session : Session) (tried : List (Int × String)) (results : List Result)
    (left : List (Int × String)) (line : Int) (text : String) :
    (session.past tried results left).entered line text = session.entered line text := by
  unfold past entered
  dsimp only
  split
  · rfl
  · exact Reporter.enter_clear _ _ _

/-- One more statement has been tried. -/
theorem past_cons (session : Session) (entry : Int × String) (result : Result)
    (tried : List (Int × String)) (results : List Result) (left : List (Int × String)) :
    { session with
        reporter := (session.entered entry.1 entry.2).clear session.path
        results := session.results ++ [result] : Session }.past tried results left
      = session.past (entry :: tried) (result :: results) left := by
  simp only [past, entered, Reporter.clear_enter, Reporter.clear_clear, ite_self,
    List.append_assoc, List.singleton_append, List.isEmpty_cons, Bool.false_eq_true, if_false]

/-- Statements that have results are run one after the other: by induction on them, while they are
    the first ones that are pending. -/
theorem run_tried {tried left : List (Int × String)} {results : List Result} {session : Session}
    (hpending : session.pending = { entries := tried ++ left })
    (hkeys : session.pending.keys.Nodup)
    (hresults : tried.map session.resultOf = results.map .ok) :
    (tried.forM fun (line, text) => runPending session.path line text).run session
      = (.ok (), session.past tried results left) := by
  induction tried generalizing session results with
  | nil =>
    obtain rfl := List.map_eq_nil_iff.mp hresults.symm
    rw [past, List.append_nil, List.isEmpty_nil, if_pos rfl]
    rw [List.nil_append] at hpending
    rw [← hpending]
    rfl
  | cons entry tried ih =>
    obtain ⟨line, text⟩ := entry
    cases results with
    | nil => cases hresults
    | cons result results =>
      obtain ⟨hresult, hresults⟩ := List.cons.inj hresults
      have hrun := run_runPending line text session
      rw [show session.table.resultOf text = .ok result from hresult] at hrun
      have hdropped : session.pending.erase line = { entries := tried ++ left } := by
        rw [hpending] at hkeys ⊢
        exact OrderedTable.erase_first hkeys
      have hrest := @ih results
        { session with
          reporter := (session.entered line text).clear session.path
          pending := session.pending.erase line
          results := session.results ++ [result] }
        hdropped (OrderedTable.nodup_keys_erase hkeys line) hresults
      rw [List.forM_eq_forM, List.forM_cons, ← List.forM_eq_forM, run_bind_of_ok hrun]
      exact hrest.trans (congrArg _ (past_cons session (line, text) result tried results left))

variable {session : Session}

/-- If all pending statements have results, running returns and nothing is pending any more. -/
theorem run_of_ok (hkeys : session.pending.keys.Nodup) {results : List Result}
    (hresults : session.pending.entries.map session.resultOf = results.map .ok) :
    Session.run.run session = (.ok (), session.past session.pending.entries results []) := by
  rw [run_run]
  exact run_tried (by rw [List.append_nil]) hkeys hresults

/-- Running stops at the first statement that stops. What is in front of it has been run, it is
    dropped, but still known to the reporter, and the others are still pending. -/
theorem run_of_error (hkeys : session.pending.keys.Nodup) {before after : List (Int × String)}
    {line : Int} {text : String} {results : List Result} {stop : Stop}
    (hentries : session.pending.entries = before ++ (line, text) :: after)
    (hresults : before.map session.resultOf = results.map .ok)
    (hstop : session.table.resultOf text = .error stop) :
    Session.run.run session
      = (.error stop, { session with
          reporter := session.entered line text
          pending := { entries := after }
          results := session.results ++ results }) := by
  have hpending : session.pending = { entries := before ++ (line, text) :: after } := by
    rw [← hentries]
  have htried := run_tried hpending hkeys hresults
  have hleft : (session.past before results ((line, text) :: after)).pending.erase line
      = { entries := after } := by
    refine OrderedTable.erase_first ?_
    rw [hpending, OrderedTable.keys, List.map_append] at hkeys
    exact (List.nodup_append.mp hkeys).2.1
  have hrun := run_runPending line text (session.past before results ((line, text) :: after))
  rw [show (session.past before results ((line, text) :: after)).table.resultOf text
    = .error stop from hstop, hleft, entered_past] at hrun
  rw [run_run, hentries, List.forM_eq_forM, List.forM_append, ← List.forM_eq_forM,
    run_bind_of_ok htried, List.forM_eq_forM, List.forM_cons]
  exact run_bind_of_error hrun

/-! ## Running again -/

/-- A session is run, and run again as long as it is stopped, until a run returns. What it is
    stopped for may be reported in between. -/
inductive RunsThrough : Session → List Stop → Session → Prop where
  | returned {session session' : Session} :
      Session.run.run session = (.ok (), session') → RunsThrough session [] session'
  | stopped {session between session' : Session} {stop : Stop} {stops : List Stop}
      (reporter : Reporter) :
      Session.run.run session = (.error stop, between) →
      RunsThrough { between with reporter } stops session' →
      RunsThrough session (stop :: stops) session'

/-- A run returns, or it stops at some statement and leaves those behind it. -/
theorem run_cases (hkeys : session.pending.keys.Nodup) :
    (∃ results, session.pending.entries.map session.resultOf = results.map .ok
      ∧ Session.run.run session = (.ok (), session.past session.pending.entries results []))
    ∨ ∃ before line text after results stop,
      session.pending.entries = before ++ (line, text) :: after
      ∧ before.map session.resultOf = results.map .ok
      ∧ session.table.resultOf text = .error stop
      ∧ Session.run.run session
        = (.error stop, { session with
            reporter := session.entered line text
            pending := { entries := after }
            results := session.results ++ results }) := by
  cases hall : session.pending.entries.mapM session.resultOf with
  | ok results =>
    have hresults := Outcome.mapM_eq_ok.mp hall
    exact .inl ⟨results, hresults, run_of_ok hkeys hresults⟩
  | error stop =>
    obtain ⟨before, ⟨line, text⟩, after, results, hentries, hresults, hstop⟩ :=
      Outcome.mapM_eq_error.mp hall
    exact .inr ⟨before, line, text, after, results, stop, hentries, hresults, hstop,
      run_of_error hkeys hentries hresults hstop⟩

theorem nodup_keys_after {before after : List (Int × String)} {entry : Int × String}
    (hkeys : session.pending.keys.Nodup)
    (hentries : session.pending.entries = before ++ entry :: after) :
    (OrderedTable.mk after).keys.Nodup := by
  rw [OrderedTable.keys, hentries, List.map_append] at hkeys
  exact (List.nodup_cons.mp (List.nodup_append.mp hkeys).2.1).2

/-- Taking a statement lists no line twice. -/
theorem nodup_keys_take (hkeys : session.pending.keys.Nodup) (text : String) (line : Option Int) :
    ((take text line).run session).2.pending.keys.Nodup := by
  cases hdefinition : Statement.definition? text with
  | some sides =>
    have hrun : (take text line).run session = _ :=
      run_take_of_definition (line.getD session.nextLine) hdefinition session
    rw [hrun]
    cases session.table.define (Text.trim sides.1) sides.2 with
    | ok left | error stop => exact hkeys
  | none =>
    have hrun : (take text line).run session = _ :=
      run_take_of_none (line.getD session.nextLine) hdefinition session
    rw [hrun]
    exact OrderedTable.nodup_keys_put hkeys _ _

/-- Neither does running what is pending. -/
theorem nodup_keys_run (hkeys : session.pending.keys.Nodup) :
    (Session.run.run session).2.pending.keys.Nodup := by
  rcases run_cases hkeys with ⟨results, -, hrun⟩ |
    ⟨before, line, text, after, results, stop, hentries, -, -, hrun⟩
  · rw [hrun]
    exact List.nodup_nil
  · rw [hrun]
    exact nodup_keys_after hkeys hentries

/-- Some run returns in the end, since every run before it drops a statement. -/
theorem exists_runsThrough {session : Session} (hkeys : session.pending.keys.Nodup) :
    ∃ stops session', RunsThrough session stops session' := by
  rcases run_cases hkeys with ⟨results, -, hrun⟩ |
    ⟨before, line, text, after, results, stop, hentries, -, -, hrun⟩
  · exact ⟨[], _, .returned hrun⟩
  · have hfewer : after.length < session.pending.entries.length := by
      rw [hentries, List.length_append, List.length_cons]
      omega
    obtain ⟨stops, session', hrest⟩ := @exists_runsThrough
      { session with
        reporter := session.entered line text
        pending := { entries := after }
        results := session.results ++ results }
      (nodup_keys_after hkeys hentries)
    exact ⟨stop :: stops, session', .stopped _ hrun hrest⟩
termination_by session.pending.entries.length
decreasing_by exact hfewer

/-- When a run returns in the end, every statement has had its result collected or has been what a
    run stopped at: by induction on the runs. -/
theorem RunsThrough.collected {stops : List Stop} {session' : Session}
    (h : RunsThrough session stops session') (hkeys : session.pending.keys.Nodup) :
    session'.results = session.results
        ++ session.pending.entries.filterMap (fun entry => (session.resultOf entry).toOption)
      ∧ stops = session.pending.entries.filterMap (fun entry => (session.resultOf entry).stop?)
      ∧ session'.pending = {} ∧ session'.table = session.table := by
  induction h with
  | @returned session session' hreturn =>
    rcases run_cases hkeys with ⟨results, hresults, hrun⟩ |
      ⟨_, _, _, _, _, stop, _, _, _, hrun⟩
    · obtain rfl := (Prod.mk.inj (hreturn.symm.trans hrun)).2
      rw [Outcome.filterMap_toOption hresults, Outcome.filterMap_stop? hresults]
      exact ⟨rfl, rfl, rfl, rfl⟩
    · cases (Prod.mk.inj (hreturn.symm.trans hrun)).1
  | @stopped session between session' stop stops reporter hstopped _ ih =>
    rcases run_cases hkeys with ⟨results, hresults, hrun⟩ |
      ⟨before, line, text, after, results, stop', hentries, hresults, hstop, hrun⟩
    · cases (Prod.mk.inj (hstopped.symm.trans hrun)).1
    · obtain ⟨heq, rfl⟩ := Prod.mk.inj (hstopped.symm.trans hrun)
      obtain rfl := Except.error.inj heq
      obtain ⟨hcollected, rfl, hpending, htable⟩ := ih (nodup_keys_after hkeys hentries)
      have hresult : session.resultOf (line, text) = .error stop := hstop
      refine ⟨?_, ?_, hpending, htable⟩
      · rw [hcollected, hentries, List.filterMap_append, Outcome.filterMap_toOption hresults,
          List.filterMap_cons, hresult, List.append_assoc]
        rfl
      · rw [hentries, List.filterMap_append, Outcome.filterMap_stop? hresults, List.filterMap_cons,
          hresult]
        rfl

/-- Whatever the state of a session, if no line is pending twice: a run that reaches a statement
    that stops has appended the results of those in front of it, in order, has dropped that
    statement, and leaves the later ones pending and the keywords as they are. Running the session
    again and again comes to a run that returns. Then nothing is pending, the keywords are the same,
    and what has been appended in all are the results, in order, of the statements that have one;
    the runs in between have stopped at the others, in order. -/
theorem run_processes_once (hkeys : session.pending.keys.Nodup) :
    (∀ before line text after results stop,
      session.pending.entries = before ++ (line, text) :: after →
      before.map session.resultOf = results.map .ok → session.table.resultOf text = .error stop →
      Session.run.run session
        = (.error stop, { session with
            reporter := session.entered line text
            pending := { entries := after }
            results := session.results ++ results }))
    ∧ (∃ stops session', RunsThrough session stops session')
    ∧ ∀ stops session', RunsThrough session stops session' →
      session'.results = session.results
          ++ session.pending.entries.filterMap (fun entry => (session.resultOf entry).toOption)
        ∧ stops = session.pending.entries.filterMap (fun entry => (session.resultOf entry).stop?)
        ∧ session'.pending = {} ∧ session'.table = session.table :=
  ⟨fun _ _ _ _ _ _ => run_of_error hkeys, exists_runsThrough hkeys,
    fun _ _ h => h.collected hkeys⟩

/-- Four statements are pending, of which the second and the third stop. -/
theorem run_processes_once_stopped :
    (OrderedTable.mk [((1 : Int), "x"), (2, "λ"), (5, "y)"), (7, "(λz.z z) b")]).keys.Nodup
    ∧ ∃ stops session',
      RunsThrough
        { reporter := { style := Text.plain }
          path := "f"
          pending := { entries := [(1, "x"), (2, "λ"), (5, "y)"), (7, "(λz.z z) b")] } }
        stops session'
      ∧ session'.results = [⟨"x", none⟩, ⟨"b b", none⟩]
      ∧ stops = [.ofKind .incompleteFunction, .ofKind .unmatchedParenthesis] := by
  have hkeys :
      (OrderedTable.mk [((1 : Int), "x"), (2, "λ"), (5, "y)"), (7, "(λz.z z) b")]).keys.Nodup := by
    decide
  obtain ⟨-, ⟨stops, session', hruns⟩, hcollected⟩ := @run_processes_once
    { reporter := { style := Text.plain }, path := "f",
      pending := { entries := [(1, "x"), (2, "λ"), (5, "y)"), (7, "(λz.z z) b")] } }
    hkeys
  obtain ⟨hresults, hstops, -, -⟩ := hcollected stops session' hruns
  exact ⟨hkeys, stops, session', hruns, hresults.trans (by decide +kernel),
    hstops.trans (by decide +kernel)⟩

end Session

end LambdaCalc
