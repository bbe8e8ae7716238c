import LambdaCalc.Proofs.Effects
import LambdaCalc.Proofs.Keyword.Calculation
import LambdaCalc.Proofs.Statement.Performing
import LambdaCalc.Shell

set_option autoImplicit false

/-! # Statements in a session

Whenever a session that works interactively takes a statement, nothing is pending and no results are
left (`Session.interactive`). The statement stops for what its definition or its calculation stops
for; the keywords then are what they were, and the reporter still knows the statement
(`Session.tries_statement`). -/

namespace LambdaCalc

/-- A statement is tried as it is performed. -/
theorem KeywordTable.tryStatement_eq (table : KeywordTable) (text : String) :
    table.tryStatement text = (table.perform text).map fun _ => () := by
  unfold tryStatement perform
  cases Statement.definition? text with
  | some sides =>
    dsimp only
    cases table.define (Text.trim sides.1) sides.2 with
    | ok defined | error stop => rfl
  | none =>
    dsimp only
    rw [table.calculate_eq]
    cases table.resultOf text with
    | ok result | error stop => rfl

/-! ## The reporter -/

/-- Entering a value again takes the place of the first one. -/
theorem OrderedTable.put_put {κ ν : Type} [DecidableEq κ] (table : OrderedTable κ ν) (key : κ)
    (first second : ν) : (table.put key first).put key second = table.put key second := by
  have hcontains : (table.put key first).contains key = true := by
    rw [contains, find?_put, if_pos rfl]
    rfl
  rw [put, if_pos hcontains, OrderedTable.mk.injEq]
  unfold put
  split
  · simp only [List.map_map]
    refine List.map_congr_left fun entry _ => ?_
    by_cases hkey : entry.1 = key <;> simp [hkey]
  · next hnot =>
    have hothers : ∀ entry ∈ table.entries, entry.1 ≠ key := by
      intro entry hmem hkey
      exact hnot (table.contains_iff_mem_keys.mpr (List.mem_map.mpr ⟨entry, hmem, hkey⟩))
    rw [List.map_append, List.map_singleton, if_pos rfl]
    congr 1
    refine (List.map_congr_left fun entry hmem => ?_).trans (List.map_id _)
    rw [if_neg (hothers entry hmem), id]

namespace Reporter

/-- Something more is printed, and nothing else changes. -/
def adding (said : String) (reporter : Reporter) : Reporter :=
  { reporter with printed := reporter.printed ++ said }

theorem adding_empty (reporter : Reporter) : reporter.adding "" = reporter := by
  rw [adding, String.append_empty]

theorem print_eq_adding (line : String) (reporter : Reporter) :
    reporter.print line = reporter.adding (line ++ "\n") := by
  rw [print, adding, String.append_assoc]

/-- A warning as it is printed. -/
def warning (reporter : Reporter) (message : String) : String :=
  reporter.boldLocation ++ reporter.style .bold (some .magenta) "warning: " ++ message ++ "\n"

theorem warn_eq_adding (reporter : Reporter) (message : String) :
    reporter.warn message = reporter.adding (reporter.warning message) :=
  print_eq_adding _ reporter

end Reporter

/-! ## Statements -/

namespace Session

/-- The reporter once it knows a statement that was typed. -/
def knowing (reporter : Reporter) (line : Int) (text : String) : Reporter :=
  reporter.enter interactivePath { text, number := some line }

/-- Knowing a statement again makes no difference. -/
theorem knowing_clear (reporter : Reporter) (line : Int) (text : String) :
    knowing ((knowing reporter line text).clear interactivePath) line text
      = knowing reporter line text := by
  simp only [knowing, Reporter.enter, Reporter.clear, OrderedTable.put_put]

/-- What is printed meanwhile is all that is left of a statement once its place is cleared. -/
theorem clear_knowing (reporter : Reporter) (line : Int) (text said : String) :
    ((knowing reporter line text).adding said).clear interactivePath
      = (reporter.clear interactivePath).adding said := by
  simp only [knowing, Reporter.enter, Reporter.clear, Reporter.adding, OrderedTable.put_put]

/-- A session as it is between two statements that are typed. -/
def interactive (reporter : Reporter) (table : KeywordTable) : Session :=
  { reporter, path := interactivePath, table }

/-- The same session while a statement is pending. -/
def waiting (reporter : Reporter) (table : KeywordTable) (line : Int) (text : String) : Session :=
  { interactive reporter table with pending := { entries := [(line, text)] } }

variable {reporter : Reporter} {table : KeywordTable} {text : String}

theorem run_tell (action : Reporter → Reporter) (session : Session) :
    (tell action).run session = (.ok (), { session with reporter := action session.reporter }) :=
  rfl

theorem run_ofOutcome {α : Type} (outcome : Outcome α) (session : Session) :
    (ofOutcome outcome).run session = (outcome, session) :=
  rfl

theorem run_takeResults (session : Session) :
    takeResults.run session = (.ok session.results, { session with results := [] }) :=
  rfl

theorem run_guarded_of_ok {α : Type} {calculation : SessionM α} {session session' : Session}
    {value : α} (h : calculation.run session = (.ok value, session')) :
    (guarded calculation).run session = (.ok (some value), session') := by
  show guarded calculation session = _
  unfold guarded
  rw [h]

theorem run_guarded_of_error {α : Type} {calculation : SessionM α} {session session' : Session}
    {stop : Stop} (h : calculation.run session = (.error stop, session')) :
    (guarded calculation).run session
      = ((session'.reporter.absorb stop).1.map fun _ => none,
          { session' with reporter := (session'.reporter.absorb stop).2 }) := by
  show guarded calculation session = _
  unfold guarded
  rw [h]

/-! ## Taking a statement -/

/-- The reporter of a session once it knows a statement in a line. -/
def entered (session : Session) (line : Int) (text : String) : Reporter :=
  session.reporter.enter session.path { text, number := some line }

/-- The reporter with a warning if a keyword is one already. -/
def warned (table : KeywordTable) (keyword : String) (reporter : Reporter) : Reporter :=
  if table.contains keyword then reporter.warn s!"keyword '{keyword}' redefined" else reporter

theorem exists_warned (table : KeywordTable) (keyword : String) (reporter : Reporter) :
    ∃ said, warned table keyword reporter = reporter.adding said := by
  unfold warned
  split_ifs
  · exact ⟨_, reporter.warn_eq_adding _⟩
  · exact ⟨"", reporter.adding_empty.symm⟩

theorem run_onKeywords {α : Type} (change : KeywordM α) (session : Session) :
    (onKeywords change).run session
      = ((change.run session.table).1, { session with table := (change.run session.table).2 }) :=
  rfl

/-- A definition that is refused leaves the session as it is. -/
theorem run_onKeywords_add (name source : String) (session : Session) :
    (onKeywords (KeywordTable.add name source)).run session
      = match session.table.define name source with
        | .ok table => (.ok (), { session with table })
        | .error stop => (.error stop, session) := by
  rw [run_onKeywords, KeywordTable.run_add]
  cases session.table.define name source with
  | ok table | error stop => rfl

/-- Defining a keyword gives a warning if it is one already. -/
theorem run_define (name source : String) (session : Session) :
    (define name source).run session
      = match session.table.define (Text.trim name) source with
        | .ok table =>
          (.ok (), { session with
            reporter := warned session.table (Text.trim name) session.reporter, table })
        | .error stop =>
          (.error stop, { session with
            reporter := warned session.table (Text.trim name) session.reporter }) := by
  unfold define warned
  rw [run_bind_of_ok (run_get _)]
  dsimp only
  split_ifs
  · rw [run_bind_of_ok (run_tell _ _), run_onKeywords_add]
  · rw [run_onKeywords_add]

/-- A definition is taken under its place. If it fails, its place is still known. -/
theorem run_take_of_definition {name source : String} (line : Int)
    (h : Statement.definition? text = some (name, source)) (session : Session) :
    (take text (some line)).run session
      = match session.table.define (Text.trim name) source with
        | .ok table =>
          (.ok (), { session with
            reporter := (warned session.table (Text.trim name) (session.entered line text)).clear
              session.path
            table })
        | .error stop =>
          (.error stop, { session with
            reporter := warned session.table (Text.trim name) (session.entered line text) }) := by
  unfold take
  rw [run_bind_of_ok (run_get _), run_bind_of_ok (run_tell _ _), h]
  simp only [run_bind, run_define]
  cases session.table.define (Text.trim name) source with
  | ok table | error stop => rfl

/-- A statement that is no definition is kept under its line. -/
theorem run_take_of_none (line : Int) (h : Statement.definition? text = none) (session : Session) :
    (take text (some line)).run session
      = (.ok (), { session with
          reporter := (session.entered line text).clear session.path
          pending := session.pending.put line text }) := by
  unfold take
  rw [run_bind_of_ok (run_get _), run_bind_of_ok (run_tell _ _), h]
  rfl

/-! ## Running what is pending -/

/-- A statement that is no definition has a result, or nothing happens to the session. -/
theorem run_runStatement (text : String) (session : Session) :
    (runStatement text).run session
      = match session.table.resultOf text with
        | .ok result => (.ok (), { session with results := session.results ++ [result] })
        | .error stop => (.error stop, session) := by
  unfold runStatement KeywordTable.resultOf
  simp only [run_bind, run_get, run_ofOutcome]
  cases session.table.reduceText text with
  | error stop => rfl
  | ok reduced =>
    simp only [run_modify]
    show _ = match reduced.renderWithin (some callLimit) >>= fun text =>
        pure (Result.mk text reduced.number?) with
      | .ok result => _
      | .error stop => _
    cases reduced.renderWithin (some callLimit) with
    | error stop | ok rendered => rfl

/-- Run a pending statement under its place and drop it. -/
def runPending (path : String) (line : Int) (text : String) : SessionM Unit := do
  tell (·.enter path { text, number := some line })
  tryFinally (runStatement text) (drop line)
  tell (·.clear path)

/-- All pending statements are run in order. -/
theorem run_run (session : Session) :
    Session.run.run session
      = (session.pending.entries.forM fun (line, text) =>
          runPending session.path line text).run session :=
  rfl

/-- A pending statement is run under its place, and is no longer pending then. If it fails, its
    place is still known. -/
theorem run_runPending (line : Int) (text : String) (session : Session) :
    (runPending session.path line text).run session
      = match session.table.resultOf text with
        | .ok result =>
          (.ok (), { session with
            reporter := (session.entered line text).clear session.path
            pending := session.pending.erase line
            results := session.results ++ [result] })
        | .error stop =>
          (.error stop, { session with
            reporter := session.entered line text
            pending := session.pending.erase line }) := by
  unfold runPending
  rw [run_bind_of_ok (run_tell _ _)]
  simp only [run_bind, drop, run_tryFinally, run_runStatement]
  cases session.table.resultOf text with
  | ok result | error stop => rfl

/-- A statement that waits alone is calculated. -/
theorem run_waiting (reporter : Reporter) (table : KeywordTable) (line : Int) (text : String) :
    Session.run.run (waiting reporter table line text)
      = match table.resultOf text with
        | .ok result =>
          (.ok (), { interactive ((knowing reporter line text).clear interactivePath) table with
              results := [result] })
        | .error stop => (.error stop, interactive (knowing reporter line text) table) := by
  have hpending := run_runPending line text (waiting reporter table line text)
  have herase : (waiting reporter table line text).pending.erase line = {} := by
    simp [waiting, OrderedTable.erase]
  have htable : (waiting reporter table line text).table = table := rfl
  have hrun : Session.run.run (waiting reporter table line text)
      = (runPending (waiting reporter table line text).path line text >>= fun _ => pure ()).run
          (waiting reporter table line text) := rfl
  rw [herase, htable] at hpending
  rw [hrun, run_bind, hpending]
  cases table.resultOf text with
  | ok result | error stop => rfl

/-! ## Whole statements -/

/-- How an attempt leaves the reporter and the keywords that it finds. If it stops, the keywords are
    what they were, and the reporter is one that it has come to and has printed more. -/
structure Leaves (reporter : Reporter) (table : KeywordTable) (origin : Reporter)
    (attempt : Outcome Unit) (reporter' : Reporter) (table' : KeywordTable) : Prop where
  fatal_eq : reporter'.fatal = reporter.fatal
  reachable : table.Reachable → table'.Reachable
  of_error : ∀ {stop}, attempt = .error stop →
    table' = table ∧ ∃ said, reporter' = origin.adding said

/-- A calculation makes an attempt: it ends as the attempt does, and the session is interactive
    again. -/
def Tries (calculation : SessionM Unit) (reporter : Reporter) (table : KeywordTable)
    (origin : Reporter) (attempt : Outcome Unit) : Prop :=
  ∃ reporter' table', calculation.run (interactive reporter table)
      = (attempt, interactive reporter' table')
    ∧ Leaves reporter table origin attempt reporter' table'

/-- What a statement comes to that is typed: nothing is left of it but what it has printed and what
    it has defined, or else the reporter still knows it. -/
def ending (reporter : Reporter) (table : KeywordTable) (line : Int) (text said : String) :
    Outcome (Reply × KeywordTable) → Outcome Unit × Session
  | .ok (_, left) => (.ok (), interactive ((reporter.clear interactivePath).adding said) left)
  | .error stop => (.error stop, interactive ((knowing reporter line text).adding said) table)

/-- A statement that is a definition defines a keyword, and has nothing to run. -/
theorem exists_ending_of_definition (reporter : Reporter) (table : KeywordTable)
    {name source : String} (line : Nat) (h : Statement.definition? text = some (name, source)) :
    ∃ said, (Shell.runStatement text line).run (interactive reporter table)
      = ending reporter table line text said (table.perform text) := by
  obtain ⟨said, hsaid⟩ := exists_warned table (Text.trim name) (knowing reporter line text)
  have htake := run_take_of_definition (line : Int) h (interactive reporter table)
  have htable : (interactive reporter table).table = table := rfl
  have hentered : (interactive reporter table).entered line text = knowing reporter line text := rfl
  rw [htable, hentered, hsaid] at htake
  unfold Shell.runStatement
  rw [KeywordTable.perform_of_definition h]
  refine ⟨said, ?_⟩
  cases hdefine : table.define (Text.trim name) source with
  | error stop =>
    rw [hdefine] at htake
    exact run_bind_of_error htake
  | ok left =>
    rw [hdefine] at htake
    have hpath : (interactive reporter table).path = interactivePath := rfl
    simp only [hpath, clear_knowing] at htake
    rw [run_bind_of_ok htake]
    rfl

/-- Any other statement is kept, run and dropped, and its result is printed. -/
theorem exists_ending_of_none (reporter : Reporter) (table : KeywordTable) (line : Nat)
    (h : Statement.definition? text = none) :
    ∃ said, (Shell.runStatement text line).run (interactive reporter table)
      = ending reporter table line text said (table.perform text) := by
  have htake : (take text (some (line : Int))).run (interactive reporter table)
      = (.ok (), waiting ((knowing reporter line text).clear interactivePath) table line text) :=
    run_take_of_none line h (interactive reporter table)
  have hrun := run_waiting ((knowing reporter line text).clear interactivePath) table line text
  have hclear := clear_knowing reporter line text ""
  rw [Reporter.adding_empty, Reporter.adding_empty] at hclear
  rw [knowing_clear, hclear] at hrun
  rw [hclear] at htake
  unfold Shell.runStatement
  rw [KeywordTable.perform_of_none h, run_bind_of_ok htake]
  cases hresult : table.resultOf text with
  | error stop =>
    simp only [hresult] at hrun
    refine ⟨"", ?_⟩
    rw [run_bind_of_error hrun, ← Reporter.adding_empty (knowing reporter line text)]
    rfl
  | ok result =>
    simp only [hresult] at hrun
    refine ⟨Shell.resultLine (reporter.clear interactivePath) result ++ "\n", ?_⟩
    rw [run_bind_of_ok hrun, run_bind_of_ok (run_takeResults _)]
    show _ = (Except.ok (), interactive ((reporter.clear interactivePath).adding _) table)
    rw [← Reporter.print_eq_adding]
    rfl

/-- A statement that is typed is run. -/
theorem exists_ending (reporter : Reporter) (table : KeywordTable) (text : String) (line : Nat) :
    ∃ said, (Shell.runStatement text line).run (interactive reporter table)
      = ending reporter table line text said (table.perform text) := by
  cases hdefinition : Statement.definition? text with
  | some sides => exact exists_ending_of_definition reporter table line hdefinition
  | none => exact exists_ending_of_none reporter table line hdefinition

/-- Running a statement tries it. -/
theorem tries_statement (reporter : Reporter) (table : KeywordTable) (text : String) (line : Nat) :
    Tries (Shell.runStatement text line) reporter table (knowing reporter line text)
      (table.tryStatement text) := by
  obtain ⟨said, hrun⟩ := exists_ending reporter table text line
  unfold Tries
  rw [hrun, table.tryStatement_eq]
  cases hperform : table.perform text with
  | error stop => exact ⟨_, _, rfl, rfl, id, fun _ => ⟨rfl, said, rfl⟩⟩
  | ok performed =>
    exact ⟨_, _, rfl, rfl, fun htable => htable.perform hperform, nofun⟩

end Session

end LambdaCalc
