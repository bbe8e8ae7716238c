import LambdaCalc.Proofs.Session
import LambdaCalc.Text.Terminal

set_option autoImplicit false

/-! # Warnings

Whatever has been given to a session before (`Session.Undergoes`), the warning that a keyword is
redefined is printed with a definition of a keyword that is defined at that moment, and with nothing
else (`Event.warns_iff`). The definition may still be refused. So the warnings tell the truth
exactly if no definition of a defined keyword is refused
(`Session.Undergoes.warnings_true_iff`). -/

namespace LambdaCalc

/-! ## Warnings as they are printed -/

namespace Reporter

theorem warning_ne_empty (reporter : Reporter) (message : String) :
    reporter.warning message ≠ "" := by
  intro h
  have hlast := congrArg String.toList h
  rw [warning, String.toList_append] at hlast
  exact absurd (List.append_eq_nil_iff.mp hlast).2 (by decide)

/-- A warning tells which keyword is redefined. -/
theorem warning_redefined_inj {reporter : Reporter} {keyword other : String}
    (h : reporter.warning s!"keyword '{keyword}' redefined"
      = reporter.warning s!"keyword '{other}' redefined") : keyword = other := by
  have hself (text : String) : toString text = text := rfl
  simp only [warning, hself, String.append_assoc, String.append_right_inj] at h
  simpa only [← String.append_assoc, String.append_left_inj] using h

end Reporter

/-! ## What is given to a session -/

/-- What is given to a session: a statement, a definition by its two sides, the order to run what is
    pending, or to remove a keyword. -/
inductive Deed where
  | statement (text : String) (line : Option Int)
  | definition (name source : String)
  | run
  | removal (name : String)
deriving DecidableEq, Repr

namespace Deed

/-- What a session does with a deed. -/
def calculation : Deed → SessionM Unit
  | statement text line => Session.take text line
  | definition name source => Session.define name source
  | run => Session.run
  | removal name => Session.removeKeyword name

/-- The keyword that a deed is to define, and the text of its body. -/
def definition? : Deed → Option (String × String)
  | statement text _ =>
      (Statement.definition? text).map fun sides => (Text.trim sides.1, sides.2)
  | definition name source => some (Text.trim name, source)
  | run | removal _ => none

/-- The reporter while a deed is done: it knows the statement, if it is one. -/
def reporter (session : Session) : Deed → Reporter
  | statement text line => session.entered (line.getD session.nextLine) text
  | definition _ _ | run | removal _ => session.reporter

end Deed

/-- A deed, how it ends, and the session before and after it. -/
structure Event where
  before : Session
  deed : Deed
  outcome : Outcome Unit
  after : Session

namespace Event

/-- A session is given something. -/
def of (session : Session) (deed : Deed) : Event where
  before := session
  deed
  outcome := (deed.calculation.run session).1
  after := (deed.calculation.run session).2

/-- The warning that a keyword is redefined is all that is printed. -/
def Warns (event : Event) (keyword : String) : Prop :=
  event.after.reporter.printed = event.before.reporter.printed
    ++ (event.deed.reporter event.before).warning s!"keyword '{keyword}' redefined"

/-- A definition replaces the definition that a keyword has. -/
structure Replaces (event : Event) (keyword : String) : Prop where
  outcome_eq : event.outcome = .ok ()
  replaced : ∃ source old new, event.deed.definition? = some (keyword, source)
    ∧ event.before.table.keywords.find? keyword = some old
    ∧ event.before.table.tokenize (Text.trim source) (some keyword) = .ok new
    ∧ event.after.table.keywords = event.before.table.keywords.put keyword new
    ∧ event.after.table.sources = event.before.table.sources.put keyword (Text.trim source)

/-- A definition of a keyword that is defined is refused, and the keywords are what they were. -/
structure Refuses (event : Event) (keyword : String) : Prop where
  outcome_eq : ∃ stop, event.outcome = .error stop
  defines : ∃ source, event.deed.definition? = some (keyword, source)
  defined : event.before.table.contains keyword = true
  kept : event.after.table = event.before.table

theorem Replaces.not_refuses {event : Event} {keyword : String} (h : event.Replaces keyword) :
    ¬ event.Refuses keyword := by
  intro hrefuses
  obtain ⟨stop, hstop⟩ := hrefuses.outcome_eq
  cases h.outcome_eq.symm.trans hstop

end Event

/-- A session undergoes events one after the other. Between two of them a fault may be reported and
    results may be taken. -/
inductive Session.Undergoes : Session → List Event → Prop where
  | nothing (session : Session) : Undergoes session []
  | next {session : Session} {events : List Event} (deed : Deed) (reporter : Reporter)
      (results : List Result) :
      Undergoes { (Event.of session deed).after with reporter, results } events →
      Undergoes session (Event.of session deed :: events)

/-! ## One event -/

/-- A table in which a keyword is defined has the tokens and the text of its body for it. -/
theorem KeywordTable.exists_put_of_define {table left : KeywordTable} {name source : String}
    (h : table.define (Text.trim name) source = .ok left) :
    ∃ new, table.tokenize (Text.trim source) (some (Text.trim name)) = .ok new
      ∧ left.keywords = table.keywords.put (Text.trim name) new
      ∧ left.sources = table.sources.put (Text.trim name) (Text.trim source) := by
  obtain ⟨-, tokens, htokens, -, rfl⟩ := define_eq_ok h
  rw [Text.trim_trim] at htokens
  refine ⟨tokens, htokens, ?_, ?_⟩
  · rw [entered, Text.trim_trim]
  · rw [entered, Text.trim_trim]

namespace Session

/-- Running prints nothing. -/
theorem printed_run (session : Session) :
    (Session.run.run session).2.reporter.printed = session.reporter.printed := by
  rw [run_run]
  generalize session.pending.entries = entries
  induction entries generalizing session with
  | nil => rfl
  | cons entry entries ih =>
    obtain ⟨line, text⟩ := entry
    have hrun := run_runPending line text session
    rw [List.forM_eq_forM, List.forM_cons, ← List.forM_eq_forM, run_bind, hrun]
    cases session.table.resultOf text with
    | error stop => rfl
    | ok result =>
      exact ih { session with
        reporter := (session.entered line text).clear session.path
        pending := session.pending.erase line
        results := session.results ++ [result] }

/-- A statement that is no definition prints nothing. -/
theorem printed_take_of_none {text : String} (h : Statement.definition? text = none)
    (line : Option Int) (session : Session) :
    ((take text line).run session).2.reporter.printed = session.reporter.printed := by
  have hrun := run_take_of_none (line.getD session.nextLine) h session
  exact congrArg (·.2.reporter.printed) hrun

end Session

namespace Event

variable {session : Session} {deed : Deed} {keyword source : String}

/-- What a definition comes to. Whether or not it is refused, the warning is printed if the keyword
    is one already. -/
theorem of_definition (h : deed.definition? = some (keyword, source)) :
    (of session deed).after.reporter.printed
        = (Session.warned session.table keyword (deed.reporter session)).printed
      ∧ ((∃ stop, (of session deed).outcome = .error stop
            ∧ (of session deed).after.table = session.table)
          ∨ (of session deed).outcome = .ok ()
            ∧ ∃ new, session.table.tokenize (Text.trim source) (some keyword) = .ok new
              ∧ (of session deed).after.table.keywords = session.table.keywords.put keyword new
              ∧ (of session deed).after.table.sources
                = session.table.sources.put keyword (Text.trim source)) := by
  cases deed with
  | run | removal name => cases h
  | definition name source =>
    obtain ⟨rfl, rfl⟩ := Prod.mk.inj (Option.some.inj h)
    simp only [of, Deed.calculation, Deed.reporter, Session.run_define]
    cases hdefine : session.table.define (Text.trim name) source with
    | error stop => exact ⟨rfl, .inl ⟨stop, rfl, rfl⟩⟩
    | ok left => exact ⟨rfl, .inr ⟨rfl, KeywordTable.exists_put_of_define hdefine⟩⟩
  | statement text line =>
    obtain ⟨⟨name, body⟩, hdefinition, heq⟩ := Option.map_eq_some_iff.mp h
    obtain ⟨rfl, rfl⟩ := Prod.mk.inj heq
    have hrun : (Deed.statement text line).calculation.run session = _ :=
      Session.run_take_of_definition (line.getD session.nextLine) hdefinition session
    simp only [of, hrun, Deed.reporter]
    cases hdefine : session.table.define (Text.trim name) body with
    | error stop => exact ⟨rfl, .inl ⟨stop, rfl, rfl⟩⟩
    | ok left => exact ⟨rfl, .inr ⟨rfl, KeywordTable.exists_put_of_define hdefine⟩⟩

/-- What defines no keyword prints nothing. -/
theorem printed_of_none (h : deed.definition? = none) :
    (of session deed).after.reporter.printed = session.reporter.printed := by
  cases deed with
  | definition name source => cases h
  | statement text line =>
    exact Session.printed_take_of_none (Option.map_eq_none_iff.mp h) line session
  | run => exact Session.printed_run session
  | removal name => rfl

theorem printed_reporter (session : Session) (deed : Deed) :
    (deed.reporter session).printed = session.reporter.printed := by
  cases deed <;> rfl

/-- The warning is printed with a definition of a keyword that is defined, and with nothing else. -/
theorem warns_iff (session : Session) (deed : Deed) (keyword : String) :
    (of session deed).Warns keyword
      ↔ (∃ source, deed.definition? = some (keyword, source))
        ∧ session.table.contains keyword = true := by
  have hprints : (of session deed).Warns keyword
      ↔ (of session deed).after.reporter.printed = session.reporter.printed
        ++ (deed.reporter session).warning s!"keyword '{keyword}' redefined" := Iff.rfl
  -- A warning is not empty.
  have hnone (hprinted : (of session deed).after.reporter.printed = session.reporter.printed) :
      ¬ (of session deed).Warns keyword := by
    rw [hprints, hprinted]
    intro heq
    have hempty := (String.append_empty (s := session.reporter.printed)).trans heq
    exact Reporter.warning_ne_empty _ _ ((String.append_right_inj _).mp hempty).symm
  cases hdefinition : deed.definition? with
  | none => exact iff_of_false (hnone (printed_of_none hdefinition)) fun ⟨⟨_, h⟩, _⟩ => nomatch h
  | some definition =>
    obtain ⟨defined, source⟩ := definition
    have hprinted := (@of_definition session _ _ _ hdefinition).1
    unfold Session.warned at hprinted
    split at hprinted
    · next hcontains =>
      rw [Reporter.warn_eq_adding, Reporter.adding, printed_reporter] at hprinted
      rw [hprints, hprinted, String.append_right_inj]
      constructor
      · intro hwarning
        obtain rfl := Reporter.warning_redefined_inj hwarning
        exact ⟨⟨source, rfl⟩, hcontains⟩
      · rintro ⟨⟨_, heq⟩, -⟩
        obtain ⟨rfl, -⟩ := Prod.mk.inj (Option.some.inj heq)
        rfl
    · next hcontains =>
      rw [printed_reporter] at hprinted
      refine iff_of_false (hnone hprinted) ?_
      rintro ⟨⟨_, heq⟩, hdefined⟩
      obtain ⟨rfl, -⟩ := Prod.mk.inj (Option.some.inj heq)
      exact hcontains hdefined

/-- A definition of a keyword that is defined replaces its definition or is refused. -/
theorem replaces_or_refuses_iff (session : Session) (deed : Deed) (keyword : String) :
    (of session deed).Replaces keyword ∨ (of session deed).Refuses keyword
      ↔ (∃ source, deed.definition? = some (keyword, source))
        ∧ session.table.contains keyword = true := by
  constructor
  · rintro (⟨-, source, old, new, hdefinition, hold, -⟩ | ⟨-, hdefines, hdefined, -⟩)
    · exact ⟨⟨source, hdefinition⟩, Option.isSome_iff_exists.mpr ⟨old, hold⟩⟩
    · exact ⟨hdefines, hdefined⟩
  · rintro ⟨⟨source, hdefinition⟩, hdefined⟩
    rcases (@of_definition session _ _ _ hdefinition).2 with
      ⟨stop, hstop, hkept⟩ | ⟨hok, new, htokens, hput, hsource⟩
    · exact .inr ⟨⟨stop, hstop⟩, ⟨source, hdefinition⟩, hdefined, hkept⟩
    · obtain ⟨old, hold⟩ := Option.isSome_iff_exists.mp hdefined
      exact .inl ⟨hok, source, old, new, hdefinition, hold, htokens, hput, hsource⟩

end Event

/-! ## All events -/

namespace Session.Undergoes

variable {session : Session} {events : List Event}

/-- In every event a session is given something: by induction on the events. -/
theorem exists_of_mem (h : Undergoes session events) {event : Event} (hmem : event ∈ events) :
    ∃ session deed, event = .of session deed := by
  induction h with
  | nothing => cases hmem
  | @next session _ deed _ _ _ ih =>
    rcases List.mem_cons.mp hmem with rfl | hmem
    · exact ⟨session, deed, rfl⟩
    · exact ih hmem

/-- Whatever has happened before, the warning that a keyword is redefined is printed exactly if a
    definition replaces the one that the keyword has, or if such a definition is refused and
    replaces nothing. So all warnings tell the truth, and none is missing, exactly if no definition
    of a keyword that is defined is refused. -/
theorem warnings_true_iff (h : Undergoes session events) :
    (∀ event ∈ events, ∀ keyword,
      event.Warns keyword ↔ event.Replaces keyword ∨ event.Refuses keyword)
    ∧ ((∀ event ∈ events, ∀ keyword, event.Warns keyword ↔ event.Replaces keyword)
      ↔ ∀ event ∈ events, ∀ keyword, ¬ event.Refuses keyword) := by
  have hwarns : ∀ event ∈ events, ∀ keyword,
      event.Warns keyword ↔ event.Replaces keyword ∨ event.Refuses keyword := by
    intro event hmem keyword
    obtain ⟨session, deed, rfl⟩ := h.exists_of_mem hmem
    rw [Event.warns_iff, Event.replaces_or_refuses_iff]
  refine ⟨hwarns, forall₂_congr fun event hmem => forall_congr' fun keyword => ?_⟩
  rw [hwarns event hmem keyword]
  constructor
  · intro hiff hrefuses
    exact (hiff.mp (.inr hrefuses)).not_refuses hrefuses
  · intro hnot
    exact or_iff_left hnot

/-- One keyword is defined twice, and the warning with the second definition is true. -/
theorem warnings_true_iff_redefined :
    ∃ events, Undergoes (start { style := Text.plain } interactivePath {}) events
      ∧ events.map (·.deed) = [.statement "k := a" none, .statement " k := b" none]
      ∧ (∀ event ∈ events, ∀ keyword, event.Warns keyword ↔ event.Replaces keyword)
      ∧ ∃ event ∈ events, event.Warns "k" := by
  let first :=
    Event.of (start { style := Text.plain } interactivePath {}) (.statement "k := a" none)
  let second := Event.of first.after (.statement " k := b" none)
  have hevents : Undergoes (start { style := Text.plain } interactivePath {}) [first, second] :=
    .next _ first.after.reporter first.after.results
      (.next _ { style := Text.plain } [] (.nothing _))
  have hfirst : first.outcome = .ok () := by decide +kernel
  have hsecond : second.outcome = .ok () := by decide +kernel
  refine ⟨[first, second], hevents, rfl, hevents.warnings_true_iff.2.mpr ?_, second, by simp, ?_⟩
  · refine List.forall_mem_cons.mpr
      ⟨fun keyword hrefuses => ?_, List.forall_mem_singleton.mpr fun keyword hrefuses => ?_⟩
    · obtain ⟨stop, hstop⟩ := hrefuses.outcome_eq
      cases hfirst.symm.trans hstop
    · obtain ⟨stop, hstop⟩ := hrefuses.outcome_eq
      cases hsecond.symm.trans hstop
  · show second.after.reporter.printed = _
    decide +kernel

/-- A definition that is refused warns of a redefinition that does not take place. -/
theorem warns_without_replacing :
    ∃ events, Undergoes (start { style := Text.plain } interactivePath {}) events
      ∧ events.map (·.deed) = [.statement "k := a" none, .statement "k := )" none]
      ∧ ∃ event ∈ events, event.Warns "k" ∧ ¬ event.Replaces "k" := by
  let first :=
    Event.of (start { style := Text.plain } interactivePath {}) (.statement "k := a" none)
  let second := Event.of first.after (.statement "k := )" none)
  have hevents : Undergoes (start { style := Text.plain } interactivePath {}) [first, second] :=
    .next _ first.after.reporter first.after.results
      (.next _ { style := Text.plain } [] (.nothing _))
  have hsecond : second.outcome = .error (.ofKind .unmatchedParenthesis) := by decide +kernel
  refine ⟨[first, second], hevents, rfl, second, by simp, ?_, ?_⟩
  · show second.after.reporter.printed = _
    decide +kernel
  · intro hreplaces
    cases hreplaces.outcome_eq.symm.trans hsecond

end Session.Undergoes

end LambdaCalc
