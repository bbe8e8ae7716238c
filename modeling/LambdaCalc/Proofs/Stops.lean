import LambdaCalc.Proofs.Copying
import LambdaCalc.Text.Lines

set_option autoImplicit false

/-! # Why a calculation stops

A calculation that is put together from others stops only for the reasons for which they do
(`Outcome.StopsOnly`, and `Copying.StopsOnly` for one that counts). What a later calculation may
rely on is what the earlier ones ensure of their results. Where it is known when each of them stops,
it is known when the whole does (`Copying.StopsIff`). One that works within limits is cut off where
it goes beyond them, and does the same as without them otherwise (`Copying.Cut`).

Some stops are never due to what a user has written: the calculator contradicts itself, or looks for
an entry, a name or a term that is not there (`Stop.Internal`). Others are what a user can be told
of (`Stop.Explained`), in one line (`Stop.Explained.oneLine`). -/

namespace LambdaCalc

/-- The calculator contradicts itself, or something goes wrong in its own workings other than that a
    numeral is too long to be read. -/
def Stop.Internal : Stop → Prop
  | .fault { kind, .. } => kind = .internalFailure
  | .mishap (.numeralTooLong _) => False
  | .mishap _ => True
  | .nestedTooDeeply | .interrupted | .exit _ => False

/-- Something is wrong with what a user has written, and it is about something on one line; or it is
    nested too deeply. -/
def Stop.Explained : Stop → Prop
  | .fault reason => reason.kind ≠ .internalFailure
      ∧ ∀ subject ∈ reason.subject, Text.OneLine subject.display
  | .nestedTooDeeply => True
  | .mishap _ | .interrupted | .exit _ => False

namespace Stop.Explained

variable {kind : FaultKind} {text : String} {name : Option String} {stop : Stop}

theorem ofKind (h : kind ≠ .internalFailure) : (Stop.ofKind kind).Explained := ⟨h, nofun⟩

theorem about (h : kind ≠ .internalFailure) (htext : Text.OneLine text) :
    (Stop.about kind text).Explained := by
  refine ⟨h, ?_⟩
  rintro _ ⟨⟩
  exact htext

theorem aboutName (h : kind ≠ .internalFailure) (hname : ∀ text ∈ name, Text.OneLine text) :
    (Stop.aboutName kind name).Explained := by
  refine ⟨h, fun subject hsubject => ?_⟩
  obtain ⟨text, htext, rfl⟩ := Option.map_eq_some_iff.mp hsubject
  exact hname text htext

theorem not_internal (h : stop.Explained) : ¬ stop.Internal := by
  cases stop with
  | fault => exact h.1
  | nestedTooDeeply => exact not_false
  | mishap | interrupted | exit => exact h.elim

end Stop.Explained

/-! ## Explanations -/

/-- The fault by which a stop is explained. A term that is nested too deeply outgrows the
    calculator. -/
def Stop.explanation? : Stop → Option Fault
  | .fault reason => some reason
  | .nestedTooDeeply => some { kind := .expressionSizeLimit }
  | .mishap _ | .interrupted | .exit _ => none

theorem Stop.Explained.exists_explanation {stop : Stop} (h : stop.Explained) :
    ∃ reason, stop.explanation? = some reason := by
  cases stop with
  | fault reason => exact ⟨reason, rfl⟩
  | nestedTooDeeply => exact ⟨{ kind := .expressionSizeLimit }, rfl⟩
  | mishap | interrupted | exit => exact h.elim

theorem Subject.oneLine_number (value : Nat) : Text.OneLine (Subject.number value).display := by
  intro hmem
  have hdigits : (Subject.number value).display.toList = Nat.toDigits 10 value :=
    Nat.toList_repr
  rw [hdigits] at hmem
  have hdigit := Nat.isDigit_of_mem_toDigits (by decide) (by decide) hmem
  cases hdigit

theorem FaultKind.oneLine_wording (kind : FaultKind) {subject : String}
    (h : Text.OneLine subject) : Text.OneLine (kind.wording subject) := by
  have hself (text : String) : toString text = text := rfl
  cases kind with
  | general | internalFailure | incompleteFunction | unmatchedParenthesis | emptyExpression
  | expressionSizeLimit | characterLimitExceeded =>
    rw [wording]
    decide +kernel
  | numberTooLarge =>
    simp only [wording, hself]
    exact .append h (by decide +kernel)
  | unexpectedCharacter | invalidName | invalidKeyword | reservedName | unavailableName | activeName
  | recursiveKeyword | fileNotReadable =>
    simp only [wording, hself]
    exact .append (.append (by decide +kernel) h) (by decide +kernel)

/-- The description of an explanation is one line. -/
theorem Stop.Explained.oneLine {stop : Stop} {reason : Fault} (h : stop.Explained)
    (hreason : stop.explanation? = some reason) : Text.OneLine reason.description := by
  have hself (text : String) : toString text = text := rfl
  have hsubject : Text.OneLine reason.shownSubject := by
    unfold Fault.shownSubject
    cases stop with
    | fault =>
      obtain rfl := Option.some.inj hreason
      split
      · next subject heq => exact h.2 subject heq
      · decide
    | nestedTooDeeply =>
      obtain rfl := Option.some.inj hreason
      decide
    | mishap | interrupted | exit => cases hreason
  have hmessage : Text.OneLine reason.message := by
    unfold Fault.message
    split_ifs
    · exact hsubject
    · exact FaultKind.oneLine_wording _ hsubject
  have hword : Text.OneLine reason.kind.category.word := by
    cases reason.kind.category <;> decide
  simp only [Fault.description, hself]
  exact .append (.append hword (by decide)) hmessage

/-- A calculation has gone beyond what it is allowed. -/
def Stop.Excessive (stop : Stop) : Prop :=
  stop = .nestedTooDeeply ∨ stop = .ofKind .expressionSizeLimit

namespace Outcome

variable {α β σ : Type} {allowed allowed' : Stop → Prop}

/-- If a calculation stops, it is for a reason that is allowed. -/
def StopsOnly (allowed : Stop → Prop) (outcome : Outcome α) : Prop :=
  ∀ ⦃stop⦄, outcome = .error stop → allowed stop

theorem StopsOnly.ok (value : α) : StopsOnly allowed (.ok value : Outcome α) := nofun

theorem StopsOnly.error {stop : Stop} (h : allowed stop) :
    StopsOnly allowed (.error stop : Outcome α) := by
  rintro _ ⟨⟩
  exact h

theorem StopsOnly.mono {outcome : Outcome α} (h : StopsOnly allowed outcome)
    (hallowed : ∀ stop, allowed stop → allowed' stop) : StopsOnly allowed' outcome :=
  fun stop hstop => hallowed stop (h hstop)

theorem StopsOnly.ofKind {kind : FaultKind} (h : kind ≠ .internalFailure) :
    StopsOnly Stop.Explained (.error (.ofKind kind) : Outcome α) :=
  .error (.ofKind h)

theorem StopsOnly.about {kind : FaultKind} (h : kind ≠ .internalFailure) {text : String}
    (htext : Text.OneLine text) :
    StopsOnly Stop.Explained (.error (.about kind text) : Outcome α) :=
  .error (.about h htext)

theorem StopsOnly.aboutName {kind : FaultKind} (h : kind ≠ .internalFailure)
    {name : Option String} (hname : ∀ text ∈ name, Text.OneLine text) :
    StopsOnly Stop.Explained (.error (.aboutName kind name) : Outcome α) :=
  .error (.aboutName h hname)

theorem StopsOnly.bind {first : Outcome α} {second : α → Outcome β}
    (hfirst : StopsOnly allowed first)
    (hsecond : ∀ value, first = .ok value → StopsOnly allowed (second value)) :
    StopsOnly allowed (first >>= second) := by
  cases first with
  | error stop => exact .error (hfirst rfl)
  | ok value => exact hsecond value rfl

theorem StopsOnly.map {outcome : Outcome α} (h : StopsOnly allowed outcome) (f : α → β) :
    StopsOnly allowed (outcome.map f) := by
  cases outcome with
  | error stop => exact .error (h rfl)
  | ok value => exact .ok (f value)

/-- Steps taken one after the other: by induction on their number. -/
theorem StopsOnly.foldlM {step : σ → α → Outcome σ} {values : List α}
    (h : ∀ state, ∀ value ∈ values, StopsOnly allowed (step state value)) (state : σ) :
    StopsOnly allowed (values.foldlM step state) := by
  induction values generalizing state with
  | nil => exact .ok state
  | cons value values ih =>
    rw [List.foldlM_cons]
    refine StopsOnly.bind (h state value List.mem_cons_self) fun state' _ => ?_
    exact ih (fun state value hmem => h state value (List.mem_cons_of_mem _ hmem)) state'

/-- Steps taken one after the other stop at one of them, and at the first one that stops. -/
theorem foldlM_eq_error {step : σ → α → Outcome σ} {values : List α} {state : σ} {stop : Stop} :
    values.foldlM step state = .error stop ↔ ∃ before value after state',
      values = before ++ value :: after ∧ before.foldlM step state = .ok state'
        ∧ step state' value = .error stop := by
  constructor
  · intro h
    induction values generalizing state with
    | nil => cases h
    | cons value values ih =>
      rw [List.foldlM_cons] at h
      cases hstep : step state value with
      | error stop' =>
        rw [hstep] at h
        exact ⟨[], value, values, state, rfl, rfl, hstep.trans h⟩
      | ok state' =>
        rw [hstep] at h
        obtain ⟨before, value', after, state'', rfl, hrun, hstop⟩ := ih h
        refine ⟨value :: before, value', after, state'', rfl, ?_, hstop⟩
        rw [List.foldlM_cons, hstep]
        exact hrun
  · rintro ⟨before, value, after, state', rfl, hrun, hstop⟩
    rw [List.foldlM_append, hrun]
    show (value :: after).foldlM step state' = _
    rw [List.foldlM_cons, hstop]
    rfl

end Outcome

namespace Copying

variable {α β : Type} {size : Nat} {allowed : Stop → Prop}

/-- If a calculation that counts in a table of so many names stops, it is for a reason that is
    allowed. -/
def StopsOnly (size : Nat) (allowed : Stop → Prop) (calculation : Copying α) : Prop :=
  ∀ ⦃table⦄, table.size = size → Outcome.StopsOnly allowed (calculation table)

theorem StopsOnly.pure (value : α) : StopsOnly size allowed (pure value : Copying α) :=
  fun _ _ => nofun

theorem StopsOnly.throw {stop : Stop} (h : allowed stop) :
    StopsOnly size allowed (throw stop : Copying α) :=
  fun _ _ => .error h

theorem StopsOnly.bind {first : Copying α} {second : α → Copying β} {P : α → Prop}
    (hfirst : StopsOnly size allowed first) (hensures : Ensures first P)
    (hsecond : ∀ value, P value → StopsOnly size allowed (second value)) :
    StopsOnly size allowed (first >>= second) := by
  intro table hsize
  refine Outcome.StopsOnly.bind (hfirst hsize) fun ⟨value, between⟩ hrun => ?_
  obtain ⟨hvalue, hsame⟩ := hensures hrun
  exact hsecond value hvalue (hsame.size_eq.trans hsize)

theorem StopsOnly.mapM {f : α → Copying β} {P : β → Prop} {values : List α}
    (h : ∀ value ∈ values, StopsOnly size allowed (f value))
    (hensures : ∀ value ∈ values, Ensures (f value) P) :
    StopsOnly size allowed (values.mapM f) := by
  induction values with
  | nil => exact StopsOnly.pure []
  | cons value values ih =>
    obtain ⟨hfirst, hothers⟩ := List.forall_mem_cons.mp h
    obtain ⟨hensures, hensures'⟩ := List.forall_mem_cons.mp hensures
    rw [List.mapM_cons]
    refine hfirst.bind hensures fun result _ => ?_
    exact (ih hothers hensures').bind (Ensures.mapM hensures') fun _ _ => StopsOnly.pure _

/-! ## When a calculation stops -/

/-- A calculation that counts in a table of so many names ends in a stop if something is the case,
    and returns if it is not. -/
def StopsIff (size : Nat) (stop : Stop) (condition : Prop) (calculation : Copying α) : Prop :=
  ∀ ⦃table⦄, table.size = size →
    (condition → calculation table = .error stop)
      ∧ (¬condition → ∃ result, calculation table = .ok result)

section

variable {stop : Stop} {condition condition' : Prop}

theorem StopsIff.congr {calculation : Copying α} (h : StopsIff size stop condition calculation)
    (hiff : condition ↔ condition') : StopsIff size stop condition' calculation := by
  intro table hsize
  rw [← hiff]
  exact h hsize

/-- A calculation that stops under a condition stops for nothing else. -/
theorem StopsIff.stopsOnly {calculation : Copying α}
    (h : StopsIff size stop condition calculation) :
    StopsOnly size (· = stop) calculation := by
  intro table hsize stop' hstop
  by_cases hcondition : condition
  · exact Except.error.inj (hstop.symm.trans ((h hsize).1 hcondition))
  · obtain ⟨result, hresult⟩ := (h hsize).2 hcondition
    cases hstop.symm.trans hresult

theorem StopsIff.pure (value : α) : StopsIff size stop False (pure value : Copying α) :=
  fun table _ => ⟨False.elim, fun _ => ⟨(value, table), rfl⟩⟩

/-- A sequence stops if one of its calculations does. -/
theorem StopsIff.bind {first : Copying α} {second : α → Copying β} {P : α → Prop}
    (hfirst : StopsIff size stop condition first) (hensures : Ensures first P)
    (hsecond : ∀ value, P value → StopsIff size stop condition' (second value)) :
    StopsIff size stop (condition ∨ condition') (first >>= second) := by
  intro table hsize
  by_cases hcondition : condition
  · refine ⟨fun _ => ?_, fun h => absurd (Or.inl hcondition) h⟩
    show Except.bind (first table) _ = _
    rw [(hfirst hsize).1 hcondition]
    rfl
  · obtain ⟨⟨value, between⟩, hvalue⟩ := (hfirst hsize).2 hcondition
    obtain ⟨hP, hsame⟩ := hensures hvalue
    rw [bind_of_ok hvalue, or_iff_right hcondition]
    exact hsecond value hP (hsame.size_eq.trans hsize)

theorem StopsIff.mapM {f : α → Copying β} {conditions : α → Prop} {P : β → Prop}
    {values : List α} (h : ∀ value ∈ values, StopsIff size stop (conditions value) (f value))
    (hensures : ∀ value ∈ values, Ensures (f value) P) :
    StopsIff size stop (∃ value ∈ values, conditions value) (values.mapM f) := by
  induction values with
  | nil => exact (StopsIff.pure []).congr (by simp)
  | cons value values ih =>
    obtain ⟨hfirst, hothers⟩ := List.forall_mem_cons.mp h
    obtain ⟨hensures, hensures'⟩ := List.forall_mem_cons.mp hensures
    rw [List.mapM_cons]
    refine (hfirst.bind hensures fun result _ =>
      (ih hothers hensures').bind (Ensures.mapM hensures') fun _ _ => .pure _).congr ?_
    rw [or_false, List.exists_mem_cons_iff]

end

end Copying

/-! ## Calculations that are cut off -/

namespace Outcome

variable {α β : Type}

/-- The first calculation does what the second one does, unless it goes beyond what it is allowed,
    which ends it. -/
def Cut (first second : Outcome α) : Prop :=
  first = second ∨ ∃ stop, first = .error stop ∧ stop.Excessive

theorem Cut.refl (outcome : Outcome α) : Cut outcome outcome := Or.inl rfl

theorem Cut.error {stop : Stop} (h : stop.Excessive) (second : Outcome α) :
    Cut (.error stop) second :=
  Or.inr ⟨stop, rfl, h⟩

/-- Whatever a calculation returns that may be cut off, it returns as well if it is not. -/
theorem Cut.eq_ok {first second : Outcome α} (h : Cut first second) {value : α}
    (hvalue : first = .ok value) : second = .ok value := by
  rcases h with heq | ⟨stop, hstop, _⟩
  · exact heq ▸ hvalue
  · cases hvalue.symm.trans hstop

/-- What returns if it is not cut off stops for nothing else. -/
theorem Cut.stopsOnly {first second : Outcome α} (h : Cut first second) {allowed : Stop → Prop}
    (hsecond : StopsOnly allowed second) (hexcessive : ∀ stop, stop.Excessive → allowed stop) :
    StopsOnly allowed first := by
  rcases h with rfl | ⟨stop, rfl, hstop⟩
  · exact hsecond
  · exact .error (hexcessive stop hstop)

/-- A sequence that is cut off in its first calculation does not get to the second one. -/
theorem Cut.bind {first first' : Outcome α} {second second' : α → Outcome β}
    (h : Cut first first') (h' : ∀ value, Cut (second value) (second' value)) :
    Cut (first >>= second) (first' >>= second') := by
  rcases h with rfl | ⟨stop, rfl, hexcessive⟩
  · cases first with
    | error stop => exact Or.inl rfl
    | ok value => exact h' value
  · exact .error hexcessive _

end Outcome

/-- There is no more room than there is somewhere else. -/
def Room.Within (room room' : Room) : Prop := ∀ left' ∈ room', ∃ left ∈ room, left ≤ left'

theorem Room.within_none (room : Room) : room.Within none := nofun

theorem Room.within_some {left left' : Nat} (h : left ≤ left') :
    Room.Within (some left) (some left') := by
  rintro _ ⟨⟩
  exact ⟨left, rfl, h⟩

/-- With less room a call is cut off earlier, and there is less room inside it. -/
theorem Outcome.Cut.enter {α : Type} {room room' : Room} (h : room.Within room')
    {inside inside' : Room → Outcome α}
    (h' : ∀ inner inner', inner.Within inner' → Cut (inside inner) (inside' inner')) :
    Cut (room.enter >>= inside) (room'.enter >>= inside') := by
  match room, room' with
  | none, none => exact h' none none (Room.within_none none)
  | none, some left' =>
    obtain ⟨_, ⟨⟩, _⟩ := h left' rfl
  | some 0, _ => exact .error (Or.inl rfl) _
  | some (left + 1), none => exact h' (some left) none (Room.within_none _)
  | some (left + 1), some left' =>
    obtain ⟨_, ⟨⟩, hle⟩ := h left' rfl
    match left' with
    | left' + 1 => exact h' _ _ (Room.within_some (Nat.le_of_succ_le_succ hle))

namespace Copying

variable {α β : Type}

/-- Whatever the table, the first calculation does what the second one does, unless it is cut
    off. -/
def Cut (first second : Copying α) : Prop := ∀ table, Outcome.Cut (first table) (second table)

theorem Cut.refl (calculation : Copying α) : Cut calculation calculation := fun _ => Or.inl rfl

theorem Cut.throw {stop : Stop} (h : stop.Excessive) (second : Copying α) :
    Cut (MonadExcept.throw stop) second :=
  fun _ => .error h _

theorem Cut.lift {first second : Outcome α} (h : Outcome.Cut first second) :
    Cut (liftM first) (liftM second) :=
  fun _ => h.bind fun _ => .refl _

theorem Cut.below {first second : Copying α} (h : Cut first second) : Below first second :=
  fun table _ hresult => (h table).eq_ok hresult

theorem Cut.bind {first first' : Copying α} {second second' : α → Copying β}
    (h : Cut first first') (h' : ∀ value, Cut (second value) (second' value)) :
    Cut (first >>= second) (first' >>= second') :=
  fun table => (h table).bind fun result => h' result.1 result.2

theorem Cut.mapM {f f' : α → Copying β} {values : List α}
    (h : ∀ value ∈ values, Cut (f value) (f' value)) : Cut (values.mapM f) (values.mapM f') := by
  induction values with
  | nil => exact Cut.refl _
  | cons value values ih =>
    obtain ⟨hfirst, hothers⟩ := List.forall_mem_cons.mp h
    rw [List.mapM_cons, List.mapM_cons]
    exact hfirst.bind fun result => (ih hothers).bind fun results => Cut.refl _

theorem Cut.enter {room room' : Room} (h : room.Within room') {inside inside' : Room → Copying α}
    (h' : ∀ inner inner', inner.Within inner' → Cut (inside inner) (inside' inner')) :
    Cut (liftM room.enter >>= inside) (liftM room'.enter >>= inside') := by
  intro table
  have hrun (room : Room) (inside : Room → Copying α) :
      (liftM room.enter >>= inside) table = room.enter >>= fun inner => inside inner table := by
    cases room.enter <;> rfl
  rw [hrun, hrun]
  exact .enter h fun inner inner' hinner => h' inner inner' hinner table

end Copying

end LambdaCalc
