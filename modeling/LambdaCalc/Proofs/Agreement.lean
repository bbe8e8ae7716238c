import LambdaCalc.Proofs.Stops

set_option autoImplicit false

/-! # Calculations that end alike

Two calculations end alike (`Outcome.Alike`) if both return, and what they return is related, or
both stop, and the reasons are related; one that is put together from such calculations ends like
the other one. How a calculation stops is the same to a program that only looks at the class of what
is wrong (`Stop.SameClass`).

Two calculations that count copies run in parallel (`Copying.Parallel`) if from related tables they
end alike and leave related tables: whatever the relation leaves open makes no difference to them.
-/

namespace LambdaCalc

/-- Stops of one class: faults of one kind, whatever they are about, or the same stop. -/
inductive Stop.SameClass : Stop → Stop → Prop where
  | fault {reason reason' : Fault} (h : reason.kind = reason'.kind) :
      SameClass (.fault reason) (.fault reason')
  | refl (stop : Stop) : SameClass stop stop

namespace Outcome

variable {α α' β β' σ σ' : Type}

/-- Both calculations return, and the results are related, or both stop, and so are the reasons. -/
inductive Alike (S : Stop → Stop → Prop) (R : α → α' → Prop) : Outcome α → Outcome α' → Prop where
  | ok {value : α} {value' : α'} (h : R value value') : Alike S R (.ok value) (.ok value')
  | error {stop stop' : Stop} (h : S stop stop') : Alike S R (.error stop) (.error stop')

variable {S : Stop → Stop → Prop} {R : α → α' → Prop} {Q : β → β' → Prop} {P : σ → σ' → Prop}

theorem Alike.of_eq (hS : ∀ stop, S stop stop) {R : α → α → Prop} (hR : ∀ value, R value value)
    (outcome : Outcome α) : Alike S R outcome outcome := by
  cases outcome with
  | error stop => exact .error (hS stop)
  | ok value => exact .ok (hR value)

theorem Alike.eq {outcome outcome' : Outcome α} (h : Alike Eq Eq outcome outcome') :
    outcome = outcome' := by
  cases h with
  | ok h => rw [h]
  | error h => rw [h]

theorem Alike.mono {S' : Stop → Stop → Prop} {R' : α → α' → Prop} {outcome : Outcome α}
    {outcome' : Outcome α'} (h : Alike S R outcome outcome')
    (hS : ∀ stop stop', S stop stop' → S' stop stop')
    (hR : ∀ value value', R value value' → R' value value') : Alike S' R' outcome outcome' := by
  cases h with
  | ok h => exact .ok (hR _ _ h)
  | error h => exact .error (hS _ _ h)

theorem Alike.exists_ok {value : α} {outcome' : Outcome α'} (h : Alike S R (.ok value) outcome') :
    ∃ value', outcome' = .ok value' ∧ R value value' := by
  cases h with
  | ok h => exact ⟨_, rfl, h⟩

theorem Alike.exists_error {stop : Stop} {outcome' : Outcome α'}
    (h : Alike S R (.error stop) outcome') : ∃ stop', outcome' = .error stop' ∧ S stop stop' := by
  cases h with
  | error h => exact ⟨_, rfl, h⟩

/-- What the first calculation returns is related to what the second one does. -/
theorem Alike.and_eq_ok {outcome : Outcome α} {outcome' : Outcome α'}
    (h : Alike S R outcome outcome') :
    Alike S (fun value value' => R value value' ∧ outcome = .ok value) outcome outcome' := by
  cases h with
  | ok h => exact .ok ⟨h, rfl⟩
  | error h => exact .error h

theorem Alike.bind {first : Outcome α} {first' : Outcome α'} {second : α → Outcome β}
    {second' : α' → Outcome β'} (h : Alike S R first first')
    (hsecond : ∀ value value', R value value' → Alike S Q (second value) (second' value')) :
    Alike S Q (first >>= second) (first' >>= second') := by
  cases h with
  | ok h => exact hsecond _ _ h
  | error h => exact .error h

/-- The first calculation is the same one. -/
theorem Alike.bind_self (hS : ∀ stop, S stop stop) (first : Outcome α) {second : α → Outcome β}
    {second' : α → Outcome β'} (hsecond : ∀ value, Alike S Q (second value) (second' value)) :
    Alike S Q (first >>= second) (first >>= second') := by
  cases first with
  | error stop => exact .error (hS stop)
  | ok value => exact hsecond value

/-- Steps that are taken one after the other: by induction on their number. -/
theorem Alike.foldlM {step : σ → α → Outcome σ} {step' : σ' → α → Outcome σ'} {values : List α}
    (h : ∀ value ∈ values, ∀ state state', P state state' →
      Alike S P (step state value) (step' state' value))
    {state : σ} {state' : σ'} (hstate : P state state') :
    Alike S P (values.foldlM step state) (values.foldlM step' state') := by
  induction values generalizing state state' with
  | nil => exact .ok hstate
  | cons value values ih =>
    obtain ⟨hfirst, hothers⟩ := List.forall_mem_cons.mp h
    rw [List.foldlM_cons, List.foldlM_cons]
    exact (hfirst state state' hstate).bind fun _ _ hbetween => ih hothers hbetween

end Outcome

namespace Copying

variable {α α' β β' : Type}

/-- From related tables both calculations return, and the results and the tables that are left are
    related, or both stop for the same reason. -/
def Parallel (T : NameTable → NameTable → Prop) (R : α → α' → Prop) (calculation : Copying α)
    (calculation' : Copying α') : Prop :=
  ∀ ⦃table table' : NameTable⦄, T table table' →
    Outcome.Alike Eq (fun result result' => R result.1 result'.1 ∧ T result.2 result'.2)
      (calculation table) (calculation' table')

variable {T : NameTable → NameTable → Prop} {R : α → α' → Prop} {Q : β → β' → Prop}

theorem Parallel.pure {value : α} {value' : α'} (h : R value value') :
    Parallel T R (pure value) (pure value') :=
  fun _ _ htable => .ok ⟨h, htable⟩

theorem Parallel.throw (stop : Stop) : Parallel T R (throw stop) (throw stop) :=
  fun _ _ _ => .error rfl

theorem Parallel.lift {outcome : Outcome α} {outcome' : Outcome α'}
    (h : Outcome.Alike Eq R outcome outcome') : Parallel T R (liftM outcome) (liftM outcome') := by
  intro table table' htable
  cases h with
  | ok h => exact .ok ⟨h, htable⟩
  | error h => exact .error h

theorem Parallel.bind {first : Copying α} {first' : Copying α'} {second : α → Copying β}
    {second' : α' → Copying β'} (h : Parallel T R first first')
    (hsecond : ∀ value value', R value value' → Parallel T Q (second value) (second' value')) :
    Parallel T Q (first >>= second) (first' >>= second') := by
  intro table table' htable
  refine (h htable).bind ?_
  rintro ⟨value, between⟩ ⟨value', between'⟩ ⟨hvalue, hbetween⟩
  exact hsecond value value' hvalue hbetween

/-- The first calculation is the same one, and counts no copies. -/
theorem Parallel.bind_lift (outcome : Outcome α) {second : α → Copying β}
    {second' : α → Copying β'} (hsecond : ∀ value, Parallel T Q (second value) (second' value)) :
    Parallel T Q (liftM outcome >>= second) (liftM outcome >>= second') := by
  intro table table' htable
  cases outcome with
  | error stop => exact .error rfl
  | ok value => exact hsecond value htable

/-- Along related lists: by induction on how they are related. -/
theorem Parallel.mapM {f : α → Copying β} {f' : α' → Copying β'} {values : List α}
    {values' : List α'} (hvalues : List.Forall₂ R values values')
    (h : ∀ value value', R value value' → Parallel T Q (f value) (f' value')) :
    Parallel T (List.Forall₂ Q) (values.mapM f) (values'.mapM f') := by
  induction hvalues with
  | nil => exact .pure .nil
  | cons hvalue _ ih =>
    rw [List.mapM_cons, List.mapM_cons]
    exact (h _ _ hvalue).bind fun _ _ hresult => ih.bind fun _ _ hresults =>
      .pure (.cons hresult hresults)

end Copying

end LambdaCalc
