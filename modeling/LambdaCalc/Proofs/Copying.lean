import Mathlib
import LambdaCalc.NameTable

set_option autoImplicit false

/-! # Calculations that count

What a calculation that hands out copy ids returns, when it is put together from others: an outcome
in it leaves the table alone, a stop is no result, and a calculation made for each element of a list
relates the results to the elements one by one (`Copying.mapM_forall₂`).

Calculations that work within limits are compared with each other: within larger limits a
calculation returns no less (`Copying.Below`), and what has to be shown of it is what its results
are like (`Copying.Ensures`) and that there are limits within which it returns
(`Copying.Returns`). -/

namespace LambdaCalc.Copying

/-- A sequence goes on with the result and the table of its first calculation. -/
theorem bind_of_ok {α β : Type} {first : Copying α} {second : α → Copying β} {value : α}
    {table between : NameTable} (h : first table = .ok (value, between)) :
    (first >>= second) table = second value between := by
  show Except.bind (first table) _ = _
  rw [h]
  rfl

/-- An outcome in a calculation leaves the table as it is. -/
theorem lift_eq_ok {α : Type} {outcome : Outcome α} {table : NameTable} {result : α × NameTable} :
    (liftM outcome : Copying α) table = .ok result
      ↔ ∃ value, outcome = .ok value ∧ result = (value, table) := by
  cases outcome with
  | error stop => simp [liftM, monadLift, MonadLift.monadLift, StateT.lift, bind, Except.bind]
  | ok value =>
    simp [liftM, monadLift, MonadLift.monadLift, StateT.lift, bind, Except.bind, pure, Except.pure,
      eq_comm]

/-- A value alone is returned with the table as it is. -/
theorem pure_inj {α : Type} {value value' : α} {table table' : NameTable}
    (h : (pure value : Copying α) table = .ok (value', table')) : value' = value ∧ table' = table :=
  Prod.mk.inj (pure_eq_ok.mp h)

/-- A stop is no result. -/
theorem throw_ne_ok {α : Type} {stop : Stop} {table : NameTable} {result : α × NameTable} :
    (throw stop : Copying α) table ≠ .ok result := nofun

/-- What one calculation says of its result holds along a list of them. -/
theorem mapM_forall₂ {α β : Type} {R : α → β → Prop} {f : α → Copying β} {values : List α}
    (hf : ∀ value ∈ values, ∀ table result table', f value table = .ok (result, table') →
      R value result)
    {results : List β} {table table' : NameTable}
    (h : values.mapM f table = .ok (results, table')) : List.Forall₂ R values results := by
  induction values generalizing results table with
  | nil =>
    rw [List.mapM_nil] at h
    obtain ⟨rfl, rfl⟩ := pure_inj h
    exact .nil
  | cons value values ih =>
    rw [List.mapM_cons] at h
    obtain ⟨result, _, hresult, h⟩ := bind_eq_ok.mp h
    obtain ⟨rest, _, hrest, h⟩ := bind_eq_ok.mp h
    obtain ⟨rfl, rfl⟩ := pure_inj h
    obtain ⟨hfirst, hothers⟩ := List.forall_mem_cons.mp hf
    exact .cons (hfirst _ _ _ hresult) (ih hothers hrest)

/-- Calculations that are the same for every element of a list are the same along the list. -/
theorem mapM_congr {α β : Type} {f f' : α → Copying β} {values : List α}
    (h : ∀ value ∈ values, f value = f' value) : values.mapM f = values.mapM f' := by
  induction values with
  | nil => rfl
  | cons value values ih =>
    obtain ⟨hfirst, hothers⟩ := List.forall_mem_cons.mp h
    rw [List.mapM_cons, List.mapM_cons, hfirst, ih hothers]

/-- What holds of every result along a list holds of every member of the results. -/
theorem forall_mem_of_forall₂ {α β : Type} {P : β → Prop} {values : List α} {results : List β}
    (h : List.Forall₂ (fun _ => P) values results) : ∀ result ∈ results, P result := by
  induction h with
  | nil => nofun
  | cons hfirst _ ih => exact List.forall_mem_cons.mpr ⟨hfirst, ih⟩

/-- A calculation that changes nothing changes nothing along a list. -/
theorem mapM_self {α : Type} {f : α → Copying α} {values : List α} {table : NameTable}
    (h : ∀ value ∈ values, f value table = .ok (value, table)) :
    values.mapM f table = .ok (values, table) := by
  induction values with
  | nil => rfl
  | cons value values ih =>
    obtain ⟨hfirst, hothers⟩ := List.forall_mem_cons.mp h
    rw [List.mapM_cons, bind_of_ok hfirst, bind_of_ok (ih hothers)]
    rfl

/-! ## What is returned within larger limits -/

/-- Whatever the first calculation returns, the second one returns as well. -/
def Below {α : Type} (first second : Copying α) : Prop :=
  ∀ ⦃table result⦄, first table = .ok result → second table = .ok result

theorem Below.refl {α : Type} (calculation : Copying α) : Below calculation calculation :=
  fun _ _ h => h

theorem Below.bind {α β : Type} {first first' : Copying α} {second second' : α → Copying β}
    (h : Below first first') (h' : ∀ value, Below (second value) (second' value)) :
    Below (first >>= second) (first' >>= second') := by
  intro table result hresult
  obtain ⟨value, between, hfirst, hsecond⟩ := bind_eq_ok.mp hresult
  exact bind_eq_ok.mpr ⟨value, between, h hfirst, h' value hsecond⟩

theorem Below.mapM {α β : Type} {f f' : α → Copying β} {values : List α}
    (h : ∀ value ∈ values, Below (f value) (f' value)) :
    Below (values.mapM f) (values.mapM f') := by
  induction values with
  | nil => exact Below.refl _
  | cons value values ih =>
    obtain ⟨hfirst, hothers⟩ := List.forall_mem_cons.mp h
    rw [List.mapM_cons, List.mapM_cons]
    exact hfirst.bind fun result => (ih hothers).bind fun results => Below.refl _

/-! ## What results are like -/

/-- A calculation changes nothing but the counters of the table, and its results have a property. -/
def Ensures {α : Type} (calculation : Copying α) (P : α → Prop) : Prop :=
  ∀ ⦃table result table'⦄, calculation table = .ok (result, table') →
    P result ∧ table'.SameNames table

theorem Ensures.pure {α : Type} {value : α} {P : α → Prop} (h : P value) :
    Ensures (pure value : Copying α) P := by
  intro table result table' hresult
  obtain ⟨rfl, rfl⟩ := pure_inj hresult
  exact ⟨h, .refl _⟩

theorem Ensures.lift {α : Type} (outcome : Outcome α) :
    Ensures (liftM outcome : Copying α) fun _ => True := by
  intro table result table' hresult
  obtain ⟨_, _, heq⟩ := lift_eq_ok.mp hresult
  cases heq
  exact ⟨trivial, .refl _⟩

theorem Ensures.bind {α β : Type} {first : Copying α} {second : α → Copying β} {P : α → Prop}
    {Q : β → Prop} (h : Ensures first P) (h' : ∀ value, P value → Ensures (second value) Q) :
    Ensures (first >>= second) Q := by
  intro table result table' hresult
  obtain ⟨value, between, hfirst, hsecond⟩ := bind_eq_ok.mp hresult
  obtain ⟨hvalue, hsame⟩ := h hfirst
  obtain ⟨hresult, hsame'⟩ := h' value hvalue hsecond
  exact ⟨hresult, hsame'.trans hsame⟩

theorem Ensures.mapM {α β : Type} {f : α → Copying β} {P : β → Prop} {values : List α}
    (h : ∀ value ∈ values, Ensures (f value) P) :
    Ensures (values.mapM f) fun results => ∀ result ∈ results, P result := by
  induction values with
  | nil => exact Ensures.pure nofun
  | cons value values ih =>
    obtain ⟨hfirst, hothers⟩ := List.forall_mem_cons.mp h
    rw [List.mapM_cons]
    refine hfirst.bind fun result hresult => (ih hothers).bind fun results hresults => ?_
    exact Ensures.pure (List.forall_mem_cons.mpr ⟨hresult, hresults⟩)

/-! ## Limits within which a calculation returns -/

section

variable {κ α β : Type} [SemilatticeSup κ]

/-- A calculation returns no less within larger limits. -/
def Monotone (calculation : κ → Copying α) : Prop :=
  ∀ ⦃limits limits'⦄, limits ≤ limits' → Below (calculation limits) (calculation limits')

theorem Monotone.mapM {f : κ → α → Copying β} (h : ∀ value, Monotone (f · value))
    (values : List α) : Monotone fun limits => values.mapM (f limits) :=
  fun _ _ hle => Below.mapM fun value _ => h value hle

/-- Whatever the counters of a table with so many names, there are limits within which a calculation
    returns. -/
def Returns (size : Nat) (calculation : κ → Copying α) : Prop :=
  ∀ table, table.size = size → ∃ limits result, calculation limits table = .ok result

/-- Of two calculations in a row each has its own limits; both return within the larger ones. -/
theorem Returns.bind {size : Nat} {first : κ → Copying α} {second : κ → α → Copying β}
    {P : α → Prop} (hfirst : Returns size first) (hmono : Monotone first)
    (hensures : ∀ limits, Ensures (first limits) P)
    (hsecond : ∀ value, P value → Returns size (second · value))
    (hmono' : ∀ value, Monotone (second · value)) :
    Returns size fun limits => first limits >>= second limits := by
  intro table hsize
  obtain ⟨limits, ⟨value, between⟩, hvalue⟩ := hfirst table hsize
  obtain ⟨hP, hsame⟩ := hensures limits hvalue
  obtain ⟨limits', result, hresult⟩ := hsecond value hP between (hsame.size_eq.trans hsize)
  exact ⟨limits ⊔ limits', result, bind_eq_ok.mpr
    ⟨value, between, hmono le_sup_left hvalue, hmono' value le_sup_right hresult⟩⟩

omit [SemilatticeSup κ] in
theorem Returns.pure (size : Nat) (value : α) [Inhabited κ] :
    Returns size fun _ : κ => (Pure.pure value : Copying α) :=
  fun _ _ => ⟨default, _, rfl⟩

omit [SemilatticeSup κ] in
theorem Returns.bind_pure {size : Nat} {first : κ → Copying α} (h : Returns size first)
    (f : α → β) :
    Returns size fun limits => first limits >>= fun value => (Pure.pure (f value) : Copying β) := by
  intro table hsize
  obtain ⟨limits, ⟨value, between⟩, hvalue⟩ := h table hsize
  exact ⟨limits, (f value, between), bind_eq_ok.mpr ⟨value, between, hvalue, rfl⟩⟩

theorem Returns.mapM [Inhabited κ] {size : Nat} {P : β → Prop} {f : κ → α → Copying β}
    {values : List α} (hf : ∀ value ∈ values, Returns size (f · value))
    (hmono : ∀ value, Monotone (f · value))
    (hensures : ∀ limits, ∀ value ∈ values, Ensures (f limits value) P) :
    Returns size fun limits => values.mapM (f limits) := by
  induction values with
  | nil => exact Returns.pure size []
  | cons value values ih =>
    obtain ⟨hfirst, hothers⟩ := List.forall_mem_cons.mp hf
    have hensures' := fun limits => (List.forall_mem_cons.mp (hensures limits)).2
    simp only [List.mapM_cons]
    refine hfirst.bind (hmono value) (fun limits => hensures limits value List.mem_cons_self)
      (fun result _ => (ih hothers hensures').bind_pure _) fun result _ _ hle => ?_
    exact (Monotone.mapM hmono values hle).bind fun _ => Below.refl _

end

end LambdaCalc.Copying
