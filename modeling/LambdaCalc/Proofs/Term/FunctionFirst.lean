import LambdaCalc.Proofs.Term.Beta

set_option autoImplicit false

/-! # Reducing functions first

A strategy of β-reduction: in an application the function is reduced to normal form before anything
else happens (`Term.FunctionFirst`). Then the application is contracted, with its argument as it is,
if the function is a binder; otherwise the argument is reduced. So a redex is contracted only when
its body is normal. This is not normal order, which contracts an application of a binder at once.

The strategy leaves a term alone exactly if it is normal, and never has a choice
(`FunctionFirst.deterministic`), so that the number of steps to a normal form bounds the number of
steps that any part of the way can take (`NormalizesWithin`). -/

namespace LambdaCalc.Term

variable {ν : Type}

/-- One step of the strategy. -/
inductive FunctionFirst : Term ν → Term ν → Prop where
  | contract {body : Term ν} (argument : Term ν) (hbody : Normal body) :
      FunctionFirst (app (lam body) argument) (body.instantiate argument)
  | function {f f' : Term ν} (argument : Term ν) (h : FunctionFirst f f') :
      FunctionFirst (app f argument) (app f' argument)
  | argument {f a a' : Term ν} (hf : Normal f) (hlam : f.isLam = false) (h : FunctionFirst a a') :
      FunctionFirst (app f a) (app f a')
  | body {body body' : Term ν} (h : FunctionFirst body body') : FunctionFirst (lam body) (lam body')

namespace FunctionFirst

theorem beta {term term' : Term ν} (h : FunctionFirst term term') : Beta term term' := by
  induction h with
  | contract argument _ => exact .contract _ argument
  | function argument _ ih => exact .function argument ih
  | argument _ _ _ ih => exact .argument _ ih
  | body _ ih => exact .body ih

theorem not_normal {term term' : Term ν} (h : FunctionFirst term term') : ¬ Normal term :=
  fun hnormal => hnormal _ h.beta

/-- A term has at most one step. -/
theorem deterministic {term first second : Term ν} (h₁ : FunctionFirst term first)
    (h₂ : FunctionFirst term second) : first = second := by
  induction h₁ generalizing second with
  | contract argument hbody =>
    cases h₂ with
    | contract => rfl
    | function _ h => exact absurd (normal_lam_iff.mpr hbody) h.not_normal
    | argument _ hlam => cases hlam
  | function argument h ih =>
    cases h₂ with
    | contract _ hbody => exact absurd (normal_lam_iff.mpr hbody) h.not_normal
    | function _ h' => rw [ih h']
    | argument hf => exact absurd hf h.not_normal
  | argument hf hlam _ ih =>
    cases h₂ with
    | contract => cases hlam
    | function _ h' => exact absurd hf h'.not_normal
    | argument _ _ h' => rw [ih h']
  | body _ ih =>
    cases h₂ with
    | body h' => rw [ih h']

theorem apply {f f' : Term ν} (arguments : List (Term ν)) (h : FunctionFirst f f') :
    FunctionFirst (f.apply arguments) (f'.apply arguments) := by
  induction arguments generalizing f f' with
  | nil => exact h
  | cons argument arguments ih => exact ih (.function argument h)

end FunctionFirst

/-! ## Many steps -/

/-- Any number of steps of the strategy. -/
def ReducesFunctionFirst : Term ν → Term ν → Prop := Relation.ReflTransGen FunctionFirst

namespace ReducesFunctionFirst

theorem refl (term : Term ν) : ReducesFunctionFirst term term := Relation.ReflTransGen.refl

theorem trans {first second third : Term ν} (h : ReducesFunctionFirst first second)
    (h' : ReducesFunctionFirst second third) : ReducesFunctionFirst first third :=
  Relation.ReflTransGen.trans h h'

theorem reduces {term term' : Term ν} (h : ReducesFunctionFirst term term') : Reduces term term' :=
  Relation.ReflTransGen.mono (fun _ _ => FunctionFirst.beta) _ _ h

theorem lams (count : Nat) {body body' : Term ν} (h : ReducesFunctionFirst body body') :
    ReducesFunctionFirst (Term.lams count body) (Term.lams count body') := by
  induction count with
  | zero => exact h
  | succ count ih => exact Relation.ReflTransGen.lift lam (fun _ _ => .body) _ _ ih

theorem function {f f' : Term ν} (argument : Term ν) (h : ReducesFunctionFirst f f') :
    ReducesFunctionFirst (app f argument) (app f' argument) :=
  Relation.ReflTransGen.lift (app · argument) (fun _ _ => .function argument) _ _ h

theorem argument {f a a' : Term ν} (hf : Normal f) (hlam : f.isLam = false)
    (h : ReducesFunctionFirst a a') : ReducesFunctionFirst (app f a) (app f a') :=
  Relation.ReflTransGen.lift (app f) (fun _ _ => .argument hf hlam) _ _ h

theorem apply {f f' : Term ν} (arguments : List (Term ν)) (h : ReducesFunctionFirst f f') :
    ReducesFunctionFirst (f.apply arguments) (f'.apply arguments) :=
  Relation.ReflTransGen.lift (Term.apply · arguments) (fun _ _ => .apply arguments) _ _ h

/-- The arguments of a normal function that is no binder are reduced one after the other. -/
theorem apply_arguments {f : Term ν} {arguments results : List (Term ν)} (hf : Normal f)
    (hlam : arguments ≠ [] → f.isLam = false)
    (h : List.Forall₂ (fun a a' => ReducesFunctionFirst a a' ∧ Normal a') arguments results) :
    ReducesFunctionFirst (f.apply arguments) (f.apply results) := by
  induction h generalizing f with
  | nil => exact refl f
  | @cons a a' arguments results hfirst _ ih =>
    have hlam := hlam (List.cons_ne_nil _ _)
    exact (apply arguments (argument hf hlam hfirst.1)).trans
      (ih (normal_app_iff.mpr ⟨hf, hfirst.2, hlam⟩) fun _ => rfl)

end ReducesFunctionFirst

theorem normal_apply {f : Term ν} {arguments : List (Term ν)} (hf : Normal f)
    (hlam : arguments ≠ [] → f.isLam = false) (h : ∀ argument ∈ arguments, Normal argument) :
    Normal (f.apply arguments) := by
  induction arguments generalizing f with
  | nil => exact hf
  | cons argument arguments ih =>
    obtain ⟨hfirst, hrest⟩ := List.forall_mem_cons.mp h
    exact ih (normal_app_iff.mpr ⟨hf, hfirst, hlam (List.cons_ne_nil _ _)⟩) (fun _ => rfl) hrest

/-! ## How many steps are left -/

/-- The strategy reaches a normal form within so many steps. -/
inductive NormalizesWithin : Nat → Term ν → Prop where
  | normal {term : Term ν} (steps : Nat) (h : Normal term) : NormalizesWithin steps term
  | step {term term' : Term ν} {steps : Nat} (h : FunctionFirst term term')
      (h' : NormalizesWithin steps term') : NormalizesWithin (steps + 1) term

/-- The strategy reaches a normal form. -/
def NormalizesFunctionFirst (term : Term ν) : Prop :=
  ∃ normal, ReducesFunctionFirst term normal ∧ Normal normal

theorem normalizesFunctionFirst_iff {term : Term ν} :
    NormalizesFunctionFirst term ↔ ∃ steps, NormalizesWithin steps term := by
  constructor
  · rintro ⟨normal, hreduces, hnormal⟩
    induction hreduces using Relation.ReflTransGen.head_induction_on with
    | refl => exact ⟨0, .normal 0 hnormal⟩
    | head hstep _ ih =>
      obtain ⟨steps, hsteps⟩ := ih
      exact ⟨steps + 1, .step hstep hsteps⟩
  · rintro ⟨steps, hsteps⟩
    induction hsteps with
    | normal _ hnormal => exact ⟨_, .refl _, hnormal⟩
    | step hstep _ ih =>
      obtain ⟨normal, hreduces, hnormal⟩ := ih
      exact ⟨normal, Relation.ReflTransGen.head hstep hreduces, hnormal⟩

namespace NormalizesWithin

/-- After a step there is one step less to take. -/
theorem of_step {term term' : Term ν} {steps : Nat} (h : NormalizesWithin steps term)
    (hstep : FunctionFirst term term') :
    ∃ left, steps = left + 1 ∧ NormalizesWithin left term' := by
  cases h with
  | normal _ hnormal => exact absurd hnormal hstep.not_normal
  | step hstep' h' =>
    rw [hstep.deterministic hstep']
    exact ⟨_, rfl, h'⟩

theorem mono {term : Term ν} {steps steps' : Nat} (h : NormalizesWithin steps term)
    (hle : steps ≤ steps') : NormalizesWithin steps' term := by
  induction h generalizing steps' with
  | normal _ hnormal => exact .normal _ hnormal
  | step hstep _ ih =>
    obtain ⟨left, rfl⟩ : ∃ left, steps' = left + 1 := ⟨steps' - 1, by omega⟩
    exact .step hstep (ih (by omega))

theorem of_reduces {term term' : Term ν} {steps : Nat} (h : NormalizesWithin steps term)
    (hreduces : ReducesFunctionFirst term term') : NormalizesWithin steps term' := by
  induction hreduces with
  | refl => exact h
  | tail _ hstep ih =>
    obtain ⟨left, rfl, hleft⟩ := ih.of_step hstep
    exact hleft.mono (Nat.le_succ left)

theorem of_lam {inner : Term ν} {steps : Nat} (h : NormalizesWithin steps (lam inner)) :
    NormalizesWithin steps inner := by
  -- The steps are counted for a term of any shape, so that the induction needs it as a variable.
  generalize hterm : lam inner = term at h
  induction h generalizing inner with
  | normal _ hnormal =>
    subst hterm
    exact .normal _ (normal_lam_iff.mp hnormal)
  | step hstep _ ih =>
    subst hterm
    cases hstep with
    | body hinner => exact .step hinner (ih rfl)

theorem of_lams {count steps : Nat} {inner : Term ν}
    (h : NormalizesWithin steps (lams count inner)) : NormalizesWithin steps inner := by
  induction count with
  | zero => exact h
  | succ count ih => exact ih h.of_lam

/-- The function of an application is normalized first. -/
theorem of_function {f argument : Term ν} {steps : Nat}
    (h : NormalizesWithin steps (app f argument)) : NormalizesWithin steps f := by
  generalize hterm : app f argument = term at h
  induction h generalizing f with
  | normal _ hnormal =>
    subst hterm
    exact .normal _ (normal_app_iff.mp hnormal).1
  | step hstep _ ih =>
    subst hterm
    cases hstep with
    | contract _ hbody => exact .normal _ (normal_lam_iff.mpr hbody)
    | function _ hf => exact .step hf (ih rfl)
    | argument hf => exact .normal _ hf

theorem of_apply {f : Term ν} {arguments : List (Term ν)} {steps : Nat}
    (h : NormalizesWithin steps (f.apply arguments)) : NormalizesWithin steps f := by
  induction arguments generalizing f with
  | nil => exact h
  | cons argument arguments ih => exact (ih h).of_function

/-- The argument of a normal function that is no binder is normalized next. -/
theorem of_argument {f argument : Term ν} {steps : Nat} (hf : Normal f) (hlam : f.isLam = false)
    (h : NormalizesWithin steps (app f argument)) : NormalizesWithin steps argument := by
  generalize hterm : app f argument = term at h
  induction h generalizing argument with
  | normal _ hnormal =>
    subst hterm
    exact .normal _ (normal_app_iff.mp hnormal).2.1
  | step hstep _ ih =>
    subst hterm
    cases hstep with
    | contract _ _ => cases hlam
    | function _ hstep => exact absurd hf hstep.not_normal
    | argument _ _ hstep => exact .step hstep (ih rfl)

/-- The arguments of a normal function that is no binder are all normalized. -/
theorem of_arguments {f : Term ν} {arguments : List (Term ν)} {steps : Nat} (hf : Normal f)
    (hlam : arguments ≠ [] → f.isLam = false) (h : NormalizesWithin steps (f.apply arguments)) :
    ∀ argument ∈ arguments, NormalizesWithin steps argument := by
  induction arguments generalizing f with
  | nil => exact nofun
  | cons a arguments ih =>
    have hlam := hlam (List.cons_ne_nil _ _)
    have ha : NormalizesWithin steps a := of_argument hf hlam (of_apply h)
    obtain ⟨a', hreduces, ha'⟩ := normalizesFunctionFirst_iff.mpr ⟨steps, ha⟩
    -- The other arguments come next, once the first one is normal.
    have h' : NormalizesWithin steps ((app f a').apply arguments) :=
      h.of_reduces ((hreduces.argument hf hlam).apply arguments)
    exact List.forall_mem_cons.mpr
      ⟨ha, ih (normal_app_iff.mpr ⟨hf, ha', hlam⟩) (fun _ => rfl) h'⟩

/-- A term that steps to itself is never normalized. -/
theorem not_of_loop {term : Term ν} (hloop : FunctionFirst term term) (steps : Nat) :
    ¬ NormalizesWithin steps term := by
  induction steps with
  | zero =>
    intro h
    obtain ⟨left, hleft, _⟩ := h.of_step hloop
    cases hleft
  | succ steps ih =>
    intro h
    obtain ⟨left, hleft, h'⟩ := h.of_step hloop
    exact ih (Nat.succ.inj hleft ▸ h')

end NormalizesWithin

/-! ## A term without a normal form -/

/-- The term `(λw.w w) (λw.w w)`. -/
def omega : Term ν := .app (.lam (.app (.var 0) (.var 0))) (.lam (.app (.var 0) (.var 0)))

theorem functionFirst_omega : FunctionFirst (omega : Term ν) omega :=
  .contract _ (normal_app_iff.mpr ⟨normal_var 0, normal_var 0, rfl⟩)

end LambdaCalc.Term
