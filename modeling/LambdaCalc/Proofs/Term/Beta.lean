import LambdaCalc.Proofs.Term.Basic

set_option autoImplicit false

/-! # β-reduction

One β-step contracts one application of a binder, anywhere in a term. `Term.Reduces` is any number
of steps, and a term is normal if no step leaves it (`Term.Normal`); `normal_app_iff` and its
companions say the same by the shape of the term. -/

namespace LambdaCalc.Term

variable {ν : Type}

/-- One β-step. -/
inductive Beta : Term ν → Term ν → Prop where
  | contract (body argument : Term ν) : Beta (app (lam body) argument) (body.instantiate argument)
  | function {function function' : Term ν} (argument : Term ν) (h : Beta function function') :
      Beta (app function argument) (app function' argument)
  | argument (function : Term ν) {argument argument' : Term ν} (h : Beta argument argument') :
      Beta (app function argument) (app function argument')
  | body {body body' : Term ν} (h : Beta body body') : Beta (lam body) (lam body')

/-- Zero or more β-steps. -/
def Reduces : Term ν → Term ν → Prop := Relation.ReflTransGen Beta

/-- No β-step leaves the term. -/
def Normal (term : Term ν) : Prop := ∀ term', ¬ Beta term term'

/-- A term is a β-normal form of another one. -/
def NormalFormOf (normal term : Term ν) : Prop := Reduces term normal ∧ Normal normal

/-- Whether a term is a binder. -/
def isLam : Term ν → Bool
  | lam _ => true
  | _ => false

/-! ## Steps in a larger term -/

namespace Reduces

theorem refl (term : Term ν) : Reduces term term := Relation.ReflTransGen.refl

theorem single {term term' : Term ν} (h : Beta term term') : Reduces term term' :=
  Relation.ReflTransGen.single h

theorem trans {first second third : Term ν} (h : Reduces first second) (h' : Reduces second third) :
    Reduces first third := Relation.ReflTransGen.trans h h'

theorem lam {body body' : Term ν} (h : Reduces body body') :
    Reduces (Term.lam body) (Term.lam body') :=
  Relation.ReflTransGen.lift Term.lam (fun _ _ => Beta.body) _ _ h

theorem function {f f' : Term ν} (argument : Term ν) (h : Reduces f f') :
    Reduces (app f argument) (app f' argument) :=
  Relation.ReflTransGen.lift (app · argument) (fun _ _ => Beta.function argument) _ _ h

theorem argument (function : Term ν) {a a' : Term ν} (h : Reduces a a') :
    Reduces (app function a) (app function a') :=
  Relation.ReflTransGen.lift (app function) (fun _ _ => Beta.argument function) _ _ h

theorem app {f f' a a' : Term ν} (hf : Reduces f f') (ha : Reduces a a') :
    Reduces (Term.app f a) (Term.app f' a') :=
  (function a hf).trans (argument f' ha)

end Reduces

/-! ## Normal terms by their shape -/

theorem normal_var (index : Nat) : Normal (var index : Term ν) := nofun

theorem normal_free (name : ν) : Normal (free name) := nofun

theorem normal_void : Normal (void : Term ν) := nofun

theorem normal_lam_iff {body : Term ν} : Normal (lam body) ↔ Normal body := by
  constructor
  · intro h body' hstep
    exact h _ (.body hstep)
  · intro h term' hstep
    cases hstep with
    | body hbody => exact h _ hbody

theorem normal_app_iff {function argument : Term ν} :
    Normal (app function argument)
      ↔ Normal function ∧ Normal argument ∧ function.isLam = false := by
  constructor
  · intro h
    refine ⟨fun _ hstep => h _ (.function _ hstep), fun _ hstep => h _ (.argument _ hstep), ?_⟩
    cases function with
    | lam body => exact absurd (Beta.contract body argument) (h _)
    | var _ | free _ | void | app _ _ => rfl
  · rintro ⟨hf, ha, hlam⟩ term' hstep
    cases hstep with
    | contract body => exact absurd hlam (by simp [isLam])
    | function _ hstep => exact hf _ hstep
    | argument _ hstep => exact ha _ hstep

theorem normal_lams_iff {count : Nat} {body : Term ν} : Normal (lams count body) ↔ Normal body := by
  induction count with
  | zero => rfl
  | succ count ih => exact normal_lam_iff.trans ih

/-- Whether a term is normal can be decided by its shape. -/
def decideNormal : (term : Term ν) → Decidable (Normal term)
  | var index => isTrue (normal_var index)
  | free name => isTrue (normal_free name)
  | void => isTrue normal_void
  | lam body =>
      have := decideNormal body
      decidable_of_iff _ normal_lam_iff.symm
  | app function argument =>
      have := decideNormal function
      have := decideNormal argument
      decidable_of_iff _ normal_app_iff.symm

instance (term : Term ν) : Decidable (Normal term) := decideNormal term

/-- A normal term reduces to nothing but itself. -/
theorem Normal.eq_of_reduces {term term' : Term ν} (hnormal : Normal term)
    (h : Reduces term term') : term' = term := by
  cases Relation.ReflTransGen.cases_head h with
  | inl heq => exact heq.symm
  | inr hstep =>
    obtain ⟨_, hfirst, _⟩ := hstep
    exact absurd hfirst (hnormal _)

end LambdaCalc.Term
