import Mathlib

set_option autoImplicit false

/-! # λ-terms

Terms with nameless binders, free names from a type `ν`, and one constant. Binders are counted from
the inside out (`Term.var`); a free name is never captured, because it is not an index.

Substitution replaces all indices at once, so that one rule composes it with itself and with
renaming (`Term.subst_subst`); contracting `(λ. body) argument` is the special case
`Term.instantiate`. -/

namespace LambdaCalc

/-- A λ-term with free names from `ν`. -/
inductive Term (ν : Type) where
  /-- The parameter of the binder that many binders further out. -/
  | var (index : Nat)
  /-- A free name. -/
  | free (name : ν)
  /-- The constant that stands for an empty spine. -/
  | void
  | app (function argument : Term ν)
  | lam (body : Term ν)
deriving DecidableEq, Repr

namespace Term

variable {ν μ : Type}

/-! ## Renaming -/

/-- A renaming as seen from inside one more binder. -/
def keep (ρ : Nat → Nat) : Nat → Nat
  | 0 => 0
  | index + 1 => ρ index + 1

/-- Rename the indices that leave a term. -/
def rename (ρ : Nat → Nat) : Term ν → Term ν
  | var index => var (ρ index)
  | free name => free name
  | void => void
  | app function argument => app (function.rename ρ) (argument.rename ρ)
  | lam body => lam (body.rename (keep ρ))

/-- A term as seen from inside `count` more binders. -/
def shift (count : Nat) (term : Term ν) : Term ν := term.rename (· + count)

theorem keep_comp (ρ σ : Nat → Nat) : keep σ ∘ keep ρ = keep (σ ∘ ρ) := by
  funext index
  cases index <;> rfl

theorem keep_id : keep id = id := by
  funext index
  cases index <;> rfl

theorem rename_id (term : Term ν) : term.rename id = term := by
  induction term with
  | var _ | free _ | void => rfl
  | app function argument ihf iha => simp only [rename, ihf, iha]
  | lam body ih => simp only [rename, keep_id, ih]

theorem rename_rename (term : Term ν) (ρ σ : Nat → Nat) :
    (term.rename ρ).rename σ = term.rename (σ ∘ ρ) := by
  induction term generalizing ρ σ with
  | var _ | free _ | void => rfl
  | app function argument ihf iha => simp only [rename, ihf, iha]
  | lam body ih => simp only [rename, ih, keep_comp]

@[simp] theorem shift_zero (term : Term ν) : term.shift 0 = term := rename_id term

theorem shift_shift (term : Term ν) (inner outer : Nat) :
    (term.shift inner).shift outer = term.shift (inner + outer) := by
  rw [shift, shift, rename_rename, shift]
  congr 1
  funext index
  exact Nat.add_assoc index inner outer

/-! ## Substitution -/

/-- A substitution as seen from inside one more binder. -/
def up (σ : Nat → Term ν) : Nat → Term ν
  | 0 => var 0
  | index + 1 => (σ index).shift 1

/-- Replace the indices that leave a term. -/
def subst (σ : Nat → Term ν) : Term ν → Term ν
  | var index => σ index
  | free name => free name
  | void => void
  | app function argument => app (function.subst σ) (argument.subst σ)
  | lam body => lam (body.subst (up σ))

/-- The substitution of an argument for the innermost parameter. -/
def single (argument : Term ν) : Nat → Term ν
  | 0 => argument
  | index + 1 => var index

/-- The body of a binder with an argument in the place of its parameter. -/
def instantiate (body argument : Term ν) : Term ν := body.subst (single argument)

theorem up_var : up (var : Nat → Term ν) = var := by
  funext index
  cases index <;> rfl

theorem subst_var (term : Term ν) : term.subst var = term := by
  induction term with
  | var _ | free _ | void => rfl
  | app function argument ihf iha => simp only [subst, ihf, iha]
  | lam body ih => simp only [subst, up_var, ih]

theorem up_comp_keep (σ : Nat → Term ν) (ρ : Nat → Nat) : up σ ∘ keep ρ = up (σ ∘ ρ) := by
  funext index
  cases index <;> rfl

theorem subst_rename (term : Term ν) (ρ : Nat → Nat) (σ : Nat → Term ν) :
    (term.rename ρ).subst σ = term.subst (σ ∘ ρ) := by
  induction term generalizing ρ σ with
  | var _ | free _ | void => rfl
  | app function argument ihf iha => simp only [rename, subst, ihf, iha]
  | lam body ih => simp only [rename, subst, ih, up_comp_keep]

theorem rename_up (σ : Nat → Term ν) (ρ : Nat → Nat) :
    (fun index => (up σ index).rename (keep ρ)) = up fun index => (σ index).rename ρ := by
  funext index
  cases index with
  | zero => rfl
  | succ index =>
    show ((σ index).shift 1).rename (keep ρ) = ((σ index).rename ρ).shift 1
    rw [shift, shift, rename_rename, rename_rename]
    rfl

theorem rename_subst (term : Term ν) (σ : Nat → Term ν) (ρ : Nat → Nat) :
    (term.subst σ).rename ρ = term.subst fun index => (σ index).rename ρ := by
  induction term generalizing σ ρ with
  | var _ | free _ | void => rfl
  | app function argument ihf iha => simp only [rename, subst, ihf, iha]
  | lam body ih => simp only [rename, subst, ih, rename_up]

theorem shift_one_subst_up (term : Term ν) (σ : Nat → Term ν) :
    (term.shift 1).subst (up σ) = (term.subst σ).shift 1 := by
  rw [shift, shift, subst_rename, rename_subst]
  rfl

theorem subst_up (σ τ : Nat → Term ν) :
    (fun index => (up σ index).subst (up τ)) = up fun index => (σ index).subst τ := by
  funext index
  cases index with
  | zero => rfl
  | succ index => exact shift_one_subst_up (σ index) τ

/-- Two substitutions in a row are one. -/
theorem subst_subst (term : Term ν) (σ τ : Nat → Term ν) :
    (term.subst σ).subst τ = term.subst fun index => (σ index).subst τ := by
  induction term generalizing σ τ with
  | var _ | free _ | void => rfl
  | app function argument ihf iha => simp only [subst, ihf, iha]
  | lam body ih => simp only [subst, ih, subst_up]

/-- A renaming is a substitution by indices. What holds of substitutions carries over by it. -/
theorem rename_eq_subst (term : Term ν) (ρ : Nat → Nat) :
    term.rename ρ = term.subst (var ∘ ρ) := by
  rw [← subst_rename, subst_var]

theorem up_var_comp (ρ : Nat → Nat) : up (var ∘ ρ : Nat → Term ν) = var ∘ keep ρ := by
  rw [← up_comp_keep, up_var]

theorem shift_one_instantiate (term argument : Term ν) :
    (term.shift 1).instantiate argument = term := by
  rw [instantiate, shift, subst_rename]
  exact subst_var term

/-- Substituting in an instantiated body is instantiating with the substituted argument. -/
theorem instantiate_subst (body argument : Term ν) (σ : Nat → Term ν) :
    (body.instantiate argument).subst σ = (body.subst (up σ)).instantiate (argument.subst σ) := by
  rw [instantiate, instantiate, subst_subst, subst_subst]
  congr 1
  funext index
  cases index with
  | zero => rfl
  | succ index => exact (shift_one_instantiate (σ index) _).symm

/-- Renaming an instantiated body is instantiating with the renamed argument. -/
theorem instantiate_rename (body argument : Term ν) (ρ : Nat → Nat) :
    (body.instantiate argument).rename ρ
      = (body.rename (keep ρ)).instantiate (argument.rename ρ) := by
  simp only [rename_eq_subst, instantiate_subst, up_var_comp]

/-! ## Several binders and several arguments -/

/-- A term under so many binders. -/
def lams : (count : Nat) → Term ν → Term ν
  | 0, term => term
  | count + 1, term => lam (lams count term)

/-- A function applied to arguments from left to right. -/
def apply (function : Term ν) (arguments : List (Term ν)) : Term ν := arguments.foldl app function

/-- What a spine of terms means: its head applied to the others. -/
def ofSpine : List (Term ν) → Term ν
  | [] => void
  | head :: arguments => head.apply arguments

theorem lams_succ (count : Nat) (body : Term ν) :
    lams (count + 1) body = lams count (lam body) := by
  induction count with
  | zero => rfl
  | succ count ih => exact congrArg lam ih

@[simp] theorem apply_nil (function : Term ν) : function.apply [] = function := rfl

@[simp] theorem apply_cons (function argument : Term ν) (arguments : List (Term ν)) :
    function.apply (argument :: arguments) = (app function argument).apply arguments := rfl

theorem apply_append (function : Term ν) (first second : List (Term ν)) :
    function.apply (first ++ second) = (function.apply first).apply second :=
  List.foldl_append

theorem subst_lams (count : Nat) (body : Term ν) (σ : Nat → Term ν) :
    (lams count body).subst σ = lams count (body.subst (up^[count] σ)) := by
  induction count generalizing σ with
  | zero => rfl
  | succ count ih => simp only [lams, subst, ih, Function.iterate_succ_apply]

theorem rename_lams (count : Nat) (body : Term ν) (ρ : Nat → Nat) :
    (lams count body).rename ρ = lams count (body.rename (keep^[count] ρ)) := by
  induction count generalizing ρ with
  | zero => rfl
  | succ count ih => simp only [lams, rename, ih, Function.iterate_succ_apply]

theorem subst_apply (function : Term ν) (arguments : List (Term ν)) (σ : Nat → Term ν) :
    (function.apply arguments).subst σ
      = (function.subst σ).apply (arguments.map fun argument => argument.subst σ) := by
  induction arguments generalizing function with
  | nil => rfl
  | cons argument arguments ih => exact ih _

theorem subst_ofSpine (spine : List (Term ν)) (σ : Nat → Term ν) :
    (ofSpine spine).subst σ = ofSpine (spine.map fun term => term.subst σ) := by
  cases spine with
  | nil => rfl
  | cons head arguments => exact subst_apply head arguments σ

theorem rename_ofSpine (spine : List (Term ν)) (ρ : Nat → Nat) :
    (ofSpine spine).rename ρ = ofSpine (spine.map fun term => term.rename ρ) := by
  simp only [rename_eq_subst, subst_ofSpine]

/-- A substitution from inside several more binders: it keeps their parameters. -/
theorem iterate_up (σ : Nat → Term ν) (count index : Nat) :
    (up^[count] σ) index
      = if index < count then var index else (σ (index - count)).shift count := by
  induction count generalizing index with
  | zero => simp
  | succ count ih =>
    rw [Function.iterate_succ_apply']
    cases index with
    | zero => rfl
    | succ index =>
      show ((up^[count] σ) index).shift 1 = _
      rw [ih]
      by_cases h : index < count
      · rw [if_pos h, if_pos (Nat.succ_lt_succ h)]
        rfl
      · rw [if_neg h, if_neg (by omega), shift_shift, Nat.add_sub_add_right]

/-- A renaming from inside several more binders: it keeps their parameters. -/
theorem iterate_keep (ρ : Nat → Nat) (count index : Nat) :
    (keep^[count] ρ) index = if index < count then index else ρ (index - count) + count := by
  induction count generalizing index with
  | zero => simp
  | succ count ih =>
    rw [Function.iterate_succ_apply']
    cases index with
    | zero => rfl
    | succ index =>
      show (keep^[count] ρ) index + 1 = _
      rw [ih]
      by_cases h : index < count
      · rw [if_pos h, if_pos (Nat.succ_lt_succ h)]
      · rw [if_neg h, if_neg (by omega), Nat.add_sub_add_right, Nat.add_assoc]

/-! ## Free names -/

/-- The same term with its free names changed. -/
def map (f : ν → μ) : Term ν → Term μ
  | var index => var index
  | free name => free (f name)
  | void => void
  | app function argument => app (function.map f) (argument.map f)
  | lam body => lam (body.map f)

end Term

end LambdaCalc
