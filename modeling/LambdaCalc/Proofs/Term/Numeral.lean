import LambdaCalc.Proofs.Keyword.Numeral
import LambdaCalc.Proofs.Term.Beta

set_option autoImplicit false

/-! # Church numerals as λ-terms

A Church numeral binds a function and a base around their applications (`Numeral.body`). Which
λ-terms these are is told from the shape of a term (`var_eq_body_iff`, `app_eq_body_iff`). -/

namespace LambdaCalc

/-- What takes an argument in the end is no binder. -/
theorem Term.apply_ne_lam {ν : Type} (function argument : Term ν) (others : List (Term ν))
    (body : Term ν) : function.apply (argument :: others) ≠ .lam body := by
  induction others generalizing function argument with
  | nil => exact nofun
  | cons other others ih => exact ih _ _

namespace Numeral

variable {ν : Type}

/-- The function applied to the base so many times, as seen from inside the two binders. -/
def body (count : Nat) : Term ν := (Term.app (.var 1))^[count] (.var 0)

theorem term_eq_lam (count : Nat) : (term count : Term ν) = .lam (.lam (body count)) := rfl

theorem body_succ (count : Nat) : (body (count + 1) : Term ν) = .app (.var 1) (body count) :=
  Function.iterate_succ_apply' _ _ _

/-! ## The shape of a numeral -/

theorem var_eq_body_iff {index count : Nat} :
    (.var index : Term ν) = body count ↔ index = 0 ∧ count = 0 := by
  cases count with
  | zero => exact ⟨fun h => ⟨Term.var.inj h, rfl⟩, fun h => congrArg Term.var h.1⟩
  | succ count =>
    rw [body_succ]
    exact ⟨nofun, fun h => absurd h.2 (Nat.succ_ne_zero count)⟩

theorem app_eq_body_iff {function argument : Term ν} {count : Nat} :
    .app function argument = body count
      ↔ function = .var 1 ∧ ∃ rest, count = rest + 1 ∧ argument = body rest := by
  cases count with
  | zero => exact ⟨nofun, fun ⟨_, _, h, _⟩ => absurd h.symm (Nat.succ_ne_zero _)⟩
  | succ count =>
    rw [body_succ, Term.app.injEq]
    constructor
    · rintro ⟨hfunction, hargument⟩
      exact ⟨hfunction, count, rfl, hargument⟩
    · rintro ⟨hfunction, rest, hcount, hargument⟩
      obtain rfl := Nat.succ.inj hcount
      exact ⟨hfunction, hargument⟩

theorem isLam_body (count : Nat) : (body count : Term ν).isLam = false := by
  cases count with
  | zero => rfl
  | succ count =>
    rw [body_succ]
    rfl

theorem free_ne_body (name : ν) (count : Nat) : .free name ≠ body count := by
  cases count with
  | zero => exact nofun
  | succ count =>
    rw [body_succ]
    exact nofun

theorem void_ne_body (count : Nat) : (.void : Term ν) ≠ body count := by
  cases count with
  | zero => exact nofun
  | succ count =>
    rw [body_succ]
    exact nofun

/-- In the applications of a numeral the function is no application itself. -/
theorem apply_ne_body (function first second : Term ν) (others : List (Term ν)) (count : Nat) :
    function.apply (first :: second :: others) ≠ body count := by
  induction others generalizing function first second with
  | nil =>
    intro h
    cases (app_eq_body_iff.mp h).1
  | cons third others ih => exact ih _ _ _

end Numeral

end LambdaCalc
