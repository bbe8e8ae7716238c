import LambdaCalc.Proofs.Term.Numeral

set_option autoImplicit false

/-! # Arithmetic on Church numerals

The λ-terms of truth values, of arithmetic and of comparisons, and what they reduce to when they are
applied to Church numerals. Everything rests on one fact: a numeral applied to a function iterates
it (`Numeral.reduces_iterate`). -/

namespace LambdaCalc

namespace Term

variable {ν μ : Type}

/-! ## Binders with several arguments -/

/-- The substitution of terms for as many parameters, the one of the innermost binder first. -/
def fill (values : List (Term ν)) (index : Nat) : Term ν :=
  (values[index]?).getD (var (index - values.length))

theorem Reduces.apply {function function' : Term ν} (h : Reduces function function')
    (arguments : List (Term ν)) :
    Reduces (function.apply arguments) (function'.apply arguments) := by
  induction arguments generalizing function function' with
  | nil => exact h
  | cons argument arguments ih => exact ih (h.function argument)

/-- An argument that is substituted in front of others comes behind them. -/
theorem subst_iterate_up_fill (argument : Term ν) (values : List (Term ν)) (index : Nat) :
    ((up^[values.length] (single argument)) index).subst (fill values)
      = fill (values ++ [argument]) index := by
  have hbeyond : (fill values) ∘ (· + values.length) = var := by
    funext index
    simp [fill]
  rw [iterate_up]
  unfold fill
  by_cases hlt : index < values.length
  · rw [if_pos hlt, List.getElem?_append_left hlt]
    simp [subst, hlt]
  · rw [if_neg hlt, List.getElem?_append_right (Nat.le_of_not_lt hlt), shift, subst_rename]
    show (single argument (index - values.length)).subst (fill values ∘ (· + values.length)) = _
    rw [hbeyond, subst_var]
    cases hindex : index - values.length with
    | zero => rfl
    | succ rest =>
      have hrest : index - (values ++ [argument]).length = rest := by
        rw [List.length_append, List.length_singleton]
        omega
      rw [hrest]
      rfl

/-- As many binders as arguments are contracted one after the other: by induction on the
    arguments. -/
theorem reduces_apply_lams (body : Term ν) (arguments : List (Term ν)) :
    Reduces ((lams arguments.length body).apply arguments)
      (body.subst (fill arguments.reverse)) := by
  induction arguments generalizing body with
  | nil =>
    have hfill : fill ([] : List (Term ν)) = var := rfl
    rw [List.reverse_nil, hfill, subst_var]
    exact .refl body
  | cons argument arguments ih =>
    refine ((Reduces.single (.contract _ argument)).apply arguments).trans ?_
    have hbody := ih (body.subst (up^[arguments.length] (single argument)))
    rw [instantiate, subst_lams]
    rw [subst_subst, ← List.length_reverse] at hbody
    simp only [subst_iterate_up_fill] at hbody
    rw [List.reverse_cons, ← List.length_reverse]
    exact hbody

/-- A step that is taken again and again. -/
theorem reduces_iterate {function : Term ν} (value : Nat → Term ν)
    (h : ∀ count, Reduces (app function (value count)) (value (count + 1))) (count : Nat) :
    Reduces ((app function)^[count] (value 0)) (value count) := by
  induction count with
  | zero => exact .refl _
  | succ count ih =>
    rw [Function.iterate_succ_apply']
    exact (ih.argument function).trans (h count)

/-! ## Operations -/

/-- `λx.λy.x` and `λx.λy.y`. -/
def truth : Bool → Term ν
  | true => lam (lam (var 1))
  | false => lam (lam (var 0))

/-- `λp.λq.p q p`. -/
def conjunction : Term ν := lams 2 (app (app (var 1) (var 0)) (var 1))

/-- `λn.λf.λx.f (n f x)`. -/
def successor : Term ν := lams 3 (app (var 1) (app (app (var 2) (var 1)) (var 0)))

/-- `λn.λf.λx.n (λg.λh.h (g f)) (λu.x) (λu.u)`. -/
def predecessor : Term ν :=
  lams 3 (app (app (app (var 2) (lams 2 (app (var 0) (app (var 1) (var 3))))) (lam (var 1)))
    (lam (var 0)))

/-- `λm.λn.m succ n`. -/
def addition : Term ν := lams 2 (app (app (var 1) successor) (var 0))

/-- `λm.λn.n pred m`. -/
def subtraction : Term ν := lams 2 (app (app (var 0) predecessor) (var 1))

/-- `λm.λn.m (add n) null`. -/
def multiplication : Term ν :=
  lams 2 (app (app (var 1) (app addition (var 0))) (Numeral.term 0))

/-- `λb.λe.e b`. -/
def exponentiation : Term ν := lams 2 (app (var 0) (var 1))

/-- `λn.n (λx.false) true`. -/
def isZero : Term ν := lams 1 (app (app (var 0) (lam (truth false))) (truth true))

/-- `λm.λn.is_null (sub n m)`. -/
def isAtLeast : Term ν := lams 2 (app isZero (app (app subtraction (var 0)) (var 1)))

/-- `λm.λn.is_null (sub m n)`. -/
def isAtMost : Term ν := lams 2 (app isZero (app (app subtraction (var 1)) (var 0)))

/-- `λm.λn.and (is_ge m n) (is_le m n)`. -/
def isEqual : Term ν :=
  lams 2 (app (app conjunction (app (app isAtLeast (var 1)) (var 0)))
    (app (app isAtMost (var 1)) (var 0)))

end Term

namespace Numeral

open Term

variable {ν : Type}

/-! ## Numerals -/

theorem subst_body (count : Nat) (σ : Nat → Term ν) :
    (body count).subst σ = (app (σ 1))^[count] (σ 0) := by
  induction count with
  | zero => rfl
  | succ count ih => rw [body_succ, Term.subst, ih, Function.iterate_succ_apply']; rfl

/-- A numeral has nothing to substitute in. -/
theorem subst_term (count : Nat) (σ : Nat → Term ν) :
    (term count : Term ν).subst σ = term count := by
  rw [term_eq_lam, Term.subst, Term.subst, subst_body]
  rfl

theorem shift_term (count level : Nat) : (term count : Term ν).shift level = term count := by
  rw [shift, rename_eq_subst, subst_term]

/-- A numeral applied to a function and a base applies the function so many times. -/
theorem reduces_apply (count : Nat) (function base : Term ν) :
    Reduces (app (app (term count) function) base) ((app function)^[count] base) := by
  have h := reduces_apply_lams (body count) [function, base]
  rw [subst_body] at h
  exact h

theorem normal_body (count : Nat) : Normal (body count : Term ν) := by
  induction count with
  | zero => exact normal_var 0
  | succ count ih =>
    rw [body_succ, normal_app_iff]
    exact ⟨normal_var 1, ih, rfl⟩

theorem normal_term (count : Nat) : Normal (term count : Term ν) :=
  normal_lam_iff.mpr (normal_lam_iff.mpr (normal_body count))

/-! ## Arithmetic -/

theorem reduces_successor (count : Nat) :
    Reduces (app successor (term count)) (term (count + 1) : Term ν) := by
  have hcontract : Reduces (app successor (term count))
      (lam (lam (app (var 1) (app (app (((term count).shift 1).shift 1) (var 1)) (var 0))))
        : Term ν) := reduces_apply_lams _ [term count]
  rw [shift_term, shift_term] at hcontract
  have hbody := (reduces_apply count (var 1 : Term ν) (var 0)).argument (var 1)
  rw [term_eq_lam (count + 1), body_succ]
  exact hcontract.trans hbody.lam.lam

/-- What the predecessor iterates: `λg.λh.h (g f)`. -/
def delay : Term ν := lams 2 (app (var 0) (app (var 1) (var 3)))

/-- Applying what is delayed passes it on: `delay value argument` is `argument (value f)`. -/
theorem reduces_delay (value argument : Term ν) :
    Reduces (app (app delay value) argument) (app argument (app value (var 1))) :=
  reduces_apply_lams (app (var 0) (app (var 1) (var 3))) [value, argument]

/-- After so many delays of the base, all of them but the last one have been passed on. -/
theorem reduces_delayed (count : Nat) :
    Reduces (app ((app delay)^[count] (lam (var 1))) (var 1)) (body count : Term ν) := by
  induction count with
  | zero => exact .single (.contract (var 1) (var 1))
  | succ count ih =>
    rw [Function.iterate_succ_apply', body_succ]
    exact (reduces_delay _ _).trans (ih.argument (var 1))

theorem reduces_predecessor (count : Nat) :
    Reduces (app predecessor (term count)) (term (count - 1) : Term ν) := by
  have hcontract : Reduces (app predecessor (term count))
      (lam (lam (app (app (app (((term count).shift 1).shift 1) delay) (lam (var 1)))
        (lam (var 0)))) : Term ν) := reduces_apply_lams _ [term count]
  rw [shift_term, shift_term] at hcontract
  have hiterate := (reduces_apply count (delay : Term ν) (lam (var 1))).function (lam (var 0))
  have hbody : Reduces (app ((app delay)^[count] (lam (var 1))) (lam (var 0)))
      (body (count - 1) : Term ν) := by
    cases count with
    | zero => exact .single (.contract (var 1) (lam (var 0)))
    | succ count =>
      rw [Function.iterate_succ_apply']
      -- The last delay is passed to the identity.
      refine (reduces_delay _ (lam (var 0))).trans ?_
      exact (Reduces.single (.contract (var 0) _)).trans (reduces_delayed count)
  exact hcontract.trans (hiterate.trans hbody).lam.lam

theorem reduces_addition (first second : Nat) :
    Reduces (app (app addition (term first)) (term second)) (term (first + second) : Term ν) := by
  have hcontract : Reduces (app (app addition (term first)) (term second))
      (app (app (term first) successor) (term second) : Term ν) :=
    reduces_apply_lams _ [term first, term second]
  have hiterate := reduces_iterate (fun count => (term (second + count) : Term ν))
    (fun count => reduces_successor (second + count)) first
  rw [Nat.add_comm first second]
  exact (hcontract.trans (reduces_apply first _ _)).trans hiterate

theorem reduces_subtraction (first second : Nat) :
    Reduces (app (app subtraction (term first)) (term second))
      (term (first - second) : Term ν) := by
  have hcontract : Reduces (app (app subtraction (term first)) (term second))
      (app (app (term second) predecessor) (term first) : Term ν) :=
    reduces_apply_lams _ [term first, term second]
  have hiterate := reduces_iterate (fun count => (term (first - count) : Term ν))
    (fun count => reduces_predecessor (first - count)) second
  exact (hcontract.trans (reduces_apply second _ _)).trans hiterate

theorem reduces_multiplication (first second : Nat) :
    Reduces (app (app multiplication (term first)) (term second))
      (term (first * second) : Term ν) := by
  have hcontract : Reduces (app (app multiplication (term first)) (term second))
      (app (app (term first) (app addition (term second))) (term 0) : Term ν) :=
    reduces_apply_lams _ [term first, term second]
  have hstep (count : Nat) : Reduces (app (app addition (term second)) (term (count * second)))
      (term ((count + 1) * second) : Term ν) := by
    rw [Nat.succ_mul, Nat.add_comm]
    exact reduces_addition second (count * second)
  have hiterate := reduces_iterate (fun count => (term (count * second) : Term ν))
    hstep first
  simp only [Nat.zero_mul] at hiterate
  exact (hcontract.trans (reduces_apply first _ _)).trans hiterate

/-! ## Powers

An exponent is applied to its base alone, so that it iterates the base on a function that is still
to come. What comes out is a numeral, the outer binder of which is that of this function. Only where
the base is not iterated at all, the function is returned as it is. -/

/-- A numeral applied to a function alone waits for the base. -/
theorem reduces_apply_function (count : Nat) (function : Term ν) :
    Reduces (app (term count) function) (lam ((app (function.shift 1))^[count] (var 0))) := by
  have h := Reduces.single (.contract (lam (body count)) function)
  rw [instantiate, Term.subst, subst_body] at h
  exact h

/-- What waits for a base is applied to one. -/
theorem reduces_waiting (count : Nat) (base : Term ν) :
    Reduces (app ((lam (body count)).shift 1) base) ((app (var 1))^[count] base) := by
  have hbody : ((body count).subst (up (var ∘ (· + 1)))).instantiate base
      = (app (var 1))^[count] base := by
    rw [instantiate, subst_subst, subst_body]
    rfl
  rw [shift, rename_eq_subst, ← hbody]
  exact .single (.contract _ base)

theorem body_add (first second : Nat) :
    (body (first + second) : Term ν) = (app (var 1))^[first] (body second) :=
  Function.iterate_add_apply _ first second _

/-- A numeral applied to what iterates a function iterates the function so many times as often. -/
theorem reduces_iterated (first second : Nat) :
    Reduces (app (term first) (lam (body second))) (lam (body (first * second)) : Term ν) := by
  have hstep (count : Nat) : Reduces (app ((lam (body second)).shift 1) (body (count * second)))
      (body ((count + 1) * second) : Term ν) := by
    rw [Nat.succ_mul, Nat.add_comm, body_add]
    exact reduces_waiting second (body (count * second))
  have hiterate := reduces_iterate (fun count => (body (count * second) : Term ν)) hstep first
  simp only [Nat.zero_mul] at hiterate
  exact (reduces_apply_function first _).trans hiterate.lam

/-- Iterating the base once or more often makes up the power: by induction on the exponent. -/
theorem reduces_power (base exponent : Nat) :
    Reduces ((app (term base))^[exponent + 1] (var 0))
      (lam (body (base ^ (exponent + 1))) : Term ν) := by
  induction exponent with
  | zero =>
    rw [Nat.pow_one]
    exact reduces_apply_function base (var 0)
  | succ exponent ih =>
    rw [Function.iterate_succ_apply', Nat.pow_succ']
    exact (ih.argument (term base)).trans (reduces_iterated base _)

theorem reduces_exponentiation (base exponent : Nat) :
    Reduces (app (app exponentiation (term base)) (term exponent))
      (if exponent = 0 then lam (var 0) else term (base ^ exponent) : Term ν) := by
  have hcontract : Reduces (app (app exponentiation (term base)) (term exponent))
      (app (term exponent) (term base) : Term ν) :=
    reduces_apply_lams _ [term base, term exponent]
  have hwaiting := reduces_apply_function exponent (term base : Term ν)
  rw [shift_term] at hwaiting
  refine (hcontract.trans hwaiting).trans ?_
  cases exponent with
  | zero => exact .refl _
  | succ exponent => exact (reduces_power base exponent).lam

/-! ## Comparisons -/

theorem normal_truth (answer : Bool) : Normal (truth answer : Term ν) := by
  cases answer with
  | true => exact normal_lam_iff.mpr (normal_lam_iff.mpr (normal_var 1))
  | false => exact normal_lam_iff.mpr (normal_lam_iff.mpr (normal_var 0))

/-- A truth value chooses between two terms. -/
theorem reduces_truth (answer : Bool) (first second : Term ν) :
    Reduces (app (app (truth answer) first) second) (if answer then first else second) := by
  cases answer with
  | true => exact reduces_apply_lams (var 1) [first, second]
  | false => exact reduces_apply_lams (var 0) [first, second]

theorem reduces_conjunction (first second : Bool) :
    Reduces (app (app conjunction (truth first)) (truth second))
      (truth (first && second) : Term ν) := by
  have hcontract : Reduces (app (app conjunction (truth first)) (truth second))
      (app (app (truth first) (truth second)) (truth first) : Term ν) :=
    reduces_apply_lams _ [truth first, truth second]
  have hchoice := hcontract.trans (reduces_truth first (truth second) (truth first))
  cases first with
  | true | false => exact hchoice

theorem reduces_isZero (count : Nat) :
    Reduces (app isZero (term count)) (truth (count = 0) : Term ν) := by
  have hcontract : Reduces (app isZero (term count))
      (app (app (term count) (lam (truth false))) (truth true) : Term ν) :=
    reduces_apply_lams _ [term count]
  have hiterate := reduces_iterate (fun count => (truth (count = 0) : Term ν))
    (fun count => .single (.contract (truth false) _)) count
  exact (hcontract.trans (reduces_apply count _ _)).trans hiterate

theorem reduces_isAtLeast (first second : Nat) :
    Reduces (app (app isAtLeast (term first)) (term second)) (truth (second ≤ first) : Term ν) := by
  have hcontract : Reduces (app (app isAtLeast (term first)) (term second))
      (app isZero (app (app subtraction (term second)) (term first)) : Term ν) :=
    reduces_apply_lams _ [term first, term second]
  have hdifference := (reduces_subtraction (ν := ν) second first).argument isZero
  have hzero := reduces_isZero (ν := ν) (second - first)
  simp only [Nat.sub_eq_zero_iff_le] at hzero
  exact (hcontract.trans hdifference).trans hzero

theorem reduces_isAtMost (first second : Nat) :
    Reduces (app (app isAtMost (term first)) (term second)) (truth (first ≤ second) : Term ν) := by
  have hcontract : Reduces (app (app isAtMost (term first)) (term second))
      (app isZero (app (app subtraction (term first)) (term second)) : Term ν) :=
    reduces_apply_lams _ [term first, term second]
  have hdifference := (reduces_subtraction (ν := ν) first second).argument isZero
  have hzero := reduces_isZero (ν := ν) (first - second)
  simp only [Nat.sub_eq_zero_iff_le] at hzero
  exact (hcontract.trans hdifference).trans hzero

theorem reduces_isEqual (first second : Nat) :
    Reduces (app (app isEqual (term first)) (term second)) (truth (first = second) : Term ν) := by
  have hcontract : Reduces (app (app isEqual (term first)) (term second))
      (app (app conjunction (app (app isAtLeast (term first)) (term second)))
        (app (app isAtMost (term first)) (term second)) : Term ν) :=
    reduces_apply_lams _ [term first, term second]
  have hanswers := ((reduces_isAtLeast (ν := ν) first second).argument conjunction).app
    (reduces_isAtMost first second)
  have hand := reduces_conjunction (ν := ν) (second ≤ first) (first ≤ second)
  rw [← Bool.decide_and, decide_eq_decide.mpr (show second ≤ first ∧ first ≤ second ↔ first = second
    by omega)] at hand
  exact (hcontract.trans hanswers).trans hand

end Numeral

end LambdaCalc
