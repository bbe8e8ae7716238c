import LambdaCalc.Expression.Basic
import LambdaCalc.Proofs.Node.Limits

set_option autoImplicit false

/-! # What limits do to a reduction

Limits only cut reductions off. Whatever the tree, a reduction within some limits does what it does
within larger ones, or else it goes beyond one of the smaller limits and is a fault
(`Expression.reduce_eq_or_cut`). So what it returns, the copy ids and the counters included, does
not depend on the limits (`Expression.reduce_agrees_of_le`). -/

namespace LambdaCalc.Expression

/-- A reduction within some limits agrees with one within larger limits, or outgrows its own. -/
theorem reduce_eq_or_cut {limits limits' : Limits} (hnesting : limits.nesting ≤ limits'.nesting)
    (hcopying : limits.copying ≤ limits'.copying) (expression : Expression) :
    expression.reduce limits = expression.reduce limits'
      ∨ expression.reduce limits = .error (.ofKind .expressionSizeLimit) := by
  unfold reduce Node.reduce StateT.run
  rcases Node.reduceWithin_cut hcopying hnesting expression.root expression.names with
    heq | ⟨stop, hstop, rfl | rfl⟩
  · exact Or.inl (by rw [heq])
  · exact Or.inr (by rw [hstop])
  · exact Or.inr (by rw [hstop]; rfl)

/-- What a reduction returns, it also returns within larger limits, with the same copy ids and
    counters. If it outgrows some limits, it outgrows all smaller ones. And what else stops it
    within some limits stops it within larger ones. -/
theorem reduce_agrees_of_le {limits limits' : Limits} (hnesting : limits.nesting ≤ limits'.nesting)
    (hcopying : limits.copying ≤ limits'.copying) (expression : Expression) :
    (∀ reduced, expression.reduce limits = .ok reduced → expression.reduce limits' = .ok reduced)
      ∧ (expression.reduce limits' = .error (.ofKind .expressionSizeLimit) →
          expression.reduce limits = .error (.ofKind .expressionSizeLimit))
      ∧ ∀ stop, stop ≠ .ofKind .expressionSizeLimit → expression.reduce limits = .error stop →
          expression.reduce limits' = .error stop := by
  rcases reduce_eq_or_cut hnesting hcopying expression with heq | hcut
  · rw [heq]
    exact ⟨fun _ => id, id, fun _ _ => id⟩
  · rw [hcut]
    exact ⟨nofun, fun _ => rfl, fun _ hne hstop => absurd (Except.error.inj hstop).symm hne⟩

/-- In `(λx.x x) (λy.y)` three copies are made, for which ten calls in one another and a copying
    budget of one are enough; within the usual limits the copy that is left has the same id. And
    `(λw.w w) (λw.w w)`, which outgrows a limit of twelve calls, outgrows smaller ones. -/
theorem reduce_agrees_of_le_copies :
    reduce { nesting := 10, copying := 1 } {
        root := .abs [] [.abs [⟨0, 0⟩] [.bound 0 0, .bound 0 0], .abs [⟨1, 0⟩] [.bound 0 0]],
        names := { entries := [⟨"x", 1⟩, ⟨"y", 1⟩] } }
      = .ok {
        root := .abs [⟨1, 3⟩] [.bound 0 0], names := { entries := [⟨"x", 1⟩, ⟨"y", 4⟩] } }
    ∧ reduce {} {
        root := .abs [] [.abs [⟨0, 0⟩] [.bound 0 0, .bound 0 0], .abs [⟨1, 0⟩] [.bound 0 0]],
        names := { entries := [⟨"x", 1⟩, ⟨"y", 1⟩] } }
      = .ok {
        root := .abs [⟨1, 3⟩] [.bound 0 0], names := { entries := [⟨"x", 1⟩, ⟨"y", 4⟩] } }
    ∧ reduce { nesting := 12, copying := 6 } {
        root := .abs [] [.abs [⟨0, 0⟩] [.bound 0 0, .bound 0 0],
          .abs [⟨0, 1⟩] [.bound 0 0, .bound 0 0]],
        names := { entries := [⟨"w", 2⟩] } }
      = .error (.ofKind .expressionSizeLimit)
    ∧ reduce { nesting := 6, copying := 6 } {
        root := .abs [] [.abs [⟨0, 0⟩] [.bound 0 0, .bound 0 0],
          .abs [⟨0, 1⟩] [.bound 0 0, .bound 0 0]],
        names := { entries := [⟨"w", 2⟩] } }
      = .error (.ofKind .expressionSizeLimit) := by
  have hreturns :
      reduce { nesting := 10, copying := 1 } {
        root := .abs [] [.abs [⟨0, 0⟩] [.bound 0 0, .bound 0 0], .abs [⟨1, 0⟩] [.bound 0 0]],
        names := { entries := [⟨"x", 1⟩, ⟨"y", 1⟩] } }
      = .ok {
        root := .abs [⟨1, 3⟩] [.bound 0 0],
        names := { entries := [⟨"x", 1⟩, ⟨"y", 4⟩] } } := rfl
  have houtgrows :
      reduce { nesting := 12, copying := 6 } {
        root := .abs [] [.abs [⟨0, 0⟩] [.bound 0 0, .bound 0 0],
          .abs [⟨0, 1⟩] [.bound 0 0, .bound 0 0]],
        names := { entries := [⟨"w", 2⟩] } }
      = .error (.ofKind .expressionSizeLimit) := by cbv
  refine ⟨hreturns, ?_, houtgrows, ?_⟩
  · exact (reduce_agrees_of_le (by decide) (by decide) _).1 _ hreturns
  · exact (reduce_agrees_of_le (by decide) (by decide) _).2.1 houtgrows

end LambdaCalc.Expression
