import LambdaCalc.Proofs.Expression.Reading
import LambdaCalc.Proofs.Node.Names
import LambdaCalc.Proofs.Node.Soundness

set_option autoImplicit false

/-! # Reducing a built expression

An expression that has been built is well-scoped, so that reducing it takes its λ-term some β-steps
further and addresses no parameter wrongly (`Expression.reduces_of_reduce`). -/

namespace LambdaCalc.Expression

open Binding

/-- Reducing what has been built from any token stream takes the λ-term of the root to one that it
    reduces to; both are well-scoped, and the free names keep their spellings. -/
theorem reduces_of_reduce {room : Option Nat} {tokens : List Token} {limits : Limits}
    {expression reduced : Expression} (hbuilt : ofTokensWithin room tokens = .ok expression)
    (hreduce : expression.reduce limits = .ok reduced) :
    expression.root.WellScoped [] ∧ reduced.root.WellScoped []
      ∧ reduced.names.SameNames expression.names
      ∧ Term.Reduces (expression.root.term []) (reduced.root.term []) := by
  obtain ⟨hscoped, hnames, _⟩ := ofTokens_spec hbuilt
  obtain ⟨root, names, hrun, rfl⟩ := reduce_eq_ok_iff.mp hreduce
  obtain ⟨hscoped', hreduces⟩ := Node.reduceWithin_sound _ _ hrun hscoped
  have hsame := (Node.reduceWithin_ensures hnames hrun).2
  exact ⟨hscoped, hscoped', hsame, hreduces.reduces⟩

/-- In `λy.(λf.λx.f x) y` the argument refers to a parameter outside, and comes to stand one level
    further in. -/
theorem reduces_of_reduce_outward :
    ofTokensWithin none [.func "y", .opening, .func "f", .func "x", .var "f", .var "x", .closing,
        .var "y"]
      = .ok {
          root := .abs [⟨0, 0⟩] [.abs [⟨1, 0⟩, ⟨2, 0⟩] [.bound 0 0, .bound 0 1], .bound 0 0],
          names := { entries := [⟨"y", 1⟩, ⟨"f", 1⟩, ⟨"x", 1⟩] } }
    ∧ reduce { nesting := 8, copying := 8 } {
          root := .abs [⟨0, 0⟩] [.abs [⟨1, 0⟩, ⟨2, 0⟩] [.bound 0 0, .bound 0 1], .bound 0 0],
          names := { entries := [⟨"y", 1⟩, ⟨"f", 1⟩, ⟨"x", 1⟩] } }
      = .ok {
          root := .abs [⟨0, 0⟩] [.abs [⟨2, 0⟩] [.bound 1 0, .bound 0 0]],
          names := { entries := [⟨"y", 1⟩, ⟨"f", 1⟩, ⟨"x", 1⟩] } }
    ∧ Term.Reduces (.lam (.app (.lam (.lam (.app (.var 1) (.var 0)))) (.var 0)))
        (.lam (.lam (.app (.var 1) (.var 0))) : Term Nat) := by
  have hbuilt :
      ofTokensWithin none [.func "y", .opening, .func "f", .func "x", .var "f", .var "x", .closing,
        .var "y"]
      = .ok {
          root := .abs [⟨0, 0⟩] [.abs [⟨1, 0⟩, ⟨2, 0⟩] [.bound 0 0, .bound 0 1], .bound 0 0],
          names := { entries := [⟨"y", 1⟩, ⟨"f", 1⟩, ⟨"x", 1⟩] } } := by cbv
  have hreduce :
      reduce { nesting := 8, copying := 8 } {
          root := .abs [⟨0, 0⟩] [.abs [⟨1, 0⟩, ⟨2, 0⟩] [.bound 0 0, .bound 0 1], .bound 0 0],
          names := { entries := [⟨"y", 1⟩, ⟨"f", 1⟩, ⟨"x", 1⟩] } }
      = .ok {
          root := .abs [⟨0, 0⟩] [.abs [⟨2, 0⟩] [.bound 1 0, .bound 0 0]],
          names := { entries := [⟨"y", 1⟩, ⟨"f", 1⟩, ⟨"x", 1⟩] } } := rfl
  exact ⟨hbuilt, hreduce, (reduces_of_reduce hbuilt hreduce).2.2.2⟩

end LambdaCalc.Expression
