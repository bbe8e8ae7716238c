import LambdaCalc.Proofs.Expression.Soundness
import LambdaCalc.Proofs.Node.Completeness
import LambdaCalc.Proofs.Term.Confluence

set_option autoImplicit false

/-! # Which expressions have a result

Large enough limits give an expression its normal form exactly if the function-first strategy
reaches one (`Expression.normalizes_iff_functionFirst`). Normal order, which reaches every normal
form there is, contracts `(λx.body) argument` at once; the head of a spine, however, is reduced in
full before it takes its argument. So a body is evaluated even if the argument would discard it, and
where that does not end there is no result (`Expression.diverges_before_discarding`). -/

namespace LambdaCalc.Expression

open Binding
open Term (NormalFormOf NormalizesFunctionFirst)

/-- Within all limits that are large enough, reducing an expression returns the one normal form of
    its λ-term. -/
def Normalizes (expression : Expression) : Prop :=
  ∃ least : Limits, ∀ limits : Limits,
    least.nesting ≤ limits.nesting → least.copying ≤ limits.copying →
    ∃ reduced, expression.reduce limits = .ok reduced
      ∧ NormalFormOf (reduced.root.term []) (expression.root.term [])
      ∧ ∀ normal, NormalFormOf normal (expression.root.term []) → normal = reduced.root.term []

/-- Whatever reducing returns is where the strategy ends. -/
theorem functionFirst_of_reduce {limits : Limits} {expression reduced : Expression}
    (hscoped : expression.root.WellScoped []) (h : expression.reduce limits = .ok reduced) :
    Term.ReducesFunctionFirst (expression.root.term []) (reduced.root.term [])
      ∧ (reduced.root.term []).Normal := by
  obtain ⟨root, names, hrun, rfl⟩ := reduce_eq_ok_iff.mp h
  have hcanonical := (Node.reduceWithin_settles _ _).canonical hrun
  exact ⟨(Node.reduceWithin_sound _ _ hrun hscoped).2, hcanonical.normal []⟩

/-- An expression whose λ-term the strategy normalizes has a result. -/
theorem normalizes_of_functionFirst {room : Option Nat} {tokens : List Token}
    {expression : Expression} (hbuilt : ofTokensWithin room tokens = .ok expression)
    (h : NormalizesFunctionFirst (expression.root.term [])) : expression.Normalizes := by
  obtain ⟨hscoped, hnames, _⟩ := ofTokens_spec hbuilt
  obtain ⟨⟨copying, nesting⟩, ⟨root, names⟩, hrun⟩ :=
    Node.returns_of_normalizes hscoped hnames h expression.names rfl
  refine ⟨{ nesting, copying }, ?_⟩
  intro limits hnesting hcopying
  have hreduce : expression.reduce limits = .ok { root, names } := reduce_eq_ok_iff.mpr
    ⟨root, names, Node.reduceWithin_mono hcopying hnesting expression.root hrun, rfl⟩
  obtain ⟨hreduces, hnormal⟩ := functionFirst_of_reduce hscoped hreduce
  refine ⟨_, hreduce, ⟨hreduces.reduces, hnormal⟩, ?_⟩
  intro normal hform
  exact hform.1.normal_unique hform.2 hreduces.reduces hnormal

/-- What has been built has a result exactly if the function-first strategy normalizes its λ-term,
    and otherwise no limits give it one. -/
theorem normalizes_iff_functionFirst {room : Option Nat} {tokens : List Token}
    {expression : Expression} (hbuilt : ofTokensWithin room tokens = .ok expression) :
    (expression.Normalizes ↔ NormalizesFunctionFirst (expression.root.term []))
      ∧ (¬ NormalizesFunctionFirst (expression.root.term []) →
          ∀ limits reduced, expression.reduce limits ≠ .ok reduced) := by
  have hreturned : ∀ limits reduced, expression.reduce limits = .ok reduced →
      NormalizesFunctionFirst (expression.root.term []) := fun _ _ hreduce =>
    ⟨_, functionFirst_of_reduce (ofTokens_spec hbuilt).1 hreduce⟩
  refine ⟨⟨?_, normalizes_of_functionFirst hbuilt⟩, fun hnot limits reduced hreduce =>
    hnot (hreturned limits reduced hreduce)⟩
  rintro ⟨least, hleast⟩
  obtain ⟨reduced, hreduce, _⟩ := hleast least (Nat.le_refl _) (Nat.le_refl _)
  exact hreturned least reduced hreduce

/-- In `(λx.λy.x) a ((λw.w w) (λw.w w))` an argument without a normal form is discarded
    unevaluated. -/
theorem normalizes_iff_functionFirst_discarding :
    ofTokensWithin none [.opening, .func "x", .func "y", .var "x", .closing, .var "a", .opening,
        .opening, .func "w", .var "w", .var "w", .closing, .opening, .func "w", .var "w", .var "w",
        .closing, .closing]
      = .ok {
          root := .abs [] [.abs [⟨0, 0⟩, ⟨1, 0⟩] [.bound 0 0], .free 2,
            .abs [] [.abs [⟨3, 0⟩] [.bound 0 0, .bound 0 0],
              .abs [⟨3, 1⟩] [.bound 0 0, .bound 0 0]]],
          names := { entries := [⟨"x", 1⟩, ⟨"y", 1⟩, ⟨"a", 0⟩, ⟨"w", 2⟩] } }
    ∧ Normalizes {
          root := .abs [] [.abs [⟨0, 0⟩, ⟨1, 0⟩] [.bound 0 0], .free 2,
            .abs [] [.abs [⟨3, 0⟩] [.bound 0 0, .bound 0 0],
              .abs [⟨3, 1⟩] [.bound 0 0, .bound 0 0]]],
          names := { entries := [⟨"x", 1⟩, ⟨"y", 1⟩, ⟨"a", 0⟩, ⟨"w", 2⟩] } } := by
  have hbuilt :
      ofTokensWithin none [.opening, .func "x", .func "y", .var "x", .closing, .var "a", .opening,
        .opening, .func "w", .var "w", .var "w", .closing, .opening, .func "w", .var "w", .var "w",
        .closing, .closing]
      = .ok {
          root := .abs [] [.abs [⟨0, 0⟩, ⟨1, 0⟩] [.bound 0 0], .free 2,
            .abs [] [.abs [⟨3, 0⟩] [.bound 0 0, .bound 0 0],
              .abs [⟨3, 1⟩] [.bound 0 0, .bound 0 0]]],
          names := { entries := [⟨"x", 1⟩, ⟨"y", 1⟩, ⟨"a", 0⟩, ⟨"w", 2⟩] } } := by cbv
  have hfirst : Term.FunctionFirst (.app (.app (.lam (.lam (.var 1))) (.free 2)) Term.omega)
      (.app (.lam (.free 2)) Term.omega) :=
    .function _ (.contract _ (Term.normal_lam_iff.mpr (Term.normal_var 1)))
  have hsecond : Term.FunctionFirst (.app (.lam (.free 2)) Term.omega) (.free 2 : Term Nat) :=
    .contract _ (Term.normal_free 2)
  exact ⟨hbuilt, (normalizes_iff_functionFirst hbuilt).1.mpr
    ⟨.free 2, .tail (.single hfirst) hsecond, Term.normal_free 2⟩⟩

/-- The normal form of `(λx.x ((λw.w w) (λw.w w))) (λy.a)` is `a`, but no limits are large enough
    for it: the body of the first function is reduced before it takes its argument. -/
theorem diverges_before_discarding :
    ∃ expression, ofTokens [.opening, .opening, .func "x", .var "x", .opening, .opening, .func "w",
        .var "w", .var "w", .closing, .opening, .func "w", .var "w", .var "w", .closing, .closing,
        .closing, .opening, .func "y", .var "a", .closing, .closing] = .ok expression
      ∧ NormalFormOf (.free 3) (expression.root.term [])
      ∧ ∀ limits reduced, expression.reduce limits ≠ .ok reduced := by
  have hbuilt :
      ofTokens [.opening, .opening, .func "x", .var "x", .opening, .opening, .func "w", .var "w",
        .var "w", .closing, .opening, .func "w", .var "w", .var "w", .closing, .closing, .closing,
        .opening, .func "y", .var "a", .closing, .closing]
      = .ok {
          root := .abs [] [.abs [⟨0, 0⟩] [.bound 0 0,
            .abs [] [.abs [⟨1, 0⟩] [.bound 0 0, .bound 0 0],
              .abs [⟨1, 1⟩] [.bound 0 0, .bound 0 0]]], .abs [⟨2, 0⟩] [.free 3]],
          names := { entries := [⟨"x", 1⟩, ⟨"w", 2⟩, ⟨"y", 1⟩, ⟨"a", 0⟩] } } := by cbv
  refine ⟨_, hbuilt, ?_, ?_⟩
  · have hfirst : Term.Beta (.app (.lam (.app (.var 0) Term.omega)) (.lam (.free 3)))
        (.app (.lam (.free 3)) Term.omega) := .contract _ _
    have hsecond : Term.Beta (.app (.lam (.free 3)) Term.omega) (.free 3 : Term Nat) :=
      .contract _ _
    exact ⟨.tail (.single hfirst) hsecond, Term.normal_free 3⟩
  · intro limits reduced hreduce
    have hloop : Term.FunctionFirst (.app (.lam (.app (.var 0) Term.omega)) (.lam (.free 3)))
        (.app (.lam (.app (.var 0) Term.omega)) (.lam (.free 3)) : Term Nat) :=
      .function _ (.body (.argument (Term.normal_var 0) rfl Term.functionFirst_omega))
    obtain ⟨steps, hsteps⟩ := Term.normalizesFunctionFirst_iff.mp
      ⟨_, functionFirst_of_reduce (ofTokens_spec hbuilt).1 hreduce⟩
    exact Term.NormalizesWithin.not_of_loop hloop steps hsteps

end LambdaCalc.Expression
