import LambdaCalc.Proofs.Layout.Spelling

set_option autoImplicit false

/-! # When printed names are unambiguous

What is printed for a text, reduced or not, names each reference like its own binder, and the labels
behind the printed names tell apart what they have to. The printed names do as well exactly if none
of the names that have been made up with a suffix is spelled like a name that it has to be told
apart from (`Expression.unambiguous_iff_not_mimics`), which a user may have written. -/

namespace LambdaCalc.Expression

open Printer

/-- The text that is printed is that of a layout in which each reference is named like its own
    binder. The names in it are unambiguous exactly if no label in it that has to be told apart from
    another one mimics it. -/
theorem unambiguous_iff_not_mimics {table : KeywordTable} (htable : table.Reachable)
    {text printed : String} {expression : Expression} (hyields : table.Yields text expression)
    (hrender : expression.render = .ok printed) :
    ∃ layout, expression.outline = .ok layout
      ∧ printed = (layout.map (Label.shown expression.names)).text false
      ∧ (layout.map (Label.shown expression.names)).Own
      ∧ ((layout.map (Label.shown expression.names)).Unambiguous
        ↔ layout.Separate fun a b =>
          ¬ a.Mimics expression.names b ∧ ¬ b.Mimics expression.names a) := by
  obtain ⟨layout, hlayout, hclear, hlisted, hprinted⟩ := hyields.exists_outline hrender
  have hunambiguous := hclear.unambiguous
  have hown := hunambiguous.own.map (Label.shown expression.names)
  have hshown : (layout.map (Label.shown expression.names)).Unambiguous
      ↔ (layout.map (Label.shown expression.names)).Separate (· ≠ ·) :=
    ⟨fun h => h.separate, fun h => ⟨hown, h⟩⟩
  refine ⟨layout, hlayout, hprinted, hown, ?_⟩
  rw [hshown, Layout.separate_map]
  exact hunambiguous.separate_congr fun a ha b hb hne =>
    Label.shown_ne_iff (hyields.legible htable) (hlisted a (List.mem_append_left _ ha))
      (hlisted b hb) hne

/-- Of `λx.λy.x y` applied to itself two copies of `y` are left, one inside the scope of the
    other. -/
theorem unambiguous_iff_not_mimics_nested :
    KeywordTable.Reachable {}
    ∧ KeywordTable.Yields {} "(λf.f f) (λx.λy.x y)" {
          root := .abs [⟨2, 1⟩] [.abs [⟨2, 3⟩] [.bound 1 0, .bound 0 0]]
          names := { entries := [⟨"f", 1⟩, ⟨"x", 4⟩, ⟨"y", 4⟩] } }
    ∧ Expression.render {
          root := .abs [⟨2, 1⟩] [.abs [⟨2, 3⟩] [.bound 1 0, .bound 0 0]]
          names := { entries := [⟨"f", 1⟩, ⟨"x", 4⟩, ⟨"y", 4⟩] } } = .ok "λy.(λy_1.(y y_1))"
    ∧ (Layout.abs ["y"] [.abs ["y_1"] [.bound 1 0 "y", .bound 0 0 "y_1"]]).text false
      = "λy.(λy_1.(y y_1))"
    ∧ (Layout.abs ["y"] [.abs ["y_1"] [.bound 1 0 "y", .bound 0 0 "y_1"]]).Unambiguous := by
  have htokens : KeywordTable.tokenize {} "(λf.f f) (λx.λy.x y)"
      = .ok [.opening, .opening, .func "f", .var "f", .var "f", .closing, .opening, .func "x",
        .func "y", .var "x", .var "y", .closing, .closing] := by decide +kernel
  have hbuilt : ofTokensWithin none [.opening, .opening, .func "f", .var "f", .var "f", .closing,
        .opening, .func "x", .func "y", .var "x", .var "y", .closing, .closing]
      = .ok {
          root := .abs [] [.abs [⟨0, 0⟩] [.bound 0 0, .bound 0 0],
            .abs [⟨1, 0⟩, ⟨2, 0⟩] [.bound 0 0, .bound 0 1]]
          names := { entries := [⟨"f", 1⟩, ⟨"x", 1⟩, ⟨"y", 1⟩] } } := by cbv
  have hreduce : reduce { nesting := 16, copying := 16 } {
          root := .abs [] [.abs [⟨0, 0⟩] [.bound 0 0, .bound 0 0],
            .abs [⟨1, 0⟩, ⟨2, 0⟩] [.bound 0 0, .bound 0 1]]
          names := { entries := [⟨"f", 1⟩, ⟨"x", 1⟩, ⟨"y", 1⟩] } }
      = .ok {
          root := .abs [⟨2, 1⟩] [.abs [⟨2, 3⟩] [.bound 1 0, .bound 0 0]]
          names := { entries := [⟨"f", 1⟩, ⟨"x", 4⟩, ⟨"y", 4⟩] } } := rfl
  have hrender : Expression.render {
          root := .abs [⟨2, 1⟩] [.abs [⟨2, 3⟩] [.bound 1 0, .bound 0 0]]
          names := { entries := [⟨"f", 1⟩, ⟨"x", 4⟩, ⟨"y", 4⟩] } } = .ok "λy.(λy_1.(y y_1))" := by
    decide +kernel
  have hyields := KeywordTable.Yields.reduced (.built htokens hbuilt) hreduce
  refine ⟨KeywordTable.reachable_empty, hyields, hrender, by decide +kernel, ?_⟩
  obtain ⟨layout, hlayout, _, _, hiff⟩ :=
    unambiguous_iff_not_mimics KeywordTable.reachable_empty hyields hrender
  obtain rfl := Except.ok.inj hlayout
  -- All spellings are single characters, so that no name with a suffix is spelled like them.
  have hlength (id : Nat) : (["f", "x", "y"].getD id "").toList.length ≤ 1 := by
    rcases id with _ | _ | _ | id
    · decide
    · decide
    · decide
    · exact Nat.zero_le 1
  have hnot (a b : Label) :
      ¬ a.Mimics { entries := [⟨"f", 1⟩, ⟨"x", 4⟩, ⟨"y", 4⟩] } b := by
    rintro ⟨_, _, heq⟩
    have hshort := hlength b.name
    rw [show ["f", "x", "y"].getD b.name "" = _ from heq, toList_suffixed, List.length_append,
      List.length_cons] at hshort
    have hdigits := List.length_pos_iff.mpr (Nat.toDigits_ne_nil (n := a.suffix) (b := 10))
    omega
  exact hiff.mpr ⟨fun _ _ _ _ _ _ _ => ⟨hnot _ _, hnot _ _⟩, fun _ _ _ _ => ⟨hnot _ _, hnot _ _⟩⟩

/-- In `x x_1 k` after `k = λx.x`, the parameter is told apart from the free `x` by a suffix that
    makes it look like the free `x_1`. -/
theorem ambiguous_of_written_suffix :
    KeywordTable.Reachable {
      keywords := { entries := [("k", [.opening, .func "$k$x", .var "$k$x", .closing])] }
      sources := { entries := [("k", "λx.x")] } }
    ∧ KeywordTable.Yields {
      keywords := { entries := [("k", [.opening, .func "$k$x", .var "$k$x", .closing])] }
      sources := { entries := [("k", "λx.x")] } } "x x_1 k" {
        root := .abs [] [.free 0, .free 1, .abs [⟨2, 0⟩] [.bound 0 0]]
        names := {
          entries := [⟨"x", 0⟩, ⟨"x_1", 0⟩, ⟨"$k$x", 1⟩], aliases := { entries := [(2, 0)] } } }
    ∧ Expression.render {
        root := .abs [] [.free 0, .free 1, .abs [⟨2, 0⟩] [.bound 0 0]]
        names := {
          entries := [⟨"x", 0⟩, ⟨"x_1", 0⟩, ⟨"$k$x", 1⟩], aliases := { entries := [(2, 0)] } } }
      = .ok "x x_1 (λx_1.x_1)"
    ∧ ∃ layout, Expression.outline {
          root := .abs [] [.free 0, .free 1, .abs [⟨2, 0⟩] [.bound 0 0]]
          names := {
            entries := [⟨"x", 0⟩, ⟨"x_1", 0⟩, ⟨"$k$x", 1⟩], aliases := { entries := [(2, 0)] } } }
          = .ok layout
        ∧ ¬ (layout.map (Label.shown {
            entries := [⟨"x", 0⟩, ⟨"x_1", 0⟩, ⟨"$k$x", 1⟩],
            aliases := { entries := [(2, 0)] } })).Unambiguous := by
  have hdefine : KeywordTable.define {} "k" "λx.x" = .ok {
      keywords := { entries := [("k", [.opening, .func "$k$x", .var "$k$x", .closing])] }
      sources := { entries := [("k", "λx.x")] } } := by decide +kernel
  have htokens : KeywordTable.tokenize {
      keywords := { entries := [("k", [.opening, .func "$k$x", .var "$k$x", .closing])] }
      sources := { entries := [("k", "λx.x")] } } "x x_1 k"
      = .ok [.opening, .var "x", .var "x_1", .opening, .func "$k$x", .var "$k$x", .closing,
        .closing] := by decide +kernel
  have hbuilt : ofTokensWithin none [.opening, .var "x", .var "x_1", .opening, .func "$k$x",
        .var "$k$x", .closing, .closing]
      = .ok {
        root := .abs [] [.free 0, .free 1, .abs [⟨2, 0⟩] [.bound 0 0]]
        names := {
          entries := [⟨"x", 0⟩, ⟨"x_1", 0⟩, ⟨"$k$x", 1⟩]
          aliases := { entries := [(2, 0)] } } } := by cbv
  refine ⟨.define KeywordTable.reachable_empty hdefine, .built htokens hbuilt,
    by decide +kernel, _, rfl, fun h => ?_⟩
  exact h.separate.free "x_1" List.mem_cons_self "x_1"
    (List.mem_cons_of_mem _ List.mem_cons_self) rfl

end LambdaCalc.Expression
