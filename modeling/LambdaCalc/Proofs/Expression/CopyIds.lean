import LambdaCalc.Proofs.Expression.Decoding
import LambdaCalc.Proofs.Expression.ShownAlike
import LambdaCalc.Proofs.Node.Counters

set_option autoImplicit false

/-! # Copy ids do not show

Copy ids tell the parameters of one name apart, but no part of the calculator looks at them: not the
decoder of numerals (`Node.Matches.number?_eq`), not the printer, and not the reduction that hands
them out. So expressions that differ in nothing but copy ids and counters have the same results
(`Expression.reduce_of_alike`). -/

namespace LambdaCalc

open Node (Matches)

/-! ## Numbers -/

section

variable {N : Nat → Nat → Prop} {P : Param → Param → Prop}

/-- Where a spine is counted, a matching one is counted alike: by induction on the groups inside one
    another. -/
theorem Numeral.applications?_of_matches {function base : Int × Nat} {level count : Nat}
    {spine spine' : List Node} (h : List.Forall₂ (Matches N P) spine spine')
    (hcount : applications? function base level spine = some count) :
    applications? function base level spine' = some count := by
  fun_induction applications? function base level spine generalizing spine' count with
  | case1 level depth position haddress =>
    obtain _ | ⟨⟨⟩, ⟨⟩⟩ := h
    rw [applications?, if_pos haddress, hcount]
  | case3 level depth position haddress depth' position' haddress' =>
    obtain _ | ⟨⟨⟩, _ | ⟨⟨⟩, ⟨⟩⟩⟩ := h
    rw [applications?, if_pos haddress]
    exact (if_pos haddress').trans hcount
  | case5 level depth position haddress inner ih =>
    obtain _ | ⟨⟨⟩, _ | ⟨⟨⟨⟩, hinner⟩, ⟨⟩⟩⟩ := h
    obtain ⟨rest, hrest, rfl⟩ := Option.map_eq_some_iff.mp hcount
    rw [applications?, if_pos haddress]
    exact Option.map_eq_some_iff.mpr ⟨rest, ih hinner hrest, rfl⟩
  | case2 | case4 | case6 | case7 | case8 => cases hcount

theorem Node.number?_of_matches {node node' : Node} {count : Nat} (h : node.Matches N P node')
    (hcount : node.number? = some count) : node'.number? = some count := by
  unfold number? at hcount
  split at hcount
  · obtain ⟨_ | ⟨_, _ | ⟨_, ⟨⟩⟩⟩, hbody⟩ := h
    exact Numeral.applications?_of_matches hbody hcount
  · obtain ⟨_ | ⟨_, ⟨⟩⟩, _ | ⟨⟨_ | ⟨_, ⟨⟩⟩, hbody⟩, ⟨⟩⟩⟩ := h
    exact Numeral.applications?_of_matches hbody hcount
  · cases hcount

/-- Matching trees are numerals of the same number. -/
theorem Node.Matches.number?_eq {node node' : Node} (h : node.Matches N P node') :
    node.number? = node'.number? := by
  ext count
  exact ⟨number?_of_matches h, number?_of_matches h.symm⟩

end

namespace NameTable

/-- Tables with the same names show all of them alike. -/
theorem SameNames.shownThrough {names names' : NameTable} (h : names.SameNames names') :
    names.ShownThrough Eq names' := by
  constructor
  · rintro id _ rfl
    rw [h.canonical_eq, h.spelling_eq]
  · rintro id _ other _ rfl rfl
    rw [h.canonical_eq, h.canonical_eq]

end NameTable

namespace Expression

variable {expression expression' : Expression}

/-- Expressions that differ in nothing but copy ids and counters are reduced alike, within any
    limits: to such expressions, which are the same numbers and have the same text, or they stop for
    the same reason. -/
theorem reduce_of_alike (hroot : expression.root.alike expression'.root = true)
    (hnames : expression.names.SameNames expression'.names) (limits : Limits) :
    Outcome.Alike Eq (fun reduced reduced' => reduced.root.alike reduced'.root = true
        ∧ reduced.names.SameNames reduced'.names
        ∧ reduced.number? = reduced'.number? ∧ reduced.render = reduced'.render)
      (expression.reduce limits) (expression'.reduce limits) := by
  have hsize : ∀ id id', id = id' →
      (id < expression.names.size ↔ id' < expression'.names.size) := by
    rintro id _ rfl
    rw [hnames.size_eq]
  refine (reduce_matches hsize (Node.alike_iff_matches.mp hroot) limits).mono (fun _ _ => id) ?_
  rintro reduced reduced' ⟨hmatches, hsame, hsame'⟩
  have hnames' := hsame.trans (hnames.trans hsame'.symm)
  exact ⟨Node.alike_iff_matches.mpr hmatches, hnames', hmatches.number?_eq,
    render_eq_of_matches hnames'.shownThrough hmatches⟩

/-- With other copy ids and counters, `(λx.x x) (λy.λz.y)` is reduced to a tree with other copy ids,
    and still the second `z` in it is shown as `z_1`. -/
theorem reduce_of_alike_suffix :
    (Node.abs [] [.abs [⟨0, 0⟩] [.bound 0 0, .bound 0 0], .abs [⟨1, 0⟩, ⟨2, 0⟩] [.bound 0 0]]).alike
        (.abs [] [.abs [⟨0, 9⟩] [.bound 0 0, .bound 0 0], .abs [⟨1, -3⟩, ⟨2, 5⟩] [.bound 0 0]])
      = true
    ∧ NameTable.SameNames { entries := [⟨"x", 1⟩, ⟨"y", 1⟩, ⟨"z", 1⟩] }
        { entries := [⟨"x", 0⟩, ⟨"y", -1⟩, ⟨"z", 70⟩] }
    ∧ reduce { nesting := 16, copying := 8 } {
          root := .abs [] [.abs [⟨0, 0⟩] [.bound 0 0, .bound 0 0],
            .abs [⟨1, 0⟩, ⟨2, 0⟩] [.bound 0 0]],
          names := { entries := [⟨"x", 1⟩, ⟨"y", 1⟩, ⟨"z", 1⟩] } }
        = .ok {
          root := .abs [⟨2, 1⟩] [.abs [⟨1, 3⟩, ⟨2, 3⟩] [.bound 0 0]],
          names := { entries := [⟨"x", 1⟩, ⟨"y", 4⟩, ⟨"z", 4⟩] } }
    ∧ reduce { nesting := 16, copying := 8 } {
          root := .abs [] [.abs [⟨0, 9⟩] [.bound 0 0, .bound 0 0],
            .abs [⟨1, -3⟩, ⟨2, 5⟩] [.bound 0 0]],
          names := { entries := [⟨"x", 0⟩, ⟨"y", -1⟩, ⟨"z", 70⟩] } }
        = .ok {
          root := .abs [⟨2, 70⟩] [.abs [⟨1, 1⟩, ⟨2, 72⟩] [.bound 0 0]],
          names := { entries := [⟨"x", 0⟩, ⟨"y", 2⟩, ⟨"z", 73⟩] } }
    ∧ render {
          root := .abs [⟨2, 70⟩] [.abs [⟨1, 1⟩, ⟨2, 72⟩] [.bound 0 0]],
          names := { entries := [⟨"x", 0⟩, ⟨"y", 2⟩, ⟨"z", 73⟩] } }
        = .ok "λz.(λy.λz_1.y)" := by
  have hroot : (Node.abs [] [.abs [⟨0, 0⟩] [.bound 0 0, .bound 0 0],
      .abs [⟨1, 0⟩, ⟨2, 0⟩] [.bound 0 0]]).alike (.abs [] [.abs [⟨0, 9⟩] [.bound 0 0, .bound 0 0],
        .abs [⟨1, -3⟩, ⟨2, 5⟩] [.bound 0 0]]) = true := by
    decide
  have hnames : NameTable.SameNames { entries := [⟨"x", 1⟩, ⟨"y", 1⟩, ⟨"z", 1⟩] }
      { entries := [⟨"x", 0⟩, ⟨"y", -1⟩, ⟨"z", 70⟩] } := ⟨rfl, rfl⟩
  have hreduce : reduce { nesting := 16, copying := 8 } {
          root := .abs [] [.abs [⟨0, 0⟩] [.bound 0 0, .bound 0 0],
            .abs [⟨1, 0⟩, ⟨2, 0⟩] [.bound 0 0]],
          names := { entries := [⟨"x", 1⟩, ⟨"y", 1⟩, ⟨"z", 1⟩] } }
        = .ok {
          root := .abs [⟨2, 1⟩] [.abs [⟨1, 3⟩, ⟨2, 3⟩] [.bound 0 0]],
          names := { entries := [⟨"x", 1⟩, ⟨"y", 4⟩, ⟨"z", 4⟩] } } := rfl
  have hreduce' : reduce { nesting := 16, copying := 8 } {
          root := .abs [] [.abs [⟨0, 9⟩] [.bound 0 0, .bound 0 0],
            .abs [⟨1, -3⟩, ⟨2, 5⟩] [.bound 0 0]],
          names := { entries := [⟨"x", 0⟩, ⟨"y", -1⟩, ⟨"z", 70⟩] } }
        = .ok {
          root := .abs [⟨2, 70⟩] [.abs [⟨1, 1⟩, ⟨2, 72⟩] [.bound 0 0]],
          names := { entries := [⟨"x", 0⟩, ⟨"y", 2⟩, ⟨"z", 73⟩] } } := rfl
  refine ⟨hroot, hnames, hreduce, hreduce', ?_⟩
  have h := @reduce_of_alike ⟨_, _⟩ ⟨_, _⟩ hroot hnames { nesting := 16, copying := 8 }
  rw [hreduce, hreduce'] at h
  obtain ⟨⟨_, _, _, hrender⟩⟩ := h
  rw [← hrender]
  rfl

end Expression

end LambdaCalc
