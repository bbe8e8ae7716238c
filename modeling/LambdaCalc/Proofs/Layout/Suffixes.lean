import LambdaCalc.Proofs.Layout.Outline

set_option autoImplicit false

/-! # Suffixes count scopes

While it goes through the tree the printer keeps one count for every name, which it changes at every
abstraction and gives back behind it (`Printer.node_givesBack`). So what the counts come to depends
on nothing but the place in the tree: the count of a name is the number of parameters in whose scope
the place is and that are shown by this name, and one more if the name is shown free anywhere
(`Printer.Tallied`). The suffix of a parameter is therefore the number of parameters around it that
are shown by its name, free names included (`Expression.suffixes_of_render`), and the elements of
one spine never influence each other. -/

namespace LambdaCalc

/-! ## The scopes that a parameter stands in -/

/-- A parameter and those in whose scope it stands, from the inside out. -/
structure Placed where
  param : Param
  around : List Param
deriving DecidableEq, Repr

/-- The parameters of an abstraction: each stands in the scope of the earlier ones. -/
def placedParams (around : List Param) : List Param → List Placed
  | [] => []
  | param :: params => { param, around } :: placedParams (param :: around) params

mutual

/-- The parameters of a tree, from left to right. -/
def Node.placed (around : List Param) : Node → List Placed
  | .abs params spine =>
      placedParams around params ++ Node.placedList (params.reverse ++ around) spine
  | .bound .. | .free _ | .hole => []

/-- The parameters in the elements of a spine: all elements stand in the same scopes. -/
def Node.placedList (around : List Param) : List Node → List Placed
  | [] => []
  | element :: elements => element.placed around ++ Node.placedList around elements

end

theorem Node.placed_abs (around params : List Param) (spine : List Node) :
    (Node.abs params spine).placed around
      = placedParams around params ++ spine.flatMap (placed (params.reverse ++ around)) := by
  have hlist (around : List Param) (nodes : List Node) :
      placedList around nodes = nodes.flatMap (placed around) := by
    induction nodes with
    | nil => rfl
    | cons node nodes ih => rw [placedList, ih, List.flatMap_cons]
  rw [placed, hlist]

namespace Printer

variable {names : NameTable} {free : List Nat}

/-- How often a name is taken: by parameters around, and by free names, which count once. -/
def taken (names : NameTable) (free : List Nat) (around : List Param) (name : Nat) : Nat :=
  around.countP (fun param => names.canonical param.name = name) + if name ∈ free then 1 else 0

/-- The label that a parameter gets by counting scopes. -/
def Placed.label (names : NameTable) (free : List Nat) (place : Placed) : Label where
  name := names.canonical place.param.name
  suffix := taken names free place.around (names.canonical place.param.name)

/-- The counts of a place say how often each name is taken. -/
def Tallied (names : NameTable) (free : List Nat) (around : List Param) (counts : List Nat) :
    Prop :=
  ∀ name count, counts[name]? = some count → count = taken names free around name

/-- Entering the scope of a parameter counts its name once more, and no other name. -/
theorem Tallied.cons {around : List Param} {counts : List Nat}
    (h : Tallied names free around counts) {param : Param} {suffix : Nat}
    (hsuffix : counts[names.canonical param.name]? = some suffix) :
    Tallied names free (param :: around)
      (counts.set (names.canonical param.name) (suffix + 1)) := by
  obtain ⟨hlt, _⟩ := List.getElem?_eq_some_iff.mp hsuffix
  intro name count hcount
  rw [List.getElem?_set] at hcount
  rw [taken, List.countP_cons]
  by_cases heq : names.canonical param.name = name
  · subst heq
    rw [if_pos rfl, if_pos hlt] at hcount
    obtain rfl := Option.some.inj hcount
    rw [h _ _ hsuffix, taken, if_pos (decide_eq_true rfl)]
    omega
  · rw [if_neg heq] at hcount
    rw [h _ _ hcount, taken, if_neg (mt of_decide_eq_true heq), Nat.add_zero]

/-- The labels of an abstraction count scopes, and so do the counts inside: by induction on the
    parameters. -/
theorem tallied_of_labels {params around : List Param} {counts counts' : List Nat}
    {made : List Label} (h : Tallied names free around counts)
    (hmade : labels names counts params = .ok (made, counts')) :
    made = (placedParams around params).map (Placed.label names free)
      ∧ Tallied names free (params.reverse ++ around) counts' := by
  induction params generalizing around counts made with
  | nil =>
    cases hmade
    exact ⟨rfl, h⟩
  | cons param params ih =>
    obtain ⟨suffix, rest, hsuffix, hrest, rfl⟩ := labels_cons_eq_ok_iff.mp hmade
    obtain ⟨rfl, htallied⟩ := ih (h.cons hsuffix) hrest
    rw [h _ _ hsuffix, List.reverse_cons, List.append_assoc]
    exact ⟨rfl, htallied⟩

/-- The labels in an outline count scopes: by induction on the tree. The elements of a spine all
    start with the counts of the abstraction. -/
theorem binders_of_outline {around : List Param} {scopes : Scopes Label} {counts : List Nat}
    {node : Node} {layout : Layout Label} (htallied : Tallied names free around counts)
    (h : outline names scopes counts node = .ok layout) :
    layout.binders = (node.placed around).map (Placed.label names free) := by
  induction node generalizing around scopes counts layout with
  | abs params spine ih =>
    obtain ⟨made, counts', elements, hmade, helements, rfl⟩ := outline_abs_eq_ok_iff.mp h
    obtain ⟨hlabels, hinside⟩ := tallied_of_labels htallied hmade
    have hspine : elements.map Layout.binders = spine.map fun node =>
        (node.placed (params.reverse ++ around)).map (Placed.label names free) :=
      map_eq_of_outlines helements fun node hmem _ _ houtline => ih node hmem hinside houtline
    rw [Layout.binders, Layout.bindersList_eq_flatMap, Node.placed_abs, List.map_append, hlabels,
      List.map_flatMap, List.flatMap_def, hspine, ← List.flatMap_def]
  | bound depth position =>
    obtain ⟨_, _, ⟨⟩⟩ := Outcome.bind_eq_ok.mp h
    rfl
  | free name =>
    cases h
    rfl
  | hole => cases h

end Printer

namespace Expression

open Printer

/-- Whenever an expression is printed, whatever the room, the suffix of each of its parameters is
    the number of parameters in whose scope it stands and that are shown by the same name, and one
    more if a free variable anywhere is shown by that name. The suffix zero is left out. Behind each
    part that is printed the printer has the same counts and scopes as in front of it. -/
theorem suffixes_of_render {room : Room} {expression : Expression} {text : String}
    (h : expression.renderWithin room = .ok text) :
    (∃ layout, expression.outline = .ok layout
      ∧ text = (layout.map (Label.shown expression.names)).text false
      ∧ layout.binders = (expression.root.placed []).map fun place =>
          { name := expression.names.canonical place.param.name
            suffix :=
              place.around.countP (fun param => expression.names.canonical param.name
                  = expression.names.canonical place.param.name)
                + if expression.names.canonical place.param.name
                    ∈ expression.root.freeNames.map expression.names.canonical then 1 else 0 })
      ∧ ∀ room nested part state printed state',
          (Printer.node expression.names room nested part).run state = .ok (printed, state') →
            state' = state := by
  obtain ⟨layout, hlayout, _, htext⟩ :=
    exists_outline (inFull_of_render (render_of_renderWithin h))
  obtain ⟨counts, hcounts, houtline⟩ := Outcome.bind_eq_ok.mp hlayout
  obtain ⟨hlength, _, hcount⟩ := outerCounts_spec hcounts
  have htallied : Tallied expression.names
      (expression.root.freeNames.map expression.names.canonical) [] counts := by
    intro name count hname
    obtain ⟨hlt, _⟩ := List.getElem?_eq_some_iff.mp hname
    rw [hcount name (hlength ▸ hlt)] at hname
    rw [taken, List.countP_nil, Nat.zero_add]
    exact (Option.some.inj hname).symm
  exact ⟨⟨layout, hlayout, htext, binders_of_outline htallied houtline⟩,
    fun _ _ _ _ _ _ => eq_of_run_node⟩

/-- Two names are shown as `x`, and `y` occurs free. Each `x` counts those around it, the one beside
    it does not count, and `y` counts the free one. -/
theorem suffixes_of_render_siblings :
    let expression : Expression := {
      root := .abs [⟨0, 0⟩, ⟨2, 0⟩]
        [.abs [⟨0, 1⟩] [.bound 0 0], .abs [⟨2, 1⟩, ⟨1, 0⟩] [.bound 0 1], .free 1]
      names := {
        entries := [⟨"x", 2⟩, ⟨"y", 1⟩, ⟨"$k$x", 2⟩]
        aliases := { entries := [(2, 0)] } } }
    expression.render = .ok "λx.λx_1.((λx_2.x_2) (λx_2.λy_1.y_1) y)"
      ∧ ∃ layout, expression.outline = .ok layout
        ∧ layout.binders = [⟨0, 0⟩, ⟨0, 1⟩, ⟨0, 2⟩, ⟨0, 2⟩, ⟨1, 1⟩] := by
  intro expression
  have hrender : expression.render = .ok "λx.λx_1.((λx_2.x_2) (λx_2.λy_1.y_1) y)" := by
    decide +kernel
  obtain ⟨⟨layout, hlayout, _, hbinders⟩, _⟩ := suffixes_of_render hrender
  exact ⟨hrender, layout, hlayout, hbinders.trans (by decide +kernel)⟩

end Expression

end LambdaCalc
