import LambdaCalc.Proofs.Node.Driving

set_option autoImplicit false

/-! # Driving takes from the front

Driving is allowed as many turns as there are elements. `Node.Turns` is driving with no such bound:
whatever a head pushes when it is spliced goes in front of the spine, and a head that binds takes
what stands first, be it an element given at the start or a pushed one. Only the room for nested
calls is the same.

It never takes a pushed one. What a reduction leaves is canonical, so a head that binds has pushed
nothing (`Settles.pushes_nothing`), and each turn uses up one of the elements given
(`Turns.takes_front`). This bounds the turns, and driving is taking turns without a bound
(`drive_takes_front`). -/

namespace LambdaCalc.Node

/-! ## Turns without a bound -/

/-- An element of a spine, marked by where it comes from. -/
inductive Element where
  /-- It stood behind the head at the start. -/
  | given (node : Node)
  /-- It was pushed when a head was spliced. -/
  | pushed (node : Node)

/-- The element without its mark. -/
def Element.node : Element → Node
  | .given node | .pushed node => node

theorem map_node_given (nodes : List Node) :
    (nodes.map Element.given).map Element.node = nodes := by
  rw [List.map_map]
  exact List.map_id nodes

theorem map_node_pushed (nodes : List Node) :
    (nodes.map Element.pushed).map Element.node = nodes := by
  rw [List.map_map]
  exact List.map_id nodes

/-- Driving a head against a spine for as long as it takes arguments. Relates the head, its spine
    and the names at the start to the elements taken, from the first to the last, and to the head,
    its spine and the names at the end. -/
inductive Turns (reduceHead : Node → Copying Node) (room : Room) (budget : Nat) :
    Node → List Element → NameTable → List Element → Node → List Element → NameTable → Prop where
  /-- Nothing is left of the spine: the head is reduced and spliced a last time. -/
  | usedUp {head result head' : Node} {pushed : List Node} {table table' : NameTable}
      (hreduce : reduceHead head table = .ok (result, table'))
      (hsplice : result.spliceWithin room = .ok (head', pushed)) :
      Turns reduceHead room budget head [] table [] head' (pushed.map .pushed) table'
  /-- The reduced head is spliced and binds nothing: it is reduced and spliced a last time. -/
  | stop {head result first again head' : Node} {ahead pushed : List Node} {element : Element}
      {elements : List Element} {table between table' : NameTable}
      (hreduce : reduceHead head table = .ok (result, between))
      (hsplice : result.spliceWithin room = .ok (first, ahead))
      (hbinds : first.binds = false)
      (hreduce' : reduceHead first between = .ok (again, table'))
      (hsplice' : again.spliceWithin room = .ok (head', pushed)) :
      Turns reduceHead room budget head (element :: elements) table [] head'
        (pushed.map .pushed ++ (ahead.map .pushed ++ element :: elements)) table'
  /-- The reduced head is spliced and binds something: it takes what stands first now as the
      argument for its first parameter. -/
  | take {head result head' : Node} {param : Param} {params : List Param}
      {body body' ahead : List Node} {element argument : Element}
      {elements rest taken elements' : List Element} {table between between' table' : NameTable}
      (hreduce : reduceHead head table = .ok (result, between))
      (hsplice : result.spliceWithin room = .ok (.abs (param :: params) body, ahead))
      (hfront : ahead.map .pushed ++ element :: elements = argument :: rest)
      (htake : takeWithin room budget argument.node body between = .ok (body', between'))
      (hturns : Turns reduceHead room budget (.abs params body') rest between' taken head' elements'
        table') :
      Turns reduceHead room budget head (element :: elements) table (argument :: taken) head'
        elements' table'

section Settles

variable {reduceHead : Node → Copying Node} {room : Room} {budget : Nat} {head head' : Node}
  {spine spine' : List Node} {elements taken elements' : List Element} {table table' : NameTable}

/-- A reduced head that binds something when it is spliced has pushed nothing: it was no group. -/
theorem Settles.pushes_nothing (hsettles : Settles reduceHead) {result : Node} {param : Param}
    {params : List Param} {body ahead : List Node}
    (hreduce : reduceHead head table = .ok (result, table'))
    (hsplice : result.spliceWithin room = .ok (.abs (param :: params) body, ahead)) :
    result = .abs (param :: params) body ∧ ahead = [] := by
  have heq := eq_splice_of_spliceWithin hsplice
  have hbinds : result.splice.1.binds = true := by
    rw [← heq]
    rfl
  rw [(hsettles.canonical hreduce).splice_of_binds hbinds] at heq
  obtain ⟨rfl, rfl⟩ := Prod.mk.inj heq
  exact ⟨rfl, rfl⟩

/-- The head takes elements from the front of its spine, and those left stay behind all that it
    pushes: by induction on the turns. -/
theorem Turns.takes_front (hsettles : Settles reduceHead)
    (h : Turns reduceHead room budget head elements table taken head' elements' table') :
    ∃ (left : List Element) (ahead : List Node),
      elements = taken ++ left ∧ elements' = ahead.map .pushed ++ left := by
  induction h with
  | @usedUp _ _ _ pushed => exact ⟨[], pushed, rfl, (List.append_nil _).symm⟩
  | @stop _ _ _ _ _ ahead pushed element elements =>
    refine ⟨element :: elements, pushed ++ ahead, rfl, ?_⟩
    rw [List.map_append, List.append_assoc]
  | take hreduce hsplice hfront _ _ ih =>
    obtain ⟨left, ahead, rfl, rfl⟩ := ih
    -- What the head takes stood first before it was spliced.
    rw [(hsettles.pushes_nothing hreduce hsplice).2] at hfront
    exact ⟨left, ahead, hfront, rfl⟩

/-- Turns drive the head: by induction on them. -/
theorem Turns.driven (hsettles : Settles reduceHead)
    (h : Turns reduceHead room budget head elements table taken head' elements' table') :
    Driven reduceHead room budget head (elements.map Element.node) table head'
      (elements'.map Element.node) table' := by
  induction h with
  | @usedUp _ result head' pushed _ _ hreduce hsplice =>
    obtain ⟨rfl, rfl⟩ : head' = result.splice.1 ∧ pushed = result.splice.2 :=
      Prod.mk.inj (eq_splice_of_spliceWithin hsplice)
    have hrest : Driven reduceHead room budget _ [] _ _ _ _ := .rest hreduce hsplice (Or.inl rfl)
    rw [map_node_pushed]
    rwa [List.append_nil] at hrest
  | @stop _ result first again head' ahead pushed _ _ _ _ _ hreduce hsplice hbinds hreduce'
      hsplice' =>
    obtain ⟨rfl, rfl⟩ : first = result.splice.1 ∧ ahead = result.splice.2 :=
      Prod.mk.inj (eq_splice_of_spliceWithin hsplice)
    cases hreduce'.symm.trans (hsettles.keeps hreduce hbinds)
    have hnothing := eq_splice_of_spliceWithin hsplice'
    rw [splice_of_not_group (isGroup_splice result)] at hnothing
    obtain ⟨rfl, rfl⟩ := Prod.mk.inj hnothing
    rw [List.map_nil, List.nil_append, List.map_append, map_node_pushed]
    exact .rest hreduce hsplice (Or.inr hbinds)
  | take hreduce hsplice hfront htake _ ih =>
    obtain ⟨rfl, rfl⟩ := hsettles.pushes_nothing hreduce hsplice
    obtain ⟨rfl, rfl⟩ := List.cons.inj hfront
    exact .consume hreduce htake ih

/-- A head that is driven takes turns, whatever the marks of its spine: by induction on how it is
    driven. -/
theorem Driven.turns (h : Driven reduceHead room budget head spine table head' spine' table')
    (hsettles : Settles reduceHead) (hmarks : elements.map Element.node = spine) :
    ∃ taken elements', Turns reduceHead room budget head elements table taken head' elements' table'
      ∧ elements'.map Element.node = spine' := by
  induction h generalizing elements with
  | @rest head result spine table table' hreduce hsplice hrest =>
    match elements, hrest with
    | [], _ =>
      obtain rfl := hmarks
      exact ⟨_, _, .usedUp hreduce hsplice, (map_node_pushed _).trans (List.append_nil _).symm⟩
    | element :: elements, hrest =>
      have hbinds := hrest.resolve_left (hmarks ▸ List.cons_ne_nil _ _)
      have hagain := hsettles.spliceWithin_again hreduce hsplice
      rw [splice_of_not_group (isGroup_splice result)] at hagain
      exact ⟨_, _, .stop hreduce hsplice hbinds (hsettles.keeps hreduce hbinds) hagain, by
        rw [List.map_nil, List.nil_append, List.map_append, map_node_pushed, hmarks]⟩
  | @consume _ _ _ param params body _ _ _ _ _ _ _ hreduce htake _ ih =>
    match elements with
    | argument :: elements =>
      obtain ⟨rfl, rfl⟩ := List.cons.inj hmarks
      obtain ⟨taken, elements', hturns, hnodes⟩ := ih rfl
      -- Where there is room to take an argument, there is room to splice a head that stays.
      obtain ⟨_, _, henter, _⟩ := Copying.bind_eq_ok.mp htake
      obtain ⟨_, henter, _⟩ := Copying.lift_eq_ok.mp henter
      have hsplice := (hsettles.canonical hreduce).spliceWithin rfl room
      rw [henter] at hsplice
      exact ⟨_, _, .take hreduce hsplice rfl htake hturns, hnodes⟩

end Settles

/-! ## What is left in the end -/

/-- Whether a node is a variable, or an abstraction with neither parameters nor a spine. -/
def isNeutral : Node → Bool
  | .bound _ _ | .free _ | .abs [] [] => true
  | .abs [] (_ :: _) | .abs (_ :: _) _ | .hole => false

/-- A head at rest before a spine that is not empty is neutral. -/
theorem AtRest.isNeutral {head : Node} {spine : List Node} (h : AtRest head spine)
    (hne : spine ≠ []) : head.isNeutral = true := by
  obtain ⟨hcanonical, hgroup, hbinds⟩ := h
  match head with
  | .bound _ _ | .free _ | .abs [] [] => rfl
  | .abs [] (_ :: _) => cases hgroup
  | .abs (_ :: _) _ => cases hbinds hne
  | .hole => exact absurd hcanonical id

/-- Driving is taking turns without a bound, as long as there is room for its calls. Whenever it
    ends, the elements taken are the first ones of those given, and no more than there were at the
    start; the others are left as they were behind all that was pushed; and the head is neutral if
    anything is left. -/
theorem drive_takes_front {limits : Limits} {head head' : Node} {spine spine' : List Node}
    {table table' : NameTable} :
    (head.drive limits spine table = .ok ((head', spine'), table')
        ↔ ∃ room, limits.nesting = room + 1 ∧ ∃ taken elements,
            Turns (reduceWithin limits.copying room) (some room) limits.copying head
              (spine.map .given) table taken head' elements table'
            ∧ elements.map Element.node = spine')
      ∧ ∀ nesting room taken elements, Turns (reduceWithin limits.copying nesting) room
          limits.copying head (spine.map .given) table taken head' elements table' →
        ∃ consumed left ahead : List Node, spine = consumed ++ left ∧ taken = consumed.map .given
          ∧ elements = ahead.map .pushed ++ left.map .given
          ∧ taken.length ≤ spine.length
          ∧ (elements ≠ [] → head'.isNeutral = true) := by
  constructor
  · unfold drive
    match limits.nesting with
    | 0 => exact ⟨fun h => absurd h Copying.throw_ne_ok, nofun⟩
    | room + 1 =>
      have hsettles := reduceWithin_settles limits.copying room
      rw [driveWithin, driveTurns_eq_ok_iff hsettles (Nat.le_refl _)]
      constructor
      · intro h
        exact ⟨room, rfl, h.turns hsettles (map_node_given _)⟩
      · rintro ⟨_, ⟨⟩, taken, elements, hturns, rfl⟩
        have hdriven := hturns.driven hsettles
        rwa [map_node_given] at hdriven
  · intro nesting room taken elements hturns
    have hsettles := reduceWithin_settles limits.copying nesting
    obtain ⟨left, ahead, hspine, rfl⟩ := hturns.takes_front hsettles
    obtain ⟨consumed, left, rfl, rfl, rfl⟩ := List.map_eq_append_iff.mp hspine
    refine ⟨consumed, left, ahead, rfl, rfl, rfl, ?_, fun hne => ?_⟩
    · rw [List.length_map, List.length_append]
      exact Nat.le_add_right _ _
    · exact ((hturns.driven hsettles).atRest hsettles).isNeutral (List.map_eq_nil_iff.not.mpr hne)

/-- The head takes the first element, which then stands in front of what the head pushes. The second
    one is left behind that. -/
theorem drive_takes_front_pushing :
    Turns (reduceWithin 8 8) (some 8) 8 (.abs [⟨0, 0⟩] [.bound 0 0, .free 1])
        ([.free 2, .free 3].map .given) { entries := [⟨"x", 1⟩] } [.given (.free 2)] (.free 2)
        [.pushed (.free 1), .given (.free 3)] { entries := [⟨"x", 1⟩] }
      ∧ (Node.abs [⟨0, 0⟩] [.bound 0 0, .free 1]).drive { nesting := 9, copying := 8 }
          [.free 2, .free 3] { entries := [⟨"x", 1⟩] }
        = .ok ((.free 2, [.free 1, .free 3]), { entries := [⟨"x", 1⟩] })
      ∧ (Node.free 2).isNeutral = true := by
  have hreduce : reduceWithin 8 8 (.abs [] [.free 2, .free 1]) { entries := [⟨"x", 1⟩] }
      = .ok (.abs [] [.free 2, .free 1], { entries := [⟨"x", 1⟩] }) := rfl
  have hsplice : (Node.abs [] [.free 2, .free 1]).spliceWithin (some 8)
      = .ok (.free 2, [.free 1]) := rfl
  have hreduce' : reduceWithin 8 8 (.free 2) { entries := [⟨"x", 1⟩] }
      = .ok (.free 2, { entries := [⟨"x", 1⟩] }) := rfl
  have hsplice' : (Node.free 2).spliceWithin (some 8) = .ok (.free 2, []) := rfl
  have hturns : Turns (reduceWithin 8 8) (some 8) 8 (.abs [⟨0, 0⟩] [.bound 0 0, .free 1])
      ([.free 2, .free 3].map .given) { entries := [⟨"x", 1⟩] } [.given (.free 2)] (.free 2)
      [.pushed (.free 1), .given (.free 3)] { entries := [⟨"x", 1⟩] } :=
    .take rfl rfl rfl rfl (.stop hreduce hsplice rfl hreduce' hsplice')
  have hdrive : (Node.abs [⟨0, 0⟩] [.bound 0 0, .free 1]).drive { nesting := 9, copying := 8 }
        [.free 2, .free 3] { entries := [⟨"x", 1⟩] }
      = .ok ((.free 2, [.free 1, .free 3]), { entries := [⟨"x", 1⟩] }) :=
    drive_takes_front.1.mpr ⟨8, rfl, _, _, hturns, rfl⟩
  obtain ⟨_, _, _, _, _, _, _, hneutral⟩ :=
    (@drive_takes_front { nesting := 9, copying := 8 } _ _ _ [.free 1, .free 3] _ _).2
      _ _ _ _ hturns
  exact ⟨hturns, hdrive, hneutral (List.cons_ne_nil _ _)⟩

end LambdaCalc.Node
