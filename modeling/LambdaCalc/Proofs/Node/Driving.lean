import LambdaCalc.Expression.Basic
import LambdaCalc.Proofs.Node.Canonical
import LambdaCalc.Proofs.Node.Limits

set_option autoImplicit false

/-! # What driving does

Driving a head against a spine alternates between two things (`Node.Driven`): the reduced head
consumes the first element of the spine, or it comes to rest before what is left. The turns allowed
are never used up, and a head once at rest stays as it is (`driveTurns_eq_ok_iff`); later proofs go
by `Driven` and do not look at the turns.

Whatever the tree, a reduction that returns has made it canonical
(`Expression.canonical_of_reduce`). -/

namespace LambdaCalc

namespace Node

/-! ## Driving by what it does -/

/-- What a way to reduce the head at hand has to guarantee: its results are canonical, and if it
    returns at all, it leaves what can be neither spliced nor driven. -/
structure Settles (reduceHead : Node → Copying Node) : Prop where
  canonical {node result : Node} {table table' : NameTable} :
    reduceHead node table = .ok (result, table') → result.Canonical
  still {node result : Node} {table table' : NameTable} :
    reduceHead node table = .ok (result, table') → ∀ leaf : Node, leaf.Canonical →
      leaf.isGroup = false → leaf.binds = false →
        ∀ between, reduceHead leaf between = .ok (leaf, between)

/-- Driving a head against a spine: with `head'` at rest and `spine'` behind it in the end. -/
inductive Driven (reduceHead : Node → Copying Node) (room : Room) (budget : Nat) :
    Node → List Node → NameTable → Node → List Node → NameTable → Prop where
  /-- The reduced head is spliced and takes no further argument. -/
  | rest {head result : Node} {spine : List Node} {table table' : NameTable}
      (hreduce : reduceHead head table = .ok (result, table'))
      (hsplice : result.spliceWithin room = .ok result.splice)
      (hrest : spine = [] ∨ result.splice.1.binds = false) :
      Driven reduceHead room budget head spine table result.splice.1 (result.splice.2 ++ spine)
        table'
  /-- The reduced head takes the first element of the spine as the argument for its first
      parameter. -/
  | consume {head argument head' : Node} {param : Param} {params : List Param}
      {body body' spine spine' : List Node} {table between between' table' : NameTable}
      (hreduce : reduceHead head table = .ok (.abs (param :: params) body, between))
      (htake : takeWithin room budget argument body between = .ok (body', between'))
      (hdrive : Driven reduceHead room budget (.abs params body') spine between' head' spine'
        table') :
      Driven reduceHead room budget head (argument :: spine) table head' spine' table'

section

variable {reduceHead : Node → Copying Node} {room : Room} {budget turns : Nat}
  {head head' result : Node} {spine spine' : List Node} {table between table' : NameTable}

/-- Reducing and splicing the head a last time, when nothing is left of the spine or the head is at
    rest already. -/
theorem settle_eq_ok_iff :
    driveTurns.settle reduceHead room head spine table = .ok ((head', spine'), table')
      ↔ ∃ result, reduceHead head table = .ok (result, table')
          ∧ result.spliceWithin room = .ok result.splice
          ∧ head' = result.splice.1 ∧ spine' = result.splice.2 ++ spine := by
  constructor
  · intro h
    obtain ⟨result, _, hresult, h⟩ := Copying.bind_eq_ok.mp h
    obtain ⟨_, _, hspliced, h⟩ := Copying.bind_eq_ok.mp h
    obtain ⟨_, hsplice, ⟨⟩⟩ := Copying.lift_eq_ok.mp hspliced
    obtain rfl := eq_splice_of_spliceWithin hsplice
    obtain ⟨heq, rfl⟩ := Copying.pure_inj h
    obtain ⟨rfl, rfl⟩ := Prod.mk.inj heq
    exact ⟨result, hresult, hsplice, rfl, rfl⟩
  · rintro ⟨result, hresult, hsplice, rfl, rfl⟩
    exact (Copying.bind_of_ok hresult).trans
      (Copying.bind_of_ok (Copying.lift_eq_ok.mpr ⟨_, hsplice, rfl⟩))

/-- A turn in which the reduced head comes to rest before the elements left. -/
theorem driveTurns_of_not_binds {element : Node} {elements : List Node}
    (hreduce : reduceHead head table = .ok (result, between))
    (hsplice : result.spliceWithin room = .ok result.splice)
    (hbinds : result.splice.1.binds = false) :
    driveTurns reduceHead room budget (turns + 1) head (element :: elements) table
      = driveTurns.settle reduceHead room result.splice.1 (result.splice.2 ++ element :: elements)
          between := by
  rw [driveTurns, Copying.bind_of_ok hreduce,
    Copying.bind_of_ok (Copying.lift_eq_ok.mpr ⟨_, hsplice, rfl⟩)]
  generalize result.splice = spliced at hbinds
  obtain ⟨first, pushed⟩ := spliced
  cases first with
  | abs params body =>
    cases params with
    | nil => rfl
    | cons _ _ => cases hbinds
  | bound _ _ | free _ | hole => rfl

/-- A turn in which the reduced head takes an argument. -/
theorem driveTurns_of_abs {argument : Node} {param : Param} {params : List Param}
    {body : List Node}
    (hreduce : reduceHead head table = .ok (.abs (param :: params) body, between)) :
    driveTurns reduceHead room budget (turns + 1) head (argument :: spine) table
      = (do
          let body ← takeWithin room budget argument body
          driveTurns reduceHead room budget turns (.abs params body) spine) between := by
  rw [driveTurns, Copying.bind_of_ok hreduce]
  cases room with
  | none => rfl
  | some left => cases left <;> rfl

end

/-- A head that was reduced and spliced and takes no argument is left as it is when it is reduced
    once more. -/
theorem Settles.keeps {reduceHead : Node → Copying Node} (hsettles : Settles reduceHead)
    {head result : Node} {table between : NameTable}
    (hreduce : reduceHead head table = .ok (result, between))
    (hbinds : result.splice.1.binds = false) :
    reduceHead result.splice.1 between = .ok (result.splice.1, between) :=
  have hcanonical := (hsettles.canonical hreduce).splice.1.canonical
  hsettles.still hreduce _ hcanonical (isGroup_splice result) hbinds between

/-- What has been spliced once can be spliced once more, which changes nothing. -/
theorem Settles.spliceWithin_again {reduceHead : Node → Copying Node}
    (hsettles : Settles reduceHead) {head result : Node} {room : Room} {table between : NameTable}
    (hreduce : reduceHead head table = .ok (result, between))
    (hsplice : result.spliceWithin room = .ok result.splice) :
    result.splice.1.spliceWithin room = .ok result.splice.1.splice := by
  have hcanonical := (hsettles.canonical hreduce).splice.1.canonical
  have hgroup := isGroup_splice result
  obtain ⟨inner, henter, _⟩ := Outcome.bind_eq_ok.mp hsplice
  rw [splice_of_not_group hgroup, hcanonical.spliceWithin hgroup, henter]
  rfl

/-- Reducing and splicing such a head a last time changes nothing. -/
theorem settle_of_not_binds {reduceHead : Node → Copying Node} (hsettles : Settles reduceHead)
    {head result : Node} {spine : List Node} {room : Room} {table between : NameTable}
    (hreduce : reduceHead head table = .ok (result, between))
    (hsplice : result.spliceWithin room = .ok result.splice)
    (hbinds : result.splice.1.binds = false) :
    driveTurns.settle reduceHead room result.splice.1 spine between
      = .ok ((result.splice.1, spine), between) := by
  have hnothing := splice_of_not_group (isGroup_splice result)
  refine settle_eq_ok_iff.mpr ⟨_, hsettles.keeps hreduce hbinds,
    hsettles.spliceWithin_again hreduce hsplice, ?_, ?_⟩
  · rw [hnothing]
  · rw [hnothing]
    rfl

/-- Turns that are taken drive the head: by induction on the turns. -/
theorem driven_of_driveTurns {reduceHead : Node → Copying Node} (hsettles : Settles reduceHead)
    {room : Room} {budget turns : Nat} {head head' : Node} {spine spine' : List Node}
    {table table' : NameTable} (hturns : spine.length ≤ turns)
    (h : driveTurns reduceHead room budget turns head spine table = .ok ((head', spine'), table')) :
    Driven reduceHead room budget head spine table head' spine' table' := by
  induction turns generalizing head spine table with
  | zero =>
    obtain rfl := List.eq_nil_of_length_eq_zero (Nat.le_zero.mp hturns)
    obtain ⟨result, hresult, hsplice, rfl, rfl⟩ := settle_eq_ok_iff.mp h
    exact .rest hresult hsplice (Or.inl rfl)
  | succ turns ih =>
    match spine with
    | [] =>
      obtain ⟨result, hresult, hsplice, rfl, rfl⟩ := settle_eq_ok_iff.mp h
      exact .rest hresult hsplice (Or.inl rfl)
    | element :: elements =>
      obtain ⟨result, between, hresult, hrest⟩ := Copying.bind_eq_ok.mp h
      cases hbinds : result.splice.1.binds with
      | true =>
        have hsplice := (hsettles.canonical hresult).splice_of_binds hbinds
        rw [hsplice] at hbinds
        obtain ⟨param, params, body, rfl⟩ := exists_abs_of_binds hbinds
        rw [driveTurns_of_abs hresult] at h
        obtain ⟨body', _, htake, h⟩ := Copying.bind_eq_ok.mp h
        exact .consume hresult htake (ih (Nat.le_of_succ_le_succ hturns) h)
      | false =>
        obtain ⟨spliced, _, hspliced, _⟩ := Copying.bind_eq_ok.mp hrest
        obtain ⟨_, hsplice, ⟨⟩⟩ := Copying.lift_eq_ok.mp hspliced
        obtain rfl := eq_splice_of_spliceWithin hsplice
        rw [driveTurns_of_not_binds hresult hsplice hbinds,
          settle_of_not_binds hsettles hresult hsplice hbinds] at h
        obtain ⟨heq, rfl⟩ := Prod.mk.inj (Except.ok.inj h)
        obtain ⟨rfl, rfl⟩ := Prod.mk.inj heq
        exact .rest hresult hsplice (Or.inr hbinds)

/-- A head is driven in as many turns as there are elements: by induction on how it is driven. -/
theorem Driven.driveTurns {reduceHead : Node → Copying Node} (hsettles : Settles reduceHead)
    {room : Room} {budget turns : Nat} {head head' : Node} {spine spine' : List Node}
    {table table' : NameTable} (hturns : spine.length ≤ turns)
    (h : Driven reduceHead room budget head spine table head' spine' table') :
    driveTurns reduceHead room budget turns head spine table = .ok ((head', spine'), table') := by
  induction h generalizing turns with
  | @rest head result spine table table' hresult hsplice hrest =>
    match spine, turns with
    | [], 0 | [], _ + 1 => exact settle_eq_ok_iff.mpr ⟨result, hresult, hsplice, rfl, rfl⟩
    | element :: elements, turns + 1 =>
      have hbinds := hrest.resolve_left (List.cons_ne_nil _ _)
      rw [driveTurns_of_not_binds hresult hsplice hbinds,
        settle_of_not_binds hsettles hresult hsplice hbinds]
  | consume hresult htake _ ih =>
    match turns with
    | turns + 1 =>
      rw [driveTurns_of_abs hresult, Copying.bind_of_ok htake]
      exact ih (Nat.le_of_succ_le_succ hturns)

/-- Taking turns is driving: with as many turns as there are elements none is missing. -/
theorem driveTurns_eq_ok_iff {reduceHead : Node → Copying Node} (hsettles : Settles reduceHead)
    {room : Room} {budget turns : Nat} {head head' : Node} {spine spine' : List Node}
    {table table' : NameTable} (hturns : spine.length ≤ turns) :
    driveTurns reduceHead room budget turns head spine table = .ok ((head', spine'), table')
      ↔ Driven reduceHead room budget head spine table head' spine' table' :=
  ⟨driven_of_driveTurns hsettles hturns, Driven.driveTurns hsettles hturns⟩

/-- Driving ends with the head at rest. -/
theorem Driven.atRest {reduceHead : Node → Copying Node} (hsettles : Settles reduceHead)
    {room : Room} {budget : Nat} {head head' : Node} {spine spine' : List Node}
    {table table' : NameTable}
    (h : Driven reduceHead room budget head spine table head' spine' table') :
    AtRest head' spine' := by
  induction h with
  | consume _ _ _ ih => exact ih
  | @rest _ result spine _ _ hresult _ hrest =>
    have hcanonical := hsettles.canonical hresult
    have hatRest := hcanonical.splice.1
    refine ⟨hatRest.canonical, isGroup_splice result, ?_⟩
    intro hne
    rcases hrest with rfl | hbinds
    · exact hatRest.headAtRest.2 (by simpa using hne)
    · exact hbinds

/-- With larger limits a head is driven the same. -/
theorem Driven.mono {reduceHead reduceHead' : Node → Copying Node}
    (hreduceHead : ∀ node, Copying.Below (reduceHead node) (reduceHead' node)) {room room' : Room}
    (hroom : room.Within room') {budget budget' : Nat} (hbudget : budget ≤ budget')
    {head head' : Node} {spine spine' : List Node} {table table' : NameTable}
    (h : Driven reduceHead room budget head spine table head' spine' table') :
    Driven reduceHead' room' budget' head spine table head' spine' table' := by
  induction h with
  | rest hreduce hsplice hrest =>
    exact .rest (hreduceHead _ hreduce) ((spliceWithin_cut hroom _).eq_ok hsplice) hrest
  | consume hreduce htake _ ih =>
    exact .consume (hreduceHead _ hreduce) ((takeWithin_cut hroom hbudget _ _).below htake) ih

/-! ## Reducing by what it does -/

/-- Reducing an abstraction with a spine drives the head, reduces what is left behind it, and
    collapses the abstraction. Driving is a call inside the reduction, so that it has less room for
    the reduction of the head than there is for those of the other elements. -/
theorem reduceWithin_abs_eq_ok_iff {budget nesting : Nat}
    (hsettles : Settles (reduceWithin budget nesting))
    {params : List Param} {head node' : Node} {spine : List Node} {table table' : NameTable} :
    reduceWithin budget (nesting + 2) (.abs params (head :: spine)) table = .ok (node', table')
      ↔ ∃ head' left between spine',
          Driven (reduceWithin budget nesting) (some nesting) budget head spine table head' left
            between
            ∧ left.mapM (reduceWithin budget (nesting + 1)) between = .ok (spine', table')
            ∧ (Node.abs params (head' :: spine')).collapseWithin (some (nesting + 1))
              = .ok node' := by
  rw [reduceWithin, driveWithin]
  constructor
  · intro h
    obtain ⟨⟨head', left⟩, between, hdrive, h⟩ := Copying.bind_eq_ok.mp h
    obtain ⟨spine', _, hspine, h⟩ := Copying.bind_eq_ok.mp h
    obtain ⟨_, hcollapse, ⟨⟩⟩ := Copying.lift_eq_ok.mp h
    exact ⟨head', left, between, spine', (driveTurns_eq_ok_iff hsettles (Nat.le_refl _)).mp hdrive,
      hspine, hcollapse⟩
  · rintro ⟨head', left, between, spine', hdrive, hspine, hcollapse⟩
    refine (Copying.bind_of_ok
      ((driveTurns_eq_ok_iff hsettles (Nat.le_refl _)).mpr hdrive)).trans ?_
    refine (Copying.bind_of_ok hspine).trans ?_
    exact Copying.lift_eq_ok.mpr ⟨_, hcollapse, rfl⟩

/-- A canonical node that is neither a group nor binds anything is left as it is. -/
theorem reduceWithin_still {budget nesting : Nat} {leaf : Node} (hcanonical : leaf.Canonical)
    (hgroup : leaf.isGroup = false) (hbinds : leaf.binds = false) (table : NameTable) :
    reduceWithin budget (nesting + 1) leaf table = .ok (leaf, table) := by
  match leaf with
  | .abs [] [] | .bound _ _ | .free _ => rfl
  | .abs [] (_ :: _) => cases hgroup
  | .abs (_ :: _) _ => cases hbinds
  | .hole => exact absurd hcanonical id

/-- Reduction settles: by induction on the room, since the reductions nested in it do. -/
theorem reduceWithin_settles (budget nesting : Nat) : Settles (reduceWithin budget nesting) := by
  induction nesting using Nat.strong_induction_on with
  | _ nesting ih =>
    match nesting with
    | 0 => exact ⟨fun h => absurd h Copying.throw_ne_ok, fun h => absurd h Copying.throw_ne_ok⟩
    | nesting + 1 =>
      refine ⟨fun {node result table table'} h => ?_, fun _ leaf => reduceWithin_still⟩
      match node, nesting with
      | .abs params (head :: spine), 0 => cases h
      | .abs params (head :: spine), nesting + 1 =>
        obtain ⟨head', left, between, spine', hdrive, hspine, hcollapse⟩ :=
          (reduceWithin_abs_eq_ok_iff (ih nesting (by omega))).mp h
        obtain rfl := eq_collapse_of_collapseWithin hcollapse
        obtain ⟨hhead, hgroup, hbinds⟩ := hdrive.atRest (ih nesting (by omega))
        have hall := Copying.mapM_forall₂
          (fun _ _ _ _ _ hresult => (ih (nesting + 1) (by omega)).canonical hresult) hspine
        refine canonical_collapse ⟨hgroup, fun hne => hbinds ?_⟩
          (List.forall_mem_cons.mpr ⟨hhead, Copying.forall_mem_of_forall₂ hall⟩)
        rintro rfl
        exact hne (List.forall₂_nil_left_iff.mp hall)
      | .abs params [], _ =>
        obtain ⟨rfl, rfl⟩ := Copying.pure_inj h
        exact canonical_abs.mpr ⟨trivial, by simp, nofun⟩
      | .bound _ _, _ | .free _, _ =>
        obtain ⟨rfl, rfl⟩ := Copying.pure_inj h
        trivial
      | .hole, _ => exact absurd h Copying.throw_ne_ok

/-- What a reduction of an abstraction with a spine has done, when it returns: with the room that is
    left for its elements it would have driven its head as well, and so without a bound for what
    driving is made of. -/
theorem exists_of_reduceWithin_abs {budget nesting : Nat} {params : List Param}
    {head node' : Node} {spine : List Node} {table table' : NameTable}
    (h : reduceWithin budget (nesting + 1) (.abs params (head :: spine)) table
      = .ok (node', table')) :
    ∃ head' left between spine',
      Driven (reduceWithin budget nesting) none budget head spine table head' left between
        ∧ left.mapM (reduceWithin budget nesting) between = .ok (spine', table')
        ∧ node' = (Node.abs params (head' :: spine')).collapse := by
  match nesting with
  | 0 => cases h
  | nesting + 1 =>
    obtain ⟨head', left, between, spine', hdrive, hspine, hcollapse⟩ :=
      (reduceWithin_abs_eq_ok_iff (reduceWithin_settles budget nesting)).mp h
    refine ⟨head', left, between, spine', ?_, hspine, eq_collapse_of_collapseWithin hcollapse⟩
    exact hdrive.mono (reduceWithin_mono (Nat.le_refl budget) (Nat.le_succ nesting))
      (Room.within_none _) (Nat.le_refl budget)

end Node

namespace Expression

/-- An expression is reduced by reducing its tree, with its names as the table to count in. -/
theorem reduce_eq_ok_iff {limits : Limits} {expression reduced : Expression} :
    expression.reduce limits = .ok reduced
      ↔ ∃ root names, expression.root.reduceWithin limits.copying limits.nesting expression.names
          = .ok (root, names) ∧ reduced = { root, names } := by
  unfold reduce Node.reduce StateT.run
  split
  · next root names hrun =>
    rw [hrun]
    constructor
    · rintro ⟨⟩
      exact ⟨root, names, rfl, rfl⟩
    · rintro ⟨_, _, ⟨⟩, rfl⟩
      rfl
  · next hrun => simp [hrun]
  · next hrun => simp [hrun]

/-- Whatever the tree and the limits, a reduction that returns has made the tree canonical. -/
theorem canonical_of_reduce {limits : Limits} {expression reduced : Expression}
    (h : expression.reduce limits = .ok reduced) : reduced.root.Canonical := by
  obtain ⟨root, names, hrun, rfl⟩ := reduce_eq_ok_iff.mp h
  exact (Node.reduceWithin_settles limits.copying limits.nesting).canonical hrun

/-- The head and the argument are groups, of which the one dissolves to take the other. -/
theorem canonical_of_reduce_groups :
    reduce { nesting := 16, copying := 8 }
        { root := .abs [] [.abs [] [.abs [⟨0, 0⟩] [.bound 0 0, .free 1]],
            .abs [] [.abs [] [.free 1]]],
          names := { entries := [⟨"x", 1⟩, ⟨"y", 0⟩] } }
      = .ok { root := .abs [] [.free 1, .free 1], names := { entries := [⟨"x", 1⟩, ⟨"y", 0⟩] } }
    ∧ (Node.abs [] [.free 1, .free 1]).Canonical := by
  have hreduce :
      reduce { nesting := 16, copying := 8 }
        { root := .abs [] [.abs [] [.abs [⟨0, 0⟩] [.bound 0 0, .free 1]],
            .abs [] [.abs [] [.free 1]]],
          names := { entries := [⟨"x", 1⟩, ⟨"y", 0⟩] } }
      = .ok { root := .abs [] [.free 1, .free 1], names := { entries := [⟨"x", 1⟩, ⟨"y", 0⟩] } } :=
    rfl
  exact ⟨hreduce, canonical_of_reduce hreduce⟩

end Expression

end LambdaCalc
