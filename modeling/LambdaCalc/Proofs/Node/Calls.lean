import LambdaCalc.Proofs.Expression.Limits
import LambdaCalc.Proofs.Node.Driving

set_option autoImplicit false

/-! # Reducing a result

A reduction goes down to every leaf of a tree, whether or not there is anything to reduce: one call
inside the other for each level, and another one wherever it drives a head (`Node.calls`). A
reduction that returns has gone down to every leaf of its result, so that the result fits into the
room that was allowed (`Node.calls_le_of_reduceWithin`).

A canonical tree for which the room is enough is put together again as it was: each head comes to
rest at once, each element is left as it is, and no copy is made (`Node.reduceWithin_canonical`).
One that takes more calls than there is room for exceeds the limits (`Expression.reduce_canonical`).
So reducing a result once more changes nothing (`Expression.reduce_reduce`). -/

namespace LambdaCalc

namespace Node

/-! ## Calls nested in one another -/

mutual

/-- How many calls are nested in one another when a canonical tree is reduced. The head of a spine
    is driven, which is a call between that for the abstraction and that for the head. -/
def calls : Node → Nat
  | .abs _ (head :: spine) => max (head.calls + 1) (callsList spine) + 1
  | .abs _ [] | .bound .. | .free _ | .hole => 1

/-- How many calls are nested in one another when the elements behind a head are reduced. -/
def callsList : List Node → Nat
  | [] => 0
  | node :: nodes => max node.calls (callsList nodes)

end

theorem callsList_le_iff {nodes : List Node} {bound : Nat} :
    callsList nodes ≤ bound ↔ ∀ node ∈ nodes, node.calls ≤ bound := by
  induction nodes with
  | nil => simp [callsList]
  | cons node nodes ih => rw [callsList, Nat.max_le, ih, List.forall_mem_cons]

theorem calls_abs_le_iff {params : List Param} {head : Node} {spine : List Node} {bound : Nat} :
    (Node.abs params (head :: spine)).calls ≤ bound + 1
      ↔ head.calls + 1 ≤ bound ∧ ∀ node ∈ spine, node.calls ≤ bound := by
  rw [calls, Nat.succ_le_succ_iff, Nat.max_le, callsList_le_iff]

theorem calls_pos (node : Node) : 0 < node.calls := by
  match node with
  | .abs _ (_ :: _) => exact Nat.succ_pos _
  | .abs _ [] | .bound _ _ | .free _ | .hole => exact Nat.one_pos

/-- An element of a spine takes fewer calls than the abstraction. -/
theorem calls_lt_of_mem {params : List Param} {spine : List Node} :
    ∀ node ∈ spine, node.calls < (Node.abs params spine).calls := by
  match spine with
  | [] => exact List.forall_mem_nil _
  | head :: spine =>
    rw [calls]
    obtain ⟨hhead, hspine⟩ := Nat.max_le.mp (Nat.le_refl (max (head.calls + 1) (callsList spine)))
    refine List.forall_mem_cons.mpr ⟨by omega, fun node hmem => ?_⟩
    exact Nat.lt_succ_of_le (callsList_le_iff.mp hspine node hmem)

/-! ## Moving takes no more calls -/

theorem calls_unshift (level : Int) (node : Node) : (node.unshift level).calls = node.calls := by
  induction node generalizing level with
  | abs params spine ih =>
    match spine with
    | [] => rfl
    | head :: spine =>
      obtain ⟨hhead, hspine⟩ := List.forall_mem_cons.mp ih
      have hbehind : callsList (unshiftList (level + 1) spine) = callsList spine := by
        refine Nat.le_antisymm (callsList_le_iff.mpr ?_) (callsList_le_iff.mpr ?_)
        · rw [unshiftList_eq_map, List.forall_mem_map]
          exact fun node hmem => (hspine node hmem _).trans_le
            (callsList_le_iff.mp (Nat.le_refl _) node hmem)
        · intro node hmem
          rw [← hspine node hmem (level + 1), unshiftList_eq_map]
          exact callsList_le_iff.mp (Nat.le_refl _) _ (List.mem_map.mpr ⟨node, hmem, rfl⟩)
      rw [unshift, unshiftList, calls, calls, hhead, hbehind]
  | bound | free | hole => rfl

theorem calls_unshiftList_le {nodes : List Node} {bound : Nat} (level : Int)
    (h : ∀ node ∈ nodes, node.calls ≤ bound) :
    ∀ node ∈ unshiftList level nodes, node.calls ≤ bound := by
  rw [unshiftList_eq_map]
  exact List.forall_mem_map.mpr fun node hmem => (calls_unshift level node).trans_le (h node hmem)

/-- Neither a spliced head nor an element that it pushes takes more calls than it has taken. -/
theorem calls_splice_le (node : Node) :
    node.splice.1.calls ≤ node.calls
      ∧ ∀ element ∈ node.splice.2, element.calls ≤ node.calls := by
  induction node with
  | abs params spine ih =>
    match params, spine with
    | [], first :: others =>
      have hspine : ∀ element ∈ first :: others,
          element.calls ≤ (Node.abs [] (first :: others)).calls := fun element hmem =>
        Nat.le_of_lt (calls_lt_of_mem element hmem)
      obtain ⟨hfirst, hothers⟩ := List.forall_mem_cons.mp hspine
      obtain ⟨hhead, hpushed⟩ := ih first List.mem_cons_self
      rw [splice, calls_unshift]
      refine ⟨hhead.trans hfirst, List.forall_mem_append.mpr ⟨?_, calls_unshiftList_le 0 hothers⟩⟩
      exact calls_unshiftList_le 0 fun element hmem => (hpushed element hmem).trans hfirst
    | [], [] | _ :: _, _ => exact ⟨Nat.le_refl _, List.forall_mem_nil _⟩
  | bound | free | hole => exact ⟨Nat.le_refl _, List.forall_mem_nil _⟩

theorem calls_collapse_le (node : Node) : node.collapse.calls ≤ node.calls := by
  unfold collapse
  split
  · rw [calls_unshift]
    exact Nat.le_of_lt (calls_lt_of_mem _ List.mem_cons_self)
  · exact Nat.le_refl _

/-! ## Results fit into the room -/

/-- The head that is at rest in the end has been reduced. -/
theorem Driven.calls_le {reduceHead : Node → Copying Node} {room : Room} {budget bound : Nat}
    (hreduceHead : ∀ node table result table', reduceHead node table = .ok (result, table') →
      result.calls ≤ bound)
    {head head' : Node} {spine spine' : List Node} {table table' : NameTable}
    (h : Driven reduceHead room budget head spine table head' spine' table') :
    head'.calls ≤ bound := by
  induction h with
  | rest hreduce _ _ => exact (calls_splice_le _).1.trans (hreduceHead _ _ _ _ hreduce)
  | consume _ _ _ ih => exact ih

/-- What a reduction returns takes no more calls than there was room for: by induction on the
    room. -/
theorem calls_le_of_reduceWithin {budget nesting : Nat} {node result : Node}
    {table table' : NameTable}
    (h : reduceWithin budget nesting node table = .ok (result, table')) :
    result.calls ≤ nesting := by
  induction nesting using Nat.strong_induction_on generalizing node result table table' with
  | _ nesting ih =>
    match node, nesting with
    | _, 0 => exact absurd h Copying.throw_ne_ok
    | .abs _ (_ :: _), 1 => cases h
    | .abs params (head :: spine), nesting + 2 =>
      obtain ⟨head', left, between, spine', hdrive, hspine, hcollapse⟩ :=
        (reduceWithin_abs_eq_ok_iff (reduceWithin_settles budget nesting)).mp h
      obtain rfl := eq_collapse_of_collapseWithin hcollapse
      have hhead := hdrive.calls_le fun _ _ _ _ => ih nesting (by omega)
      have helements := Copying.mapM_forall₂
        (fun _ _ _ _ _ hresult => ih (nesting + 1) (by omega) hresult) hspine
      refine (calls_collapse_le _).trans (calls_abs_le_iff.mpr ⟨Nat.succ_le_succ hhead, ?_⟩)
      exact Copying.forall_mem_of_forall₂ helements
    | .abs _ [], nesting + 1 | .bound _ _, nesting + 1 | .free _, nesting + 1 =>
      obtain ⟨rfl, rfl⟩ := Copying.pure_inj h
      exact Nat.succ_le_succ (Nat.zero_le nesting)
    | .hole, _ + 1 => exact absurd h Copying.throw_ne_ok

/-! ## Canonical trees are left as they are -/

/-- A canonical tree does not collapse. -/
theorem Canonical.collapseWithin {node : Node} (h : node.Canonical) (room : Room) :
    node.collapseWithin room = .ok node := by
  match node with
  | .abs [] [element] => exact absurd ⟨rfl, rfl⟩ (canonical_abs.mp h).2.1
  | .abs [] [] | .abs [] (_ :: _ :: _) | .abs (_ :: _) _ | .bound _ _ | .free _ | .hole => rfl

/-- With enough room a canonical tree is left as it is, and no copy is made: by induction on the
    room. -/
theorem reduceWithin_canonical {budget nesting : Nat} {node : Node} (hcanonical : node.Canonical)
    (hcalls : node.calls ≤ nesting) (table : NameTable) :
    reduceWithin budget nesting node table = .ok (node, table) := by
  induction nesting using Nat.strong_induction_on generalizing node with
  | _ nesting ih =>
    obtain ⟨nesting, rfl⟩ := Nat.exists_eq_add_of_le' (node.calls_pos.trans_le hcalls)
    match node with
    | .abs params (head :: spine) =>
      obtain ⟨hrest, _, helements⟩ := canonical_abs.mp hcanonical
      obtain ⟨hhead, hspine⟩ := List.forall_mem_cons.mp helements
      obtain ⟨hcall, hcalls⟩ := calls_abs_le_iff.mp hcalls
      obtain ⟨nesting, rfl⟩ := Nat.exists_eq_add_of_le' ((Nat.succ_pos _).trans_le hcall)
      have hcall := Nat.le_of_succ_le_succ hcall
      have hsplice := splice_of_not_group hrest.1
      -- The call that is left for splicing is enough, since there is nothing to splice.
      have hroom : head.spliceWithin (some nesting) = .ok head.splice := by
        rw [hsplice]
        obtain ⟨nesting, rfl⟩ := Nat.exists_eq_add_of_le' (head.calls_pos.trans_le hcall)
        exact hhead.spliceWithin hrest.1 _
      have hdrive : Driven (reduceWithin budget nesting) (some nesting) budget head spine table head
          spine table := by
        have hbinds : spine = [] ∨ head.splice.1.binds = false := by
          rw [hsplice]
          exact or_iff_not_imp_left.mpr hrest.2
        simpa only [hsplice, List.nil_append] using
          Driven.rest (ih nesting (by omega) hhead hcall) hroom hbinds
      refine (reduceWithin_abs_eq_ok_iff (reduceWithin_settles budget nesting)).mpr
        ⟨head, spine, table, spine, hdrive, Copying.mapM_self fun element hmem =>
          ih (nesting + 1) (by omega) (hspine element hmem) (hcalls element hmem), ?_⟩
      rw [hcanonical.collapseWithin]
    | .abs params [] | .bound _ _ | .free _ => rfl
    | .hole => exact absurd hcanonical id

/-- Whatever the room, a canonical tree is not changed. -/
theorem eq_of_reduceWithin_canonical {budget nesting : Nat} {node result : Node}
    {table table' : NameTable} (hcanonical : node.Canonical)
    (h : reduceWithin budget nesting node table = .ok (result, table')) :
    result = node ∧ table' = table := by
  have hmono := reduceWithin_mono (Nat.le_refl budget) (Nat.le_max_left nesting node.calls) node h
  rw [reduceWithin_canonical hcanonical (Nat.le_max_right nesting node.calls)] at hmono
  obtain ⟨rfl, rfl⟩ := Prod.mk.inj (Except.ok.inj hmono)
  exact ⟨rfl, rfl⟩

end Node

namespace Expression

/-- Reducing a canonical expression changes nothing, if there is room for the calls that it takes,
    and otherwise outgrows the room. -/
theorem reduce_canonical {expression : Expression} (h : expression.root.Canonical)
    (limits : Limits) :
    expression.reduce limits
      = if expression.root.calls ≤ limits.nesting then .ok expression
        else .error (.ofKind .expressionSizeLimit) := by
  have hreturns (limits' : Limits) (hcalls : expression.root.calls ≤ limits'.nesting) :
      expression.reduce limits' = .ok expression :=
    reduce_eq_ok_iff.mpr ⟨_, _, Node.reduceWithin_canonical h hcalls expression.names, rfl⟩
  split
  · next hcalls => exact hreturns limits hcalls
  · next hcalls =>
    -- With room for all of its calls it returns, so these limits cut it off.
    let enough : Limits := { nesting := expression.root.calls, copying := limits.copying }
    have hle : limits.nesting ≤ enough.nesting := Nat.le_of_not_le hcalls
    refine (reduce_eq_or_cut hle (Nat.le_refl _) expression).resolve_left fun heq => ?_
    rw [hreturns enough (Nat.le_refl _)] at heq
    obtain ⟨_, _, hrun, rfl⟩ := reduce_eq_ok_iff.mp heq
    exact hcalls (Node.calls_le_of_reduceWithin hrun)

/-- Reducing what a reduction has returned changes nothing, neither a copy id nor a counter, within
    any limits that it fits into, those of the first reduction among them. Within others it outgrows
    them. -/
theorem reduce_reduce {limits : Limits} {expression reduced : Expression}
    (h : expression.reduce limits = .ok reduced) :
    reduced.root.calls ≤ limits.nesting
      ∧ ∀ limits' : Limits, reduced.reduce limits'
          = if reduced.root.calls ≤ limits'.nesting then .ok reduced
            else .error (.ofKind .expressionSizeLimit) := by
  obtain ⟨root, names, hrun, rfl⟩ := reduce_eq_ok_iff.mp h
  exact ⟨Node.calls_le_of_reduceWithin hrun,
    reduce_canonical ((Node.reduceWithin_settles limits.copying limits.nesting).canonical hrun)⟩

/-- `(λx.z (x x)) (λy.y)` is reduced to `z (λy.y)`, where the `y` is the third copy. To reduce this
    takes four calls in one another, so that it is left as it is with room for four, and outgrows a
    room for three. -/
theorem reduce_reduce_copies :
    reduce { nesting := 16, copying := 8 } {
        root := .abs [] [.abs [⟨0, 0⟩] [.free 2, .abs [] [.bound 1 0, .bound 1 0]],
          .abs [⟨1, 0⟩] [.bound 0 0]],
        names := { entries := [⟨"x", 1⟩, ⟨"y", 1⟩, ⟨"z", 0⟩] } }
      = .ok {
        root := .abs [] [.free 2, .abs [⟨1, 3⟩] [.bound 0 0]],
        names := { entries := [⟨"x", 1⟩, ⟨"y", 4⟩, ⟨"z", 0⟩] } }
    ∧ reduce { nesting := 4, copying := 0 } {
        root := .abs [] [.free 2, .abs [⟨1, 3⟩] [.bound 0 0]],
        names := { entries := [⟨"x", 1⟩, ⟨"y", 4⟩, ⟨"z", 0⟩] } }
      = .ok {
        root := .abs [] [.free 2, .abs [⟨1, 3⟩] [.bound 0 0]],
        names := { entries := [⟨"x", 1⟩, ⟨"y", 4⟩, ⟨"z", 0⟩] } }
    ∧ reduce { nesting := 3, copying := 0 } {
        root := .abs [] [.free 2, .abs [⟨1, 3⟩] [.bound 0 0]],
        names := { entries := [⟨"x", 1⟩, ⟨"y", 4⟩, ⟨"z", 0⟩] } }
      = .error (.ofKind .expressionSizeLimit) := by
  have hreduce :
      reduce { nesting := 16, copying := 8 } {
        root := .abs [] [.abs [⟨0, 0⟩] [.free 2, .abs [] [.bound 1 0, .bound 1 0]],
          .abs [⟨1, 0⟩] [.bound 0 0]],
        names := { entries := [⟨"x", 1⟩, ⟨"y", 1⟩, ⟨"z", 0⟩] } }
      = .ok {
        root := .abs [] [.free 2, .abs [⟨1, 3⟩] [.bound 0 0]],
        names := { entries := [⟨"x", 1⟩, ⟨"y", 4⟩, ⟨"z", 0⟩] } } := rfl
  refine ⟨hreduce, ?_, ?_⟩
  · exact ((reduce_reduce hreduce).2 { nesting := 4, copying := 0 }).trans (if_pos (by decide))
  · exact ((reduce_reduce hreduce).2 { nesting := 3, copying := 0 }).trans (if_neg (by decide))

end Expression

end LambdaCalc
