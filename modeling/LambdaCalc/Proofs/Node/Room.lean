import LambdaCalc.Node.Reduce
import LambdaCalc.Proofs.Stops

set_option autoImplicit false

/-! # How much room is enough

The calls that a reduction is made of go down into trees, so that the levels of a tree
(`Node.levels`) say how many of them are nested in one another: one for each level to unshift a
tree, and two for each level to copy it or to substitute in it, with a last one to check the nesting
of a copy. With as much room as that they do what they do without a bound. -/

namespace LambdaCalc.Node

/-! ## Levels -/

mutual

/-- How many nodes stand above one another in a tree. -/
def levels : Node → Nat
  | .abs _ spine => levelsList spine + 1
  | .bound .. | .free _ | .hole => 1

/-- How many nodes stand above one another in the elements of a spine. -/
def levelsList : List Node → Nat
  | [] => 0
  | node :: nodes => max node.levels (levelsList nodes)

end

theorem levelsList_le_iff {nodes : List Node} {bound : Nat} :
    levelsList nodes ≤ bound ↔ ∀ node ∈ nodes, node.levels ≤ bound := by
  induction nodes with
  | nil => simp [levelsList]
  | cons node nodes ih => rw [levelsList, Nat.max_le, ih, List.forall_mem_cons]

theorem levels_le_levelsList {nodes : List Node} : ∀ node ∈ nodes, node.levels ≤ levelsList nodes :=
  levelsList_le_iff.mp (Nat.le_refl _)

theorem levels_pos (node : Node) : 0 < node.levels := by
  cases node with
  | abs _ _ => exact Nat.succ_pos _
  | bound _ _ | free _ | hole => exact Nat.one_pos

/-! ## Whole trees -/

mutual

/-- Whether a term is missing somewhere in a tree. -/
def hasHole : Node → Bool
  | .abs _ spine => anyHole spine
  | .bound .. | .free _ => false
  | .hole => true

/-- Whether a term is missing somewhere in the elements of a spine. -/
def anyHole : List Node → Bool
  | [] => false
  | node :: nodes => node.hasHole || anyHole nodes

end

theorem hasHole_abs {params : List Param} {spine : List Node} :
    (Node.abs params spine).hasHole = false ↔ ∀ node ∈ spine, node.hasHole = false := by
  rw [hasHole]
  induction spine with
  | nil => simp [anyHole]
  | cons node nodes ih => rw [anyHole, Bool.or_eq_false_iff, ih, List.forall_mem_cons]

/-! ## Unshifting, splicing and collapsing -/

variable {room room' : Room} {left : Nat}

theorem visitList_congr {nodes : List Node}
    (h : ∀ node ∈ nodes, node.visit room = node.visit room') :
    visitList room nodes = visitList room' nodes := by
  induction nodes with
  | nil => rfl
  | cons node nodes ih =>
    obtain ⟨hfirst, hothers⟩ := List.forall_mem_cons.mp h
    rw [visitList, visitList, hfirst, ih hothers]

theorem visitList_eq_ok {nodes : List Node} (h : ∀ node ∈ nodes, node.visit room = .ok ()) :
    visitList room nodes = .ok () := by
  induction nodes with
  | nil => rfl
  | cons node nodes ih =>
    obtain ⟨hfirst, hothers⟩ := List.forall_mem_cons.mp h
    rw [visitList, hfirst]
    exact ih hothers

theorem visit_of_levels_le {node : Node} (h : node.levels ≤ left) :
    node.visit (some left) = node.visit none := by
  obtain ⟨left, rfl⟩ := Nat.exists_eq_add_of_le' (node.levels_pos.trans_le h)
  induction node generalizing left with
  | abs params spine ih =>
    rw [levels, Nat.succ_le_succ_iff, levelsList_le_iff] at h
    rw [visit, visit]
    show visitList (some left) spine = visitList none spine
    refine visitList_congr fun node hmem => ?_
    have hlevels := h node hmem
    obtain ⟨left, rfl⟩ := Nat.exists_eq_add_of_le' (node.levels_pos.trans_le hlevels)
    exact ih node hmem left hlevels
  | bound _ _ | free _ | hole => rfl

/-- A whole tree can be gone through if there is no bound. -/
theorem visit_none {node : Node} (h : node.hasHole = false) : node.visit none = .ok () := by
  induction node with
  | abs params spine ih =>
    rw [visit]
    exact visitList_eq_ok fun node hmem => ih node hmem (hasHole_abs.mp h node hmem)
  | bound _ _ | free _ => rfl
  | hole => cases h

theorem visitSpliced_of_levels_le {head : Node} (h : head.levels ≤ left) :
    visitSpliced (some left) head = visitSpliced none head := by
  obtain ⟨left, rfl⟩ := Nat.exists_eq_add_of_le' (head.levels_pos.trans_le h)
  induction head with
  | abs params spine ih =>
    match params, spine with
    | [], first :: others =>
      have hlevels := levelsList_le_iff.mp (Nat.le_of_succ_le_succ h)
      have hfirst := (hlevels first List.mem_cons_self).trans (Nat.le_succ left)
      have hvisited : visitList (some left) (first :: others).reverse
          = visitList none (first :: others).reverse :=
        visitList_congr fun node hmem =>
          visit_of_levels_le (hlevels node (List.mem_reverse.mp hmem))
      rw [visitSpliced, visitSpliced, ih first List.mem_cons_self hfirst]
      show (visitList (some left) _ >>= _) = (visitList none _ >>= _)
      rw [hvisited]
    | [], [] | _ :: _, _ => rfl
  | bound _ _ | free _ | hole => rfl

theorem visitSpliced_none {head : Node} (h : head.hasHole = false) :
    visitSpliced none head = .ok () := by
  induction head with
  | abs params spine ih =>
    match params, spine with
    | [], first :: others =>
      have hwhole := hasHole_abs.mp h
      have hvisited : visitList none (first :: others).reverse = .ok () :=
        visitList_eq_ok fun node hmem => visit_none (hwhole node (List.mem_reverse.mp hmem))
      rw [visitSpliced]
      show (visitList none _ >>= _) = _
      rw [hvisited]
      exact ih first List.mem_cons_self (hwhole first List.mem_cons_self)
    | [], [] | _ :: _, _ => rfl
  | bound _ _ | free _ => rfl
  | hole => cases h

theorem spliceWithin_of_levels_lt {head : Node} (h : head.levels < left) :
    head.spliceWithin (some left) = head.spliceWithin none := by
  obtain ⟨left, rfl⟩ := Nat.exists_eq_add_of_le' (Nat.one_le_of_lt h)
  show (visitSpliced (some left) head >>= _) = (visitSpliced none head >>= _)
  rw [visitSpliced_of_levels_le (Nat.le_of_lt_succ h)]

/-- A head that is spliced is spliced the same in any room. -/
theorem eq_splice_of_spliceWithin {head : Node} {spliced : Node × List Node}
    (h : head.spliceWithin room = .ok spliced) : spliced = head.splice := by
  obtain ⟨_, _, h⟩ := Outcome.bind_eq_ok.mp h
  obtain ⟨_, _, h⟩ := Outcome.bind_eq_ok.mp h
  exact (Except.ok.inj h).symm

theorem spliceWithin_none {head : Node} (h : head.hasHole = false) :
    head.spliceWithin none = .ok head.splice := by
  show (visitSpliced none head >>= _) = _
  rw [visitSpliced_none h]
  rfl

theorem collapseWithin_of_levels_le {node : Node} (h : node.levels ≤ left) :
    node.collapseWithin (some left) = node.collapseWithin none := by
  match node with
  | .abs [] [element] =>
    obtain ⟨left, rfl⟩ := Nat.exists_eq_add_of_le' ((levels_pos _).trans_le h)
    have hlevels := levelsList_le_iff.mp (Nat.le_of_succ_le_succ h) element List.mem_cons_self
    show (element.visit (some left) >>= _) = (element.visit none >>= _)
    rw [visit_of_levels_le hlevels]
  | .abs [] [] | .abs [] (_ :: _ :: _) | .abs (_ :: _) _ | .bound _ _ | .free _ | .hole => rfl

/-- An abstraction that is collapsed is collapsed the same in any room. -/
theorem eq_collapse_of_collapseWithin {node node' : Node}
    (h : node.collapseWithin room = .ok node') : node' = node.collapse := by
  match node with
  | .abs [] [element] =>
    obtain ⟨_, _, h⟩ := Outcome.bind_eq_ok.mp h
    obtain ⟨_, _, h⟩ := Outcome.bind_eq_ok.mp h
    exact (Except.ok.inj h).symm
  | .abs [] [] | .abs [] (_ :: _ :: _) | .abs (_ :: _) _ | .bound _ _ | .free _ | .hole =>
    exact (Except.ok.inj h).symm

theorem collapseWithin_none {node : Node} (h : node.hasHole = false) :
    node.collapseWithin none = .ok node.collapse := by
  match node with
  | .abs [] [element] =>
    show (element.visit none >>= _) = _
    rw [visit_none (hasHole_abs.mp h element List.mem_cons_self)]
    rfl
  | .abs [] [] | .abs [] (_ :: _ :: _) | .abs (_ :: _) _ | .bound _ _ | .free _ | .hole => rfl

/-! ## Copying and substituting -/

theorem copyParams_of_pos (params : List Param) :
    Param.copyListWithin (some (left + 1)) params = Param.copyList params := by
  induction params with
  | nil => rfl
  | cons param params ih =>
    rw [Param.copyList_cons, ← ih]
    rfl

theorem copyWithin_of_levels_lt {budget : Nat} {offset level : Int} {node : Node}
    (h : 2 * node.levels < left) :
    node.copyWithin (some left) budget offset level = node.copy budget offset level := by
  obtain ⟨left, rfl⟩ : ∃ inner, left = inner + 3 := ⟨left - 3, by have := node.levels_pos; omega⟩
  induction node generalizing level left with
  | abs params spine ih =>
    rw [levels] at h
    -- The abstraction has used up two calls, which is what a level takes.
    have hspine : copyListWithin (some (left + 1)) budget offset (level + 1) spine
        = spine.mapM (copy budget offset (level + 1)) := by
      rw [copyListWithin_eq_mapM]
      refine Copying.mapM_congr fun node hmem => ?_
      have hlevels := levels_le_levelsList node hmem
      obtain ⟨left, rfl⟩ : ∃ inner, left = inner + 2 :=
        ⟨left - 2, by have := node.levels_pos; omega⟩
      exact ih node hmem left (by omega)
    rw [copy_abs, ← hspine, ← copyParams_of_pos]
    rfl
  | bound _ _ | free _ | hole => rfl

theorem substituteWithin_of_levels_lt {budget : Nat} {argument : Node} {level : Int} {node : Node}
    (h : 2 * node.levels + 2 * argument.levels < left) :
    substituteWithin (some left) budget argument level node
      = substitute budget argument level node := by
  obtain ⟨left, rfl⟩ : ∃ inner, left = inner + 2 := ⟨left - 2, by have := node.levels_pos; omega⟩
  induction node generalizing level left with
  | abs params spine ih =>
    rw [levels] at h
    have hspine : substituteListWithin (some left) budget argument (level + 1) spine
        = spine.mapM (substitute budget argument (level + 1)) := by
      rw [substituteListWithin_eq_mapM]
      refine Copying.mapM_congr fun node hmem => ?_
      have hlevels := levels_le_levelsList node hmem
      obtain ⟨left, rfl⟩ : ∃ inner, left = inner + 2 :=
        ⟨left - 2, by have := node.levels_pos; omega⟩
      exact ih node hmem left (by omega)
    rw [substitute_abs, ← hspine]
    rfl
  | bound depth position =>
    by_cases hdepth : depth = level
    · subst hdepth
      cases position with
      | zero =>
        have hcopy : argument.copyWithin (some (left + 1)) budget depth 0
            = argument.copy budget depth 0 := copyWithin_of_levels_lt (by rw [levels] at h; omega)
        rw [substitute_bound_zero, ← hcopy]
        exact if_pos rfl
      | succ position => exact (if_pos rfl).trans substitute_bound_succ.symm
    · rw [substitute_bound_of_ne hdepth]
      exact if_neg hdepth
  | free _ | hole => rfl

/-- What becomes of a body that takes an argument does not depend on the room, if that is enough. -/
theorem takeWithin_of_levels_lt {budget : Nat} {argument : Node} {body : List Node}
    (h : 2 * levelsList body + 2 * argument.levels + 1 < left) :
    takeWithin (some left) budget argument body = substituteList budget argument 0 body := by
  obtain ⟨left, rfl⟩ := Nat.exists_eq_add_of_le' (Nat.one_le_of_lt h)
  rw [substituteList_eq_mapM]
  show substituteListWithin (some left) budget argument 0 body = _
  rw [substituteListWithin_eq_mapM]
  refine Copying.mapM_congr fun node hmem => substituteWithin_of_levels_lt ?_
  have hlevels := levels_le_levelsList node hmem
  omega

end LambdaCalc.Node
