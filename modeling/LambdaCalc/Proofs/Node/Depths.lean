import LambdaCalc.Proofs.Node.Substitute

set_option autoImplicit false

/-! # What moving a tree does to its references

A tree that is moved keeps its shape. What becomes of a reference in it depends on nothing but its
depth and the level at which it stands (`Node.mapDepths`). Both ways to move a tree are of this
kind: leaving an abstraction takes a level away from the references that reach past it
(`unshift_eq_mapDepths`), and a copy is raised by the levels that it is put further in
(`copy_bare`). The one undoes the other at every level, so that a copy that leaves as many
abstractions as it has been put into is the original again (`iterate_unshift_alike`). -/

namespace LambdaCalc.Node

/-! ## Changing depths -/

mutual

/-- Change the depth of every reference in a tree, by the level at which the reference stands: that
    of the root is `level`, and each abstraction of the tree adds one. -/
def mapDepths (f : (level depth : Int) → Int) (level : Int) : Node → Node
  | .abs params spine => .abs params (mapDepthsList f (level + 1) spine)
  | .bound depth position => .bound (f level depth) position
  | .free name => .free name
  | .hole => .hole

/-- Change the depth of every reference in the elements of a spine. -/
def mapDepthsList (f : (level depth : Int) → Int) (level : Int) : List Node → List Node
  | [] => []
  | node :: nodes => node.mapDepths f level :: mapDepthsList f level nodes

end

variable {f g : (level depth : Int) → Int}

theorem mapDepths_abs (level : Int) (params : List Param) (spine : List Node) :
    (Node.abs params spine).mapDepths f level
      = .abs params (spine.map (mapDepths f (level + 1))) := by
  have hlist (level : Int) (nodes : List Node) :
      mapDepthsList f level nodes = nodes.map (mapDepths f level) := by
    induction nodes with
    | nil => rfl
    | cons node nodes ih => rw [mapDepthsList, ih, List.map_cons]
  rw [mapDepths, hlist]

/-- Two changes in a row are one. -/
theorem mapDepths_mapDepths (level : Int) (node : Node) :
    (node.mapDepths f level).mapDepths g level
      = node.mapDepths (fun level depth => g level (f level depth)) level := by
  induction node generalizing level with
  | abs params spine ih =>
    rw [mapDepths_abs, mapDepths_abs, mapDepths_abs, List.map_map]
    exact congrArg (Node.abs params)
      (List.map_congr_left fun element hmem => ih element hmem (level + 1))
  | bound _ _ | free _ | hole => rfl

theorem mapDepths_eq_self (h : ∀ level depth, f level depth = depth) (level : Int) (node : Node) :
    node.mapDepths f level = node := by
  induction node generalizing level with
  | abs params spine ih =>
    rw [mapDepths_abs, List.map_congr_left fun element hmem => ih element hmem (level + 1),
      List.map_id']
  | bound depth position => rw [mapDepths, h]
  | free _ | hole => rfl

theorem bare_abs (params : List Param) (spine : List Node) :
    (Node.abs params spine).bare
      = .abs ((params.map (·.name)).map ({ name := · })) (spine.map bare) := by
  rw [bare, bareList_eq_map, List.map_map]
  rfl

/-- Copy ids do not matter to depths. -/
theorem bare_mapDepths (level : Int) (node : Node) :
    (node.mapDepths f level).bare = node.bare.mapDepths f level := by
  induction node generalizing level with
  | abs params spine ih =>
    have hspine : (spine.map (mapDepths f (level + 1))).map bare
        = (spine.map bare).map (mapDepths f (level + 1)) := by
      rw [List.map_map, List.map_map]
      exact List.map_congr_left fun element hmem => ih element hmem (level + 1)
    rw [mapDepths_abs, bare_abs, bare_abs, mapDepths_abs, hspine]
  | bound _ _ | free _ | hole => rfl

/-! ## Leaving abstractions -/

/-- What becomes of a depth at a level when one of the levels around the tree is taken away. -/
def loweredDepth (level depth : Int) : Int := if level < depth then depth - 1 else depth

theorem unshift_eq_mapDepths (level : Int) (node : Node) :
    node.unshift level = node.mapDepths loweredDepth level := by
  induction node generalizing level with
  | abs params spine ih =>
    rw [unshift, unshiftList_eq_map, mapDepths_abs]
    exact congrArg (Node.abs params)
      (List.map_congr_left fun element hmem => ih element hmem (level + 1))
  | bound _ _ | free _ | hole => rfl

/-- Leaving several abstractions lowers each depth as many times. -/
theorem iterate_unshift (level : Int) (count : Nat) (node : Node) :
    (unshift level)^[count] node
      = node.mapDepths (fun level => (loweredDepth level)^[count]) level := by
  induction count generalizing node with
  | zero => exact (mapDepths_eq_self (fun _ _ => rfl) level node).symm
  | succ count ih =>
    rw [Function.iterate_succ_apply, ih, unshift_eq_mapDepths, mapDepths_mapDepths]
    rfl

/-! ## Being copied -/

/-- What becomes of a depth at a level when the tree is put so many levels further in: only
    references out of the tree have these levels to cross. -/
def raisedDepth (count level depth : Int) : Int := if depth < level then depth else depth + count

/-- A copy is the tree with its references raised, but for copy ids. -/
theorem copy_bare {budget : Nat} {offset level : Int} {node node' : Node}
    {table table' : NameTable} (h : node.copy budget offset level table = .ok (node', table')) :
    node'.bare = (node.mapDepths (raisedDepth (offset + 1)) level).bare := by
  induction node generalizing level node' table table' with
  | abs params spine ih =>
    obtain ⟨params', _, spine', hparams, hspine, rfl⟩ := exists_of_copy_abs h
    have hnames := (copyParams_ensures params hparams).1
    rw [copyList_eq_mapM] at hspine
    have helements := Copying.mapM_forall₂
      (fun element hmem _ _ _ hcopy => ih element hmem hcopy) hspine
    have hbare : spine'.map bare
        = (spine.map (mapDepths (raisedDepth (offset + 1)) (level + 1))).map bare := by
      rw [List.map_map, ← List.forall₂_eq_eq_eq, List.forall₂_map_left_iff,
        List.forall₂_map_right_iff]
      exact helements.flip
    rw [mapDepths_abs, bare_abs, bare_abs, hnames, hbare]
  | bound depth position =>
    obtain ⟨rfl, rfl⟩ := eq_of_copy_bound h
    rw [mapDepths, raisedDepth, ← Int.add_assoc]
  | free name =>
    obtain ⟨rfl, rfl⟩ := eq_of_copy_free h
    rfl
  | hole => exact absurd h Copying.throw_ne_ok

/-! ## Leaving after being copied -/

/-- At each level a depth that is lowered as often as it has been raised is what it was. -/
theorem iterate_loweredDepth (level depth : Int) (count : Nat) :
    (loweredDepth level)^[count] (raisedDepth count level depth) = depth := by
  induction count with
  | zero =>
    rw [Function.iterate_zero_apply, raisedDepth]
    split_ifs <;> omega
  | succ count ih =>
    -- Lowered once, the depth is as if it had been raised one level less.
    have hlowered : loweredDepth level (raisedDepth (count + 1 : Nat) level depth)
        = raisedDepth count level depth := by
      unfold loweredDepth raisedDepth
      split_ifs <;> omega
    rw [Function.iterate_succ_apply, hlowered, ih]

/-- A copy that leaves as many abstractions as it has been put further in is the original, but for
    copy ids; whatever its references address, and from whatever level on they leave it. -/
theorem iterate_unshift_alike {budget passes : Nat} {offset level : Int} {node node' : Node}
    {table table' : NameTable} (hpasses : (passes : Int) = offset + 1)
    (h : node.copy budget offset level table = .ok (node', table')) :
    ((unshift level)^[passes] node').alike node = true := by
  rw [alike, decide_eq_true_eq, iterate_unshift, bare_mapDepths, copy_bare h, ← bare_mapDepths,
    mapDepths_mapDepths, ← hpasses]
  rw [mapDepths_eq_self fun level depth => iterate_loweredDepth level depth passes]

/-- In a copy that is put three levels further in, the references that leave the tree are raised,
    and the others are not, although one of them addresses no parameter. -/
theorem iterate_unshift_alike_dangling :
    ((3 : Nat) : Int) = 2 + 1
      ∧ (Node.abs [⟨0, 0⟩] [.bound 0 0, .bound 2 5, .abs [] [.bound 1 9, .bound 7 0]]).copy 512 2 1
          { entries := [⟨"x", 4⟩] }
        = .ok (.abs [⟨0, 4⟩] [.bound 0 0, .bound 5 5, .abs [] [.bound 1 9, .bound 10 0]],
            { entries := [⟨"x", 5⟩] })
      ∧ ((unshift 1)^[3]
          (.abs [⟨0, 4⟩] [.bound 0 0, .bound 5 5, .abs [] [.bound 1 9, .bound 10 0]])).alike
          (.abs [⟨0, 0⟩] [.bound 0 0, .bound 2 5, .abs [] [.bound 1 9, .bound 7 0]]) = true := by
  have hcopy :
      (Node.abs [⟨0, 0⟩] [.bound 0 0, .bound 2 5, .abs [] [.bound 1 9, .bound 7 0]]).copy 512 2 1
          { entries := [⟨"x", 4⟩] }
        = .ok (.abs [⟨0, 4⟩] [.bound 0 0, .bound 5 5, .abs [] [.bound 1 9, .bound 10 0]],
            { entries := [⟨"x", 5⟩] }) := rfl
  exact ⟨rfl, hcopy, iterate_unshift_alike rfl hcopy⟩

end LambdaCalc.Node
