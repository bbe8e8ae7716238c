import LambdaCalc.NameTable
import LambdaCalc.Node.Basic

set_option autoImplicit false

/-! # Substituting an argument for a parameter

`Node.substitute` puts an argument in the place of every reference to the first parameter of an
abstraction. Each place gets a copy of its own (`Node.copy`), in which the references that leave the
argument are shifted by the levels between the argument and the place, and every parameter gets a
fresh copy id. A copy may nest only so deep: `checkNesting` is asked at each of its nodes.

Both go through a tree by calls that are nested in one another, for which there may be only so much
room (`Node.substituteWithin`, `Node.copyWithin`). -/

namespace LambdaCalc

/-- How deep a copied argument may nest, counted from the abstraction that receives it. -/
def copyBudget : Nat := 512

/-- Stop once more levels are spent than there is budget for. -/
def checkNesting (budget : Nat) (spent : Int) : Outcome Unit :=
  if spent ≤ budget then .ok () else .error (.ofKind .expressionSizeLimit)

/-- Give the parameters of a copied abstraction fresh copy ids, from the first to the last, each by
    a call. -/
def Param.copyListWithin (room : Room) : List Param → Copying (List Param)
  | [] => return []
  | param :: params => do
      let _ ← room.enter
      let copy ← freshCopy param.name
      let params ← copyListWithin room params
      return { name := param.name, copy } :: params

namespace Node

mutual

/-- Copy a node that stands `level` abstractions inside an argument, to a place that is `offset + 1`
    levels further in than the argument. References out of the argument are shifted by as much. A
    call is made for the node, and others inside it: to check the nesting, for the parameters, and
    for the elements of the spine. -/
def copyWithin (room : Room) (budget : Nat) (offset level : Int) : Node → Copying Node
  | .abs params spine => do
      let room ← room.enter
      let _ ← room.enter
      checkNesting budget (offset + level)
      let params ← Param.copyListWithin (← room.enter) params
      let spine ← copyListWithin (← room.enter) budget offset (level + 1) spine
      return .abs params spine
  | .bound depth position => do
      let _ ← (← room.enter).enter
      checkNesting budget (offset + level)
      return .bound (if depth < level then depth else depth + offset + 1) position
  | .free name => do
      let _ ← (← room.enter).enter
      checkNesting budget (offset + level)
      return .free name
  | .hole => throw (.mishap .missingTerm)

/-- Copy the elements of a spine from left to right. -/
def copyListWithin (room : Room) (budget : Nat) (offset level : Int) :
    List Node → Copying (List Node)
  | [] => return []
  | node :: nodes => do
      let node ← node.copyWithin room budget offset level
      let nodes ← copyListWithin room budget offset level nodes
      return node :: nodes

end

mutual

/-- Put copies of an argument in the place of the first parameter of the abstraction `level` levels
    out. Its other parameters move up one position, and all other references stay. One call is made
    for the node and another one for the elements of its spine. -/
def substituteWithin (room : Room) (budget : Nat) (argument : Node) (level : Int) :
    Node → Copying Node
  | .abs params spine => do
      let room ← room.enter
      let spine ← substituteListWithin (← room.enter) budget argument (level + 1) spine
      return .abs params spine
  | .bound depth position => do
      let room ← room.enter
      if depth = level then
        match position with
        | 0 => argument.copyWithin room budget level 0
        | position + 1 => return .bound depth position
      else
        return .bound depth position
  | .free name => do
      let _ ← room.enter
      return .free name
  | .hole => throw (.mishap .missingTerm)

/-- Substitute in the elements of a spine from left to right. -/
def substituteListWithin (room : Room) (budget : Nat) (argument : Node) (level : Int) :
    List Node → Copying (List Node)
  | [] => return []
  | node :: nodes => do
      let node ← substituteWithin room budget argument level node
      let nodes ← substituteListWithin room budget argument level nodes
      return node :: nodes

end

/-- Have an abstraction take an argument for its first parameter: what becomes of its body. -/
def takeWithin (room : Room) (budget : Nat) (argument : Node) (body : List Node) :
    Copying (List Node) := do
  substituteListWithin (← room.enter) budget argument 0 body

end Node

/-! ## With any number of nested calls -/

/-- Give parameters fresh copy ids. -/
def Param.copyList (params : List Param) : Copying (List Param) := copyListWithin none params

theorem Param.copyList_cons (param : Param) (params : List Param) :
    Param.copyList (param :: params) = do
      let copy ← freshCopy param.name
      let params ← Param.copyList params
      return { name := param.name, copy } :: params :=
  rfl

namespace Node

/-- Copy a node. -/
def copy (budget : Nat) (offset level : Int) (node : Node) : Copying Node :=
  node.copyWithin none budget offset level

/-- Copy the elements of a spine. -/
def copyList (budget : Nat) (offset level : Int) (nodes : List Node) : Copying (List Node) :=
  copyListWithin none budget offset level nodes

/-- Substitute in a node. -/
def substitute (budget : Nat) (argument : Node) (level : Int) (node : Node) : Copying Node :=
  substituteWithin none budget argument level node

/-- Substitute in the elements of a spine. -/
def substituteList (budget : Nat) (argument : Node) (level : Int) (nodes : List Node) :
    Copying (List Node) :=
  substituteListWithin none budget argument level nodes

theorem copyListWithin_eq_mapM (room : Room) (budget : Nat) (offset level : Int)
    (nodes : List Node) : copyListWithin room budget offset level nodes
      = nodes.mapM (copyWithin room budget offset level) := by
  induction nodes with
  | nil => rfl
  | cons node nodes ih => rw [copyListWithin, List.mapM_cons, ih]

theorem substituteListWithin_eq_mapM (room : Room) (budget : Nat) (argument : Node) (level : Int)
    (nodes : List Node) : substituteListWithin room budget argument level nodes
      = nodes.mapM (substituteWithin room budget argument level) := by
  induction nodes with
  | nil => rfl
  | cons node nodes ih => rw [substituteListWithin, List.mapM_cons, ih]

section

variable {budget : Nat} {argument : Node} {offset level depth : Int} {position name : Nat}
  {params : List Param} {nodes : List Node}

theorem copyList_eq_mapM :
    copyList budget offset level nodes = nodes.mapM (copy budget offset level) :=
  copyListWithin_eq_mapM none budget offset level nodes

theorem copy_abs : copy budget offset level (.abs params nodes) = do
      checkNesting budget (offset + level)
      let params ← Param.copyList params
      let nodes ← nodes.mapM (copy budget offset (level + 1))
      return .abs params nodes := by
  rw [← copyList_eq_mapM]
  rfl

theorem copy_bound : copy budget offset level (.bound depth position) = do
      checkNesting budget (offset + level)
      return .bound (if depth < level then depth else depth + offset + 1) position :=
  rfl

theorem copy_free : copy budget offset level (.free name) = do
      checkNesting budget (offset + level)
      return .free name :=
  rfl

theorem substituteList_eq_mapM :
    substituteList budget argument level nodes = nodes.mapM (substitute budget argument level) :=
  substituteListWithin_eq_mapM none budget argument level nodes

theorem substitute_abs : substitute budget argument level (.abs params nodes) = do
      let nodes ← nodes.mapM (substitute budget argument (level + 1))
      return .abs params nodes := by
  rw [← substituteList_eq_mapM]
  rfl

/-- A reference to the first parameter gives way to a copy of the argument. -/
theorem substitute_bound_zero :
    substitute budget argument level (.bound level 0) = argument.copy budget level 0 :=
  if_pos rfl

/-- A reference to a later parameter moves up one position. -/
theorem substitute_bound_succ :
    substitute budget argument level (.bound level (position + 1)) = pure (.bound level position) :=
  if_pos rfl

/-- A reference to any other abstraction stays as it is. -/
theorem substitute_bound_of_ne (h : depth ≠ level) :
    substitute budget argument level (.bound depth position) = pure (.bound depth position) :=
  if_neg h

/-- A reference gives way to a copy of the argument, or stays a reference. -/
theorem substitute_bound_cases (budget : Nat) (argument : Node) (level depth : Int)
    (position : Nat) :
    substitute budget argument level (.bound depth position) = argument.copy budget level 0 ∨
      ∃ position', substitute budget argument level (.bound depth position)
        = pure (.bound depth position') := by
  by_cases hdepth : depth = level
  · subst hdepth
    cases position with
    | zero => exact .inl substitute_bound_zero
    | succ position => exact .inr ⟨position, substitute_bound_succ⟩
  · exact .inr ⟨position, substitute_bound_of_ne hdepth⟩

end

end Node

end LambdaCalc
