import LambdaCalc.Node.Basic

set_option autoImplicit false

/-! # Leaving an abstraction

A subtree that is moved out of one enclosing abstraction is unshifted: the references that leave it
have one level less to cross (`Node.unshift`). Moving out happens when the abstraction binds
nothing: `Node.splice` dissolves such abstractions at the head of a spine.

Unshifting calls itself for every node of the tree, and may be nested too deeply. The calls that it
makes are told apart from what it returns (`Node.visit`). -/

namespace LambdaCalc.Node

mutual

/-- Take away one of the levels around a subtree whose root is `level` abstractions inside: every
    reference that reaches past that many levels has one level less to cross. -/
def unshift (level : Int) : Node → Node
  | .abs params spine => .abs params (unshiftList (level + 1) spine)
  | .bound depth position => .bound (if level < depth then depth - 1 else depth) position
  | .free name => .free name
  | .hole => .hole

/-- Unshift the elements of a spine. -/
def unshiftList (level : Int) : List Node → List Node
  | [] => []
  | node :: nodes => node.unshift level :: unshiftList level nodes

end

theorem unshiftList_eq_map (level : Int) (nodes : List Node) :
    unshiftList level nodes = nodes.map (unshift level) := by
  induction nodes with
  | nil => rfl
  | cons node nodes ih => simp only [unshiftList, ih, List.map_cons]

/-- Dissolve a head that binds nothing: its first element becomes the head, and the others follow it
    in the spine, all one level further out; and again while the new head binds nothing. An
    abstraction with neither parameters nor a spine has no first element and stays. Returns the head
    and the elements that go in front of the spine. -/
def splice : Node → Node × List Node
  | .abs [] (first :: others) =>
      let (head, pushed) := first.splice
      (head.unshift 0, unshiftList 0 pushed ++ unshiftList 0 others)
  | node => (node, [])

/-- An abstraction without parameters around a single element is that element, one level further
    out. -/
def collapse : Node → Node
  | .abs [] [element] => element.unshift 0
  | node => node

/-! ## Within a room for nested calls

Unshifting goes through the whole tree, one call inside the other, and meets every hole in it. -/

mutual

/-- Go through a tree with one call for each node. No term may be missing. -/
def visit (room : Room) : Node → Outcome Unit
  | .abs _ spine => do visitList (← room.enter) spine
  | .bound .. | .free _ => do let _ ← room.enter
  | .hole => .error (.mishap .missingTerm)

/-- Go through the elements of a spine from left to right. -/
def visitList (room : Room) : List Node → Outcome Unit
  | [] => .ok ()
  | node :: nodes => do
      node.visit room
      visitList room nodes

end

/-- Unshift a tree within a room for nested calls. -/
def unshiftWithin (room : Room) (level : Int) (node : Node) : Outcome Node := do
  node.visit room
  return node.unshift level

/-- Go through all that is unshifted when a head is spliced: the elements of the head, from the last
    to the first, and those of its first element if that is dissolved as well. -/
def visitSpliced (room : Room) : Node → Outcome Unit
  | .abs [] (first :: others) => do
      visitList (← room.enter) (first :: others).reverse
      visitSpliced room first
  | .abs .. | .bound .. | .free _ => .ok ()
  | .hole => .error (.mishap .missingTerm)

/-- Splice a head within a room for nested calls. -/
def spliceWithin (room : Room) (head : Node) : Outcome (Node × List Node) := do
  visitSpliced (← room.enter) head
  return head.splice

/-- Collapse an abstraction within a room for nested calls. -/
def collapseWithin (room : Room) (node : Node) : Outcome Node := do
  match node with
  | .abs [] [element] => element.unshiftWithin (← room.enter) 0
  | node => return node

end LambdaCalc.Node
