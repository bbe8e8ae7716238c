import LambdaCalc.Node.Shift
import LambdaCalc.Node.Substitute

set_option autoImplicit false

/-! # Normal-order reduction

Reduction works on spines. `Node.reduce` drives the head of an abstraction's spine against the
elements behind it; when the head has come to rest, the elements left over are reduced one after the
other, and an abstraction that is left with nothing but its head dissolves into it.

Driving (`Node.drive`) takes turns: the head is reduced, a head that binds nothing is spliced into
the spine, and a head that binds something takes the next element as the argument for its first
parameter. It ends when the spine is used up or the head can take no argument.

Two allowances keep a reduction from running away: how many calls may be open at once, and how deep
a copied argument may nest. Everything that calls itself takes of the first one: reducing and
driving do, and so does what they are made of (`Node.spliceWithin`, `Node.takeWithin`). Going beyond
either of them stops the whole reduction. -/

namespace LambdaCalc

/-- The allowances of a reduction. -/
structure Limits where
  /-- How many calls may be open at once. -/
  nesting : Nat := callLimit
  /-- How deep a copied argument may nest. -/
  copying : Nat := copyBudget
deriving DecidableEq, Repr

namespace Node

/-- Take turns at driving a head against a spine, with a way to reduce the head at hand. The turns
    allowed are never used up: each takes one element off the spine, and a head that can take
    another one has put none in front of it. -/
def driveTurns (reduceHead : Node → Copying Node) (room : Room) (budget : Nat) :
    (turns : Nat) → (head : Node) → (spine : List Node) → Copying (Node × List Node)
  | _, head, [] => settle head []
  | 0, _, _ :: _ => throw (.ofKind .internalFailure)
  | turns + 1, head, element :: elements => do
      let (head, pushed) ← (← reduceHead head).spliceWithin room
      match head, pushed ++ element :: elements with
      | .abs (_ :: params) body, argument :: rest => do
          let body ← takeWithin room budget argument body
          driveTurns reduceHead room budget turns (.abs params body) rest
      | head, spine => settle head spine
where
  /-- Reduce and splice the head a last time. -/
  settle (head : Node) (spine : List Node) : Copying (Node × List Node) := do
    let (head, pushed) ← (← reduceHead head).spliceWithin room
    return (head, pushed ++ spine)

mutual

/-- Reduce a node to normal form with room for so many calls, of which this is the first. Only an
    abstraction with a spine has anything to reduce. A result has no hole in it. -/
def reduceWithin (budget : Nat) : (room : Nat) → Node → Copying Node
  | 0, _ => throw .nestedTooDeeply
  | room + 1, .abs params (head :: spine) => do
      let (head, spine) ← driveWithin budget room head spine
      let spine ← spine.mapM (reduceWithin budget room)
      (Node.abs params (head :: spine)).collapseWithin (some room)
  | _ + 1, .hole => throw (.mishap .missingTerm)
  | _ + 1, node => return node

/-- Drive a head against a spine with room for so many calls, of which this is the first. Returns
    the head at rest and the elements behind it. -/
def driveWithin (budget : Nat) :
    (room : Nat) → (head : Node) → (spine : List Node) → Copying (Node × List Node)
  | 0, _, _ => throw .nestedTooDeeply
  | room + 1, head, spine =>
      driveTurns (reduceWithin budget room) (some room) budget spine.length head spine

end

/-- Reduce a node to normal form within the given limits. -/
def reduce (limits : Limits) (node : Node) : Copying Node :=
  node.reduceWithin limits.copying limits.nesting

/-- Drive a head against a spine within the given limits. -/
def drive (limits : Limits) (head : Node) (spine : List Node) : Copying (Node × List Node) :=
  driveWithin limits.copying limits.nesting head spine

end Node

end LambdaCalc
