import LambdaCalc.Fault

set_option autoImplicit false

/-! # Term trees

A λ-term is a tree of `Node`s. An abstraction binds any number of parameters, none included, around
a spine: its first element is applied to the others from left to right. A bound reference counts the
abstractions between itself and the one it refers to, however many parameters each of them has, and
then gives a position among the parameters there. A free reference names an entry of the name table.

Depths are relative, so a subtree keeps its meaning wherever it is moved, as long as the references
that leave it are shifted by the number of abstractions added or removed on the way. They are
integers, so that a shift is plain addition; a depth below zero refers to nothing. -/

namespace LambdaCalc

/-- A parameter of an abstraction: its name, and which copy of the name it is. -/
structure Param where
  name : Nat
  copy : Int := 0
deriving DecidableEq, Repr

/-- A node of a term tree. -/
inductive Node where
  /-- Parameters bound in order around a spine; both may be empty. -/
  | abs (params : List Param) (spine : List Node)
  /-- The parameter at `position` of the abstraction `depth` levels out. -/
  | bound (depth : Int) (position : Nat)
  /-- A free name. -/
  | free (name : Nat)
  /-- A place where a term is missing. It can neither be reduced nor copied nor printed. -/
  | hole
deriving Repr, Inhabited

namespace Node

/-! ## Induction on trees -/

/-- Induction on a tree: what holds of the elements of a spine holds of the abstraction. -/
@[induction_eliminator]
theorem induction {motive : Node → Prop}
    (abs : ∀ params spine, (∀ node ∈ spine, motive node) → motive (.abs params spine))
    (bound : ∀ depth position, motive (.bound depth position))
    (free : ∀ name, motive (.free name)) (hole : motive .hole) (node : Node) : motive node :=
  @Node.rec motive (fun nodes => ∀ node ∈ nodes, motive node) abs bound free hole
    (fun _ h => absurd h List.not_mem_nil)
    (fun _ _ hnode hnodes => List.forall_mem_cons.mpr ⟨hnode, hnodes⟩) node

/-! ## Equality -/

mutual

private def decEq : (a b : Node) → Decidable (a = b)
  | .abs params spine, .abs params' spine' =>
      if hp : params = params' then
        match decEqList spine spine' with
        | isTrue hs => isTrue (by rw [hp, hs])
        | isFalse hs => isFalse fun h => hs (Node.abs.inj h).2
      else
        isFalse fun h => hp (Node.abs.inj h).1
  | .bound depth position, .bound depth' position' =>
      if h : depth = depth' ∧ position = position' then isTrue (by rw [h.1, h.2])
      else isFalse fun e => h (Node.bound.inj e)
  | .free name, .free name' =>
      if h : name = name' then isTrue (by rw [h]) else isFalse fun e => h (Node.free.inj e)
  | .hole, .hole => isTrue rfl
  | .abs .., .bound .. | .abs .., .free .. | .abs .., .hole | .bound .., .abs ..
  | .bound .., .free .. | .bound .., .hole | .free .., .abs .. | .free .., .bound ..
  | .free .., .hole | .hole, .abs .. | .hole, .bound .. | .hole, .free .. => isFalse nofun

private def decEqList : (as bs : List Node) → Decidable (as = bs)
  | [], [] => isTrue rfl
  | [], _ :: _ | _ :: _, [] => isFalse nofun
  | a :: as, b :: bs =>
      match decEq a b, decEqList as bs with
      | isTrue h, isTrue hs => isTrue (by rw [h, hs])
      | isFalse h, _ => isFalse fun e => h (List.cons.inj e).1
      | _, isFalse hs => isFalse fun e => hs (List.cons.inj e).2

end

instance : DecidableEq Node := decEq

mutual

/-- The same tree with every copy id set to zero. -/
def bare : Node → Node
  | .abs params spine => .abs (params.map ({ name := ·.name })) (bareList spine)
  | .bound depth position => .bound depth position
  | .free name => .free name
  | .hole => .hole

/-- The same trees with every copy id set to zero. -/
def bareList : List Node → List Node
  | [] => []
  | node :: nodes => node.bare :: bareList nodes

end

/-- Whether two trees differ in nothing but copy ids: those tell instances of a parameter apart and
    are no part of the term. -/
def alike (a b : Node) : Bool := decide (a.bare = b.bare)

theorem bareList_eq_map (nodes : List Node) : bareList nodes = nodes.map bare := by
  induction nodes with
  | nil => rfl
  | cons node nodes ih => simp only [bareList, ih, List.map_cons]

end Node

end LambdaCalc
