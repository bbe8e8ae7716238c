import LambdaCalc.Fault

set_option autoImplicit false

/-! # Open scopes

The parameter lists of the abstractions around a place in a term, innermost first. A bound reference
addresses one of them by depth and one of its entries by position: this is the convention by which
the binder makes references, reduction shifts them, and the printer reads them. -/

namespace LambdaCalc

/-- The scopes open at some place, innermost first. -/
structure Scopes (α : Type) where
  scopes : List (List α) := []
deriving DecidableEq, Repr

namespace Scopes

variable {α : Type}

/-- The number of open scopes. -/
def size (stack : Scopes α) : Nat := stack.scopes.length

/-- Open a scope inside the others. -/
def push (stack : Scopes α) (scope : List α) : Scopes α := { scopes := scope :: stack.scopes }

/-- Close the innermost scope and return it. -/
def pop (stack : Scopes α) : Outcome (List α × Scopes α) :=
  match stack.scopes with
  | [] => .error (.mishap .nothingToTake)
  | scope :: scopes => .ok (scope, { scopes })

/-- The entry at a position of the scope that many levels out. -/
def lookup? (stack : Scopes α) (depth position : Nat) : Option α :=
  stack.scopes[depth]?.bind (·[position]?)

/-- The entry that a reference addresses; every reference of a sound term has one. A depth below
    zero addresses a scope inside the innermost one, which is missing. -/
def resolve (stack : Scopes α) (depth : Int) (position : Nat) : Outcome α :=
  match depth with
  | .ofNat depth =>
      match stack.lookup? depth position with
      | some entry => .ok entry
      | none => .error (.ofKind .internalFailure)
  | .negSucc _ => .error (.mishap .missingEntry)

@[simp] theorem lookup?_push_zero (stack : Scopes α) (scope : List α) (position : Nat) :
    (stack.push scope).lookup? 0 position = scope[position]? := rfl

@[simp] theorem lookup?_push_succ (stack : Scopes α) (scope : List α) (depth position : Nat) :
    (stack.push scope).lookup? (depth + 1) position = stack.lookup? depth position := rfl

end Scopes

end LambdaCalc
