import LambdaCalc.Node.Reduce

set_option autoImplicit false

/-! # Expressions

An expression is a term tree together with the table of its names. Reducing it replaces the tree by
its normal form and counts the copies made on the way. -/

namespace LambdaCalc

/-- A term and its names. -/
structure Expression where
  root : Node
  names : NameTable := {}
deriving Repr

namespace Expression

/-- Reduce an expression to normal form within the given limits. Going beyond either of them is the
    same fault. -/
def reduce (limits : Limits) (expression : Expression) : Outcome Expression :=
  match (expression.root.reduce limits).run expression.names with
  | .ok (root, names) => .ok { root, names }
  | .error .nestedTooDeeply => .error (.ofKind .expressionSizeLimit)
  | .error stop => .error stop

/-- Reduce an expression to normal form within the usual limits. -/
def normalize (expression : Expression) : Outcome Expression := expression.reduce {}

end Expression

end LambdaCalc
