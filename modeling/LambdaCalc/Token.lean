import LambdaCalc.Text.UpperCase

set_option autoImplicit false

/-! # Tokens

The stream from which an expression is built: groups are opened and closed, a name is bound from
where it stands to the end of its group, or it is used. A token may carry a name whatever its kind,
but only binding and use look at it. -/

namespace LambdaCalc

/-- What a token stands for. -/
inductive TokenKind where
  /-- A group starts. -/
  | opening
  /-- The innermost group ends. -/
  | closing
  /-- A name is bound in the group at hand. -/
  | func
  /-- A name is used. -/
  | var
  /-- Something that means nothing in an expression. -/
  | stray (label : String)
deriving DecidableEq, Repr

/-- A token of an expression. -/
structure Token where
  kind : TokenKind
  name : Option String := none
deriving DecidableEq, Repr

/-- The word for a kind of token. -/
def TokenKind.label : TokenKind → String
  | .opening => "open"
  | .closing => "close"
  | .func => "func"
  | .var => "var"
  | .stray label => label

namespace Token

/-! ## The usual tokens -/

/-- The start of a group. -/
@[match_pattern] abbrev opening : Token := { kind := .opening }

/-- The end of a group. -/
@[match_pattern] abbrev closing : Token := { kind := .closing }

/-- The binding of a name. -/
@[match_pattern] abbrev func (name : String) : Token := { kind := .func, name := some name }

/-- The use of a name. -/
@[match_pattern] abbrev var (name : String) : Token := { kind := .var, name := some name }

/-! ## Showing tokens -/

/-- Show a token: the word for its kind in upper case, and the name it carries, if any. -/
def display (token : Token) : String :=
  let label := Text.upper token.kind.label
  match token.name with
  | some name => s!"{label}({name})"
  | none => label

end Token

end LambdaCalc
