import LambdaCalc.Expression.Basic
import LambdaCalc.Qualifier
import LambdaCalc.Token

set_option autoImplicit false

/-! # Church numerals

A natural number is the function that applies its first argument to its second one that many times:
`λf.λx.f (f (… (f x)))`. `Numeral.tokens` writes a number this way, and `Expression.number?` reads
it off a reduced expression. -/

namespace LambdaCalc

namespace Numeral

/-- The greatest number that may be written in a text. -/
def inputLimit : Nat := 255

/-- The parameter that is applied, qualified so that it is shown as `f`. -/
def function : String := Qualifier.qualify (some "#") "f"

/-- The parameter that it is applied to, qualified so that it is shown as `x`. -/
def base : String := Qualifier.qualify (some "#") "x"

/-- The tokens of a number within a limit. Every application but the innermost one opens a group for
    its argument. -/
def tokens (value : Int) (limit : Int) : Outcome (List Token) :=
  if limit < value then
    .error (.fault { kind := .numberTooLarge, subject := some (.number value) })
  else
    let groups := (value - 1).toNat
    .ok ([.opening, .func function, .func base] ++
      (List.replicate groups [.var function, .opening]).flatten ++
      (if value = 0 then [] else [.var function]) ++ [.var base] ++
      List.replicate groups .closing ++ [.closing])

/-- Count the applications in a spine that stands `level` groups inside the body of a numeral.
    `function` and `base` are the depth and position of the parameters, as seen from the body. -/
def applications? (function base : Int × Nat) (level : Nat) : List Node → Option Nat
  | [.bound depth position] =>
      if (depth, position) = (base.1 + level, base.2) then some 0 else none
  | [.bound depth position, argument] =>
      if (depth, position) = (function.1 + level, function.2) then
        match argument with
        | .bound depth position =>
            if (depth, position) = (base.1 + level, base.2) then some 1 else none
        | .abs [] spine => (applications? function base (level + 1) spine).map (· + 1)
        | _ => none
      else
        none
  | _ => none

end Numeral

/-- The number that a tree is the numeral of. The two parameters may belong to one abstraction or to
    two. -/
def Node.number? : Node → Option Nat
  | .abs [_, _] body => Numeral.applications? (0, 0) (0, 1) 0 body
  | .abs [_] [.abs [_] body] => Numeral.applications? (1, 0) (0, 0) 0 body
  | _ => none

/-- The number that a reduced expression is the numeral of. -/
def Expression.number? (expression : Expression) : Option Nat := expression.root.number?

end LambdaCalc
