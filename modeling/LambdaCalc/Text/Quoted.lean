import LambdaCalc.Text.Visible

set_option autoImplicit false

/-! # Quoted text

A text in quotation marks, in which every character that has no visible form is written as an
escape. Apostrophes are the usual marks; double quotes take their place around a text that holds
apostrophes and no double quotes. -/

namespace LambdaCalc.Text

/-- The usual quotation mark. -/
def apostrophe : Char := Char.ofNat 0x27

/-- The last so many digits of a number in hexadecimal. -/
def hexDigits : (count : Nat) → Nat → List Char
  | 0, _ => []
  | count + 1, n => hexDigits count (n / 16) ++ [Nat.digitChar (n % 16)]

/-- The escape of a character by its number, with as few digits as its size allows. -/
def numericEscape (c : Char) : List Char :=
  let n := c.toNat
  if n < 0x100 then '\\' :: 'x' :: hexDigits 2 n
  else if n < 0x10000 then '\\' :: 'u' :: hexDigits 4 n
  else '\\' :: 'U' :: hexDigits 8 n

/-- A character as it is written between quotation marks. -/
def escape (mark : Char) (c : Char) : List Char :=
  if c = mark || c = '\\' then ['\\', c]
  else if c = '\t' then ['\\', 't']
  else if c = '\n' then ['\\', 'n']
  else if c = '\r' then ['\\', 'r']
  else if isVisible c then [c]
  else numericEscape c

/-- The marks to put around a text. -/
def quotationMark (cs : List Char) : Char :=
  if cs.contains apostrophe && !cs.contains '"' then '"' else apostrophe

/-- A text in quotation marks. -/
def quote (text : String) : String :=
  let cs := text.toList
  let mark := quotationMark cs
  String.ofList (mark :: cs.flatMap (escape mark) ++ [mark])

end LambdaCalc.Text
