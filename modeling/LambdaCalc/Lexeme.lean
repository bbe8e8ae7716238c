import LambdaCalc.Text.Blank

set_option autoImplicit false

/-! # Lexemes

A text is split into lexemes: parentheses, lambdas and dots stand alone, and everything else forms
words. A word is a run of digits, a run of operator characters, or any other character together with
the letters, digits and underscores that follow it. Blanks only separate lexemes; all other
characters belong to one.

`Lexeme.ofText` does the splitting; `Word.isName`, `Word.isNumber` and `Word.isOperator` tell the
kinds of words apart. Only ASCII letters and digits count as such. -/

namespace LambdaCalc

/-- A lexeme of a text. -/
inductive Lexeme where
  | opening
  | closing
  /-- A `λ`, or the backslash that may be typed in its place. -/
  | lambda (sign : Char)
  | dot
  | word (text : String)
deriving DecidableEq, Repr

/-! ## Words -/

namespace Word

/-- The characters that names are made of. -/
def isWordChar (c : Char) : Bool := c.isAlphanum || c == '_'

/-- The characters that operators are made of. -/
def isOperatorChar (c : Char) : Bool := "+-*/%^&|!?<>=".toList.contains c

/-- Whether a word can name a variable: a letter, then letters, digits and underscores. -/
def isName (word : String) : Bool :=
  match word.toList with
  | c :: cs => c.isAlpha && cs.all isWordChar
  | [] => false

/-- Whether a word is a decimal number. -/
def isNumber (word : String) : Bool := !word.isEmpty && word.toList.all Char.isDigit

/-- Whether a word is an operator. -/
def isOperator (word : String) : Bool := !word.isEmpty && word.toList.all isOperatorChar

/-- The value of a decimal number. -/
def number (word : String) : Nat :=
  word.toList.foldl (fun value c => 10 * value + (c.toNat - '0'.toNat)) 0

end Word

/-! ## Splitting -/

namespace Lexeme

/-- The characters of a lexeme. -/
def text : Lexeme → String
  | .opening => "("
  | .closing => ")"
  | .lambda sign => sign.toString
  | .dot => "."
  | .word text => text

/-- Whether a lexeme that starts with the first character goes on with the second. -/
def continues (first : Char) (c : Char) : Bool :=
  match first with
  | '(' | ')' | 'λ' | '\\' | '.' => false
  | _ =>
      if first.isDigit then c.isDigit
      else if Word.isOperatorChar first then Word.isOperatorChar c
      else Word.isWordChar c

/-- The lexeme of a first character and those that continue it. -/
def ofChars (first : Char) (others : List Char) : Lexeme :=
  match first with
  | '(' => .opening
  | ')' => .closing
  | 'λ' | '\\' => .lambda first
  | '.' => .dot
  | _ => .word (String.ofList (first :: others))

private theorem length_dropWhile_le (p : Char → Bool) (cs : List Char) :
    (cs.dropWhile p).length ≤ cs.length := by
  induction cs with
  | nil => exact Nat.le_refl _
  | cons c cs ih =>
    rw [List.dropWhile_cons]
    split
    · exact Nat.le_succ_of_le ih
    · exact Nat.le_refl _

/-- Split characters into lexemes, behind those found already, which are listed from the last to the
    first. -/
def splitOnto (found : List Lexeme) : List Char → List Lexeme
  | [] => found.reverse
  | c :: cs =>
      if Text.isAsciiBlank c then splitOnto found cs
      else splitOnto (ofChars c (cs.takeWhile (continues c)) :: found) (cs.dropWhile (continues c))
termination_by cs => cs.length
decreasing_by
  · exact Nat.lt_succ_self _
  · exact Nat.lt_succ_of_le (length_dropWhile_le _ _)

/-- The lexemes found already come first, and do not change what is found behind them. -/
theorem splitOnto_eq_append (found : List Lexeme) : (cs : List Char) →
    splitOnto found cs = found.reverse ++ splitOnto [] cs
  | [] => by simp [splitOnto]
  | c :: cs => by
    rw [splitOnto, splitOnto]
    by_cases hblank : Text.isAsciiBlank c = true
    · rw [if_pos hblank, if_pos hblank]
      exact splitOnto_eq_append found cs
    · rw [if_neg hblank, if_neg hblank,
        splitOnto_eq_append (_ :: found) (cs.dropWhile (continues c)),
        splitOnto_eq_append [_] (cs.dropWhile (continues c))]
      simp
termination_by cs => cs.length
decreasing_by
  · exact Nat.lt_succ_self _
  · exact Nat.lt_succ_of_le (length_dropWhile_le _ _)
  · exact Nat.lt_succ_of_le (length_dropWhile_le _ _)

/-- Split a text into lexemes, without the blanks at its ends. -/
def ofText (text : String) : List Lexeme := splitOnto [] (Text.trimList text.toList)

end Lexeme

end LambdaCalc
