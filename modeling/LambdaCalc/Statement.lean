import LambdaCalc.Text.Blank

set_option autoImplicit false

/-! # Statements

A statement is a line without its comment and without the blanks at its ends. A line that opens more
parentheses than it closes goes on in the next one: the two are joined by a space, and the result is
taken for a line again. `Statement.ofLines` cuts the lines of a file into statements. -/

namespace LambdaCalc

/-- A statement and the number of its last line. -/
structure Statement where
  text : String
  line : Nat
deriving DecidableEq, Repr

namespace Statement

/-- Cut a text at the first occurrence of a mark of two characters, which is dropped. -/
def cutAt (first second : Char) : List Char → Option (List Char × List Char)
  | c :: d :: cs =>
      if c = first && d = second then some ([], cs)
      else (cutAt first second (d :: cs)).map fun (before, after) => (c :: before, after)
  | _ => none

/-- What is cut is the text itself, apart from the mark. -/
theorem eq_of_cutAt {first second : Char} {cs before after : List Char}
    (h : cutAt first second cs = some (before, after)) :
    cs = before ++ first :: second :: after := by
  fun_induction cutAt first second cs generalizing before with
  | case1 c d cs hmark =>
    simp only [Bool.and_eq_true, decide_eq_true_eq] at hmark
    simp only [Option.some.injEq, Prod.mk.injEq] at h
    obtain ⟨rfl, rfl⟩ := h
    rw [hmark.1, hmark.2, List.nil_append]
  | case2 c d cs _ ih =>
    obtain ⟨⟨before', after'⟩, hrest, heq⟩ := Option.map_eq_some_iff.mp h
    simp only [Prod.mk.injEq] at heq
    obtain ⟨rfl, rfl⟩ := heq
    rw [ih hrest, List.cons_append]
  | case3 => exact absurd h (by simp)

/-- A line without its comment, which begins with two semicolons. -/
def withoutComment (line : List Char) : List Char :=
  match cutAt ';' ';' line with
  | some (before, _) => before
  | none => line

/-- Whether a line opens more parentheses than it closes. -/
def isOpen (line : String) : Bool := line.toList.count ')' < line.toList.count '('

/-- A line without its comment and the blanks at its ends, and whether it goes on in the next
    one. -/
def prepare (line : String) : String × Bool :=
  let line := String.ofList (Text.trimList (withoutComment line.toList))
  (line, isOpen line)

/-- The two sides of a definition. -/
def definition? (text : String) : Option (String × String) :=
  (cutAt ':' '=' text.toList).map fun (name, body) => (String.ofList name, String.ofList body)

/-- The statements of lines numbered from `line` on, behind the beginning of a statement that is
    still open. An empty line is no statement; what is open at the end is one. -/
def ofLinesFrom (line : Nat) (begun : String) : List String → List Statement
  | [] => if begun.isEmpty then [] else [{ text := begun, line := line - 1 }]
  | text :: texts =>
      let (text, goesOn) := prepare s!"{begun} {text}"
      if goesOn then ofLinesFrom (line + 1) text texts
      else if text.isEmpty then ofLinesFrom (line + 1) "" texts
      else { text, line } :: ofLinesFrom (line + 1) "" texts

/-- The statements of the lines of a file. -/
def ofLines (lines : List String) : List Statement := ofLinesFrom 1 "" lines

end Statement

end LambdaCalc
