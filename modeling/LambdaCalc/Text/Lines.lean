set_option autoImplicit false

/-! # Lines

The lines of a text, without the line ends. A file may end its lines in a line feed, a carriage
return or both; input that is typed ends them in a line feed. A text that does not end in a line end
has one more line for what follows the last of them. -/

namespace LambdaCalc.Text

/-- Write every line end as a line feed. -/
def unifyLineEnds : List Char → List Char
  | '\r' :: '\n' :: cs => '\n' :: unifyLineEnds cs
  | '\r' :: cs => '\n' :: unifyLineEnds cs
  | c :: cs => c :: unifyLineEnds cs
  | [] => []

/-- Split at line feeds, behind the beginning of a line, listed from its last character to its
    first. -/
def splitLines (begun : List Char) : List Char → List (List Char)
  | [] => if begun.isEmpty then [] else [begun.reverse]
  | c :: cs => if c = '\n' then begun.reverse :: splitLines [] cs else splitLines (c :: begun) cs

/-- The lines of typed input. -/
def inputLines (text : String) : List String := (splitLines [] text.toList).map String.ofList

/-- The lines of a file. -/
def fileLines (text : String) : List String :=
  (splitLines [] (unifyLineEnds text.toList)).map String.ofList

/-- A text that is one line. -/
def OneLine (text : String) : Prop := '\n' ∉ text.toList

instance : DecidablePred OneLine := fun _ => inferInstanceAs (Decidable (¬ _))

theorem OneLine.append {first second : String} (hfirst : OneLine first) (hsecond : OneLine second) :
    OneLine (first ++ second) := by
  rw [OneLine, String.toList_append, List.mem_append, not_or]
  exact ⟨hfirst, hsecond⟩

end LambdaCalc.Text
