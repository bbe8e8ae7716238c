import LambdaCalc.Expression.Basic
import LambdaCalc.Scopes

set_option autoImplicit false

/-! # Printing

An abstraction is printed as its binders followed by its spine, in parentheses if the binders are
followed by more than one element; a nested abstraction is put in parentheses as a whole:

    λf.λx.(f (f x))
    a (λx_1.(x_1 x))

Parameters with one spelling are told apart by a suffix: the number of open scopes that bind the
spelling already, a free name counting as one more. So the outermost is printed bare, the next ones
end in `_1`, `_2`, …, and siblings start over. No text longer than `textLimit` is printed.

The printer keeps one count for each name and one stack of scopes while it goes through a tree
(`Printer.State`). An abstraction adds its parameters to both before its spine is printed and takes
them off again behind it. -/

namespace LambdaCalc

/-- The greatest length of a printed text, in characters. -/
def textLimit : Nat := 255

namespace Printer

/-- How a parameter is shown: its canonical name and its suffix. -/
structure Label where
  name : Nat
  suffix : Nat
deriving DecidableEq, Repr

/-- Spell a label; the suffix zero is left out. -/
def Label.text (names : NameTable) (label : Label) : Outcome String := do
  let spelling ← names.spelling label.name
  return if label.suffix = 0 then spelling else s!"{spelling}_{label.suffix}"

/-- What the printer keeps: how often each name is taken at the place that it has come to, and the
    labels of the parameters in whose scopes this place is. -/
structure State where
  counts : List Nat
  scopes : Scopes Label := {}
deriving DecidableEq, Repr

end Printer

/-- A calculation on what the printer keeps. -/
abbrev PrinterM := StateT Printer.State Outcome

namespace Printer

/-- Label a parameter. Its name is taken once more from now on. -/
def label (names : NameTable) (param : Param) : PrinterM Label := do
  let name := names.canonical param.name
  let state ← get
  match state.counts[name]? with
  | none => throw (.mishap .missingEntry)
  | some suffix =>
      set { state with counts := state.counts.set name (suffix + 1) }
      return { name, suffix }

/-- Count the name of a label as taken once less. -/
def release (label : Label) : PrinterM Unit := do
  let state ← get
  if label.name < state.counts.length then
    set { state with counts := state.counts.modify label.name (· - 1) }
  else
    throw (.mishap .missingEntry)

/-- Open the scope of an abstraction. -/
def openScope (labels : List Label) : PrinterM Unit :=
  modify fun state => { state with scopes := state.scopes.push labels }

/-- Close the innermost scope. -/
def closeScope : PrinterM Unit := do
  let state ← get
  let (_, scopes) ← state.scopes.pop
  set { state with scopes }

/-- The binders of an abstraction. The last one ends in a dot only if a body follows. -/
def binders (hasBody : Bool) : List String → String
  | [] => ""
  | [name] => if hasBody then s!"λ{name}." else s!"λ{name}"
  | name :: names => s!"λ{name}." ++ binders hasBody names

/-- Put the text of an abstraction together. -/
def assemble (nested : Bool) (names : List String) (elements : List String) : String :=
  let body := " ".intercalate elements
  let body := if !names.isEmpty && 1 < elements.length then s!"({body})" else body
  let text := binders (!elements.isEmpty) names ++ body
  if nested then s!"({text})" else text

/-- A text, if it is short enough to be printed. -/
def limited (text : String) : Outcome String :=
  if text.length ≤ textLimit then .ok text else .error (.ofKind .characterLimitExceeded)

mutual

/-- Print a node at the place that the printer has come to. Every abstraction is checked for its
    length, because whatever is around it only adds to it. -/
def node (names : NameTable) (room : Room) (nested : Bool) : Node → PrinterM String
  | .free name => do
      let _ ← room.enter
      names.spelling (names.canonical name)
  | .bound depth position => do
      let _ ← room.enter
      let state ← get
      (← state.scopes.resolve depth position).text names
  | .hole => do
      let _ ← room.enter
      throw (.ofKind .internalFailure)
  | .abs params spine => do
      let room ← room.enter
      let labels ← params.mapM (label names)
      let binders ← labels.mapM (·.text names)
      openScope labels
      let elements ← spineElements names (← room.enter) spine
      closeScope
      labels.forM release
      limited (assemble nested binders elements)

/-- Print the elements of a spine from left to right. -/
def spineElements (names : NameTable) (room : Room) : List Node → PrinterM (List String)
  | [] => return []
  | element :: elements => do
      let text ← node names room true element
      let texts ← spineElements names room elements
      return text :: texts

end

end Printer

mutual

/-- The names that occur free in a tree, with repetitions. -/
def Node.freeNames : Node → List Nat
  | .abs _ spine => Node.freeNamesList spine
  | .bound .. => []
  | .free name => [name]
  | .hole => []

/-- The names that occur free in the elements of a spine. -/
def Node.freeNamesList : List Node → List Nat
  | [] => []
  | element :: elements => element.freeNames ++ Node.freeNamesList elements

end

namespace Expression

/-- The counts around an expression: its free names are taken once, so that no parameter is printed
    like one of them. -/
def outerCounts (expression : Expression) : Outcome (List Nat) :=
  let free := expression.root.freeNames.map expression.names.canonical
  if free.all (· < expression.names.size) then
    .ok (free.foldl (fun counts name => counts.set name 1)
      (List.replicate expression.names.size 0))
  else
    .error (.mishap .missingEntry)

/-- The text of an expression, with room for so many calls of the printer. -/
def renderWithin (room : Room) (expression : Expression) : Outcome String := do
  let counts ← expression.outerCounts
  let text ← (Printer.node expression.names room false expression.root).run' { counts }
  Printer.limited text

/-- The text of an expression. -/
def render (expression : Expression) : Outcome String := expression.renderWithin none

end Expression

end LambdaCalc
