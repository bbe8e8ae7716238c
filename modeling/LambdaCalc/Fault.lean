set_option autoImplicit false

/-! # Faults and other stops

A calculation that cannot go on ends in a `Stop`. The ordinary case is a `Fault`: one of a fixed
list of kinds, together with the character, name or number it is about. A fault has a one-line
wording (`Fault.description`), which is all that a user ever sees of it.

The remaining stops are not about what the user's text means: a `Mishap` such as a numeral with too
many digits to be read, a computation nested too deeply, an interruption, or the end of the program.
They have no category; a mishap that reaches the user after all is reported by its sort and
message. -/

namespace LambdaCalc

/-! ## Kinds of faults -/

/-- What a fault is about: a piece of text, or a number too large to be a text of its own. -/
inductive Subject where
  | text (value : String)
  | number (value : Int)
deriving DecidableEq, Repr

/-- Show a subject the way it stands inside a message. -/
def Subject.display : Subject → String
  | .text value => value
  | .number value => toString value

/-- The part of the calculator a fault comes from; it opens the message. -/
inductive Category where
  | internal
  | lexical
  | naming
  | input
  | output
deriving DecidableEq, Repr

/-- The word a category is reported by. -/
def Category.word : Category → String
  | .internal => "internal"
  | .lexical => "syntax"
  | .naming => "naming"
  | .input => "input"
  | .output => "output"

/-- Everything that can be wrong with a text, a keyword, a file or a reduction. -/
inductive FaultKind where
  /-- A fault of no particular kind. -/
  | general
  /-- A character stands where it cannot. -/
  | unexpectedCharacter
  /-- A word is no variable name. -/
  | invalidName
  /-- The text ends between a `λ` and its dot. -/
  | incompleteFunction
  /-- A keyword has no valid name or no body. -/
  | invalidKeyword
  /-- A group is closed that was never opened. -/
  | unmatchedParenthesis
  /-- There is nothing to calculate. -/
  | emptyExpression
  /-- A keyword or free name is bound. -/
  | reservedName
  /-- A name is used free after it was bound elsewhere. -/
  | unavailableName
  /-- A name is bound inside its own scope. -/
  | activeName
  /-- A keyword's new body uses its current one. -/
  | recursiveKeyword
  /-- A numeral exceeds the largest one accepted. -/
  | numberTooLarge
  /-- A file cannot be opened. -/
  | fileNotReadable
  /-- The calculator contradicts itself. -/
  | internalFailure
  /-- A term outgrows the calculator. -/
  | expressionSizeLimit
  /-- A result is too long to be printed. -/
  | characterLimitExceeded
deriving DecidableEq, Repr

/-- The category of each kind. -/
def FaultKind.category : FaultKind → Category
  | .unexpectedCharacter | .invalidName | .incompleteFunction | .invalidKeyword
  | .unmatchedParenthesis | .emptyExpression => .lexical
  | .reservedName | .unavailableName | .activeName | .recursiveKeyword => .naming
  | .numberTooLarge | .fileNotReadable => .input
  | .general | .internalFailure | .expressionSizeLimit => .internal
  | .characterLimitExceeded => .output

/-- Whether a kind is marked as the calculator's own failure when it is reported. -/
def FaultKind.isInternal : FaultKind → Bool
  | .internalFailure | .expressionSizeLimit => true
  | _ => false

/-- The wording of a kind, around the subject as displayed. -/
def FaultKind.wording (subject : String) : FaultKind → String
  | .general | .internalFailure => "an unforeseen error has occurred"
  | .unexpectedCharacter => s!"unexpected '{subject}' character"
  | .invalidName => s!"\"{subject}\" is not a valid variable name"
  | .incompleteFunction => "incomplete lambda function declaration at the end of the expression"
  | .invalidKeyword => s!"\"{subject}\" is not a valid keyword"
  | .unmatchedParenthesis => "closing parenthesis without matching open parenthesis"
  | .emptyExpression => "expression does not contain any λ-term"
  | .reservedName =>
      s!"\"{subject}\" is reserved as a keyword or free term, so it cannot be assigned to a variable"
  | .unavailableName =>
      s!"\"{subject}\" has already been used as a function variable, so it cannot be used as a free term"
  | .activeName => s!"\"{subject}\" cannot be assigned multiple times in the same function"
  | .recursiveKeyword => s!"\"{subject}\" cannot be used inside its own definition"
  | .numberTooLarge => s!"{subject} is greater than maximum integer limit (255)"
  | .fileNotReadable => s!"'{subject}' could not be opened"
  | .expressionSizeLimit => "expression reached the maximum size limit"
  | .characterLimitExceeded => "character limit exceeded"

/-! ## Faults -/

/-- A fault of some kind, about at most one subject. A `freeform` fault is worded by its subject
    alone instead of by its kind. -/
structure Fault where
  kind : FaultKind
  subject : Option Subject := none
  freeform : Bool := false
deriving DecidableEq, Repr

namespace Fault

/-- A fault about a piece of text. -/
def about (kind : FaultKind) (text : String) : Fault := { kind, subject := some (.text text) }

/-- A fault that carries its own wording. -/
def worded (kind : FaultKind) (wording : Subject) : Fault :=
  { kind, subject := some wording, freeform := true }

/-- The subject as it stands in a message; a missing one leaves the word `None`. -/
def shownSubject (fault : Fault) : String :=
  match fault.subject with
  | some subject => subject.display
  | none => "None"

/-- What is wrong, without the category. -/
def message (fault : Fault) : String :=
  if fault.freeform then fault.shownSubject else fault.kind.wording fault.shownSubject

/-- The one-line message shown to users. -/
def description (fault : Fault) : String :=
  s!"{fault.kind.category.word} error: {fault.message}"

end Fault

/-! ## Stops -/

/-- Something that goes wrong in the calculator's own workings. -/
inductive Mishap where
  /-- An entry beyond the end of a list was asked for. -/
  | missingEntry
  /-- Something was to be taken from an empty list. -/
  | nothingToTake
  /-- A numeral has more digits than can be read. -/
  | numeralTooLong (digits : Nat)
  /-- A name was to be shown that was never given. -/
  | missingName
  /-- A term was to be worked on where there is none. -/
  | missingTerm
  /-- Something was to be reported that has no category. -/
  | missingCategory
  /-- A value was refused for the given reason. -/
  | refused (reason : String)
deriving DecidableEq, Repr

namespace Mishap

/-- The most digits a numeral may have to be read as a number. -/
def digitLimit : Nat := 4300

/-- The sort of a mishap, as it is named when it is reported. -/
def sort : Mishap → String
  | .missingEntry | .nothingToTake => "IndexError"
  | .numeralTooLong _ | .refused _ => "ValueError"
  | .missingName => "TypeError"
  | .missingTerm | .missingCategory => "AttributeError"

/-- What happened. -/
def message : Mishap → String
  | .missingEntry => "list index out of range"
  | .nothingToTake => "pop from empty list"
  | .numeralTooLong digits =>
      s!"Exceeds the limit ({digitLimit} digits) for integer string conversion: " ++
      s!"value has {digits} digits; use sys.set_int_max_str_digits() to increase the limit"
  | .missingName => "a name is missing"
  | .missingTerm => "a term is missing"
  | .missingCategory => "a category is missing"
  | .refused reason => reason

end Mishap

/-- Why a calculation ended without a result. -/
inductive Stop where
  /-- Something is wrong with the input, or a term outgrew the calculator. -/
  | fault (fault : Fault)
  /-- Something went wrong in the calculator's own workings. -/
  | mishap (mishap : Mishap)
  /-- A computation is nested too deeply. -/
  | nestedTooDeeply
  /-- The user interrupted the calculation. -/
  | interrupted
  /-- The program ends with a status, if it has one. -/
  | exit (status : Option Subject)
deriving DecidableEq, Repr

/-- The outcome of a calculation that may stop. -/
abbrev Outcome := Except Stop

namespace Outcome

variable {α β : Type}

/-- A sequence of two calculations returns what the second one does with the result of the first. -/
theorem bind_eq_ok {first : Outcome α} {second : α → Outcome β} {result : β} :
    (first >>= second) = .ok result ↔ ∃ value, first = .ok value ∧ second value = .ok result := by
  cases first with
  | error stop => exact ⟨nofun, nofun⟩
  | ok value =>
    constructor
    · intro h
      exact ⟨value, rfl, h⟩
    · rintro ⟨_, ⟨⟩, h⟩
      exact h

/-- A calculation for every element of a list returns what it does for each of them. -/
theorem mapM_eq_ok {f : α → Outcome β} {values : List α} {results : List β} :
    values.mapM f = .ok results ↔ values.map f = results.map .ok := by
  induction values generalizing results with
  | nil =>
    rw [List.mapM_nil]
    cases results with
    | nil => exact ⟨fun _ => rfl, fun _ => rfl⟩
    | cons _ _ => exact ⟨nofun, nofun⟩
  | cons value values ih =>
    rw [List.mapM_cons, bind_eq_ok]
    constructor
    · rintro ⟨result, hfirst, h⟩
      obtain ⟨rest, hrest, ⟨⟩⟩ := bind_eq_ok.mp h
      rw [List.map_cons, List.map_cons, hfirst, ih.mp hrest]
    · intro h
      cases results with
      | nil => cases h
      | cons result results =>
        obtain ⟨hfirst, hrest⟩ := List.cons.inj h
        exact ⟨result, hfirst, bind_eq_ok.mpr ⟨results, ih.mpr hrest, rfl⟩⟩

end Outcome

/-! ## Room for nested calls -/

/-- How many calls may be open at once. -/
def callLimit : Nat := 10000

/-- How many calls may be nested in the one at hand; `none` stands for any number. -/
abbrev Room := Option Nat

/-- Call something. What is returned is the room inside that call. -/
def Room.enter : Room → Outcome Room
  | none => .ok none
  | some 0 => .error .nestedTooDeeply
  | some (room + 1) => .ok (some room)

namespace Stop

/-- Stop for a fault of the given kind that is about nothing in particular. -/
def ofKind (kind : FaultKind) : Stop := .fault { kind }

/-- Stop for a fault about a piece of text. -/
def about (kind : FaultKind) (text : String) : Stop := .fault (.about kind text)

/-- Stop for a fault about a name, which may be missing. -/
def aboutName (kind : FaultKind) (name : Option String) : Stop :=
  .fault { kind, subject := name.map .text }

end Stop

end LambdaCalc
