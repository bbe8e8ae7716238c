import LambdaCalc.Lexeme
import LambdaCalc.Numeral

set_option autoImplicit false

/-! # Keywords and the reading of texts

A keyword stands for the tokens of its body. Reading a text (`KeywordTable.tokenize`) goes through
its lexemes from left to right and expands keywords and numbers as it meets them, so a keyword's
body is a snapshot of the keywords it uses when it is defined. The names written in the body are
qualified by the keyword.

A text is read in one of three modes: in a spine, right after a lambda, where a parameter has to
follow, or after a parameter, where another one or a dot has to follow. -/

namespace LambdaCalc

/-- The keywords by name, in the order in which they were defined: the tokens they stand for, and
    the texts they were defined by. -/
structure KeywordTable where
  keywords : OrderedTable String (List Token) := {}
  sources : OrderedTable String String := {}
deriving DecidableEq, Repr

/-- A calculation on the keywords, which keeps what it has done if it stops. -/
abbrev KeywordM := ExceptT Stop (StateM KeywordTable)

/-! ## Reading a text -/

/-- What may come next in a text. -/
inductive ReadingMode where
  /-- An element of a spine. -/
  | spine
  /-- The first parameter of a lambda. -/
  | firstParameter
  /-- Another parameter, or the dot. -/
  | moreParameters
deriving DecidableEq, Repr

/-- The state of reading a text. -/
structure TextReading where
  mode : ReadingMode := .spine
  /-- The number of open parentheses. -/
  depth : Nat := 0
  /-- The parameters in scope, each with the depth at which it was bound. -/
  bound : List (String × Nat) := []
  tokens : Array Token := #[]
deriving Repr

namespace TextReading

/-- Write tokens behind those read. -/
def emit (reading : TextReading) (tokens : List Token) : TextReading :=
  { reading with tokens := reading.tokens ++ tokens }

/-- Refuse a lexeme that cannot stand among parameters. -/
def requireSpine (reading : TextReading) (lexeme : Lexeme) : Outcome Unit :=
  match reading.mode with
  | .spine => .ok ()
  | .firstParameter => .error (.about .invalidName lexeme.text)
  | .moreParameters => .error (.about .unexpectedCharacter lexeme.text)

/-- Read a parameter. A keyword cannot be one, other than in its own body. -/
def readParameter (table : KeywordTable) (keyword : Option String) (reading : TextReading)
    (word : String) : Outcome TextReading :=
  if !Word.isName word then
    .error (.about .invalidName word)
  else if table.keywords.contains word && keyword != some word then
    .error (.about .reservedName word)
  else
    .ok { reading.emit [.func (Qualifier.qualify keyword word)] with
      mode := .moreParameters
      bound := reading.bound ++ [(word, reading.depth)] }

/-- The tokens of a number. -/
def numberTokens (word : String) : Outcome (List Token) :=
  if Mishap.digitLimit < word.length then .error (.mishap (.numeralTooLong word.length))
  else Numeral.tokens (Word.number word) Numeral.inputLimit

/-- The tokens of a word in a spine. In the body of a keyword its own name is a parameter if one is
    in scope, and otherwise must not be a keyword yet. -/
def wordTokens (table : KeywordTable) (keyword : Option String) (reading : TextReading)
    (word : String) : Outcome (List Token) :=
  let ownToken := Token.var (Qualifier.qualify keyword word)
  if keyword = some word && reading.bound.any (·.1 == word) then
    .ok [ownToken]
  else
    match table.keywords.find? word with
    | some found =>
        if keyword = some word then .error (.about .recursiveKeyword word) else .ok found
    | none =>
        if Word.isNumber word then numberTokens word
        else if Word.isName word then .ok [ownToken]
        else .error (.about .invalidName word)

/-- Read one lexeme. -/
def step (table : KeywordTable) (keyword : Option String) (reading : TextReading) :
    Lexeme → Outcome TextReading
  | .opening => do
      reading.requireSpine .opening
      return { reading.emit [.opening] with depth := reading.depth + 1 }
  | .closing => do
      reading.requireSpine .closing
      match reading.depth with
      | 0 => throw (.ofKind .unmatchedParenthesis)
      | depth + 1 =>
          return { reading.emit [.closing] with
            depth
            bound := reading.bound.filter (·.2 ≤ depth) }
  | .lambda sign => do
      reading.requireSpine (.lambda sign)
      return { reading with mode := .firstParameter }
  | .dot =>
      match reading.mode with
      | .moreParameters => return { reading with mode := .spine }
      | .firstParameter => throw (.about .invalidName (Lexeme.text .dot))
      | .spine => throw (.about .unexpectedCharacter (Lexeme.text .dot))
  | .word word =>
      match reading.mode with
      | .spine => return reading.emit (← wordTokens table keyword reading word)
      | .firstParameter | .moreParameters => readParameter table keyword reading word

/-- The tokens of a text that has been read: one group around all of them, in which the parentheses
    left open are closed; or none if there are none. -/
def result (reading : TextReading) : Outcome (List Token) :=
  if reading.mode != .spine then
    .error (.ofKind .incompleteFunction)
  else if reading.tokens.isEmpty then
    .ok []
  else
    .ok ([.opening] ++ reading.tokens.toList ++ List.replicate reading.depth .closing ++ [.closing])

end TextReading

namespace KeywordTable

/-- The tokens of a text, or of the body of a keyword. -/
def tokenize (table : KeywordTable) (text : String) (keyword : Option String := none) :
    Outcome (List Token) := do
  let reading ← (Lexeme.ofText text).foldlM (TextReading.step table keyword) {}
  reading.result

/-! ## Defining keywords -/

/-- Define a keyword by the text of its body. Its name is an operator or the name of a variable. -/
def add (name source : String) : KeywordM Unit := do
  let name := Text.trim name
  let source := Text.trim source
  if !(Word.isOperator name || Word.isName name) then
    throw (.about .invalidKeyword name)
  let tokens ← ExceptT.mk (pure ((← get).tokenize source (some name)))
  if tokens.isEmpty then
    throw (.about .invalidKeyword name)
  modify fun table => { table with keywords := table.keywords.put name tokens }
  modify fun table => { table with sources := table.sources.put name source }

/-- Define a keyword, and return the text of its body, or an empty text if that fails for a
    fault. -/
def create (name source : String) : KeywordM String :=
  tryCatch
    (do
      add name source
      return Text.trim source)
    fun
      | .fault _ => return ""
      | stop => throw stop

/-- Remove a keyword. -/
def remove (name : String) : KeywordM Unit := do
  modify fun table => { table with keywords := table.keywords.erase (Text.trim name) }
  modify fun table => { table with sources := table.sources.erase (Text.trim name) }

/-- The table with one more keyword, if it can be defined. -/
def define (table : KeywordTable) (name source : String) : Outcome KeywordTable :=
  match (add name source).run table with
  | (.ok (), table) => .ok table
  | (.error stop, _) => .error stop

/-- The table without a keyword. -/
def erase (table : KeywordTable) (name : String) : KeywordTable := ((remove name).run table).2

/-- Define keywords one after the other. -/
def defineAll (table : KeywordTable) (definitions : List (String × String)) :
    Outcome KeywordTable :=
  definitions.foldlM (fun table definition => table.define definition.1 definition.2) table

/-- Whether a word is a keyword. -/
def contains (table : KeywordTable) (name : String) : Bool := table.keywords.contains name

/-- The keywords with the texts of their bodies. -/
def definitions (table : KeywordTable) : List (String × String) := table.sources.entries

end KeywordTable

end LambdaCalc
