import LambdaCalc.Session

set_option autoImplicit false

/-! # The shell

The shell answers lines. A line whose first word is a command is obeyed; any other line is a
statement, which is taken and run at once. A statement with open parentheses is held back until
later lines close them. Faults are reported and the shell goes on. -/

namespace LambdaCalc

/-- What is shown in front of a line that begins a statement. -/
def Shell.primaryPrompt : String := "λ> "

/-- What is shown in front of a line that goes on with a statement. -/
def Shell.secondaryPrompt : String := ". "

/-- The state of the shell. -/
structure Shell where
  session : Session
  /-- The beginning of a statement whose parentheses are still open; empty if there is none. -/
  held : String := ""
  /-- What is shown in front of the next line. -/
  prompt : String := Shell.primaryPrompt
  /-- The number of lines taken as statements or parts of them. -/
  lines : Nat := 0

/-- A calculation of the shell, which keeps what it has done if it stops. -/
abbrev ShellM := ExceptT Stop (StateM Shell)

/-- What an answered line asks for. -/
inductive Answer where
  /-- Go on with the next line. -/
  | continued
  /-- There was nothing on the line. -/
  | blank
  /-- End the session. -/
  | finished
deriving DecidableEq, Repr

namespace Shell

/-- What is shown at the start. -/
def introduction : String :=
  "Lambda calculator :: Python backend\nType '?' or 'help' for more information."

/-- Have the session do something. -/
def inSession {α : Type} (calculation : SessionM α) : ShellM α := fun shell =>
  let (outcome, session) := calculation.run shell.session
  (outcome, { shell with session })

/-- A result as it is printed, with the value of a numeral behind it. -/
def resultLine (reporter : Reporter) (result : Result) : String :=
  match result.number with
  | some number => result.text ++ reporter.style .dark none s!"  ({number})"
  | none => result.text

/-- Take a statement, run it and print its result. -/
def runStatement (text : String) (line : Nat) : SessionM Unit := do
  Session.take text (some line)
  Session.run
  (← Session.takeResults).forM fun result =>
    Session.tell fun reporter => reporter.print (resultLine reporter result)

/-- Take a line as a statement, or as the part of one that goes on. -/
def takeLine (line : String) : ShellM Unit := do
  let shell ← get
  let (text, goesOn) := Statement.prepare s!"{shell.held} {line}"
  let number := shell.lines + 1
  if goesOn then
    set { shell with held := text, prompt := secondaryPrompt, lines := number }
  else
    set { shell with held := "", prompt := primaryPrompt, lines := number }
    if !text.isEmpty then
      let _ ← inSession (Session.guarded (runStatement text number))

/-! ## Commands -/

/-- The commands of the shell. -/
inductive Command where
  | keywords
  | remove
  | help
  | endOfInput
  | exit
deriving DecidableEq, Repr

/-- The command of a name. -/
def Command.ofName? : String → Option Command
  | "keywords" => some .keywords
  | "remove" => some .remove
  | "help" => some .help
  | "EOF" => some .endOfInput
  | "exit" => some .exit
  | _ => none

/-- List the keywords. -/
def listKeywords : SessionM Unit := do
  (← get).table.definitions.forM fun (name, source) =>
    Session.tell fun reporter => reporter.print s!"{reporter.style .bold none name} := {source}"

/-- Remove a keyword; it is a fault if there is none. -/
def removeKeyword (name : String) : SessionM Unit := do
  let name := Text.trim name
  if (← get).table.contains name then
    Session.removeKeyword name
  else
    throw (.about .invalidKeyword name)

/-- The text of the command `help`. -/
def helpText : String :=
  "Welcome to the lambda calculator!\n\n" ++
  "Type a λ-term to reduce it to its normal form, e.g. '(λx.x) a' gives 'a'. '\\' can be typed \n" ++
  "instead of 'λ', and numbers are read as Church numerals.\n\n" ++
  "'NAME := λ-term' defines a keyword, which is expanded wherever NAME is used later on. \n" ++
  "'keywords' lists the defined keywords and 'remove NAME' deletes one. Try 'add 2 3'."

/-- Obey a command with the rest of its line. -/
def obey (command : Command) (argument : String) : ShellM Answer := do
  match command with
  | .keywords =>
      inSession listKeywords
      return .continued
  | .remove =>
      let _ ← inSession (Session.guarded (removeKeyword argument))
      return .continued
  | .help =>
      inSession (Session.tell (·.print helpText))
      return .continued
  | .endOfInput =>
      inSession (Session.tell (·.print ""))
      return .finished
  | .exit => return .finished

/-! ## Lines -/

/-- Split off the command at the start of a line. A question mark stands for the command `help`. -/
def command? (line : List Char) : Option (Command × String) :=
  let line :=
    match line with
    | '?' :: rest => "help ".toList ++ rest
    | line => line
  let word := String.ofList (line.takeWhile Word.isWordChar)
  let argument := String.ofList (Text.trimList (line.dropWhile Word.isWordChar))
  (Command.ofName? word).map (·, argument)

/-- Answer a line. -/
def answer (line : String) : ShellM Answer := do
  let line := Text.trimList line.toList
  if line.isEmpty then
    return .blank
  match command? line with
  | some (command, argument) => obey command argument
  | none =>
      takeLine (String.ofList line)
      return .continued

/-- Show the prompt. -/
def showPrompt : ShellM Unit := do
  let text := (← get).prompt
  inSession (Session.tell (·.prompt text))

/-- Answer lines until one of them ends the session, and the end of the input does. -/
def answerAll : List String → ShellM Unit
  | [] => do
      showPrompt
      let _ ← obey .endOfInput ""
  | line :: lines => do
      showPrompt
      match ← answer line with
      | .finished => return
      | .continued | .blank => answerAll lines

/-- Introduce the shell and answer lines. -/
def interact (lines : List String) : ShellM Unit := do
  inSession (Session.tell (·.print introduction))
  answerAll lines

end Shell

end LambdaCalc
