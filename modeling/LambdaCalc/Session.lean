import LambdaCalc.Calculation
import LambdaCalc.Keyword.Prelude
import LambdaCalc.Reporter
import LambdaCalc.Statement
import LambdaCalc.Text.Lines

set_option autoImplicit false

/-! # Sessions

A session takes statements one by one. A definition enters a keyword at once; any other statement is
kept under its line number until the session is run, which reduces the pending statements in order
and collects their results. While a statement is processed, the reporter knows it; if it fails, it
is still known when the fault is reported.

A session works on a file, whose statements are taken when it is opened, or interactively, in which
case faults are not fatal. -/

namespace LambdaCalc

/-- The text of a reduced expression, and its value if it is a numeral. -/
structure Result where
  text : String
  number : Option Nat
deriving DecidableEq, Repr

/-- The state of a session. -/
structure Session where
  reporter : Reporter
  /-- The file that is worked on. -/
  path : String
  table : KeywordTable := {}
  /-- The statements to be reduced, by line number. -/
  pending : OrderedTable Int String := {}
  /-- The results that have not been taken yet, oldest first. -/
  results : List Result := []

/-- A calculation within a session, which keeps what it has done if it stops. -/
abbrev SessionM := ExceptT Stop (StateM Session)

namespace Session

/-- The path that stands for interactive input. -/
def interactivePath : String := "<in>"

/-- Continue with an outcome, which leaves the session as it is. -/
def ofOutcome {α : Type} (outcome : Outcome α) : SessionM α := ExceptT.mk (pure outcome)

/-- Have the keywords changed. What is done stays done if the change stops. -/
def onKeywords {α : Type} (change : KeywordM α) : SessionM α := fun session =>
  let (outcome, table) := change.run session.table
  (outcome, { session with table })

/-- Have the reporter do something that cannot fail. -/
def tell (action : Reporter → Reporter) : SessionM Unit :=
  modify fun session => { session with reporter := action session.reporter }

/-- Run a calculation and report what stops it; `none` means that something did. -/
def guarded {α : Type} (calculation : SessionM α) : SessionM (Option α) := fun session =>
  match calculation.run session with
  | (.ok value, session) => (.ok (some value), session)
  | (.error stop, session) =>
      let (outcome, reporter) := session.reporter.absorb stop
      (outcome.map fun _ => none, { session with reporter })

/-! ## Statements -/

/-- Define a keyword, with a warning if it is one already. -/
def define (name source : String) : SessionM Unit := do
  let name := Text.trim name
  if (← get).table.contains name then
    tell (·.warn s!"keyword '{name}' redefined")
  onKeywords (KeywordTable.add name source)

/-- The line number after those of all pending statements; the first one is one. -/
def nextLine (session : Session) : Int :=
  match session.pending.keys with
  | [] => 1
  | line :: lines => lines.foldl max line + 1

/-- Take a statement. Without a line number it gets the next one. -/
def take (text : String) (line : Option Int) : SessionM Unit := do
  let session ← get
  let line := line.getD session.nextLine
  tell (·.enter session.path { text, number := some line })
  match Statement.definition? text with
  | some (name, source) => define name source
  | none => modify fun session => { session with pending := session.pending.put line text }
  tell (·.clear session.path)

/-- Reduce a statement and collect its result. -/
def runStatement (text : String) : SessionM Unit := do
  let expression ← ofOutcome ((← get).table.reduceText text)
  let rendered ← ofOutcome (expression.renderWithin (some callLimit))
  let result := { text := rendered, number := expression.number? }
  modify fun session => { session with results := session.results ++ [result] }

/-- Drop a pending statement. -/
def drop (line : Int) : SessionM Unit :=
  modify fun session => { session with pending := session.pending.erase line }

/-- Reduce the pending statements in order. A statement is no longer pending once it has been
    tried. -/
def run : SessionM Unit := do
  let session ← get
  session.pending.entries.forM fun (line, text) => do
    tell (·.enter session.path { text, number := some line })
    tryFinally (runStatement text) (drop line)
    tell (·.clear session.path)

/-- Take the oldest result. -/
def takeResult : SessionM Result := do
  match (← get).results with
  | [] => throw (.mishap .nothingToTake)
  | result :: results =>
      modify ({ · with results })
      return result

/-- Take all results, oldest first. -/
def takeResults : SessionM (List Result) := modifyGet fun session =>
  (session.results, { session with results := [] })

/-- Remove a keyword. -/
def removeKeyword (name : String) : SessionM Unit := onKeywords (KeywordTable.remove name)

/-! ## Opening -/

/-- Take the statements of a file, given its text if it can be read. -/
def takeFile (text : Option String) : SessionM Unit := do
  match text with
  | none => throw (.about .fileNotReadable (← get).path)
  | some text =>
      (Statement.ofLines (Text.fileLines text)).forM fun statement =>
        take statement.text (some (statement.line : Int))

/-- A session on a path, before any statement. -/
def start (reporter : Reporter) (path : String) (table : KeywordTable) : Session :=
  { reporter := reporter.clear path, path, table }

/-- Begin working on the path of the session: interactively, or by taking the statements of a file.
    A path with a null character in it cannot be that of a file. -/
def begin (read : String → Option String) : SessionM Unit := do
  let session ← get
  if session.path = interactivePath then
    tell ({ · with fatal := false })
  else if session.path.toList.contains '\x00' then
    throw (.mishap (.refused "embedded null byte"))
  else
    takeFile (read session.path)

end Session

end LambdaCalc
