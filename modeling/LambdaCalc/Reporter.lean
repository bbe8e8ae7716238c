import LambdaCalc.Fault
import LambdaCalc.OrderedTable
import LambdaCalc.Text.Styled

set_option autoImplicit false

/-! # Reporting

The reporter knows which statement of which file is being processed, and puts that place in front of
the warnings and faults it prints. A fault ends the program if faults are fatal; otherwise all
places are forgotten and work goes on.

`Reporter.absorb` says what becomes of a calculation that stopped: a fault is reported, so is an
interruption and a computation nested too deeply, the end of the program passes through, and a
mishap is reported as an unknown error and passes through as well. -/

namespace LambdaCalc

/-- A statement being processed, with its line number if it has one. -/
structure Place where
  text : String
  number : Option Int := none
deriving DecidableEq, Repr

/-- The state of reporting. -/
structure Reporter where
  /-- Whether a fault ends the program. -/
  fatal : Bool := true
  /-- How parts of a message are made to stand out. -/
  style : Text.Style
  /-- The files by path, each with the statement at hand. -/
  places : OrderedTable String (Option Place) := {}
  /-- Everything printed so far. -/
  printed : String := ""

namespace Reporter

/-! ## Places -/

/-- Note that no statement of a file is being processed. -/
def clear (path : String) (reporter : Reporter) : Reporter :=
  { reporter with places := reporter.places.put path none }

/-- Note the statement of a file that is being processed. -/
def enter (path : String) (place : Place) (reporter : Reporter) : Reporter :=
  { reporter with places := reporter.places.put path (some place) }

/-- Forget all statements, and keep the files. -/
def clearAll (reporter : Reporter) : Reporter :=
  { reporter with places := reporter.places.mapValues fun _ => none }

/-- The files that have a statement at hand which is not empty. -/
def active (reporter : Reporter) : List (String × Place) :=
  reporter.places.entries.filterMap fun (path, place) =>
    match place with
    | some place => if place.text.isEmpty then none else some (path, place)
    | none => none

/-- A line number as shown; a missing one leaves the word `None`. -/
def shownNumber (place : Place) : String :=
  match place.number with
  | some number => toString number
  | none => "None"

/-- The file and line of the last statement noted, to be put in front of a message. -/
def location (reporter : Reporter) : String :=
  match reporter.active.getLast? with
  | some (path, place) => s!"{path}:{shownNumber place}: "
  | none => ""

/-! ## Printing -/

/-- Print a line. -/
def print (line : String) (reporter : Reporter) : Reporter :=
  { reporter with printed := reporter.printed ++ line ++ "\n" }

/-- Print text that does not end the line. -/
def prompt (text : String) (reporter : Reporter) : Reporter :=
  { reporter with printed := reporter.printed ++ text }

/-- The location in bold. -/
def boldLocation (reporter : Reporter) : String := reporter.style .bold none reporter.location

/-- Print a warning. -/
def warn (message : String) (reporter : Reporter) : Reporter :=
  reporter.print
    (reporter.boldLocation ++ reporter.style .bold (some .magenta) "warning: " ++ message)

/-- The lines that say where a fault comes from: all statements at hand if there are several, and
    otherwise the location. -/
def origin (reporter : Reporter) : String :=
  if 1 < reporter.active.length then
    "Traceback:\n" ++ String.join (reporter.active.map fun (path, place) =>
      s!"  File '{path}', line {shownNumber place}:\n    {place.text}\n")
  else
    reporter.boldLocation

/-- The message of a fault with its origin. -/
def faultText (reporter : Reporter) (fault : Fault) : String :=
  reporter.origin ++
    (if fault.kind.isInternal then reporter.style .bold (some .red) "[internal] " else "") ++
    reporter.style .bold (some .red) s!"{fault.kind.category.word} error: " ++ fault.message

/-! ## Stops -/

/-- The status that the program ends with after a fatal fault. -/
def failureStatus : Subject := .number 1

/-- Print a fault. The program ends if faults are fatal, and otherwise forgets where it was. -/
def report (fault : Fault) (reporter : Reporter) : Outcome Unit × Reporter :=
  let reporter := reporter.print (reporter.faultText fault)
  if reporter.fatal then (.error (.exit (some failureStatus)), reporter)
  else (.ok (), reporter.clearAll)

/-- Print whatever stopped a calculation as if it were a fault. What is none cannot be printed. -/
def reportStop (stop : Stop) (reporter : Reporter) : Outcome Unit × Reporter :=
  match stop with
  | .fault fault => reporter.report fault
  | .mishap _ | .nestedTooDeeply | .interrupted | .exit _ =>
      (.error (.mishap .missingCategory), reporter)

/-- Deal with a calculation that stopped: `ok` means that work goes on. -/
def absorb (stop : Stop) (reporter : Reporter) : Outcome Unit × Reporter :=
  match stop with
  | .fault fault => reporter.report fault
  | .nestedTooDeeply => reporter.report { kind := .expressionSizeLimit }
  | .interrupted => reporter.report (.worded .general (.text "keyboard interrupt"))
  | .exit _ => (.error stop, reporter)
  | .mishap mishap =>
      let wording := s!"unknown error: '{mishap.sort}: {mishap.message}'"
      match reporter.report (.worded .internalFailure (.text wording)) with
      | (.ok (), reporter) => (.error stop, reporter)
      | (.error exit, reporter) => (.error exit, reporter)

end Reporter

end LambdaCalc
