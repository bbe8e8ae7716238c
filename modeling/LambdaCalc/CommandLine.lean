import LambdaCalc.Shell
import LambdaCalc.Text.Digit

set_option autoImplicit false

/-! # The command line

The program takes at most one file, which it runs, and starts the shell if it gets none. The options
are `--no-prelude` and `--help`, or `-h`; a long option may be shortened as far as it stays the only
one, and two dashes end the options. A negative number is no option, and neither is a text with a
space in it. Any other option, and any further argument, is refused. -/

namespace LambdaCalc

namespace CommandLine

/-! ## Arguments -/

/-- What the arguments ask for. -/
structure Request where
  file : Option String := none
  withPrelude : Bool := true
deriving DecidableEq, Repr

/-- The options of the program. -/
inductive Flag where
  | help
  | noPrelude
deriving DecidableEq, Repr

/-- The reading of one argument in front of the two dashes. -/
inductive Argument where
  | positional (text : String)
  | flag (flag : Flag)
  /-- A flag with a value, though none takes one. -/
  | flagWithValue
  /-- The beginning of more than one long option. -/
  | ambiguous
  | unknown
deriving DecidableEq, Repr

/-- The spellings of the long options. -/
def longFlags : List (String × Flag) := [("--help", .help), ("--no-prelude", .noPrelude)]

/-- Whether a text is a number: some digits, or any number of digits with a point and some digits
    behind them. -/
def isNumber (cs : List Char) : Bool :=
  match cs.dropWhile Text.isDecimalDigit with
  | [] => !cs.isEmpty
  | '.' :: fraction => !fraction.isEmpty && fraction.all Text.isDecimalDigit
  | _ => false

/-- Whether a text is a negative number, which is no option. A line feed may follow it. -/
def isNegativeNumber : List Char → Bool
  | '-' :: cs => isNumber (if cs.getLast? = some '\n' then cs.dropLast else cs)
  | _ => false

/-- Read an argument that begins a long option. -/
def readLong (text : String) : Argument :=
  let name := String.ofList (text.toList.takeWhile (· != '='))
  match longFlags.filter (·.1.startsWith name) with
  | [] => if text.toList.contains ' ' then .positional text else .unknown
  | [(_, flag)] => if name = text then .flag flag else .flagWithValue
  | _ => .ambiguous

/-- Read an argument that begins with `-h`, given what follows. The letter may be repeated, also
    behind an equals sign. -/
def readShort (behind : List Char) : Argument :=
  let letters :=
    match behind with
    | '=' :: c :: cs => c :: cs
    | _ => behind
  if letters.all (· == 'h') then .flag .help else .flagWithValue

/-- Read an argument in front of the two dashes. -/
def Argument.ofText (text : String) : Argument :=
  match text.toList with
  | '-' :: '-' :: _ => readLong text
  | '-' :: 'h' :: behind => readShort behind
  | '-' :: _ :: _ =>
      if isNegativeNumber text.toList || text.toList.contains ' ' then .positional text
      else .unknown
  | _ => .positional text

/-- The statuses that the program ends with before it has done anything. -/
def helpStatus : Subject := .number 0

/-- The status of refused arguments. -/
def refusedStatus : Subject := .number 2

/-- The state of reading arguments. -/
structure Reading where
  request : Request := {}
  /-- Whether an option has followed the file. -/
  fileClosed : Bool := false
  /-- Whether something was met that is refused in the end. -/
  surplus : Bool := false
deriving DecidableEq, Repr

/-- Take a positional argument: the file, or one too many. -/
def Reading.take (reading : Reading) (text : String) : Reading :=
  match reading.request.file with
  | none => { reading with request.file := some text }
  | some _ => { reading with surplus := true }

/-- Pass the two dashes. They belong to the file in front of them or behind them, so they are one
    argument too many if an option has followed the file. -/
def Reading.passDashes (reading : Reading) : Reading :=
  { reading with surplus := reading.surplus || reading.fileClosed }

/-- The request that was read, unless there is something to refuse. -/
def Reading.result (reading : Reading) : Outcome Request :=
  if reading.surplus then .error (.exit (some refusedStatus)) else .ok reading.request

/-- Read the arguments from left to right. Help ends the program at once, and so does a flag with a
    value; what is unknown or too much is refused at the end. -/
def readFrom (reading : Reading) : List String → Outcome Request
  | [] => reading.result
  | "--" :: texts => (texts.foldl Reading.take reading.passDashes).result
  | text :: texts =>
      match Argument.ofText text with
      | .positional text => readFrom (reading.take text) texts
      | .flag .help => .error (.exit (some helpStatus))
      | .flag .noPrelude =>
          readFrom
            { reading with
              request.withPrelude := false
              fileClosed := reading.request.file.isSome }
            texts
      | .flagWithValue => .error (.exit (some refusedStatus))
      | .ambiguous | .unknown => readFrom { reading with surplus := true } texts

/-- Read the arguments. A beginning of more than one option is refused before anything else. -/
def readArguments (texts : List String) : Outcome Request :=
  if (texts.takeWhile (· != "--")).any (Argument.ofText · == .ambiguous) then
    .error (.exit (some refusedStatus))
  else
    readFrom {} texts

/-! ## Running -/

/-- The path that a request works on. -/
def Request.path (request : Request) : String := request.file.getD Session.interactivePath

/-- The shell of a request before it has done anything. -/
def Request.shell (request : Request) (reporter : Reporter) : Outcome Shell := do
  let table ← KeywordTable.initial request.withPrelude
  return { session := .start reporter request.path table }

/-- Run the statements of a file and print their results. -/
def runFile (read : String → Option String) : SessionM Unit := do
  Session.begin read
  Session.run
  (← Session.takeResults).forM fun result => Session.tell (·.print result.text)

/-- Start the shell and answer lines. -/
def runShell (read : String → Option String) (lines : List String) : ShellM Unit := do
  Shell.inSession (Session.begin read)
  Shell.interact lines

/-- Report what stopped the program, if anything did. -/
def conclude (outcome : Outcome Unit) (reporter : Reporter) : Outcome Unit × Reporter :=
  match outcome with
  | .ok () => (.ok (), reporter)
  | .error stop => reporter.absorb stop

/-- Run the program on its arguments, given the files that can be read and the lines that will be
    typed. Returns how it ends and the reporter with all that was printed. -/
def run (style : Text.Style) (read : String → Option String) (lines : List String)
    (arguments : List String) : Outcome Unit × Reporter :=
  let reporter : Reporter := { style }
  let prepared : Outcome (Request × Shell) := do
    let request ← readArguments arguments
    return (request, ← request.shell reporter)
  match prepared with
  | .error stop => conclude (.error stop) reporter
  | .ok (request, shell) =>
      let calculation : ShellM Unit :=
        match request.file with
        | some _ => Shell.inSession (runFile read)
        | none => runShell read lines
      let (outcome, shell) := calculation.run shell
      conclude outcome shell.session.reporter

end CommandLine

end LambdaCalc
