import LambdaCalc.CommandLine
import LambdaCalc.Text.Terminal

set_option autoImplicit false

/-! # The program

Reads the file that the arguments name, or lines as they are typed, and prints what the calculator
prints. -/

namespace LambdaCalc

/-- How the program is called. -/
def usage : String := "usage: lc [-h] [--no-prelude] [file]"

/-- The code that the program ends with. -/
def exitCode : Outcome Unit → UInt32
  | .ok () => 0
  | .error (.exit (some (.number status))) => UInt32.ofNat status.toNat
  | .error _ => 1

/-- Write what has been printed since the last time. -/
def writeOut (shell : Shell) : IO Shell := do
  let output ← IO.getStdout
  output.putStr shell.session.reporter.printed
  output.flush
  return { shell with session.reporter.printed := "" }

/-- Answer lines as they are typed. -/
partial def converse (shell : Shell) : IO (Outcome Unit × Shell) := do
  let (_, shell) := Shell.showPrompt.run shell
  let shell ← writeOut shell
  let line ← (← IO.getStdin).getLine
  let calculation := if line.isEmpty then Shell.obey .endOfInput "" else Shell.answer line
  let (outcome, shell) := calculation.run shell
  let shell ← writeOut shell
  match outcome with
  | .ok .finished => return (.ok (), shell)
  | .ok _ => converse shell
  | .error stop => return (.error stop, shell)

/-- The text of a file, if it can be read. -/
def readText (path : String) : IO (Option String) := do
  try
    return some (← IO.FS.readFile path)
  catch _ =>
    return none

/-- Start the shell and answer lines until the session ends. -/
def runInteractively (shell : Shell) : IO UInt32 := do
  let opening : ShellM Unit := do
    Shell.inSession (Session.begin fun _ => none)
    Shell.inSession (Session.tell (·.print Shell.introduction))
  let (_, shell) := opening.run shell
  let (outcome, shell) ← converse shell
  let (outcome, reporter) := CommandLine.conclude outcome shell.session.reporter
  IO.print reporter.printed
  return exitCode outcome

end LambdaCalc

open LambdaCalc in
/-- Run the program. -/
def main (arguments : List String) : IO UInt32 := do
  let style := Text.terminal (← (← IO.getStdout).isTty)
  match CommandLine.readArguments arguments with
  | .error stop =>
      IO.eprintln usage
      return exitCode (.error stop)
  | .ok request =>
      match request.file, request.shell { style } with
      | none, .ok shell => runInteractively shell
      | file, _ =>
          let text ← readText (file.getD "")
          let (outcome, reporter) := CommandLine.run style (fun _ => text) [] arguments
          IO.print reporter.printed
          return exitCode outcome
