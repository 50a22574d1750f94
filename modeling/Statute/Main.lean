import Statute.Command.Execution
import Statute.Command.Usage

/-!
# The command line program

Reads the arguments, the variables and the files that an invocation may need, and hands them to the
command. What the command leaves behind is written out at its end.
-/

namespace Statute

/-- The text of a file, if it can be read. -/
def fileText? (path : String) : IO (Option String) := do
  try
    return some (← IO.FS.readFile path)
  catch _ =>
    return none

/-- The values of those variables that are set. -/
def variablesOf (names : List String) : IO Environment := do
  let mut env : Environment := []
  for name in names do
    match ← IO.getEnv name with
    | some value => env := env ++ [(name, value)]
    | none => pure ()
  return env

/-- The texts of those files that can be read. -/
def filesOf (paths : List String) : IO Config.Files := do
  let mut files : List (String × String) := []
  for path in paths do
    match ← fileText? path with
    | some text => files := files ++ [(path, text)]
    | none => pure ()
  return fun path => files.lookup path

/-- Carries out an invocation. -/
def invoke (i : Command.Invocation) : IO UInt32 := do
  let env ← variablesOf Config.variableNames
  let extended := match ← fileText? Config.environmentPath with
    | some text => env.extend text
    | none => env
  let files ← filesOf (i.paths extended)
  let report := Command.execute files env i
  (← IO.getStdout).putStr report.stdout
  (← IO.getStderr).putStr report.stderr
  match report.fault with
  | none => return 0
  | some (message, cause) =>
      let tail := match cause with
        | some c => ": " ++ c
        | none => ""
      (← IO.getStderr).putStr ("Error: " ++ message ++ tail ++ "\n")
      return 1

end Statute

/-- The command line program. -/
def main (args : List String) : IO UInt32 := do
  match Statute.Command.parse args with
  | .ok i => Statute.invoke i
  | .error f =>
      let out ← if f = .helpWanted then IO.getStdout else IO.getStderr
      out.putStr f.display
      return f.exitCode
