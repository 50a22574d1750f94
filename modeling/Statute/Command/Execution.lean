import Statute.Command.Arguments
import Statute.Launch

/-!
# Commands

Four commands: run a program, check all its expressions, evaluate one expression, and show the
settings. The settings are loaded before anything else, whatever the command is.
-/

namespace Statute

namespace Command

/-- What a command leaves behind: what it wrote to both outputs, and what it failed with. -/
structure Report where
  stdout : String
  stderr : String
  /-- The message of a failed command, and the report of the failure behind it. -/
  fault : Option (String × Option String)
deriving DecidableEq, Repr, Inhabited

namespace Report

def success (stdout : String) : Report := ⟨stdout, "", none⟩

/-- A command that failed after writing something. -/
def failed (stdout stderr message : String) (cause : Option String) : Report :=
  ⟨stdout, stderr, some (message, cause)⟩

/-- A command that could not be launched. -/
def ofLaunchFault (f : LaunchFault) : Report :=
  failed "" "" f.message f.cause?

end Report

/-- The launch that an invocation asks for. -/
def Invocation.launch (i : Invocation) (env : Environment) : Launch :=
  { configPath := i.configPath
    programPath := match i.verb with
      | .run | .check => some i.operand
      | .eval => i.program
      | .config => none
    overrides := ⟨i.maxWorkers, none, none, if i.debug then some true else none⟩
    environment := some env
    extensions := []
    host := Host.none }

/-- The paths of the files that an invocation may read. -/
def Invocation.paths (i : Invocation) (env : Environment) : List String :=
  let named := (i.configPath <|> env.get? Config.pathVariable).getD Config.standardPath
  Config.environmentPath :: i.operand :: i.program.toList ++ Config.pathsOf named

def unlines (ls : List String) : String :=
  String.join (ls.map (· ++ "\n"))

/-- The report of something that ended, after `printed` was written. `shown` is what is written for
a result. -/
def reportEnding {α : Type} (printed : String) (shown : α → String) : Ending α → Report
  | .result a => .success (printed ++ shown a)
  | .failure f => .failed printed "" f.report none
  | .crash message => .failed printed "" message none
  | .unfinished => .failed printed "" "unfinished" none

/-- Runs the main body of a program and shows the value it returns. -/
def runProgram (s : Session) : Report :=
  let (s, e) := s.runMain
  reportEnding (unlines s.output) (fun flow => match flow with
    | .returnWith v => s.world.heap.text v ++ "\n"
    | _ => "") e

/-- Evaluates one expression and shows its value. -/
def evaluate (s : Session) (text : String) : Report :=
  let (s, e) := s.evaluate text
  reportEnding (unlines s.output) (fun v => s.world.heap.text v ++ "\n") e

/-- A number with blanks before it, at least four characters wide. -/
def padLine (n : Nat) : String :=
  let digits := toString n
  String.ofList (List.replicate (4 - digits.length) ' ') ++ digits

/-- The listing of the expressions of the main body that compile. -/
def listing (s : Session) : List String :=
  (Body.expressions s.setting.registry.main).filterMap fun e =>
    match e.compile with
    | .ok c =>
        some (padLine e.location.line ++ "  " ++ Item.listing s.world.heap.text c.items)
    | .error _ => none

/-- Checks all expressions of a program. -/
def check (s : Session) (verbose : Bool) : Report :=
  let registry := s.setting.registry
  let listed := if verbose then unlines (listing s) else ""
  match registry.check with
  | [] => .success (listed ++ "✓ " ++ registry.file ++ " compiled without errors\n")
  | faults =>
      .failed listed (unlines (faults.map Failure.report))
        (toString faults.length ++ " error(s) in " ++ registry.file) none

/-- Shows the settings. A number that does not fit a signed 64-bit integer cannot be written. -/
def showConfig (c : Config) : Report :=
  let writable (n : Nat) : Bool := (n : Int) ≤ maxInt
  if [c.maxWorkers, c.workerIdleTtlMs, c.workerPollTimeoutMs, c.waitSleepUs,
      c.recursionLimit].all writable then .success c.display
  else .failed "" "" "out-of-range value for u64 type" none

/-- Carries out an invocation. -/
def execute (files : Config.Files) (env : Environment) (i : Invocation) : Report :=
  let launch := i.launch env
  match launch.config files with
  | .error f => .ofLaunchFault f
  | .ok c =>
      if i.verb = .config then showConfig c
      else match launch.sessionWith files c with
        | .error f => .ofLaunchFault f
        | .ok s =>
            match i.verb with
            | .run => runProgram s
            | .check => check s i.verbose
            | _ => evaluate s i.operand

end Command

end Statute
