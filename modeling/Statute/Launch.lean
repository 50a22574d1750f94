import Statute.Config.Loading
import Statute.Session
import Statute.Source.Text

/-!
# Launching

A launch puts together what a session needs: the settings are loaded first, then the program is
read, decoded and built. The first of these that fails ends the launch.
-/

namespace Statute

/-- Why a launch failed. -/
inductive LaunchFault where
  | settings (f : Config.LoadFault)
  | unreadable (path : String)
  | undecodable (path : String)
  | unbuildable (f : Failure)
deriving DecidableEq, Repr

namespace LaunchFault

/-- The wording of a fault. -/
def message : LaunchFault → String
  | settings _ => "Failed to load configuration"
  | unreadable path => "Failed to read program " ++ path
  | undecodable path => "Failed to decode program " ++ path
  | unbuildable _ => "Failed to build program registry"

def cause? : LaunchFault → Option String
  | unbuildable f => some f.report
  | _ => none

end LaunchFault

/-- What is to be launched. -/
structure Launch where
  configPath : Option String
  programPath : Option String
  overrides : Config.Overrides
  /-- The variables of the surroundings, unless they are to be ignored. -/
  environment : Option Environment
  extensions : List Extension
  host : Host

namespace Launch

/-- The settings of a launch. -/
def config (l : Launch) (files : Config.Files) : Except LaunchFault Config :=
  match Config.load files l.environment l.configPath l.overrides with
  | .ok c => .ok c
  | .error f => .error (.settings f)

/-- The program of a launch, with its file; without a path it is empty. -/
def source (l : Launch) (files : Config.Files) : Except LaunchFault (String × Source) :=
  match l.programPath with
  | none => .ok ("", Source.empty)
  | some path =>
      match files path with
      | none => .error (.unreadable path)
      | some text =>
          match Source.read? text with
          | none => .error (.undecodable path)
          | some source => .ok (path, source)

/-- The session of a launch with settings that have been loaded. -/
def sessionWith (l : Launch) (files : Config.Files) (c : Config) : Except LaunchFault Session := do
  let (file, source) ← l.source files
  match Session.load c l.host l.extensions file source with
  | .ok s => return s
  | .error f => throw (.unbuildable f)

def session (l : Launch) (files : Config.Files) : Except LaunchFault Session := do
  let c ← l.config files
  l.sessionWith files c

end Launch

end Statute
