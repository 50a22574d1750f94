/-!
# Settings of a run

The numbers that a run depends on: how many workers there may be and when they give up, how waiting
pauses, how deep calls may nest, and whether breakdowns of the host are shown as they are.
-/

namespace Statute

/-- The settings of a run. -/
structure Config where
  maxWorkers : Nat
  workerIdleTtlMs : Nat
  workerPollTimeoutMs : Nat
  waitSleepEvery : Nat
  waitSleepUs : Nat
  recursionLimit : Nat
  debug : Bool
deriving DecidableEq, Repr

namespace Config

/-- The settings of a run that asks for nothing else. -/
def standard : Config := ⟨4, 5000, 50, 64, 200, 512, false⟩

instance : Inhabited Config := ⟨standard⟩

/-- Why settings are refused. -/
inductive Defect where
  | noWorkers
  | noCalls
  | noPolls
deriving DecidableEq, Repr

/-- The name of the setting that is too small. -/
def Defect.key : Defect → String
  | noWorkers => "max_workers"
  | noCalls => "recursion_limit"
  | noPolls => "wait_sleep_every"

def Defect.message (d : Defect) : String :=
  "invalid configuration: " ++ d.key ++ " must be at least 1"

/-- The first defect of the settings: there has to be a worker, a call and a poll. -/
def defect? (c : Config) : Option Defect :=
  if c.maxWorkers = 0 then some .noWorkers
  else if c.recursionLimit = 0 then some .noCalls
  else if c.waitSleepEvery = 0 then some .noPolls
  else none

end Config

end Statute
