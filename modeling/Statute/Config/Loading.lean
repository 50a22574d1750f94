import Statute.Config.Basic
import Statute.Config.Environment
import Statute.Config.Key
import Statute.Config.Table
import Statute.Decimal.Binary
import Statute.Json.Reader
import Statute.Source.Decode

/-!
# Loading settings

Settings come from a file, from the environment and from the caller; each of them goes before the
one named earlier, and what none of them says has its standard value. A file and the environment may
spell a number or a truth value in several ways. Settings that were given as a document are read
strictly.
-/

namespace Statute

namespace Config

/-! ## Lenient values -/

/-- The texts that stand for truth values. -/
def truth? (s : String) : Option Bool :=
  let word := lowered s
  if word = "true" ∨ word = "on" ∨ word = "yes" then some true
  else if word = "false" ∨ word = "off" ∨ word = "no" then some false
  else none

/-- A number of so many bits given by its digits, perhaps after a plus sign. -/
def natural? (limit : Nat) (s : String) : Option Nat :=
  let ds := match s.toList with
    | '+' :: ds => ds
    | ds => ds
  if ds.isEmpty || !ds.all Char.isDigit then none
  else
    let n := Decimal.ofDigits ds
    if n < limit then some n else none

/-- A count: whole numbers as they are, other numbers rounded and kept in range, truth values as
one and zero, and the texts of any of them. -/
def count? : Json → Option Nat
  | .int n =>
      if n < 0 then none
      else if n ≤ maxInt then some n.toNat
      else some (Binary.nearest n.toNat 1).toUInt64.toNat
  | .number x => some x.round.toUInt64.toNat
  | .bool b => some (if b then 1 else 0)
  | .str s =>
      match truth? s with
      | some b => some (if b then 1 else 0)
      | none => natural? UInt64.size s
  | _ => none

/-- A switch: a truth value, a number other than zero, or the text of either. -/
def switch? : Json → Option Bool
  | .bool b => some b
  | .int n => some (n ≠ 0)
  | .number x => some (x != 0.0)
  | .str s => if s = "1" then some true else if s = "0" then some false else truth? s
  | _ => none

/-- A setting that keeps its standard value when it is not given. -/
def setting {α : Type} (members : List (String × Json)) (key : String) (read : Json → Option α)
    (standard : α) : Option α :=
  match Json.lookup key members with
  | none => some standard
  | some j => read j

/-- The settings that a table spells. -/
def ofTable? (table : List (String × Json)) : Option Config := do
  let d := Config.standard
  let members := table.map fun (key, value) => entry key value
  return {
    maxWorkers := ← setting members "max_workers" count? d.maxWorkers
    workerIdleTtlMs := ← setting members "worker_idle_ttl_ms" count? d.workerIdleTtlMs
    workerPollTimeoutMs := ← setting members "worker_poll_timeout_ms" count? d.workerPollTimeoutMs
    waitSleepEvery :=
      (← setting members "wait_sleep_every" count? d.waitSleepEvery) % UInt32.size
    waitSleepUs := ← setting members "wait_sleep_us" count? d.waitSleepUs
    recursionLimit := ← setting members "recursion_limit" count? d.recursionLimit
    debug := ← setting members "debug" switch? d.debug }

/-! ## Strict values -/

/-- The settings that a document spells, without any latitude. -/
def ofJson? (j : Json) : Option Config := do
  let d := Config.standard
  let below (limit : Nat) (j : Json) : Option Nat :=
    j.nat?.bind fun n => if n < limit then some n else none
  let count (standard : Nat) := Decode.withDefault standard (below UInt64.size)
  match ← Decode.parts? ["max_workers", "worker_idle_ttl_ms", "worker_poll_timeout_ms",
      "wait_sleep_every", "wait_sleep_us", "recursion_limit", "debug"] j with
  | [workers, ttl, poll, every, us, limit, debug] =>
      return ⟨← count d.maxWorkers workers, ← count d.workerIdleTtlMs ttl,
        ← count d.workerPollTimeoutMs poll,
        ← Decode.withDefault d.waitSleepEvery (below UInt32.size) every,
        ← count d.waitSleepUs us, ← count d.recursionLimit limit,
        ← Decode.withDefault d.debug Json.bool? debug⟩
  | _ => none

/-! ## Sources -/

abbrev Files := String → Option String

/-- What the name of every variable with a setting begins with. -/
def variableStem : String := "JURIST_"

/-- The variable that names the settings file. -/
def pathVariable : String := "JURIST_CONFIG_PATH"

/-- The variables that can hold settings or name the settings file. -/
def variableNames : List String :=
  pathVariable :: ["MAX_WORKERS", "WORKER_IDLE_TTL_MS", "WORKER_POLL_TIMEOUT_MS",
    "WAIT_SLEEP_EVERY", "WAIT_SLEEP_US", "RECURSION_LIMIT", "DEBUG"].map (variableStem ++ ·)

/-- The path of the settings file that is read when none is named, up to its extension. -/
def standardPath : String := "jurist"

/-- The path of the file with further variables. -/
def environmentPath : String := ".env"

/-- The value of a variable: a truth value, an integer, a number, or else a text. -/
def ofVariable (s : String) : Json :=
  let word := lowered s
  let (negative, ds) := Decimal.splitSign s.toList
  let whole : Option Int :=
    if ds.isEmpty || !ds.all Char.isDigit then none
    else
      let n : Int := Decimal.ofDigits ds
      let n := if negative then -n else n
      if minInt ≤ n ∧ n ≤ maxInt then some n else none
  if word = "true" then .bool true
  else if word = "false" then .bool false
  else match whole, readNumber? s with
    | some n, _ => .int n
    | none, some x => .number x
    | none, none => .str s

/-- The settings that the variables of an environment spell; case does not matter in their names. -/
def ofEnvironment (env : Environment) : List (String × Json) :=
  let stem := (lowered variableStem).toList
  env.filterMap fun (name, value) =>
    let key := (lowered name).toList
    if stem.isPrefixOf key then some (String.ofList (key.drop stem.length), ofVariable value)
    else none

/-- The forms of settings files by the extensions of their names. -/
def formats : List (String × (String → Option Json)) :=
  [("toml", Table.read?), ("json", Json.read?)]

/-- The extension of a path: what follows the last point of the last part. -/
def extension (path : String) : String :=
  let file := (Text.pieces '/' path.toList).getLastD []
  match (Text.pieces '.' file).reverse with
  | last :: before => if before.all List.isEmpty then "" else String.ofList last
  | [] => ""

/-- The text of a settings file and how to read it: the file itself, or the file with one of the
extensions added. -/
def locate? (files : Files) (path : String) : Option (String × (String → Option Json)) :=
  match files path with
  | some text => (formats.lookup (extension path)).map fun read => (text, read)
  | none =>
      if path.isEmpty then none
      else formats.findSome? fun (ext, read) =>
        (files (path ++ "." ++ ext)).map fun text => (text, read)

/-- The paths that are looked at for a settings file. -/
def pathsOf (path : String) : List String :=
  path :: formats.map fun f => path ++ "." ++ f.1

def readFile? (found : String × (String → Option Json)) : Option (List (String × Json)) :=
  (found.2 found.1).bind fun j => j.asMap.obj?

/-- What the caller asks for. -/
structure Overrides where
  maxWorkers : Option Nat
  recursionLimit : Option Nat
  workerIdleTtlMs : Option Nat
  debug : Option Bool
deriving DecidableEq, Repr, Inhabited

/-- The settings with what the caller asks for. -/
def Overrides.apply (o : Overrides) (c : Config) : Config :=
  { c with
    maxWorkers := o.maxWorkers.getD c.maxWorkers
    recursionLimit := o.recursionLimit.getD c.recursionLimit
    workerIdleTtlMs := o.workerIdleTtlMs.getD c.workerIdleTtlMs
    debug := o.debug.getD c.debug }

/-- Why settings could not be loaded. -/
inductive LoadFault where
  /-- A file is missing or not well-formed, or a value is of the wrong kind. -/
  | unreadable
  | defective (d : Defect)
deriving DecidableEq, Repr

/-- The settings, unless they have a defect. -/
def validated (c : Config) : Except LoadFault Config :=
  match c.defect? with
  | some d => .error (.defective d)
  | none => .ok c

/-- The settings file that counts: the named one has to be there, the standard one may be. -/
def fileTable (files : Files) (path : Option String) :
    Except LoadFault (List (String × Json)) :=
  match locate? files (path.getD standardPath), path with
  | some found, _ =>
      match readFile? found with
      | some table => .ok table
      | none => .error .unreadable
  | none, some _ => .error .unreadable
  | none, none => .ok []

/-- Loads the settings. Without an environment neither variables nor the file with further ones are
looked at. -/
def load (files : Files) (env : Option Environment) (path : Option String) (o : Overrides) :
    Except LoadFault Config := do
  let env := env.map fun env => match files environmentPath with
    | some text => env.extend text
    | none => env
  let path := path <|> env.bind fun env => env.get? pathVariable
  let table ← fileTable files path
  let further := (env.map ofEnvironment).getD []
  match ofTable? (table ++ further) with
  | none => throw .unreadable
  | some c => validated (o.apply c)

/-- The settings written out, one a line. -/
def display (c : Config) : String :=
  let line (key value : String) := key ++ " = " ++ value ++ "\n"
  line "max_workers" (toString c.maxWorkers) ++
    line "worker_idle_ttl_ms" (toString c.workerIdleTtlMs) ++
    line "worker_poll_timeout_ms" (toString c.workerPollTimeoutMs) ++
    line "wait_sleep_every" (toString c.waitSleepEvery) ++
    line "wait_sleep_us" (toString c.waitSleepUs) ++
    line "recursion_limit" (toString c.recursionLimit) ++
    line "debug" (if c.debug then "true" else "false")

end Config

end Statute
