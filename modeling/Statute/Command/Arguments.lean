import Statute.Config.Loading

/-!
# Command lines

The command line names a command and its arguments. Three options are understood everywhere; before
the command and after it they are counted separately, and what stands after it goes first. Each
argument may be given once. A value follows its option as the next word, after an equals sign, or,
for an option of one letter, at once. After a double dash every word is an operand.

A value is looked at as soon as the next argument begins. That decides which of several faults of a
command line is the one reported.
-/

namespace Statute

namespace Command

/-- What is wrong with a command line, or asks for help. -/
inductive UsageFault where
  | unknownArgument
  | unknownCommand
  | missingCommand
  | missingOperand
  /-- An option without a value, or with an empty path. -/
  | missingValue
  /-- A value that is not of the right form. -/
  | badValue
  /-- A value for an argument that takes none. -/
  | surplusValue
  | repeated
  | helpWanted
  /-- Nothing was asked for at all. -/
  | nothingGiven
deriving DecidableEq, Repr, Inhabited

/-- The arguments of command lines. -/
inductive Param where
  | config
  | maxWorkers
  | debug
  | verbose
  | program
  | help
  | operand
deriving DecidableEq, Repr, Inhabited

namespace Param

def takesValue : Param → Bool
  | config | maxWorkers | program | operand => true
  | debug | verbose | help => false

end Param

/-- The commands. -/
inductive Verb where
  | run
  | check
  | eval
  | config
deriving DecidableEq, Repr, Inhabited

namespace Verb

def all : List (String × Verb) :=
  [("run", run), ("check", check), ("eval", eval), ("config", config)]

def hasOperand : Verb → Bool
  | config => false
  | _ => true

def operandIsPath : Verb → Bool
  | run | check => true
  | _ => false

end Verb

/-- Where on the command line a word stands: before the command, or after it. -/
abbrev Level := Option Verb

/-- The option of a long name at a level. -/
def long? (level : Level) (name : String) : Option Param :=
  if name = "config" then some .config
  else if name = "max-workers" then some .maxWorkers
  else if name = "debug" then some .debug
  else if name = "help" then some .help
  else if name = "verbose" ∧ level = some .check then some .verbose
  else if name = "program" ∧ level = some .eval then some .program
  else none

/-- The option of a single letter at a level. -/
def short? (level : Level) (letter : Char) : Option Param :=
  if letter = 'h' then some .help
  else if letter = 'v' ∧ level = some .check then some .verbose
  else if letter = 'p' ∧ level = some .eval then some .program
  else none

/-- The arguments of one level: those given so far, and one whose value is still to be looked at. -/
structure Given where
  level : Level
  accepted : List (Param × String)
  pending : Option (Param × Option String)
  /-- Whether a double dash has gone before. -/
  trailing : Bool
deriving Inhabited

namespace Given

def none (level : Level) : Given := ⟨level, [], .none, false⟩

def get? (g : Given) (p : Param) : Option String :=
  g.accepted.lookup p

/-- Whether a value is of the right form for an argument. -/
def checkValue (level : Level) (p : Param) (value : String) : Except UsageFault Unit :=
  let isPath := match p with
    | .config | .program => true
    | .operand => (level.map Verb.operandIsPath).getD false
    | _ => false
  if isPath && value.isEmpty then .error .missingValue
  else if p = .maxWorkers && (Config.natural? UInt64.size value).isNone then .error .badValue
  else .ok ()

/-- Accepts an argument with its value. -/
def accept (g : Given) (p : Param) (value : String) : Except UsageFault Given := do
  if (g.get? p).isSome then throw .repeated
  checkValue g.level p value
  return { g with accepted := g.accepted ++ [(p, value)] }

/-- Looks at the value of the pending argument. -/
def resolve (g : Given) : Except UsageFault Given :=
  match g.pending with
  | .none => .ok g
  | some (_, .none) => .error .missingValue
  | some (p, some value) => { g with pending := .none }.accept p value

/-- Whether the next word is the value of an option. -/
def awaitsValue (g : Given) : Bool :=
  match g.pending with
  | some (_, .none) => true
  | _ => false

def attach (g : Given) (p : Param) (value : String) : Except UsageFault Given := do
  let g ← g.resolve
  g.accept p value

/-- An option whose value is still to come. -/
def await (g : Given) (p : Param) : Except UsageFault Given := do
  let g ← g.resolve
  return { g with pending := some (p, .none) }

/-- An option that takes no value. -/
def flag (g : Given) (p : Param) : Except UsageFault Given := do
  let g ← g.resolve
  if p = .help then throw .helpWanted
  g.accept p "true"

/-- An option given by its long name. -/
def longOption (g : Given) (name : String) (value : Option String) : Except UsageFault Given :=
  match long? g.level name, value with
  | .none, _ => .error .unknownArgument
  | some p, some value => if p.takesValue then g.attach p value else .error .surplusValue
  | some p, .none => if p.takesValue then g.await p else g.flag p

/-- Options given by letters, the last of them perhaps with a value. -/
def letters (g : Given) : List Char → Except UsageFault Given
  | [] => .ok g
  | c :: cs =>
      match short? g.level c with
      | .none => .error .unknownArgument
      | some p =>
          if p.takesValue then
            match cs with
            | [] => g.await p
            | '=' :: value => g.attach p (String.ofList value)
            | value => g.attach p (String.ofList value)
          else do
            let g ← g.flag p
            g.letters cs

/-- A word that is no option. -/
def operand (g : Given) (word : String) : Except UsageFault Given :=
  match g.level with
  | .none =>
      .error (if g.trailing && (Verb.all.lookup word).isSome || g.trailing && word = "help"
        then .unknownArgument else .unknownCommand)
  | some verb =>
      let taken := (g.get? .operand).isSome || match g.pending with
        | some (.operand, _) => true
        | _ => false
      if verb.hasOperand && !taken then do
        let g ← g.resolve
        return { g with pending := some (.operand, some word) }
      else .error .unknownArgument

/-- The name of a long option and the value attached to it. -/
def splitLong (cs : List Char) : String × Option String :=
  let name := String.ofList (cs.takeWhile (· ≠ '='))
  match cs.dropWhile (· ≠ '=') with
  | _ :: value => (name, some (String.ofList value))
  | [] => (name, .none)

/-- Takes up one word. -/
def word (g : Given) (w : String) : Except UsageFault Given :=
  if g.trailing then g.operand w
  else match w.toList with
    | ['-', '-'] => .ok { g with trailing := true }
    | '-' :: '-' :: cs =>
        let (name, value) := splitLong cs
        g.longOption name value
    | '-' :: c :: cs => g.letters (c :: cs)
    | _ =>
        match g.pending with
        | some (p, .none) => .ok { g with pending := some (p, some w) }
        | _ => g.operand w

/-- Takes up all words after the command. -/
def words (g : Given) : List String → Except UsageFault Given
  | [] => g.resolve
  | w :: ws => do
      let g ← g.word w
      g.words ws

end Given

/-- What a command line asks for. -/
structure Invocation where
  verb : Verb
  operand : String
  program : Option String
  verbose : Bool
  configPath : Option String
  maxWorkers : Option Nat
  debug : Bool
deriving DecidableEq, Repr, Inhabited

/-- The invocation that the arguments before and after the command come to. -/
def Invocation.ofGiven (verb : Verb) (outer inner : Given) : Invocation :=
  let both (p : Param) : Option String := inner.get? p <|> outer.get? p
  { verb := verb
    operand := (inner.get? .operand).getD ""
    program := inner.get? .program
    verbose := (inner.get? .verbose).isSome
    configPath := both .config
    maxWorkers := (both .maxWorkers).bind (Config.natural? UInt64.size)
    debug := (both .debug).isSome }

/-- Asking for help on a command by name. -/
def helpOn : List String → UsageFault
  | [] => .helpWanted
  | [name] =>
      if (Verb.all.lookup name).isSome || name = "help" then .helpWanted else .unknownCommand
  | _ => .unknownCommand

/-- Reads the words before the command, and then those after it. -/
def parseFrom (outer : Given) : List String → Except UsageFault Invocation
  | [] => do
      let outer ← outer.resolve
      throw (if outer.accepted.isEmpty then .nothingGiven else .missingCommand)
  | w :: ws =>
      let isCommand := !outer.trailing && !outer.awaitsValue
      match Verb.all.lookup w with
      | some verb =>
          if isCommand then do
            let inner ← (Given.none (some verb)).words ws
            if verb.hasOperand && (inner.get? .operand).isNone then throw .missingOperand
            let outer ← outer.resolve
            return .ofGiven verb outer inner
          else do
            let outer ← outer.word w
            parseFrom outer ws
      | none =>
          if isCommand && w = "help" then .error (helpOn ws)
          else do
            let outer ← outer.word w
            parseFrom outer ws

def parse (args : List String) : Except UsageFault Invocation :=
  parseFrom (Given.none none) args

end Command

end Statute
