import SqlCanon.Command.Overrides
import SqlCanon.Text.Decimal

/-!
# Command lines

Options for the whole program stand before the command, those of a command after it, before or
after its statement. Arguments are read from left to right, and the first one that is out of place
makes the command line unusable.
-/

namespace SqlCanon

inductive Command where
  | normalize (statement : Option String) (overrides : Overrides) (bufferSize : Option UInt64)
      (strict : Bool)
  | fingerprint (statement : Option String) (grammar : Bool)
  | tokens (statement : Option String)
  | info
deriving DecidableEq, Repr

def Command.readsInput : Command → Bool
  | .normalize none .. | .fingerprint none _ | .tokens none => true
  | _ => false

structure Invocation where
  configPath : Option String := none
  logLevel : Option String := none
  command : Command := .info
deriving DecidableEq, Repr

inductive Request where
  | version
  | run (invocation : Invocation)
deriving DecidableEq, Repr

namespace Arguments

/-- An argument that starts with a hyphen is an option, unless it is a hyphen alone. -/
def isOption (arg : String) : Bool := arg.startsWith "-" && arg ≠ "-"

/-- An argument as the name of a long option and the value after its equals sign, if it has one. -/
def split (arg : String) : String × Option String :=
  let name := arg.toList.takeWhile (· ≠ '=')
  match arg.toList.drop name.length with
  | [] => (arg, none)
  | _ :: value => (String.ofList name, some (String.ofList value))

def once {α : Type} (old : Option α) (new : α) : Option (Option α) :=
  if old.isSome then none else some (some new)

def turnOn (old : Bool) : Option Bool := if old then none else some true

structure Given where
  statement : Option String := none
  overrides : Overrides := {}
  bufferSize : Option UInt64 := none
  strict : Bool := false
  grammar : Bool := false

def Given.setStatement (g : Given) (s : String) : Option Given := do
  return { g with statement := ← once g.statement s }

def Given.setFlag (g : Given) (name : String) : Option Given := do
  let o := g.overrides
  match name with
  | "--remove-literals" =>
    return { g with overrides := { o with removeLiterals := ← turnOn o.removeLiterals } }
  | "--put-backticks" =>
    return { g with overrides := { o with addBackticks := ← turnOn o.addBackticks } }
  | "--remove-backticks" =>
    return { g with overrides := { o with stripBackticks := ← turnOn o.stripBackticks } }
  | "--space-before-paren" =>
    return { g with overrides := { o with spaceBeforeParen := ← turnOn o.spaceBeforeParen } }
  | "--strict" => return { g with strict := ← turnOn g.strict }
  | "--grammar" => return { g with grammar := ← turnOn g.grammar }
  | _ => none

def Given.setValue (g : Given) (name value : String) : Option Given := do
  match name with
  | "--case" =>
    let c ← (KeywordCase.parse value).toOption
    return { g with overrides := { g.overrides with keywordCase := ← once g.overrides.keywordCase c } }
  | "--buffer-size" =>
    return { g with bufferSize := ← once g.bufferSize (← Decimal.parse? value) }
  | _ => none

/-- The names of the options of a command, those without and those with a value. -/
structure Options where
  flags : List String := []
  valued : List String := []

/-- Reads the arguments of a command, where `pending` is an option that still waits for its value.
After two hyphens every argument is a statement. -/
def readGiven (options : Options) : (pending : Option String) → Given → List String → Option Given
  | none, g, [] => some g
  | some _, _, [] => none
  | some name, g, v :: rest =>
    if isOption v then none
    else (g.setValue name v).bind fun g => readGiven options none g rest
  | none, g, arg :: rest =>
    if arg = "--" then rest.foldlM Given.setStatement g
    else if isOption arg then
      match split arg with
      | (name, none) =>
        if options.flags.contains name then
          (g.setFlag name).bind fun g => readGiven options none g rest
        else if options.valued.contains name then readGiven options (some name) g rest
        else none
      | (name, some v) =>
        if options.valued.contains name then
          (g.setValue name v).bind fun g => readGiven options none g rest
        else none
    else (g.setStatement arg).bind fun g => readGiven options none g rest

def normalizeOptions : Options where
  flags := ["--remove-literals", "--put-backticks", "--remove-backticks", "--space-before-paren",
    "--strict"]
  valued := ["--case", "--buffer-size"]

def readCommand (name : String) (args : List String) : Option Command := do
  match name with
  | "normalize" =>
    let g ← readGiven normalizeOptions none {} args
    return .normalize g.statement g.overrides g.bufferSize g.strict
  | "fingerprint" =>
    let g ← readGiven { flags := ["--grammar"] } none {} args
    return .fingerprint g.statement g.grammar
  | "tokens" =>
    let g ← readGiven {} none {} args
    return .tokens g.statement
  | "info" =>
    let g ← readGiven {} none {} args
    if g.statement.isSome then none else return .info
  | _ => none

inductive Leading where
  | config
  | logLevel
deriving DecidableEq, Repr

/-- A path is not empty. -/
def Leading.set : Leading → Invocation → String → Option Invocation
  | .config, i, v => do
    if v.isEmpty then none
    return { i with configPath := ← once i.configPath v }
  | .logLevel, i, v => do return { i with logLevel := ← once i.logLevel v }

def isVersion (arg : String) : Bool := arg.startsWith "-V" || arg = "--version"

/-- The option that an argument names, and the value attached to it. The value of a short option
follows its letter at once or after an equals sign. -/
def leading? (arg : String) : Option (Leading × Option String) :=
  match arg.toList with
  | ['-', 'c'] => some (.config, none)
  | '-' :: 'c' :: '=' :: value => some (.config, some (String.ofList value))
  | '-' :: 'c' :: value => some (.config, some (String.ofList value))
  | _ =>
    let (name, attached) := split arg
    if name = "--config" then some (.config, attached)
    else if name = "--log-level" then some (.logLevel, attached)
    else none

/-- Reads a command line whose options so far are those of `i`, where `pending` is an option that
still waits for its value. -/
def readFrom : (pending : Option Leading) → Invocation → List String → Option Request
  | none, i, [] => some (.run i)
  | some _, _, [] => none
  | some option, i, v :: rest =>
    if isOption v then none else (option.set i v).bind fun i => readFrom none i rest
  | none, i, arg :: rest =>
    if arg = "--" then if rest.isEmpty then some (.run i) else none
    else if isVersion arg then some .version
    else if isOption arg then
      match leading? arg with
      | some (option, none) => readFrom (some option) i rest
      | some (option, some v) => (option.set i v).bind fun i => readFrom none i rest
      | none => none
    else (readCommand arg rest).map fun c => .run { i with command := c }

def read? (args : List String) : Option Request := readFrom none {} args

end Arguments

end SqlCanon
