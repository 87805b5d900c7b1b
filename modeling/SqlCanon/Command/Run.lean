import SqlCanon.Command.Arguments
import SqlCanon.Command.Input
import SqlCanon.Command.TokenLine
import SqlCanon.Fingerprint
import SqlCanon.Query.Fingerprint
import SqlCanon.Settings.File

/-!
# Running a command

A command reads the settings, then treats one statement after the other, and stops at the first one
that fails. What it printed up to there stands.
-/

namespace SqlCanon

structure Surroundings where
  environment : Environment := fun _ => none
  contentOf : String → Except ReadFault Bytes := fun _ => .error .missing
  input : Bytes := []

inductive Failure where
  | fault (fault : Fault)
  | configNotLoaded (path : String) (fault : Fault)
  | emptyBuffer
  | inputNotText
  | notFingerprinted (statement : String) (fault : Fault)
deriving DecidableEq, Repr

inductive Reason where
  | context (text : String)
  | cause (fault : Fault)
deriving DecidableEq, Repr

def Reason.message : Reason → String
  | .context text => text
  | .cause fault => fault.message

/-- The account of a failure, from the outermost reason to the cause. -/
def Failure.reasons : Failure → List Reason
  | .fault f => [.cause f]
  | .configNotLoaded path f => [.context ("failed to load config from " ++ path), .cause f]
  | .emptyBuffer => [.context "buffer size must be greater than 0"]
  | .inputNotText => [.context "failed to read stdin", .context ReadFault.notText.message]
  | .notFingerprinted statement f =>
    [.context ("failed to fingerprint: " ++ statement), .cause f]

structure Ending where
  printed : Bytes := []
  failure : Option Failure := none
deriving DecidableEq, Repr

namespace Run

def version : String := "0.1.0"

def versionLine : String := "sqlnorm " ++ version ++ "\n"

def orFail {α : Type} : Except Fault α → Except Failure α
  | .ok a => .ok a
  | .error f => .error (.fault f)

def readSettings (s : Surroundings) (path : String) : Except Fault Settings :=
  match s.contentOf path with
  | .error cause => .error (.unreadable cause)
  | .ok bs => Settings.ofBytes bs

def fileSettings (configPath : Option String) (s : Surroundings) : Except Failure Settings :=
  match configPath with
  | none => .ok {}
  | some path => match readSettings s path with
    | .ok settings => .ok settings
    | .error f => .error (.configNotLoaded path f)

def setLogLevel (level : Option String) (settings : Settings) : Settings :=
  { settings with logLevel := level.getD settings.logLevel }

/-- Settings come from the file, then from the environment, then from the command line. -/
def loadSettings (i : Invocation) (s : Surroundings) : Except Failure Settings := do
  let settings ← fileSettings i.configPath s
  let settings ← orFail (settings.applyEnvironment s.environment)
  let settings := setLogLevel i.logLevel settings
  orFail settings.validate
  return settings

/-- The statements to treat: the one on the command line, or else those of the input. -/
def statements (given : Option String) (s : Surroundings) : List (Option String) :=
  match given with
  | some statement => [some statement]
  | none => Input.statements s.input

/-- Treats statements one after the other and hands on a state from each to the next. -/
def each {σ : Type} (step : σ → String → Except Failure (Bytes × σ)) :
    σ → List (Option String) → Ending
  | _, [] => {}
  | _, none :: _ => { failure := some .inputNotText }
  | state, some statement :: more =>
    match step state statement with
    | .error f => { failure := some f }
    | .ok (out, state) =>
      let rest := each step state more
      { rest with printed := out ++ rest.printed }

/-- What the lines of a normalization share: a lexer and a buffer. -/
structure Workspace where
  lexer : Lexer := {}
  buffer : Bytes

def normalizeLine (r : Rules) (strict : Bool) (w : Workspace) (statement : String) :
    Except Failure (Bytes × Workspace) :=
  let (o, lexer) := w.lexer.recycle.normalize r (Utf8.encode statement) w.buffer
  let printed := (o.output ++ [Byte.newline], { lexer := lexer.recycle, buffer := o.buffer : Workspace })
  match o.result with
  | .ok () => .ok printed
  | .error f => if f.isBufferTooSmall && !strict then .ok printed else .error (.fault f)

def normalize (settings : Settings) (overrides : Overrides) (bufferSize : Option UInt64)
    (strict : Bool) (statements : List (Option String)) : Ending :=
  let rules := overrides.apply settings.rules
  let size := (bufferSize.getD settings.bufferSize).toNat
  match rules.validate with
  | .error f => { failure := some (.fault f) }
  | .ok () =>
    if size = 0 then { failure := some .emptyBuffer }
    else each (normalizeLine rules strict) { buffer := List.replicate size 0 } statements

def fingerprintLine (f : Fingerprinter) (statement : String) :
    Except Failure (Bytes × Fingerprinter) :=
  match f.fingerprint statement with
  | (.ok text, f) => .ok (Utf8.encode (text ++ "\n"), f)
  | (.error fault, _) => .error (.notFingerprinted statement fault)

def grammarLine (_ : Unit) (statement : String) : Except Failure (Bytes × Unit) :=
  match Query.fingerprint statement with
  | .ok text => .ok (Utf8.encode (text ++ "\n"), ())
  | .error fault => .error (.notFingerprinted statement fault)

def fingerprint (settings : Settings) (grammar : Bool) (statements : List (Option String)) :
    Ending :=
  if grammar then each grammarLine () statements
  else
    let f := ({} : Fingerprinter).withBufferSize settings.bufferSize.toNat
    each fingerprintLine f statements

def tokensLine (lexer : Lexer) (statement : String) : Except Failure (Bytes × Lexer) :=
  let (tokens, bound) := (lexer.recycle.bind (Utf8.encode statement)).rest
  let shown := tokens.map fun t => TokenLine.line bound.source t ++ "\n"
  .ok (Utf8.encode (String.join shown), bound.recycle)

def info (settings : Settings) : Ending where
  printed := Utf8.encode (versionLine ++ "builtin keywords: " ++ toString Reserved.count ++
    "\noperators: " ++ toString Operator.spellings.length ++ "\n\n" ++ settings.toText)

def command (c : Command) (settings : Settings) (s : Surroundings) : Ending :=
  match c with
  | .normalize statement overrides bufferSize strict =>
    normalize settings overrides bufferSize strict (statements statement s)
  | .fingerprint statement grammar => fingerprint settings grammar (statements statement s)
  | .tokens statement => each tokensLine {} (statements statement s)
  | .info => info settings

def invocation (i : Invocation) (s : Surroundings) : Ending :=
  match loadSettings i s with
  | .ok settings => command i.command settings s
  | .error f => { failure := some f }

def request (r : Request) (s : Surroundings) : Ending :=
  match r with
  | .version => { printed := Utf8.encode versionLine }
  | .run i => invocation i s

end Run

end SqlCanon
