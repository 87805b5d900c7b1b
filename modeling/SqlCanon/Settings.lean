import SqlCanon.Rules
import SqlCanon.Text.Decimal
import SqlCanon.Text.Utf8

/-!
# Settings

What a run of the program is set to. Environment variables override single settings.
-/

namespace SqlCanon

structure Settings where
  logLevel : String := "warn"
  bufferSize : UInt64 := 4096
  rules : Rules := {}
deriving DecidableEq, Repr

def Environment := String → Option Bytes

/-- The text of a variable. A value that is no text counts as unset. -/
def Environment.text? (env : Environment) (name : String) : Option String :=
  (env name).bind Utf8.text?

namespace Settings

def validate (s : Settings) : Except Fault Unit :=
  if s.bufferSize = 0 then .error (.configuration .emptyInitialBuffer) else s.rules.validate

def parseFlag? (s : String) : Option Bool :=
  let s := s.toLower
  if ["1", "true", "yes", "on"].contains s then some true
  else if ["0", "false", "no", "off", ""].contains s then some false
  else none

/-- Applies `set` to the text of a variable, if it has one. -/
def override (env : Environment) (name : String)
    (set : Settings → String → Except Fault Settings) (s : Settings) : Except Fault Settings :=
  match env.text? name with
  | some value => set s value
  | none => .ok s

def setLogLevel (s : Settings) (value : String) : Except Fault Settings :=
  .ok { s with logLevel := value }

def setBufferSize (s : Settings) (value : String) : Except Fault Settings :=
  match Decimal.parse? value with
  | some n => .ok { s with bufferSize := n }
  | none => .error (.configuration (.notNumber "SQLNORM_BUFFER_SIZE" value))

def setKeywordCase (s : Settings) (value : String) : Except Fault Settings := do
  let c ← KeywordCase.parse value
  return { s with rules := { s.rules with keywordCase := c } }

def setRemoveLiterals (s : Settings) (value : String) : Except Fault Settings :=
  match parseFlag? value with
  | some b => .ok { s with rules := { s.rules with removeLiterals := b } }
  | none => .error (.configuration (.notBoolean "SQLNORM_REMOVE_LITERALS" value))

/-- The first variable with a value that cannot be used decides the fault. -/
def applyEnvironment (s : Settings) (env : Environment) : Except Fault Settings := do
  let s ← override env "SQLNORM_LOG_LEVEL" setLogLevel s
  let s ← override env "SQLNORM_BUFFER_SIZE" setBufferSize s
  let s ← override env "SQLNORM_KEYWORD_CASE" setKeywordCase s
  override env "SQLNORM_REMOVE_LITERALS" setRemoveLiterals s

end Settings

end SqlCanon
