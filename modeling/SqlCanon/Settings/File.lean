import SqlCanon.Settings
import SqlCanon.Toml.Document
import SqlCanon.Toml.Written

/-!
# Settings files

Settings are kept as a document with a table for the rules. What a document does not mention keeps
its default, and what it mentions besides is ignored.
-/

namespace SqlCanon.Settings
open Toml

/-- The value of a key as `read` takes it. The default stands in for a key that is absent. -/
def fieldOf {α : Type} (es : Entries) (key : String) (read : Value → Option α) (absent : α) :
    Option α :=
  match es.lookup key with
  | some v => read v
  | none => some absent

def stringOf? : Value → Option String
  | .string s => some s
  | _ => none

def booleanOf? : Value → Option Bool
  | .boolean b => some b
  | _ => none

def wordOf? : Value → Option UInt64
  | .integer (.ofNat n) => Decimal.word? n
  | _ => none

def caseOf? (v : Value) : Option KeywordCase := (stringOf? v).bind KeywordCase.ofName?

def rulesOf? : Value → Option Rules
  | .table _ es => do
    return {
      keywordCase := ← fieldOf es "keyword_case" caseOf? .asWritten
      removeLiterals := ← fieldOf es "remove_literals" booleanOf? false
      addBackticks := ← fieldOf es "put_backtick_on_keywords" booleanOf? false
      stripBackticks := ← fieldOf es "remove_backtick_on_keywords" booleanOf? false
      spaceBeforeParen := ← fieldOf es "put_space_before_open_paren" booleanOf? false }
  | _ => none

def ofEntries? (es : Entries) : Option Settings := do
  let absent : Settings := {}
  return {
    logLevel := ← fieldOf es "log_level" stringOf? absent.logLevel
    bufferSize := ← fieldOf es "initial_buffer_size" wordOf? absent.bufferSize
    rules := ← fieldOf es "normalizer" rulesOf? absent.rules }

def ofText? (read? : String → Option Entries) (text : String) : Option Settings :=
  (read? text).bind ofEntries?

/-- The settings in a file whose documents are read by `read?`. -/
def load (read? : String → Option Entries) (bs : Bytes) : Except Fault Settings :=
  match Utf8.text? bs with
  | none => .error (.unreadable .notText)
  | some text => match ofText? read? text with
    | some s => .ok s
    | none => .error .malformedSettings

def ofBytes (bs : Bytes) : Except Fault Settings := load Document.read? bs

def lines (s : Settings) : List String :=
  [Written.entry "log_level" (Written.string s.logLevel),
   Written.entry "initial_buffer_size" (toString s.bufferSize.toNat),
   "",
   Written.header "normalizer",
   Written.entry "keyword_case" (Written.string s.rules.keywordCase.name),
   Written.entry "remove_literals" (Written.boolean s.rules.removeLiterals),
   Written.entry "put_backtick_on_keywords" (Written.boolean s.rules.addBackticks),
   Written.entry "remove_backtick_on_keywords" (Written.boolean s.rules.stripBackticks),
   Written.entry "put_space_before_open_paren" (Written.boolean s.rules.spaceBeforeParen)]

def toText (s : Settings) : String := String.join (s.lines.map (· ++ "\n"))

end SqlCanon.Settings
