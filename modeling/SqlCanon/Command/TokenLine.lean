import SqlCanon.Lexeme
import SqlCanon.Text.Hexadecimal
import SqlCanon.Text.Utf8

/-!
# Tokens as JSON lines

A token is shown as one JSON object without spaces, its keys in alphabetical order.
-/

namespace SqlCanon.TokenLine

def escaped (c : Char) : List Char :=
  match c with
  | '"' => ['\\', '"']
  | '\\' => ['\\', '\\']
  | '\x08' => ['\\', 'b']
  | '\x0c' => ['\\', 'f']
  | '\n' => ['\\', 'n']
  | '\r' => ['\\', 'r']
  | '\t' => ['\\', 't']
  | c => if c.toNat < 0x20 then ['\\', 'u', '0', '0'] ++ Hexadecimal.pair c.toNat else [c]

def string (s : String) : String := "\"" ++ String.ofList (s.toList.flatMap escaped) ++ "\""

def boolean (b : Bool) : String := if b then "true" else "false"

/-- The object for a token of `source`. Bytes that are no text show as U+FFFD. -/
def line (source : Bytes) (t : Token) : String :=
  let fields := [
    ("builtin", boolean t.isReserved),
    ("end", toString t.span.stop),
    ("function", boolean t.isFunction),
    ("lexeme", string (Utf8.lossy (t.lexeme source).text)),
    ("start", toString t.span.start),
    ("type", string t.kind.name)]
  "\x7b" ++ ",".intercalate (fields.map fun (key, value) => string key ++ ":" ++ value) ++ "\x7d"

end SqlCanon.TokenLine
