import SqlCanon.Reader
import SqlCanon.Text.Hexadecimal
import SqlCanon.Toml.Value

/-!
# Lines of a document

A line is blank, opens a table, or gives a value to a key. Strings, numbers and inline tables end on
the line on which they start. Numbers are decimal integers.
-/

namespace SqlCanon.Toml

inductive Line where
  | blank
  | header (path : List String)
  | entry (path : List String) (value : Value)
deriving Repr

abbrev CharReader := Reader Char

namespace Line
open Reader

def isSpace (c : Char) : Bool := c = ' ' || c = '\t'

def isPlain (c : Char) : Bool := (0x20 ≤ c.toNat && c.toNat ≠ 0x7f) || c = '\t'

def isKeyPart (c : Char) : Bool := c.isAlphanum || c = '_' || c = '-'

def spaces : CharReader Unit := do
  let _ ← takeWhile isSpace

def char (c : Char) : CharReader Unit := next fun d => if d = c then some () else none

def mark (c : Char) : CharReader Unit := do
  spaces
  char c
  spaces

/-- The character with the given hexadecimal number, unless that is none. -/
def unicode? (digits : List Char) : Option Char := do
  let n ← Hexadecimal.number? digits
  if n.isValidChar then some (Char.ofNat n) else none

def shortEscape? : Char → Option Char
  | 'b' => some '\x08'
  | 't' => some '\t'
  | 'n' => some '\n'
  | 'f' => some '\x0c'
  | 'r' => some '\r'
  | '"' => some '"'
  | '\\' => some '\\'
  | _ => none

def basicBody : List Char → Option (List Char × List Char)
  | [] => none
  | '"' :: rest => some ([], rest)
  | '\\' :: 'u' :: a :: b :: c :: d :: rest => do
    let x ← unicode? [a, b, c, d]
    let (body, rest) ← basicBody rest
    return (x :: body, rest)
  | '\\' :: 'U' :: a :: b :: c :: d :: e :: f :: g :: h :: rest => do
    let x ← unicode? [a, b, c, d, e, f, g, h]
    let (body, rest) ← basicBody rest
    return (x :: body, rest)
  | '\\' :: e :: rest => do
    let x ← shortEscape? e
    let (body, rest) ← basicBody rest
    return (x :: body, rest)
  | c :: rest => do
    if isPlain c && c ≠ '\\' then
      let (body, rest) ← basicBody rest
      return (c :: body, rest)
    else none

def basicString : CharReader String := do
  char '"'
  let body ← (basicBody : CharReader (List Char))
  return String.ofList body

def literalString : CharReader String := do
  char '\''
  let body ← takeWhile fun c => isPlain c && c ≠ '\''
  char '\''
  return String.ofList body

def bareWord (isPart : Char → Bool) : CharReader (List Char) := do
  let word ← takeWhile isPart
  if word.isEmpty then failure else return word

def key : CharReader String :=
  basicString <|> literalString <|> (String.ofList <$> bareWord isKeyPart)

def path : CharReader (List String) := sepBy key (mark '.')

/-- Digits in groups that single underscores separate. -/
def ungroup : (afterDigit : Bool) → List Char → Option (List Char)
  | afterDigit, [] => if afterDigit then some [] else none
  | afterDigit, c :: cs =>
    if Decimal.isDigit c then (ungroup true cs).map (c :: ·)
    else if c = '_' && afterDigit then ungroup false cs
    else none

/-- A number without sign, which has no needless zero in front. -/
def natural? (cs : List Char) : Option Nat := do
  let digits ← ungroup false cs
  if digits.head? = some '0' && digits.length ≠ 1 then none else Decimal.ofDigits? digits

def integer? : List Char → Option Int
  | '+' :: cs => (natural? cs).map Int.ofNat
  | '-' :: cs => (natural? cs).map fun n => -Int.ofNat n
  | cs => (natural? cs).map Int.ofNat

def wordValue? (word : List Char) : Option Value :=
  if word = "true".toList then some (.boolean true)
  else if word = "false".toList then some (.boolean false)
  else (integer? word).map .integer

def scalar : CharReader Value :=
  (Value.string <$> (basicString <|> literalString))
    <|> (do
      let word ← bareWord fun c => isKeyPart c || c = '+' || c = '.'
      match wordValue? word with
      | some v => return v
      | none => failure)

def keyValue (value : CharReader Value) : CharReader (List String × Value) := do
  let p ← path
  mark '='
  return (p, ← value)

/-- A table in braces, whose values are read by `value`. -/
def inlineTable (value : CharReader Value) : CharReader Value := do
  char '\x7b'
  spaces
  let pairs ← option (sepBy (keyValue value) (mark ','))
  spaces
  char '\x7d'
  match (pairs.getD []).foldlM (fun es (p, v) => Entries.insert p v es) ([] : Entries) with
  | some es => return .table .inline es
  | none => failure

/-- A value in which tables nest less than `depth` levels. -/
def value : (depth : Nat) → CharReader Value
  | 0 => failure
  | depth + 1 => scalar <|> inlineTable (value depth)

def comment : CharReader Unit := do
  char '#'
  let _ ← takeWhile isPlain

def content (depth : Nat) : CharReader Line :=
  (do
    char '['
    spaces
    let p ← path
    spaces
    char ']'
    return .header p)
    <|> (do
      let (p, v) ← keyValue (value depth)
      return .entry p v)
    <|> pure .blank

/-- Tables on a line do not nest deeper than it is long. -/
def read? (cs : List Char) : Option Line :=
  whole? (do
    spaces
    let line ← content cs.length
    spaces
    let _ ← option comment
    return line) cs

end Line

end SqlCanon.Toml
