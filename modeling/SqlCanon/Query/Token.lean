import SqlCanon.Text.Blank
import SqlCanon.Text.Hexadecimal
import SqlCanon.Text.Letter

/-!
# Words and marks of a query

The characters of a query fall into words, quoted names, literals and marks. Blanks and comments
only separate. Text that is opened and never closed makes the whole query unreadable.
-/

namespace SqlCanon.Query

inductive Token where
  | word (text : String)
  /-- A name in backticks, with them, as it is shown. -/
  | quoted (text : String)
  | literal (text : String)
  | mark (text : String)
deriving DecidableEq, Repr

namespace Token
open Decimal (isDigit)

/-- Every character outside ASCII may stand in a name, but beyond the basic plane only letters. -/
def isNamePart (c : Char) : Bool :=
  c.isAlphanum || c = '_' || (0x80 ≤ c.toNat && c.toNat ≤ 0xffff) || Letter.isLetter c

/-- The rest of a text up to its closing mark `q`, with it. A doubled mark does not close, and with
`escapes` a backslash takes the next character with it. -/
def closed? (q : Char) (escapes : Bool) : List Char → Option (List Char)
  | [] => none
  | c :: rest =>
    if escapes && c = '\\' then
      match rest with
      | [] => none
      | d :: rest' => (closed? q escapes rest').map fun body => c :: d :: body
    else if c = q then
      match rest with
      | [] => some [c]
      | d :: rest' =>
        if d = q then (closed? q escapes rest').map fun body => c :: d :: body else some [c]
    else (closed? q escapes rest).map (c :: ·)

/-- The rest of a block comment after the character `last`, with its closing mark. Block comments
nest, and `depth` is the number of inner ones that are open. -/
def comment? : (depth : Nat) → (last : Char) → List Char → Option (List Char)
  | _, _, [] => none
  | depth, last, c :: rest =>
    if last = '/' ∧ c = '*' then (comment? (depth + 1) c rest).map (c :: ·)
    else if last = '*' ∧ c = '/' then
      match depth with
      | 0 => some [c]
      | depth + 1 => (comment? depth c rest).map (c :: ·)
    else (comment? depth c rest).map (c :: ·)

/-- What a quoted text stands for, after its opening mark. -/
def unquoted (q : Char) : List Char → List Char
  | [] => []
  | c :: rest =>
    if c = q then
      match rest with
      | [] => []
      | d :: rest' => d :: unquoted q rest'
    else c :: unquoted q rest

/-- Shows the inside of a quoted text after the character `last`. A mark is doubled, and two of them
in a row are taken to be doubled already. Marks after a backslash stay as they are. -/
def quotedInside (q : Char) : (last : Char) → List Char → List Char
  | _, [] => []
  | last, c :: rest =>
    if c = q then
      if last = '\\' then c :: quotedInside q last rest
      else if last = q then quotedInside q ' ' rest
      else c :: c :: quotedInside q q rest
    else c :: quotedInside q c rest

def restOfLine (cs : List Char) : List Char := cs.takeWhile (· ≠ '\n')

/-- An exponent at the front of `cs`, if it has digits. The letter L may end it. -/
def exponent (cs : List Char) : List Char :=
  match cs with
  | e :: rest =>
    if e = 'e' ∨ e = 'E' then
      let sign := rest.takeWhile fun c => c = '+' || c = '-'
      let digits := (rest.drop sign.length).takeWhile isDigit
      let long := (rest.drop (sign.length + digits.length)).take 1
      if sign.length ≤ 1 && !digits.isEmpty then
        e :: (sign ++ digits ++ (if long = ['L'] then long else []))
      else []
    else []
  | [] => []

def fraction (cs : List Char) : List Char :=
  match cs with
  | '.' :: rest => '.' :: rest.takeWhile isDigit
  | _ => []

/-- The digits and the point of a number after its first character, which is a digit or the point. -/
def numberRest (c : Char) (rest : List Char) : List Char :=
  let digits := rest.takeWhile isDigit
  if c = '.' then digits else digits ++ fraction (rest.drop digits.length)

def isHexadecimal (c : Char) : Bool := (Hexadecimal.digit? c).isSome

/-- The marks of two and three characters, longer ones first. -/
def longMarks : List (List Char) :=
  [['<', '=', '>'], ['<', '>'], ['!', '='], ['<', '='], ['>', '=']]

/-- What is read at the front of a query, and how many characters after the first it takes. -/
structure Front where
  token? : Option Token
  more : Nat

def Front.of (make : String → Token) (c : Char) (body : List Char) : Front :=
  ⟨some (make (String.ofList (c :: body))), body.length⟩

def Front.ofQuoted (body : List Char) : Front :=
  let q := Char.ofNat 0x60
  ⟨some (.quoted (String.ofList (q :: quotedInside q ' ' (unquoted q body) ++ [q]))), body.length⟩

def Front.skip (body : List Char) : Front := ⟨none, body.length⟩

/-- A number, or a word that starts with one. The letter of an exponent ends such a word before it
begins, whether digits follow it or not. -/
def numberFront (c : Char) (rest : List Char) : Front :=
  if c = '0' ∧ rest.head? = some 'x' then
    Front.of literal c ('x' :: (rest.drop 1).takeWhile isHexadecimal)
  else
    let number := numberRest c rest
    let after := rest.drop number.length
    if after.head?.any fun e => e = 'e' || e = 'E' then
      Front.of literal c (number ++ exponent after)
    else
      let name := after.takeWhile isNamePart
      Front.of (if name.isEmpty then literal else word) c (number ++ name)

def front? (c : Char) (rest : List Char) : Option Front :=
  if c = '#' then some (.skip (restOfLine rest))
  else if c = '-' ∧ rest.head? = some '-' then some (.skip (restOfLine rest))
  else if c = '/' ∧ rest.head? = some '*' then
    (comment? 0 ' ' (rest.drop 1)).map fun body => .skip ('*' :: body)
  else if c = '\'' ∨ c = '"' then (closed? c true rest).map (.of literal c)
  else if c.toNat = 0x60 then (closed? c false rest).map .ofQuoted
  else if (c = 'x' ∨ c = 'X') ∧ rest.head? = some '\'' then
    (closed? '\'' true (rest.drop 1)).map fun body => .of literal c ('\'' :: body)
  else if isDigit c ∨ (c = '.' ∧ rest.head?.any isDigit) then some (numberFront c rest)
  else if isNamePart c then some (.of word c (rest.takeWhile isNamePart))
  else if c = '?' then some (.of literal c [])
  else if Blank.isBlank c then some (.skip [])
  else match longMarks.find? (·.isPrefixOf (c :: rest)) with
    | some m => some (.of mark c m.tail)
    | none => some (.of mark c [])

def readAfter : (taken : Nat) → List Char → Option (List Token)
  | _, [] => some []
  | taken + 1, _ :: rest => readAfter taken rest
  | 0, c :: rest => do
    let f ← front? c rest
    let ts ← readAfter f.more rest
    return f.token?.toList ++ ts

def read? (query : String) : Option (List Token) := readAfter 0 query.toList

end Token

end SqlCanon.Query
