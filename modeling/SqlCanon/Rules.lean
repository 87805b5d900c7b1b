import SqlCanon.Fault
import SqlCanon.Lexeme

/-!
# Normalization rules

Which letter case keywords get, what happens to literals and backticks, and where a separator
stands between two lexemes.
-/

namespace SqlCanon

inductive KeywordCase where
  | asWritten | lower | upper
deriving DecidableEq, Repr

namespace KeywordCase

def fold : KeywordCase → UInt8 → UInt8
  | asWritten => id
  | lower => Byte.toLower
  | upper => Byte.toUpper

def name : KeywordCase → String
  | asWritten => "default"
  | lower => "lower"
  | upper => "upper"

def ofName? (s : String) : Option KeywordCase := [asWritten, lower, upper].find? (·.name = s)

/-- Reads the name in any letter case, where `keep` also stands for the case as written. -/
def parse (s : String) : Except Fault KeywordCase :=
  let s := s.toLower
  if s = "keep" then .ok asWritten
  else match ofName? s with
    | some c => .ok c
    | none => .error (.configuration (.unknownCase s))

end KeywordCase

structure Rules where
  keywordCase : KeywordCase := .asWritten
  removeLiterals : Bool := false
  addBackticks : Bool := false
  stripBackticks : Bool := false
  spaceBeforeParen : Bool := false
deriving DecidableEq, Repr

namespace Rules

def validate (r : Rules) : Except Fault Unit :=
  if r.addBackticks && r.stripBackticks then
    .error (.configuration .backticksAddedAndStripped)
  else if r.spaceBeforeParen && !r.addBackticks then
    .error (.configuration .spaceWithoutBackticks)
  else .ok ()

/-- Whether a space stands between two lexemes, comments aside. -/
def spaceBetween (r : Rules) (prev : Option Category) (c : Category) : Bool :=
  match prev with
  | none => false
  | some p =>
    if r.spaceBeforeParen && c.kind = .openParen then true
    else if p.kind = .dot || c.kind = .dot then false
    else if p.kind = .keyword && c.kind = .openParen then false
    else if c.kind = .comma || c.kind = .closeParen then false
    else p.kind ≠ .openParen

/-- Whether backticks may stand around a lexeme: a name, a star, or any word after a dot. -/
def takesBackticks (prev : Option Category) (c : Category) : Bool :=
  c.isIdentifier || c.kind = .star || (c.kind = .keyword && prev.any (·.kind = .dot))

/-- The parts whose concatenation shows a lexeme before letter case is changed. -/
def parts (r : Rules) (prev : Option Category) (l : Lexeme) : List Bytes :=
  if r.removeLiterals && l.kind = .literal then [[Byte.question]]
  else if takesBackticks prev l.toCategory then
    if r.addBackticks && !l.isQuoted then [[Byte.backtick], l.text, [Byte.backtick]]
    else if r.stripBackticks && l.isQuoted then [l.text.tail.dropLast]
    else [l.text]
  else [l.text]

def foldOf (r : Rules) (k : Kind) : UInt8 → UInt8 :=
  if k = .keyword then r.keywordCase.fold else id

def separator (r : Rules) (prev : Option Category) (c : Category) : Bytes :=
  if r.spaceBetween prev c then [Byte.space] else []

/-- What a lexeme contributes of its own, the separator aside. -/
def shown (r : Rules) (prev : Option Category) (l : Lexeme) : List Bytes :=
  (r.parts prev l).map (·.map (r.foldOf l.kind))

/-- What a lexeme that is no comment adds to the output. -/
def added (r : Rules) (prev : Option Category) (l : Lexeme) : Bytes :=
  r.separator prev l.toCategory ++ (r.shown prev l).flatten

end Rules

end SqlCanon
