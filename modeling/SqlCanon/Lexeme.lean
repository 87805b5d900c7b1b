import SqlCanon.Byte

/-!
# Lexemes and tokens

A lexeme is a piece of a statement with its category. A token has the category and the place of the
piece but not its bytes, so what it stands for depends on the source it is read against.
-/

namespace SqlCanon

inductive Kind where
  | openParen | closeParen | comma | dot | star | comment | keyword | literal | operator
  | endOfInput
deriving DecidableEq, Repr

def Kind.name : Kind → String
  | .openParen => "OpenParen"
  | .closeParen => "CloseParen"
  | .comma => "Comma"
  | .dot => "Dot"
  | .star => "Star"
  | .comment => "Comment"
  | .keyword => "Keyword"
  | .literal => "Literal"
  | .operator => "Operator"
  | .endOfInput => "EndOfInput"

structure Attrs where
  reserved : Bool := false
  function : Bool := false
deriving DecidableEq, Repr

def Attrs.bits (a : Attrs) : Nat := a.reserved.toNat + 2 * a.function.toNat

def Attrs.names (a : Attrs) : List String :=
  (if a.reserved then ["BUILTIN_KEYWORD"] else []) ++
    (if a.function then ["BUILTIN_FUNCTION"] else [])

structure Category where
  kind : Kind
  attrs : Attrs := {}
deriving DecidableEq, Repr

namespace Category
variable (c : Category)

def isReserved : Bool := c.kind = .keyword && c.attrs.reserved

def isFunction : Bool := c.kind = .keyword && c.attrs.function

def isIdentifier : Bool := c.kind = .keyword && !c.isReserved

end Category

structure Lexeme extends Category where
  text : Bytes
deriving DecidableEq, Repr

namespace Lexeme
variable (l : Lexeme)

/-- A lone backtick is both the first and the last byte of its lexeme, and quotes nothing. -/
def isQuoted : Bool :=
  1 < l.text.length && l.text.head? == some Byte.backtick && l.text.getLast? == some Byte.backtick

/-- A word outside backticks, which is looked up among the reserved words. -/
def isBareWord : Bool := l.kind = .keyword && l.text.head? != some Byte.backtick

end Lexeme

/-- A place in a source, from `start` up to but not including `stop`. Nothing keeps the two in order. -/
structure Span where
  start : Nat
  stop : Nat
deriving DecidableEq, Repr

namespace Span
variable (s : Span)

def length? : Option Nat := if s.start ≤ s.stop then some (s.stop - s.start) else none

def isEmpty : Bool := s.start = s.stop

def fits (size : Nat) : Bool := s.start ≤ s.stop && s.stop ≤ size

/-- The bytes at the place, none if the source does not reach that far. -/
def slice (source : Bytes) : Bytes :=
  if s.fits source.length then (source.drop s.start).take (s.stop - s.start) else []

theorem fits_of_le {start stop size : Nat} (h₁ : start ≤ stop) (h₂ : stop ≤ size) :
    Span.fits ⟨start, stop⟩ size = true := by
  simp [fits, h₁, h₂]

theorem slice_of_le {source : Bytes} {start stop : Nat} (h₁ : start ≤ stop)
    (h₂ : stop ≤ source.length) :
    Span.slice ⟨start, stop⟩ source = (source.drop start).take (stop - start) :=
  if_pos (fits_of_le h₁ h₂)

theorem length_slice_le (source : Bytes) : (s.slice source).length ≤ source.length := by
  unfold slice
  split
  · rw [List.length_take, List.length_drop]
    omega
  · exact Nat.zero_le _

theorem stop_le_of_slice_ne_nil {source : Bytes} (h : s.slice source ≠ []) :
    s.stop ≤ source.length := by
  unfold slice at h
  split at h
  · next hfits => exact of_decide_eq_true (Bool.and_eq_true_iff.1 hfits).2
  · exact absurd rfl h

def describe : String := toString s.start ++ ".." ++ toString s.stop

end Span

structure Token extends Category where
  span : Span
deriving DecidableEq, Repr

namespace Token

def endOfInput (size : Nat) : Token := { kind := .endOfInput, span := ⟨size, size⟩ }

def lexeme (t : Token) (source : Bytes) : Lexeme :=
  { toCategory := t.toCategory, text := t.span.slice source }

def ofLexeme (start : Nat) (l : Lexeme) : Token :=
  { toCategory := l.toCategory, span := ⟨start, start + l.text.length⟩ }

@[simp] theorem toCategory_ofLexeme (start : Nat) (l : Lexeme) :
    (ofLexeme start l).toCategory = l.toCategory := rfl

@[simp] theorem span_ofLexeme (start : Nat) (l : Lexeme) :
    (ofLexeme start l).span = ⟨start, start + l.text.length⟩ := rfl

def describe (t : Token) : String :=
  let place := t.kind.name ++ " at " ++ t.span.describe
  if t.attrs.names.isEmpty then place
  else place ++ " TokenAttrs(" ++ " | ".intercalate t.attrs.names ++ ")"

end Token

end SqlCanon
