/-!
# Bytes

A statement is a list of bytes and need not be text. The scanner and the letter case rules look at
ASCII alone: a byte from `0x80` on is part of a word and has no case.
-/

namespace SqlCanon

abbrev Bytes := List UInt8

namespace Byte

abbrev tab : UInt8 := 0x09
abbrev newline : UInt8 := 0x0a
abbrev carriageReturn : UInt8 := 0x0d
abbrev space : UInt8 := 0x20
abbrev doubleQuote : UInt8 := 0x22
abbrev hash : UInt8 := 0x23
abbrev dollar : UInt8 := 0x24
abbrev quote : UInt8 := 0x27
abbrev openParen : UInt8 := 0x28
abbrev closeParen : UInt8 := 0x29
abbrev star : UInt8 := 0x2a
abbrev plus : UInt8 := 0x2b
abbrev comma : UInt8 := 0x2c
abbrev minus : UInt8 := 0x2d
abbrev dot : UInt8 := 0x2e
abbrev slash : UInt8 := 0x2f
abbrev zero : UInt8 := 0x30
abbrev colon : UInt8 := 0x3a
abbrev equals : UInt8 := 0x3d
abbrev question : UInt8 := 0x3f
abbrev backslash : UInt8 := 0x5c
abbrev underscore : UInt8 := 0x5f
abbrev backtick : UInt8 := 0x60

def isBlank (b : UInt8) : Bool :=
  b == space || b == tab || b == newline || b == carriageReturn

/-- The control bytes of ASCII, tab and the line ends among them. -/
def isControl (b : UInt8) : Bool := b < 0x20 || b == 0x7f

def isDigit (b : UInt8) : Bool := 0x30 ≤ b && b ≤ 0x39

def isUpper (b : UInt8) : Bool := 0x41 ≤ b && b ≤ 0x5a

def isLower (b : UInt8) : Bool := 0x61 ≤ b && b ≤ 0x7a

def isLetter (b : UInt8) : Bool := isUpper b || isLower b

def isWordStart (b : UInt8) : Bool := isLetter b || b == underscore || 0x80 ≤ b

def isWordPart (b : UInt8) : Bool := isWordStart b || isDigit b || b == dollar

def toLower (b : UInt8) : UInt8 := if isUpper b then b + 0x20 else b

def toUpper (b : UInt8) : UInt8 := if isLower b then b - 0x20 else b

def isExponent (b : UInt8) : Bool := toLower b == 0x65

/-- What holds of all pairs of hexadecimal digits holds of all bytes. -/
theorem forall_of_digits {p : UInt8 → Prop} (h : ∀ high low : Fin 16, p (.ofNat (16 * high + low)))
    (b : UInt8) : p b := by
  have hb := b.toNat_lt
  have hdigits := h ⟨b.toNat / 16, by omega⟩ ⟨b.toNat % 16, Nat.mod_lt _ (by decide)⟩
  rwa [Nat.div_add_mod, UInt8.ofNat_toNat] at hdigits

end Byte

end SqlCanon
