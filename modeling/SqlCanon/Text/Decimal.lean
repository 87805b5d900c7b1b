/-!
# Decimal numbers

Numbers that fit into 64 bits are read from ASCII digits, with one plus sign allowed before them.
-/

namespace SqlCanon.Decimal

def isDigit (c : Char) : Bool := '0' ≤ c && c ≤ '9'

def digitValue (c : Char) : Nat := c.toNat - 0x30

/-- The number that a row of digits goes on to, if `n` has been read. -/
def digitsFrom (n : Nat) : List Char → Nat
  | [] => n
  | c :: cs => digitsFrom (10 * n + digitValue c) cs

def ofDigits? (cs : List Char) : Option Nat :=
  if !cs.isEmpty && cs.all isDigit then some (digitsFrom 0 cs) else none

def word? (n : Nat) : Option UInt64 := if h : n < UInt64.size then some (UInt64.ofNatLT n h) else none

def ofChars? : List Char → Option UInt64
  | '+' :: cs => (ofDigits? cs).bind word?
  | cs => (ofDigits? cs).bind word?

def parse? (s : String) : Option UInt64 := ofChars? s.toList

end SqlCanon.Decimal
