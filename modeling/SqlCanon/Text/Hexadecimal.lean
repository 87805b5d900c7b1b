import SqlCanon.Text.Decimal

/-!
# Hexadecimal numbers

Digits are read in either case and written in lower case.
-/

namespace SqlCanon.Hexadecimal

def digit? (c : Char) : Option Nat :=
  if Decimal.isDigit c then some (c.toNat - 0x30)
  else if 'a' ≤ c ∧ c ≤ 'f' then some (c.toNat - 0x57)
  else if 'A' ≤ c ∧ c ≤ 'F' then some (c.toNat - 0x37)
  else none

def number? (digits : List Char) : Option Nat := do
  let ds ← digits.mapM digit?
  return ds.foldl (fun n d => 16 * n + d) 0

def pair (n : Nat) : List Char := [Nat.digitChar (n / 16 % 16), Nat.digitChar (n % 16)]

end SqlCanon.Hexadecimal
