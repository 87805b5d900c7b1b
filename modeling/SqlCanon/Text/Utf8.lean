import SqlCanon.Byte

/-!
# UTF-8

`encode` gives the bytes of a text. `decode` reads bytes back, character by character: a piece that
starts no character, and the longest front part of a character that is then broken off, both count
as one bad piece. `text?` accepts bytes without a bad piece, `lossy` shows each bad piece as U+FFFD.
-/

namespace SqlCanon.Utf8

def encode (s : String) : Bytes := s.toUTF8.data.toList

/-- A character whose first bytes have been read: how many more it takes, the range in which the
next one has to lie, and the value of the bits so far. -/
structure Pending where
  owed : Nat
  low : UInt8
  high : UInt8
  value : Nat

/-- The ranges keep out overlong forms, surrogates and values above U+10FFFF. -/
def lead? (b : UInt8) : Option Pending :=
  if 0xc2 ≤ b && b ≤ 0xdf then some ⟨1, 0x80, 0xbf, b.toNat - 0xc0⟩
  else if b == 0xe0 then some ⟨2, 0xa0, 0xbf, 0⟩
  else if b == 0xed then some ⟨2, 0x80, 0x9f, 0xd⟩
  else if 0xe1 ≤ b && b ≤ 0xef then some ⟨2, 0x80, 0xbf, b.toNat - 0xe0⟩
  else if b == 0xf0 then some ⟨3, 0x90, 0xbf, 0⟩
  else if 0xf1 ≤ b && b ≤ 0xf3 then some ⟨3, 0x80, 0xbf, b.toNat - 0xf0⟩
  else if b == 0xf4 then some ⟨3, 0x80, 0x8f, 4⟩
  else none

def start (b : UInt8) : List (Option Char) × Option Pending :=
  if b < 0x80 then ([some (Char.ofNat b.toNat)], none)
  else match lead? b with
    | some p => ([], some p)
    | none => ([none], none)

def decodeFrom : Option Pending → Bytes → List (Option Char)
  | none, [] => []
  | some _, [] => [none]
  | none, b :: rest => (start b).1 ++ decodeFrom (start b).2 rest
  | some p, b :: rest =>
    if p.low ≤ b && b ≤ p.high then
      let value := p.value * 0x40 + b.toNat % 0x40
      if p.owed ≤ 1 then some (Char.ofNat value) :: decodeFrom none rest
      else decodeFrom (some ⟨p.owed - 1, 0x80, 0xbf, value⟩) rest
    else none :: ((start b).1 ++ decodeFrom (start b).2 rest)

def decode (bs : Bytes) : List (Option Char) := decodeFrom none bs

def text? (bs : Bytes) : Option String :=
  let cs := decode bs
  if cs.all Option.isSome then some (String.ofList (cs.filterMap id)) else none

def lossy (bs : Bytes) : String :=
  String.ofList ((decode bs).map (·.getD '\ufffd'))

end SqlCanon.Utf8
