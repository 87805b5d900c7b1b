import SqlCanon.Byte

/-!
# Numbers

A number goes on as long as the next byte is a digit or leads to one: a first point or a minus
before a digit, a plus between an exponent letter and a digit, and an exponent letter before a digit
or a sign.
-/

namespace SqlCanon.Number
open Byte

def digitNext (rest : Bytes) : Bool := rest.head?.any isDigit

def exponentNext (rest : Bytes) : Bool := rest.head?.any fun b => isDigit b || b == minus || b == plus

/-- Whether `b` goes on with a number whose last byte is `last`, if `rest` follows. -/
def continues (last : UInt8) (pointed : Bool) (b : UInt8) (rest : Bytes) : Bool :=
  isDigit b
    || (b == dot && !pointed && digitNext rest)
    || (b == minus && digitNext rest)
    || (b == plus && isExponent last && digitNext rest)
    || (isExponent b && exponentNext rest)

/-- The bytes of a number after its first one, given the last one read and whether the number has
its point. -/
def tail (last : UInt8) (pointed : Bool) : Bytes → Bytes
  | [] => []
  | b :: rest =>
    if continues last pointed b rest then b :: tail b (pointed || b == dot) rest else []

theorem tail_isPrefix (last : UInt8) (pointed : Bool) (bs : Bytes) :
    tail last pointed bs <+: bs := by
  fun_induction tail last pointed bs <;> simp_all [List.cons_prefix_cons]

end SqlCanon.Number
