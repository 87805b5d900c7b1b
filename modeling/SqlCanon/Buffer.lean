import SqlCanon.Byte

/-!
# Buffers

An output buffer has a fixed number of bytes and is filled from the front. The bytes not yet
reached keep their values.
-/

namespace SqlCanon

structure Buffer where
  /-- The bytes put in so far, the last one first. -/
  filled : Bytes
  room : Bytes
deriving DecidableEq, Repr

namespace Buffer

def ofBytes (bs : Bytes) : Buffer := ⟨[], bs⟩

def blank (size : Nat) : Buffer := ofBytes (List.replicate size 0)

def toBytes (b : Buffer) : Bytes := b.filled.reverse ++ b.room

def written (b : Buffer) : Nat := b.filled.length

def capacity (b : Buffer) : Nat := b.filled.length + b.room.length

def output (b : Buffer) : Bytes := b.filled.reverse

/-- Puts in as many bytes as there is room for, and says whether that was all of them. -/
def put (b : Buffer) : Bytes → Buffer × Bool
  | [] => (b, true)
  | x :: xs =>
    match b.room with
    | [] => (b, false)
    | _ :: room => put ⟨x :: b.filled, room⟩ xs

/-- Puts in several parts one after the other, up to the first that does not fit. -/
def putAll (b : Buffer) : List Bytes → Buffer × Bool
  | [] => (b, true)
  | p :: ps =>
    match b.put p with
    | (b, true) => putAll b ps
    | (b, false) => (b, false)

/-- Passes the bytes put in after the first `start` ones through `f`. -/
def mapFrom (b : Buffer) (start : Nat) (f : UInt8 → UInt8) : Buffer :=
  let recent := b.written - start
  { b with filled := (b.filled.take recent).map f ++ b.filled.drop recent }

theorem put_eq (b : Buffer) (xs : Bytes) :
    b.put xs = (⟨(xs.take b.room.length).reverse ++ b.filled, b.room.drop xs.length⟩,
      decide (xs.length ≤ b.room.length)) := by
  induction xs generalizing b with
  | nil => simp [put]
  | cons x xs ih =>
    rw [put]
    split
    · cases b; simp_all
    · simp_all

theorem put_append (b : Buffer) (xs ys : Bytes) :
    b.put (xs ++ ys) = if (b.put xs).2 then (b.put xs).1.put ys else b.put xs := by
  simp only [put_eq, List.length_append, decide_eq_true_eq]
  split
  · next h =>
    simp only [List.take_append, List.take_of_length_le h, List.length_drop, List.drop_drop,
      List.reverse_append, List.append_assoc]
    simp only [Prod.mk.injEq, decide_eq_decide, true_and]
    omega
  · next h =>
    have h0 : b.room.length - xs.length = 0 := by omega
    simp only [List.take_append, h0, List.take_zero, List.append_nil, Prod.mk.injEq,
      Buffer.mk.injEq, true_and, decide_eq_decide]
    rw [List.drop_of_length_le (by omega), List.drop_of_length_le (by omega)]
    simp; omega

theorem putAll_eq (b : Buffer) (parts : List Bytes) : b.putAll parts = b.put parts.flatten := by
  induction parts generalizing b with
  | nil => rfl
  | cons p ps ih =>
    rw [putAll, List.flatten_cons, put_append]
    split <;> simp_all

/-- Bytes may be changed after they have been put in, also where only some of them fitted. -/
theorem mapFrom_put (b : Buffer) (xs : Bytes) (f : UInt8 → UInt8) :
    ((b.put xs).1.mapFrom b.written f, (b.put xs).2) = b.put (xs.map f) := by
  have hrecent : (b.put xs).1.written - b.written = (xs.take b.room.length).reverse.length := by
    simp [put_eq, written]
  unfold mapFrom
  rw [hrecent]
  simp [put_eq, List.map_take]

end Buffer

end SqlCanon
