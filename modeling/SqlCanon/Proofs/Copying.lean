import SqlCanon.Buffer

/-!
# Copying by offset

Parts are put into a buffer once more, as writes at an offset into a block of bytes that keeps its size. A
difference below zero and a slice that does not fit are failures here. No write fails, and the block is that
of the buffer.
-/

namespace SqlCanon

/-! ## Buffers -/

def totalLength : List Bytes → Nat
  | [] => 0
  | p :: ps => p.length + totalLength ps

theorem totalLength_eq (parts : List Bytes) : totalLength parts = parts.flatten.length := by
  induction parts with
  | nil => rfl
  | cons p ps ih => rw [totalLength, ih, List.flatten_cons, List.length_append]

namespace Buffer
variable (b : Buffer) (parts : List Bytes)

theorem putAll_complete_iff : (b.putAll parts).2 = true ↔ totalLength parts ≤ b.room.length := by
  rw [putAll_eq, put_eq, totalLength_eq, decide_eq_true_iff]

theorem written_putAll :
    (b.putAll parts).1.written = b.written + min b.room.length (totalLength parts) := by
  simp [putAll_eq, put_eq, totalLength_eq, written, Nat.add_comm]

theorem length_toBytes : b.toBytes.length = b.written + b.room.length := by
  simp [toBytes, written]

theorem room_putAll : (b.putAll parts).1.room = b.room.drop (totalLength parts) := by
  rw [putAll_eq, put_eq, totalLength_eq]

theorem length_toBytes_putAll : (b.putAll parts).1.toBytes.length = b.toBytes.length := by
  rw [length_toBytes, length_toBytes, written_putAll, room_putAll, List.length_drop]
  omega

theorem toBytes_putAll_ofBytes (block : Bytes) : ((ofBytes block).putAll parts).1.toBytes =
    parts.flatten.take block.length ++ block.drop parts.flatten.length := by
  simp [putAll_eq, put_eq, ofBytes, toBytes]

end Buffer

namespace Copy

/-! ## Blocks -/

/-- How a write can leave its bytes. -/
inductive Escape where
  | room (size offset : Nat)
  | slice (start stop size : Nat)
deriving DecidableEq, Repr

def room (size offset : Nat) : Except Escape Nat :=
  if offset ≤ size then .ok (size - offset) else .error (.room size offset)

def front (bs : Bytes) (count : Nat) : Except Escape Bytes :=
  if count ≤ bs.length then .ok (bs.take count) else .error (.slice 0 count bs.length)

def behind (bs : Bytes) (offset : Nat) : Except Escape Bytes :=
  if offset ≤ bs.length then .ok (bs.drop offset) else .error (.slice offset bs.length bs.length)

def overwrite (block : Bytes) (offset : Nat) (bs : Bytes) : Except Escape Bytes :=
  if offset + bs.length ≤ block.length then
    .ok (block.take offset ++ bs ++ block.drop (offset + bs.length))
  else .error (.slice offset (offset + bs.length) block.length)

/-- Writes the parts in a row from `offset` on, up to the first that is cut short. The number is the offset
behind the last byte written. -/
def putFrom (block : Bytes) (offset : Nat) : List Bytes → Except Escape (Nat × Bytes)
  | [] => .ok (offset, block)
  | p :: ps => do
    let count := min p.length (← room block.length offset)
    let block ← overwrite block offset (← front p count)
    if count < p.length then return (offset + count, block)
    else putFrom block (offset + count) ps

def put (block : Bytes) (parts : List Bytes) : Except Escape (Nat × Bytes) := putFrom block 0 parts

/-- A block with the offset up to which it has been written. -/
structure Sink where
  block : Bytes
  offset : Nat
deriving DecidableEq, Repr

namespace Sink

def ofBuffer (b : Buffer) : Sink := ⟨b.toBytes, b.written⟩

def put (s : Sink) (parts : List Bytes) : Except Escape (Sink × Bool) := do
  let (count, written) ← Copy.put (← behind s.block s.offset) parts
  return (⟨s.block.take s.offset ++ written, s.offset + count⟩, count == totalLength parts)

end Sink

section
variable (done rest : Bytes)

theorem room_append : room (done ++ rest).length done.length = .ok rest.length := by
  unfold room
  rw [if_pos (by simp), List.length_append, Nat.add_sub_cancel_left]

theorem front_of_le {bs : Bytes} {count : Nat} (h : count ≤ bs.length) :
    front bs count = .ok (bs.take count) :=
  if_pos h

theorem overwrite_append {bs : Bytes} (h : bs.length ≤ rest.length) :
    overwrite (done ++ rest) done.length bs = .ok (done ++ bs ++ rest.drop bs.length) := by
  unfold overwrite
  rw [if_pos (by simpa using h), List.take_left, List.drop_append, List.drop_of_length_le (by omega),
    Nat.add_sub_cancel_left, List.nil_append]

end

/-- What has been written stays, and the rest of the block is that of the parts put in at once. -/
theorem putFrom_append (done rest : Bytes) (parts : List Bytes) :
    putFrom (done ++ rest) done.length parts =
      .ok (done.length + min rest.length parts.flatten.length,
        done ++ parts.flatten.take rest.length ++ rest.drop parts.flatten.length) := by
  induction parts generalizing done rest with
  | nil => simp [putFrom]
  | cons p ps ih =>
    have hfront : (p.take (min p.length rest.length)).length = min p.length rest.length := by simp
    unfold putFrom
    simp only [room_append, front_of_le (Nat.min_le_left _ _), bind, Except.bind]
    rw [overwrite_append done rest (by rw [hfront]; exact Nat.min_le_right _ _), hfront]
    by_cases hcut : rest.length < p.length
    · have hmin : min p.length rest.length = rest.length := by omega
      simp only [hmin, hcut, if_true, List.flatten_cons, List.length_append, List.drop_length,
        List.append_nil, pure, Except.pure]
      rw [Nat.min_eq_left (by omega), List.take_append_of_le_length (by omega),
        List.drop_of_length_le (by omega), List.append_nil]
    · have hmin : min p.length rest.length = p.length := by omega
      have hnext := ih (done ++ p) (rest.drop p.length)
      simp only [hmin, Nat.lt_irrefl, if_false, List.take_length]
      rw [List.length_append] at hnext
      rw [hnext, List.flatten_cons, List.length_append, List.length_drop, List.drop_drop,
        List.take_append, List.take_of_length_le (by omega : p.length ≤ rest.length)]
      simp only [List.append_assoc, Except.ok.injEq, Prod.mk.injEq, and_true]
      omega

theorem put_eq (block : Bytes) (parts : List Bytes) :
    put block parts = .ok (min block.length parts.flatten.length,
      parts.flatten.take block.length ++ block.drop parts.flatten.length) := by
  have h := putFrom_append [] block parts
  simpa [put] using h

example : put [0, 0, 0] [[0x60], [], [0x61, 0x62, 0x63], [0x60]] = .ok (3, [0x60, 0x61, 0x62]) := rfl

theorem behind_toBytes (b : Buffer) : behind b.toBytes b.written = .ok b.room := by
  have hfilled : b.filled.reverse.length = b.written := List.length_reverse
  unfold behind
  rw [if_pos (by simp [Buffer.toBytes, Buffer.written]), Buffer.toBytes, ← hfilled, List.drop_left]

theorem put_ofBuffer (b : Buffer) (parts : List Bytes) :
    (Sink.ofBuffer b).put parts =
      .ok (Sink.ofBuffer (b.putAll parts).1, (b.putAll parts).2) := by
  have hfilled : b.filled.reverse.length = b.written := List.length_reverse
  have hfits : (min b.room.length parts.flatten.length == parts.flatten.length) =
      decide (parts.flatten.length ≤ b.room.length) := by
    rw [Bool.eq_iff_iff, beq_iff_eq, decide_eq_true_eq]
    omega
  unfold Sink.put
  simp only [Sink.ofBuffer, behind_toBytes, put_eq, bind, Except.bind, pure, Except.pure, totalLength_eq]
  rw [Buffer.putAll_eq, Buffer.put_eq, hfits, Buffer.toBytes, ← hfilled, List.take_left]
  simp [Buffer.toBytes, Buffer.written, Nat.add_comm]

/-- **Copying parts.** As many bytes are written as there are in the parts and as there is room for, they are
those at the front of the parts in a row, and the bytes behind them stay. No slice leaves the block. So a
buffer takes all of the parts just when they fit, and what it holds is never more than its size. -/
theorem parts_copied (block : Bytes) (parts : List Bytes) :
    let done := ((Buffer.ofBytes block).putAll parts).1
    let count := min block.length (totalLength parts)
    put block parts = .ok (done.written, done.toBytes) ∧
      done.written = count ∧
      done.toBytes.length = block.length ∧
      done.toBytes.take count = parts.flatten.take count ∧
      done.toBytes.drop count = block.drop count ∧
      ∀ b : Buffer,
        (Sink.ofBuffer b).put parts = .ok (Sink.ofBuffer (b.putAll parts).1, (b.putAll parts).2) ∧
          ((b.putAll parts).2 = true ↔ totalLength parts ≤ b.room.length) ∧
          (b.putAll parts).1.written = b.written + min b.room.length (totalLength parts) ∧
          (b.putAll parts).1.written ≤ (b.putAll parts).1.toBytes.length ∧
          (b.putAll parts).1.toBytes.length = b.toBytes.length := by
  intro done count
  have hcount : count = min block.length parts.flatten.length := by rw [← totalLength_eq]
  have hwritten : done.written = count := by
    rw [Buffer.written_putAll]
    exact Nat.zero_add _
  have hbytes := Buffer.toBytes_putAll_ofBytes parts block
  have hfront : (parts.flatten.take block.length).length = count := by
    rw [List.length_take, hcount]
  refine ⟨?_, hwritten, ?_, ?_, ?_, ?_⟩
  · rw [put_eq, hwritten, hbytes, hcount]
  · rw [hbytes, List.length_append, List.length_take, List.length_drop]
    omega
  · rw [hbytes, List.take_left' hfront, hcount, ← List.take_eq_take_min]
  · rw [hbytes, List.drop_left' hfront]
    by_cases hle : parts.flatten.length ≤ block.length
    · rw [hcount, Nat.min_eq_right hle]
    · rw [hcount, Nat.min_eq_left (by omega), List.drop_length, List.drop_of_length_le (by omega)]
  · intro b
    refine ⟨put_ofBuffer b parts, b.putAll_complete_iff parts, b.written_putAll parts, ?_,
      b.length_toBytes_putAll parts⟩
    rw [Buffer.length_toBytes]
    exact Nat.le_add_right _ _

end Copy

end SqlCanon
