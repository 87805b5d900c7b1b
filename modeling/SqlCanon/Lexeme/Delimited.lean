import SqlCanon.Byte

/-!
# Delimited text

Each function takes the bytes after an opening mark and gives those that belong to the marked text,
the closing mark included. Where the closing mark is missing, that is all of them.
-/

namespace SqlCanon.Delimited
open Byte

/-- After the opening quote `q` of a string. A backslash takes the next byte with it and a doubled
quote does not close. -/
def string (q : UInt8) : Bytes → Bytes
  | [] => []
  | b :: rest =>
    if b = backslash then
      match rest with
      | [] => [b]
      | c :: rest' => b :: c :: string q rest'
    else if b = q then
      match rest with
      | [] => [b]
      | c :: rest' => if c = q then b :: c :: string q rest' else [b]
    else b :: string q rest

/-- After the opening backtick of a name. A doubled backtick does not close. -/
def name : Bytes → Bytes
  | [] => []
  | b :: rest =>
    if b = backtick then
      match rest with
      | [] => [b]
      | c :: rest' => if c = backtick then b :: c :: name rest' else [b]
    else b :: name rest

/-- Up to and including the first byte `q`, whatever stands before it. -/
def through (q : UInt8) : Bytes → Bytes
  | [] => []
  | b :: rest => if b = q then [b] else b :: through q rest

/-- After the opening mark of a block comment. -/
def block : Bytes → Bytes
  | [] => []
  | b :: rest =>
    if b = star ∧ rest.head? = some slash then b :: rest.take 1 else b :: block rest

/-- The rest of the line, without its newline. -/
def line (bs : Bytes) : Bytes := bs.takeWhile (· != newline)

theorem string_doubled {q : UInt8} (h : q ≠ backslash) (rest : Bytes) :
    string q (q :: q :: rest) = q :: q :: string q rest := by
  simp [string, h]

theorem string_close {q : UInt8} (h : q ≠ backslash) {rest : Bytes} (hr : rest.head? ≠ some q) :
    string q (q :: rest) = [q] := by
  cases rest with
  | nil => simp [string]
  | cons c rest =>
    have hc : c ≠ q := by simpa using hr
    simp [string, h, hc]

theorem string_cons_of_ne {q b : UInt8} (h₁ : b ≠ backslash) (h₂ : b ≠ q) (rest : Bytes) :
    string q (b :: rest) = b :: string q rest := by
  cases rest <;> simp [string, h₁, h₂]

theorem name_doubled (rest : Bytes) :
    name (backtick :: backtick :: rest) = backtick :: backtick :: name rest := by
  simp [name]

theorem name_close {rest : Bytes} (hr : rest.head? ≠ some backtick) :
    name (backtick :: rest) = [backtick] := by
  cases rest with
  | nil => simp [name]
  | cons c rest =>
    have hc : c ≠ backtick := by simpa using hr
    simp [name, hc]

theorem name_cons_of_ne {b : UInt8} (h : b ≠ backtick) (rest : Bytes) :
    name (b :: rest) = b :: name rest := by
  cases rest <;> simp [name, h]

theorem string_isPrefix (q : UInt8) (bs : Bytes) : string q bs <+: bs := by
  fun_induction string q bs <;> simp_all [List.cons_prefix_cons]

theorem name_isPrefix (bs : Bytes) : name bs <+: bs := by
  fun_induction name bs <;> simp_all [List.cons_prefix_cons]

theorem through_isPrefix (q : UInt8) (bs : Bytes) : through q bs <+: bs := by
  fun_induction through q bs <;> simp_all [List.cons_prefix_cons]

theorem block_isPrefix (bs : Bytes) : block bs <+: bs := by
  fun_induction block bs <;> simp_all [List.cons_prefix_cons, List.take_prefix]

theorem line_isPrefix (bs : Bytes) : line bs <+: bs := List.takeWhile_prefix _

end SqlCanon.Delimited
