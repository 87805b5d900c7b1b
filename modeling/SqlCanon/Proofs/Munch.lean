import SqlCanon.Proofs.Ends

/-!
# The longest operator

Every start of an operator is a start that the reader goes on from, so it comes by all operators that
stand at the front and keeps the last. It gives the longest of them, and none only where none stands.
-/

namespace SqlCanon.Operator
open Byte

theorem startsOperator_iff {bs : Bytes} :
    startsOperator bs ↔ bs ≠ [] ∧ ∃ op ∈ all, bs <+: op := by
  simp [startsOperator]

theorem isOperator_iff {bs : Bytes} : isOperator bs ↔ bs ∈ all := by
  simp [isOperator]

theorem ne_nil_of_mem : ∀ op ∈ all, op ≠ [] := by decide

theorem extend_of_mem {op read spelled : Bytes} (hop : op ∈ all) (h : read ++ spelled = op)
    (hne : spelled ≠ []) (best : Option Bytes) (rest : Bytes) :
    extend read best (spelled ++ rest) = extend op (some op) rest := by
  induction spelled generalizing read best with
  | nil => exact absurd rfl hne
  | cons b spelled ih =>
    have hread : (read ++ [b]) ++ spelled = op := by rw [← h]; simp
    have hstarts : startsOperator (read ++ [b]) = true :=
      startsOperator_iff.2 ⟨by simp, op, hop, hread ▸ List.prefix_append _ _⟩
    rw [List.cons_append, extend, if_pos hstarts]
    cases spelled with
    | nil =>
      obtain rfl : read ++ [b] = op := by simpa using hread
      rw [if_pos (isOperator_iff.2 hop), List.nil_append]
    | cons c spelled => exact ih hread (List.cons_ne_nil _ _) _

theorem length_le_extend {read best : Bytes} {bs : Bytes} (hbest : best.length ≤ read.length) :
    ∃ op, extend read (some best) bs = some op ∧ best.length ≤ op.length := by
  induction bs generalizing read best with
  | nil => exact ⟨best, rfl, Nat.le_refl _⟩
  | cons b rest ih =>
    have hlonger : best.length ≤ (read ++ [b]).length := by simp; omega
    rw [extend]
    split
    · split
      · obtain ⟨op, hop, hle⟩ := ih (Nat.le_refl (read ++ [b]).length)
        exact ⟨op, hop, Nat.le_trans hlonger hle⟩
      · exact ih hlonger
    · exact ⟨best, rfl, Nat.le_refl _⟩

theorem exists_front?_of_prefix {op bs : Bytes} (hop : op ∈ all) (h : op <+: bs) :
    ∃ longest, front? bs = some longest ∧ op.length ≤ longest.length := by
  obtain ⟨rest, rfl⟩ := h
  rw [front?, extend_of_mem hop (List.nil_append op) (ne_nil_of_mem op hop)]
  exact length_le_extend (Nat.le_refl _)

/-- **Longest operator.** What the reader gives is the longest operator at the front. -/
theorem front?_eq_some_iff {bs op : Bytes} :
    front? bs = some op ↔
      op ∈ all ∧ op <+: bs ∧ ∀ other ∈ all, other <+: bs → other.length ≤ op.length := by
  constructor
  · intro h
    refine ⟨mem_all_of_front? h, (front?_isPrefix h).1, fun other hother hp => ?_⟩
    obtain ⟨longest, hlongest, hle⟩ := exists_front?_of_prefix hother hp
    rw [h] at hlongest
    cases hlongest
    exact hle
  · rintro ⟨hop, hp, hmax⟩
    obtain ⟨longest, hlongest, hle⟩ := exists_front?_of_prefix hop hp
    have hp' := (front?_isPrefix hlongest).1
    have hle' := hmax longest (mem_all_of_front? hlongest) hp'
    have hsame : op <+: longest := List.prefix_of_prefix_length_le hp hp' hle
    rw [hlongest, hsame.eq_of_length_le hle']

theorem front?_eq_none_iff {bs : Bytes} : front? bs = none ↔ ∀ op ∈ all, ¬ op <+: bs := by
  constructor
  · intro h op hop hp
    obtain ⟨longest, hlongest, -⟩ := exists_front?_of_prefix hop hp
    rw [h] at hlongest
    cases hlongest
  · intro h
    cases hfront : front? bs with
    | none => rfl
    | some op => exact absurd (front?_isPrefix hfront).1 (h op (mem_all_of_front? hfront))

/-- Only the colon begins an operator without being one, so a longer operator shows in the next byte. -/
theorem take_mem_all : ∀ op ∈ all, ∀ n < 4, 2 ≤ n → op.take n ∈ all := by decide

theorem length_lt_of_mem : ∀ op ∈ all, op.length < 4 := by decide

theorem front?_of_head?_eq {op rest tail : Bytes} (h : front? (op ++ rest) = some op)
    (hr : rest.head? = tail.head?) : front? (op ++ tail) = some op := by
  obtain ⟨hop, -, hmax⟩ := front?_eq_some_iff.1 h
  refine front?_eq_some_iff.2 ⟨hop, List.prefix_append _ _, fun other hother hp => ?_⟩
  rw [← Nat.not_lt]
  intro hlt
  -- a longer operator goes on with the next byte, and with that byte alone it is one already
  obtain ⟨more, rfl⟩ : op <+: other :=
    List.prefix_of_prefix_length_le (List.prefix_append _ _) hp (Nat.le_of_lt hlt)
  cases more with
  | nil => simp at hlt
  | cons c more =>
    have htail : tail.head? = some c := by
      obtain ⟨last, hlast⟩ := (List.prefix_append_right_inj op).1 hp
      rw [← hlast]
      rfl
    obtain ⟨rest, rfl⟩ := List.head?_eq_some_iff.1 (hr.trans htail)
    have hpos := List.length_pos_iff.2 (ne_nil_of_mem op hop)
    have hshort := length_lt_of_mem _ hother
    rw [List.length_append, List.length_cons] at hshort
    have hone : op ++ [c] ∈ all := by
      have htake := take_mem_all _ hother (op.length + 1) (by omega) (by omega)
      rwa [List.take_length_add_append, List.take_succ_cons, List.take_zero] at htake
    have hle := hmax _ hone ((List.prefix_append_right_inj op).2 ⟨rest, rfl⟩)
    rw [List.length_append, List.length_singleton] at hle
    omega

end SqlCanon.Operator
