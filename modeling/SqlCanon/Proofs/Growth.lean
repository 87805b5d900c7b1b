import Mathlib.Algebra.Group.Nat.Defs
import SqlCanon.Proofs.Truncation

/-!
# Growth of the output and of the buffer

Without added backticks the output is no more than twice as long as the source, and with them no more
than four times. A run that doubles its buffer ends with the whole output as long as that is no larger
than the largest buffer.
-/

namespace SqlCanon

namespace Rules
variable (r : Rules)

theorem length_separator_le (prev : Option Category) (c : Category) :
    (r.separator prev c).length ≤ 1 := by
  unfold separator
  split <;> simp

/-- How many bytes of output a byte of the source can give. -/
def growth : Nat := if r.addBackticks then 4 else 2

theorem length_shown_le {l : Lexeme} (hl : l.text ≠ []) (prev : Option Category) :
    (r.shown prev l).flatten.length ≤ l.text.length + (r.growth - 2) := by
  rw [shown_flatten, List.length_map, parts, growth]
  have hpos := List.length_pos_iff.mpr hl
  split
  · simp; omega
  split
  · split
    · next h =>
      rw [Bool.and_eq_true] at h
      simp [h.1]
    split
    · simp; omega
    · simp
  · simp

theorem length_added_le {l : Lexeme} (hl : l.text ≠ []) (prev : Option Category) :
    (r.added prev l).length ≤ r.growth * l.text.length := by
  have h₁ := r.length_separator_le prev l.toCategory
  have h₂ := r.length_shown_le hl prev
  have h₃ := List.length_pos_iff.mpr hl
  have hgrowth : r.growth = 4 ∨ r.growth = 2 := by
    unfold growth
    split <;> simp
  rw [added, List.length_append]
  rcases hgrowth with h | h <;> rw [h] at h₂ ⊢ <;> omega

theorem length_textAfter_le (prev : Option Category) (ls : List Lexeme)
    (hls : ∀ l ∈ ls, l.text ≠ []) :
    (r.textAfter prev ls).length ≤ r.growth * (ls.flatMap (·.text)).length := by
  induction ls generalizing prev with
  | nil => exact Nat.zero_le _
  | cons l ls ih =>
    have ih' := fun prev => ih prev fun m hm => hls m (List.mem_cons_of_mem _ hm)
    rw [textAfter, List.flatMap_cons, List.length_append, Nat.mul_add]
    split
    · exact Nat.le_add_left_of_le (ih' prev)
    · rw [List.length_append]
      exact Nat.add_le_add (r.length_added_le (hls l List.mem_cons_self) prev) (ih' _)

theorem length_text_le_growth (source : Bytes) : (r.text source).length ≤ r.growth * source.length :=
  Nat.le_trans (r.length_textAfter_le none (lexemes source) fun _ hl => text_ne_nil_of_mem hl)
    (Nat.mul_le_mul_left _ (length_flatMap_lexemes_le source))

theorem growth_le_four : r.growth ≤ 2 ^ 2 := by
  unfold growth
  split <;> decide

theorem length_text_le_doubled (source : Bytes) {first m : Nat} (hfirst : source.length ≤ first)
    (hgrowth : r.growth ≤ 2 ^ m) : (r.text source).length ≤ first * 2 ^ m := by
  calc (r.text source).length
      ≤ r.growth * source.length := r.length_text_le_growth source
    _ ≤ 2 ^ m * first := Nat.mul_le_mul hgrowth hfirst
    _ = first * 2 ^ m := Nat.mul_comm _ _

theorem length_text_le (hadd : r.addBackticks = false) (source : Bytes) :
    (r.text source).length ≤ 2 * source.length := by
  have h := r.length_text_le_growth source
  rwa [growth, hadd, if_neg Bool.false_ne_true] at h

end Rules

namespace Lexer

theorem result_of_fits (lx : Lexer) {r : Rules} (hr : r.validate = .ok ()) {source buffer : Bytes}
    (h : (r.text source).length ≤ buffer.length) : (lx.normalize r source buffer).1.result = .ok () := by
  rw [normalize_eq r lx hr]
  exact if_pos h

theorem output_of_ok {lx : Lexer} {r : Rules} (hr : r.validate = .ok ()) {source buffer : Bytes}
    (h : (lx.normalize r source buffer).1.result = .ok ()) :
    (lx.normalize r source buffer).1.output = r.text source := by
  rw [normalize_eq r lx hr] at h
  rw [output_normalize r lx hr]
  refine List.take_of_length_le ?_
  rcases Nat.lt_or_ge buffer.length (r.text source).length with hlt | hle
  · rw [if_neg (by omega)] at h
    cases h
  · exact hle

theorem grow_eq {r : Rules} {source : Bytes} (hr : r.validate = .ok ())
    (hfit : (r.text source).length ≤ maximumBuffer) (lx : Lexer) (capacity : Nat)
    (pos : 0 < capacity) :
    (lx.grow r source capacity pos).1 = .ok (Utf8.lossy (r.text source)) := by
  induction h : maximumBuffer - capacity using Nat.strongRecOn generalizing lx capacity with
  | _ n ih =>
    have ho := normalize_eq r lx hr source (List.replicate capacity 0)
    rw [grow]
    generalize lx.normalize r source (List.replicate capacity 0) = run at ho
    obtain ⟨o, last⟩ := run
    dsimp only at ho
    subst ho
    rw [List.length_replicate]
    by_cases hle : (r.text source).length ≤ capacity
    · simp only [hle, if_true]
      rw [Outcome.output, List.take_of_length_le hle, Nat.min_eq_right hle, List.take_left]
    · -- The buffer was too small, so it was smaller than the largest one.
      have hlt : capacity < maximumBuffer := by omega
      simp only [hle, if_false]
      rw [dif_pos ⟨rfl, hlt⟩]
      exact ih _ (by omega) _ _ _ rfl

end Lexer

end SqlCanon
