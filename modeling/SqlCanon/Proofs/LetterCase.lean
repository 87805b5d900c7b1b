import SqlCanon.Proofs.Ends
import SqlCanon.Rules

/-!
# Letter case

Folding takes letters to letters and keeps every other byte. So it changes no class of bytes that holds
all letters or none, and a word is looked up as it was.
-/

namespace SqlCanon
open Byte

namespace Byte

theorem of_isLetter : ∀ b : UInt8, isLetter b →
    isLetter (toLower b) ∧ isLetter (toUpper b) ∧ b < 0x80 :=
  forall_of_digits (by decide)

theorem toLower_toUpper : ∀ b : UInt8, toLower (toLower b) = toLower b ∧
    toLower (toUpper b) = toLower b ∧ toUpper (toLower b) = toUpper b ∧
      toUpper (toUpper b) = toUpper b :=
  forall_of_digits (by decide)

end Byte

namespace KeywordCase
variable (c : KeywordCase) (b : UInt8)

theorem fold_of_not_letter {b : UInt8} (h : isLetter b = false) : c.fold b = b := by
  rw [isLetter, Bool.or_eq_false_iff] at h
  cases c <;> simp [fold, toLower, toUpper, h]

theorem fold_cases : c.fold b = b ∨ isLetter b ∧ isLetter (c.fold b) := by
  cases h : isLetter b with
  | false => exact .inl (c.fold_of_not_letter h)
  | true =>
    obtain ⟨hlower, hupper, -⟩ := of_isLetter b h
    cases c with
    | asWritten => exact .inl rfl
    | lower => exact .inr ⟨rfl, hlower⟩
    | upper => exact .inr ⟨rfl, hupper⟩

theorem class_fold {p : UInt8 → Bool} {v : Bool} (h : ∀ b, isLetter b → p b = v) :
    p (c.fold b) = p b := by
  rcases c.fold_cases b with hsame | ⟨h₁, h₂⟩
  · rw [hsame]
  · rw [h _ h₁, h _ h₂]

theorem isWordStart_fold : isWordStart (c.fold b) = isWordStart b :=
  c.class_fold b (v := true) fun b h => by simp [isWordStart, h]

theorem isWordPart_fold : isWordPart (c.fold b) = isWordPart b :=
  c.class_fold b (v := true) fun b h => by simp [isWordPart, isWordStart, h]

theorem isDigit_fold : isDigit (c.fold b) = isDigit b :=
  c.class_fold b fun b h => not_digit_of_wordStart b (by simp [isWordStart, h])

theorem startsSome_fold : Lexeme.startsSome (c.fold b) = Lexeme.startsSome b :=
  c.class_fold b (v := true) fun b h => by simp [Lexeme.startsSome, isWordStart, h]

theorem isBlank_fold : isBlank (c.fold b) = isBlank b :=
  c.class_fold b (forall_of_digits (by decide) : ∀ b, isLetter b → isBlank b = false)

theorem fold_beq {m : UInt8} (hm : isLetter m = false) : (c.fold b == m) = (b == m) :=
  c.class_fold b (p := (· == m)) fun _ h => beq_false_of_ne (ne_of_class h hm)

theorem fold_eq_iff {m : UInt8} (hm : isLetter m = false) : c.fold b = m ↔ b = m := by
  rw [← beq_iff_eq, c.fold_beq b hm, beq_iff_eq]

theorem toLower_fold : toLower (c.fold b) = toLower b := by
  cases c with
  | asWritten => rfl
  | lower => exact (toLower_toUpper b).1
  | upper => exact (toLower_toUpper b).2.1

theorem toUpper_fold : toUpper (c.fold b) = toUpper b := by
  cases c with
  | asWritten => rfl
  | lower => exact (toLower_toUpper b).2.2.1
  | upper => exact (toLower_toUpper b).2.2.2

theorem isExponent_fold : isExponent (c.fold b) = isExponent b := by
  rw [isExponent, isExponent, c.toLower_fold]

theorem fold_fold {k : KeywordCase} (hk : k ≠ .asWritten) : k.fold (c.fold b) = k.fold b := by
  cases k with
  | asWritten => exact absurd rfl hk
  | lower => exact c.toLower_fold b
  | upper => exact c.toUpper_fold b

theorem map_fold_fold (bs : Bytes) : (bs.map c.fold).map c.fold = bs.map c.fold := by
  have hfold : ∀ b, c.fold (c.fold b) = c.fold b := fun b => by
    cases c with
    | asWritten => rfl
    | lower => exact (toLower_toUpper b).1
    | upper => exact (toLower_toUpper b).2.2.2
  simp only [List.map_map, Function.comp_def, hfold]

end KeywordCase

namespace Rules
variable (r : Rules)

theorem class_foldOf {p : UInt8 → Bool} (h : ∀ b, isLetter b → p b = false) (k : Kind) (b : UInt8) :
    p (r.foldOf k b) = p b := by
  unfold foldOf
  split
  · exact r.keywordCase.class_fold b h
  · rfl

theorem foldOf_eq_backtick_iff (k : Kind) (b : UInt8) : r.foldOf k b = backtick ↔ b = backtick := by
  have hclass := r.class_foldOf (p := (· == backtick)) (fun _ h => beq_false_of_ne (ne_of_class h rfl)) k b
  rw [← beq_iff_eq, hclass, beq_iff_eq]

end Rules

end SqlCanon
