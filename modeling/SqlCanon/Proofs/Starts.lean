import SqlCanon.Proofs.Apart

/-!
# Where lexemes start

The byte at the front and the one behind it say whether a lexeme starts there. If one does, the case of
`FrontCase` that holds says which it is.
-/

namespace SqlCanon.Lexeme
open Byte

/-! ## The cases of a front -/

theorem not_mark_of_comment {b : UInt8} {rest body : Bytes} (h : comment? b rest = some body) :
    ∀ m ∈ [star, comma, openParen, closeParen], b ≠ m := by
  rintro m hm rfl
  simp only [List.mem_cons, List.not_mem_nil, or_false] at hm
  rcases hm with rfl | rfl | rfl | rfl <;> simp +decide [comment?] at h

theorem not_mark_of_literal {b : UInt8} {rest body : Bytes} (h : literal? b rest = some body) :
    ∀ m ∈ [star, comma, openParen, closeParen], b ≠ m := by
  rintro m hm rfl
  simp only [List.mem_cons, List.not_mem_nil, or_false] at hm
  rcases hm with rfl | rfl | rfl | rfl <;> simp +decide [literal?] at h

theorem not_blank_of_operator {b : UInt8} {rest op : Bytes} (h : Operator.front? (b :: rest) = some op) :
    isBlank b = false := by
  obtain ⟨hp, hne⟩ := Operator.front?_isPrefix h
  obtain ⟨c, body, rfl⟩ := List.exists_cons_of_ne_nil hne
  obtain rfl := (List.cons_prefix_cons.1 hp).1
  exact ((first_of_operator _ (Operator.mem_all_of_front? h)).2 c rfl).2.2.2.1

/-- Each case fixes the answer, so no other case can hold beside it. -/
theorem FrontCase.front?_eq {b : UInt8} {rest : Bytes} {answer : Option Lexeme}
    (h : FrontCase b rest answer) : front? b rest = answer := by
  cases h with
  | star hb => subst hb; rfl
  | comma hb => subst hb; rfl
  | openParen hb => subst hb; rfl
  | closeParen hb => subst hb; rfl
  | blank hb =>
    simp only [isBlank, Bool.or_eq_true, beq_iff_eq] at hb
    rcases hb with ((rfl | rfl) | rfl) | rfl <;> rfl
  | comment hblank hcomment =>
    have hmark := not_mark_of_comment hcomment
    simp only [List.forall_mem_cons] at hmark
    simp [front?, hmark, hblank, hcomment]
  | literal hblank hcomment hliteral =>
    have hmark := not_mark_of_literal hliteral
    simp only [List.forall_mem_cons] at hmark
    simp [front?, hmark, hblank, hcomment, hliteral]
  | dot hb hliteral =>
    subst hb
    have hcomment : comment? Byte.dot rest = none := rfl
    simp +decide [front?, hcomment, hliteral]
  | name hb => subst hb; rfl
  | word hb hliteral => exact front?_wordStart hb hliteral
  | operator hb hword hcomment hliteral hop =>
    simp only [List.mem_cons, List.not_mem_nil, or_false, not_or] at hb
    simp [front?, hb, not_blank_of_operator hop, hword, hcomment, hliteral, hop]
  | nothing hb hword hcomment hliteral hop =>
    simp only [List.mem_cons, List.not_mem_nil, or_false, not_or] at hb
    simp [front?, hb, hword, hcomment, hliteral, hop]

/-! ## Bytes at which a lexeme starts -/

variable {b : UInt8} {body rest : Bytes} {l : Lexeme}

/-- A text at whose front some lexeme starts, whatever follows it. -/
def Starts (text : Bytes) : Prop := text.head?.any startsSome ∨ text = [colon, equals]

theorem startsSome_of_comment (h : comment? b rest = some body) : startsSome b := by
  have key : startsSome hash ∧ startsSome minus ∧ startsSome slash := by decide
  unfold comment? at h
  split at h
  · next hb => exact hb ▸ key.1
  split at h
  · next hb => exact hb.1 ▸ key.2.1
  split at h
  · next hb => exact hb.1 ▸ key.2.2
  · cases h

theorem startsSome_of_literal (h : literal? b rest = some body) : startsSome b := by
  have key : startsSome minus ∧ startsSome plus := by decide
  have hbase : ∀ b : UInt8, isBase b → isLetter b := forall_of_digits (by decide)
  unfold literal? at h
  split at h
  · next hb => rcases hb with rfl | rfl <;> rfl
  split at h
  · next hb => simp [startsSome, isWordStart, hbase b (isBase_iff.2 hb.1)]
  split at h
  · next hb => rw [hb.1]; rfl
  split at h
  · next hb =>
    rcases hb with hb | ⟨rfl | rfl | rfl, -⟩
    · simp [startsSome, hb]
    · exact key.1
    · exact key.2
    · rfl
  · cases h

theorem starts_of_front? (hl : l.text = b :: body) (h : front? b rest = some l) :
    Starts l.text := by
  have hop : ∀ op ∈ Operator.all, op.head?.any startsSome ∨ op = [colon, equals] := by
    decide
  cases front?_cases h with
  | star hb => subst hb; exact .inl rfl
  | comma hb => subst hb; exact .inl rfl
  | openParen hb => subst hb; exact .inl rfl
  | closeParen hb => subst hb; exact .inl rfl
  | dot hb => subst hb; exact .inl rfl
  | name hb => subst hb; exact .inl rfl
  | comment _ hc => exact .inl (startsSome_of_comment hc)
  | literal _ _ hlit => exact .inl (startsSome_of_literal hlit)
  | word hb => exact .inl (by simp [ofWord, startsSome, hb])
  | operator _ _ _ _ hfront => exact hop _ (Operator.mem_all_of_front? hfront)

theorem startsSome_eq_false {next : Option UInt8} (h : StartsNothing b next) :
    startsSome b = false :=
  (startsSome_eq_false_iff b).2 (h.imp_right (Or.imp_right (Or.imp_right And.left)))

theorem not_startsNothing (h : Starts (b :: body)) (tail : Bytes) :
    ¬ StartsNothing b (body ++ tail).head? := by
  intro hnothing
  rcases h with hsome | hcolon
  · rw [List.head?_cons, Option.any_some, startsSome_eq_false hnothing] at hsome
    cases hsome
  · obtain ⟨rfl, rfl⟩ := List.cons.inj hcolon
    revert hnothing
    simp +decide [StartsNothing]

theorem front?_eq_none_iff : front? b rest = none ↔ StartsNothing b rest.head? := by
  refine ⟨startsNothing_of_front?_eq_none, fun h => ?_⟩
  cases hf : front? b rest with
  | none => rfl
  | some l =>
    obtain ⟨body, hl, tail, rfl⟩ := front?_text hf
    exact absurd h (not_startsNothing (hl ▸ starts_of_front? hl hf) tail)

theorem front?_ne_none (h : Starts (b :: body)) (tail : Bytes) : front? b (body ++ tail) ≠ none :=
  mt front?_eq_none_iff.1 (not_startsNothing h tail)

end SqlCanon.Lexeme
