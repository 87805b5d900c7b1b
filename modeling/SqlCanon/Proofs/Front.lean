import SqlCanon.Lexeme.Front

/-!
# What stands at the front of a source

No lexeme is the end of input, and one in backticks is a name. A byte at which none starts is blank
or belongs to a small class of its own.
-/

namespace SqlCanon.Lexeme
open Byte

theorem front?_kind_ne {b : UInt8} {rest : Bytes} {l : Lexeme} (h : front? b rest = some l) :
    l.kind ≠ .endOfInput := by
  cases front?_cases h <;> simp [ofWord]

theorem front?_backtick (rest : Bytes) :
    front? backtick rest = some { kind := .keyword, text := backtick :: Delimited.name rest } := rfl

theorem of_isQuoted {b : UInt8} {rest : Bytes} {l : Lexeme} (h : front? b rest = some l)
    (hq : l.isQuoted) : l.kind = .keyword ∧ l.attrs = {} := by
  obtain ⟨body, hl, -⟩ := front?_text h
  have hb : b = backtick := by
    simp only [isQuoted, Bool.and_eq_true, hl] at hq
    simpa using hq.1.2
  subst hb
  rw [front?_backtick] at h
  cases h
  exact ⟨rfl, rfl⟩

/-! ## Bytes at which nothing starts -/

/-- `$ ; ? @ [ \ ]` and the two braces. -/
def idle : List UInt8 := [0x24, 0x3b, 0x3f, 0x40, 0x5b, 0x5c, 0x5d, 0x7b, 0x7d]

/-- A byte that is blank or can start no lexeme before `next`. -/
def StartsNothing (b : UInt8) (next : Option UInt8) : Prop :=
  isBlank b ∨ isControl b ∨ b ∈ idle ∨ (b = colon ∧ next ≠ some equals)

instance (b : UInt8) (next : Option UInt8) : Decidable (StartsNothing b next) := by
  unfold StartsNothing; infer_instance

def startsSome (b : UInt8) : Bool :=
  b == star || b == comma || b == openParen || b == closeParen || b == hash || b == quote ||
    b == doubleQuote || isDigit b || b == dot || b == backtick || isWordStart b ||
    Operator.isOperator [b]

theorem extend_some_ne_none (read best bs : Bytes) : Operator.extend read (some best) bs ≠ none := by
  induction bs generalizing read best with
  | nil => simp [Operator.extend]
  | cons b rest ih =>
    rw [Operator.extend]
    split
    · split
      · exact ih _ _
      · exact ih _ _
    · simp

theorem isOperator_of_front?_eq_none {b : UInt8} {rest : Bytes}
    (h : Operator.front? (b :: rest) = none) :
    Operator.isOperator [b] = false ∧ (b = colon → rest.head? ≠ some equals) := by
  rw [Operator.front?, Operator.extend, List.nil_append] at h
  refine ⟨?_, ?_⟩
  · cases hb : Operator.isOperator [b] with
    | false => rfl
    | true =>
      have hs : Operator.startsOperator [b] = true := by
        rw [Operator.isOperator, List.contains_iff_mem] at hb
        simp only [Operator.startsOperator, List.isEmpty_cons, Bool.not_false, Bool.true_and,
          List.any_eq_true]
        exact ⟨[b], hb, by simp⟩
      rw [if_pos hs, if_pos hb] at h
      exact absurd h (extend_some_ne_none _ _ _)
  · rintro rfl hr
    obtain ⟨rest, rfl⟩ := List.head?_eq_some_iff.1 hr
    have h₁ : Operator.startsOperator [colon] = true := by decide
    have h₂ : Operator.startsOperator [colon, equals] = true := by decide
    have h₃ : Operator.isOperator [colon, equals] = true := by decide
    rw [if_pos h₁, Operator.extend, List.singleton_append, if_pos h₂, if_pos h₃] at h
    exact extend_some_ne_none _ _ _ h

theorem startsSome_eq_false_iff : ∀ b : UInt8, startsSome b = false ↔
    isBlank b ∨ isControl b ∨ b ∈ idle ∨ b = colon :=
  forall_of_digits (by decide)

theorem ne_hash_of_comment?_eq_none {b : UInt8} {rest : Bytes} (h : comment? b rest = none) :
    b ≠ hash := by
  rintro rfl
  simp [comment?] at h

theorem of_literal?_eq_none {b : UInt8} {rest : Bytes} (h : literal? b rest = none) :
    b ≠ quote ∧ b ≠ doubleQuote ∧ isDigit b = false := by
  unfold literal? at h
  split at h
  · cases h
  next hq =>
  split at h
  · cases h
  split at h
  · cases h
  split at h
  · cases h
  next hd =>
  rw [not_or] at hq hd
  exact ⟨hq.1, hq.2, by simpa using hd.1⟩

theorem startsNothing_of_front?_eq_none {b : UInt8} {rest : Bytes} (h : front? b rest = none) :
    StartsNothing b rest.head? := by
  cases front?_cases h with
  | blank hblank => exact .inl hblank
  | nothing hb hword hc hl hop =>
    obtain ⟨hone, hcolon⟩ := isOperator_of_front?_eq_none hop
    have hhash := ne_hash_of_comment?_eq_none hc
    obtain ⟨hquote, hdouble, hdigit⟩ := of_literal?_eq_none hl
    have hsome : startsSome b = false := by
      simp only [List.mem_cons, List.not_mem_nil, or_false, not_or] at hb
      simp [startsSome, hb, hhash, hquote, hdouble, hdigit, hword, hone]
    rcases (startsSome_eq_false_iff b).1 hsome with h | h | h | h
    · exact .inl h
    · exact .inr (.inl h)
    · exact .inr (.inr (.inl h))
    · exact .inr (.inr (.inr ⟨h, hcolon h⟩))

end SqlCanon.Lexeme
