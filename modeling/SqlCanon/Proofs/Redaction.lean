import SqlCanon.Proofs.Characters
import SqlCanon.Proofs.Signed

/-!
# Redacted output

Each byte of an output is signed with the token that it shows. Where literals are removed, a digit is
signed with a word or a name, and a quotation mark with a name in backticks.
-/

namespace SqlCanon
open Byte

/-! ## Digits and quotation marks -/

def isQuotation (b : UInt8) : Bool := b == quote || b == doubleQuote

namespace Lexeme
variable {b : UInt8} {rest : Bytes} {l : Lexeme}

/-- Digits stand in words and names alone, quotation marks in names alone. -/
structure Blunt (l : Lexeme) : Prop where
  digit : ∀ c ∈ l.text, isDigit c → l.kind = .keyword
  quotation : ∀ c ∈ l.text, isQuotation c → l.kind = .keyword ∧ l.text.head? = some backtick

theorem blunt_of_plain (h : ∀ c ∈ l.text, isDigit c = false ∧ isQuotation c = false) : l.Blunt where
  digit c hc hd := by
    rw [(h c hc).1] at hd
    cases hd
  quotation c hc hq := by
    rw [(h c hc).2] at hq
    cases hq

theorem blunt_of_mark (h : isDigit b = false ∧ isQuotation b = false) {k : Kind} :
    Blunt { kind := k, text := [b] } :=
  blunt_of_plain (List.forall_mem_singleton.2 h)

theorem not_quotation_of_wordPart : ∀ b : UInt8, isWordPart b → isQuotation b = false :=
  forall_of_digits (by decide)

theorem blunt_of_word {word : Bytes} (h : ∀ c ∈ word, isWordPart c) : Blunt (ofWord word) where
  digit _ _ _ := rfl
  quotation c hc hq := by
    rw [not_quotation_of_wordPart c (h c hc)] at hq
    cases hq

theorem plain_of_operator : ∀ op ∈ Operator.all, ∀ c ∈ op, isDigit c = false ∧ isQuotation c = false := by
  decide +kernel

theorem blunt_of_front? (h : front? b rest = some l) (hcomment : l.kind ≠ .comment)
    (hliteral : l.kind ≠ .literal) : l.Blunt := by
  cases front?_cases h with
  | star hb => subst hb; exact blunt_of_mark (by decide)
  | comma hb => subst hb; exact blunt_of_mark (by decide)
  | openParen hb => subst hb; exact blunt_of_mark (by decide)
  | closeParen hb => subst hb; exact blunt_of_mark (by decide)
  | dot hb => subst hb; exact blunt_of_mark (by decide)
  | comment => exact absurd rfl hcomment
  | literal => exact absurd rfl hliteral
  | name hb => exact ⟨fun _ _ _ => rfl, fun _ _ _ => ⟨rfl, by simp [hb]⟩⟩
  | word hb => exact blunt_of_word (wordPart_of_mem_word hb rest)
  | operator _ _ _ _ hop => exact blunt_of_plain (plain_of_operator _ (Operator.mem_all_of_front? hop))

end Lexeme

structure Signed.Redacted (s : Signed) (source : Bytes) : Prop where
  digit : isDigit s.byte → ∃ t ∈ tokens source, s.token = some t ∧ t.kind = .keyword
  quotation : isQuotation s.byte → ∃ t ∈ tokens source, s.token = some t ∧ t.kind = .keyword ∧
    (t.lexeme source).text.head? = some backtick
  literal : ∀ t, s.token = some t → t.kind = .literal → s.byte = question

namespace Rules
variable (r : Rules) {l : Lexeme}

theorem parts_of_literal (hremove : r.removeLiterals = true) (hl : l.kind = .literal)
    (prev : Option Category) : r.parts prev l = [[question]] := by
  simp [parts, hremove, hl]

theorem mem_parts (hl : l.kind ≠ .literal) (prev : Option Category) :
    ∀ b ∈ (r.parts prev l).flatten, b = backtick ∨ b ∈ l.text := by
  intro b hb
  simp only [parts, hl, decide_false, Bool.and_false, Bool.false_eq_true, if_false] at hb
  split at hb
  · split at hb
    · have hb' : b = backtick ∨ b ∈ l.text ∨ b = backtick := by simpa using hb
      rcases hb' with h | h | h
      · exact .inl h
      · exact .inr h
      · exact .inl h
    split at hb
    · have hb' : b ∈ l.text.tail.dropLast := by simpa using hb
      exact .inr (List.mem_of_mem_tail ((List.dropLast_sublist _).mem hb'))
    · exact .inr (by simpa using hb)
  · exact .inr (by simpa using hb)

theorem mem_shown (hremove : r.removeLiterals = true) (prev : Option Category) {b : UInt8}
    (hb : b ∈ (r.shown prev l).flatten) :
    (l.kind = .literal ∧ b = question) ∨
      l.kind ≠ .literal ∧ ∃ c, b = r.foldOf l.kind c ∧ (c = backtick ∨ c ∈ l.text) := by
  rw [shown_flatten] at hb
  obtain ⟨c, hc, rfl⟩ := List.mem_map.1 hb
  by_cases hl : l.kind = .literal
  · left
    rw [r.parts_of_literal hremove hl] at hc
    obtain rfl : c = question := by simpa using hc
    exact ⟨hl, by simp [foldOf, hl]⟩
  · exact .inr ⟨hl, c, rfl, r.mem_parts hl prev c hc⟩

/-- A byte that is shown and that no rule makes, by its class, stands in the source. -/
theorem mem_text_of_mem_shown (hremove : r.removeLiterals = true) {p : UInt8 → Bool}
    (hletter : ∀ b, isLetter b → p b = false) (hadded : p question = false ∧ p backtick = false)
    (prev : Option Category) {b : UInt8} (hb : b ∈ (r.shown prev l).flatten) (hp : p b) :
    l.kind ≠ .literal ∧ ∃ c ∈ l.text, p c := by
  rcases r.mem_shown hremove prev hb with ⟨-, rfl⟩ | ⟨hl, c, rfl, hc⟩
  · rw [hadded.1] at hp
    cases hp
  rw [r.class_foldOf hletter] at hp
  rcases hc with rfl | hc
  · rw [hadded.2] at hp
    cases hp
  · exact ⟨hl, c, hc, hp⟩

theorem placeholder_of_literal (hremove : r.removeLiterals = true) (hl : l.kind = .literal)
    (prev : Option Category) {b : UInt8} (hb : b ∈ (r.shown prev l).flatten) : b = question := by
  rcases r.mem_shown hremove prev hb with ⟨-, h⟩ | ⟨hne, -⟩
  · exact h
  · exact absurd hl hne

theorem redacted_signed (hremove : r.removeLiterals = true) (source : Bytes) :
    ∀ s ∈ r.signed source, s.Redacted source := by
  have hblunt : ∀ l ∈ lexemes source, l.kind ≠ .comment → l.kind ≠ .literal → l.Blunt :=
    forall_lexemes (P := fun l => l.kind ≠ .comment → l.kind ≠ .literal → l.Blunt)
      (fun b rest l hf => Lexeme.blunt_of_front? hf) source
  have hstand : Standing source 0 (Piece.place 0 (Piece.cut source)) := Standing.place_cut rfl
  have hspace : Signed.Redacted ⟨space, none⟩ source :=
    ⟨fun h => absurd h (by decide), fun h => absurd h (by decide), fun t h => absurd h (by simp)⟩
  refine r.forall_signedAfter hspace ?_ none
  intro p hp hc prev b hb
  have hmem : Token.ofLexeme p.1 p.2 ∈ tokens source := List.mem_map_of_mem hp
  have hlexeme : p.2 ∈ lexemes source := by
    rw [lexemes, ← Piece.place_map_snd 0]
    exact List.mem_map_of_mem hp
  have hp' : p.2.kind ≠ .literal → p.2.Blunt := hblunt p.2 hlexeme hc
  constructor
  · intro hd
    obtain ⟨hl, c, hc, hdigit⟩ := r.mem_text_of_mem_shown hremove
      (forall_of_digits (by decide) : ∀ b, isLetter b → isDigit b = false) (by decide) prev hb hd
    exact ⟨_, hmem, rfl, (hp' hl).digit c hc hdigit⟩
  · intro hq
    obtain ⟨hl, c, hc, hquotation⟩ := r.mem_text_of_mem_shown hremove
      (forall_of_digits (by decide) : ∀ b, isLetter b → isQuotation b = false) (by decide) prev hb hq
    obtain ⟨hkind, hhead⟩ := (hp' hl).quotation c hc hquotation
    refine ⟨_, hmem, rfl, hkind, ?_⟩
    rwa [hstand.slice_of_mem p hp]
  · rintro t ht hl
    obtain rfl := Option.some.inj ht
    exact r.placeholder_of_literal hremove hl prev hb

end Rules

namespace Lexer

/-- **Redaction.** Where literals are removed, whatever part of the output fits into a buffer, each digit
in it belongs to a word or a name, each quotation mark to a name that begins with a backtick, and a
literal has placed nothing but its placeholder. -/
theorem redacted_output (lx : Lexer) (r : Rules) (source buffer : Bytes) (hr : r.validate = .ok ())
    (hremove : r.removeLiterals = true) :
    let o := (lx.normalize r source buffer).1
    o.output = ((r.signed source).take o.written).map (·.byte) ∧
      ∀ (i : Nat) (b : UInt8), o.output[i]? = some b →
        ∃ token, (r.signed source)[i]? = some ⟨b, token⟩ ∧
          (isDigit b → ∃ t ∈ (lx.bind source).rest.1, token = some t ∧ t.kind = .keyword) ∧
          (b = quote ∨ b = doubleQuote → ∃ t ∈ (lx.bind source).rest.1, token = some t ∧
            t.kind = .keyword ∧ (t.lexeme source).text.head? = some backtick) ∧
          (∀ t, token = some t → t.kind = .literal → b = question) := by
  intro o
  have hwritten : o.written = min buffer.length (r.text source).length :=
    congrArg (·.written) (normalize_eq r lx hr source buffer)
  have hfront : o.output = ((r.signed source).take o.written).map (·.byte) := by
    rw [List.map_take, r.map_byte_signed, hwritten, ← List.take_eq_take_min]
    exact output_normalize r lx hr source buffer
  refine ⟨hfront, fun i b hb => ?_⟩
  rw [hfront, List.getElem?_map, Option.map_eq_some_iff] at hb
  obtain ⟨s, hs, rfl⟩ := hb
  have hi : i < o.written := by
    obtain ⟨hlt, -⟩ := List.getElem?_eq_some_iff.1 hs
    rw [List.length_take] at hlt
    omega
  rw [List.getElem?_take_of_lt hi] at hs
  have hredacted := r.redacted_signed hremove source s (List.mem_of_getElem? hs)
  rw [rest_bind]
  refine ⟨s.token, hs, hredacted.digit, fun hq => hredacted.quotation ?_, hredacted.literal⟩
  simpa [isQuotation] using hq

theorem redacted_output_quoted :
    let r : Rules := { keywordCase := .upper, removeLiterals := true, addBackticks := true }
    let source := Utf8.encode "a1='9'+`o\"7`.5"
    let o := (({} : Lexer).normalize r source (List.replicate 14 0)).1
    r.validate = .ok () ∧ r.removeLiterals = true ∧ o.output = Utf8.encode "`A1` = ? + `O\"" ∧
      (∃ t ∈ (({} : Lexer).bind source).rest.1, (r.signed source)[2]? = some ⟨0x31, some t⟩ ∧
        t.kind = .keyword) ∧
      ∃ t ∈ (({} : Lexer).bind source).rest.1, (r.signed source)[13]? = some ⟨doubleQuote, some t⟩ ∧
        (t.lexeme source).text.head? = some backtick := by
  intro r source o
  obtain ⟨-, hsigned⟩ := redacted_output {} r source (List.replicate 14 0) rfl rfl
  have houtput : o.output = Utf8.encode "`A1` = ? + `O\"" := by
    rw [show o.output = _ from output_normalize r {} rfl source (List.replicate 14 0)]
    decide +kernel
  refine ⟨rfl, rfl, houtput, ?_, ?_⟩
  · obtain ⟨token, hs, hdigit, -⟩ := hsigned 2 0x31 (by rw [houtput]; decide +kernel)
    obtain ⟨t, ht, rfl, hkind⟩ := hdigit rfl
    exact ⟨t, ht, hs, hkind⟩
  · obtain ⟨token, hs, -, hquotation, -⟩ := hsigned 13 doubleQuote (by rw [houtput]; decide +kernel)
    obtain ⟨t, ht, rfl, -, hhead⟩ := hquotation (.inr rfl)
    exact ⟨t, ht, hs, hhead⟩

end Lexer

end SqlCanon
