import SqlCanon.Proofs.Delivery

/-!
# Coverage of a source by its tokens

The tokens of a source and the gaps between them make up the source. A gap holds blanks and bytes at
which nothing can start, so no byte that means something lies outside all tokens.
-/

namespace SqlCanon
open Byte

/-- The places between tokens in a source of `size` bytes, from the place `start` on. -/
def gapSpans (size : Nat) : (start : Nat) → List Token → List Span
  | start, [] => [⟨start, size⟩]
  | start, t :: ts => ⟨start, t.span.start⟩ :: gapSpans size t.span.stop ts

def weave : List Bytes → List Bytes → Bytes
  | gap :: gaps, l :: ls => gap ++ l ++ weave gaps ls
  | gaps, _ => gaps.flatten

/-- Letters, digits, quotes and the bytes of punctuation and operators. A colon is an operator only
together with the byte after it. -/
def isSignificant (b : UInt8) : Bool :=
  isLetter b || isDigit b || b == underscore || b == quote || b == doubleQuote || b == backtick ||
    b == hash || b == openParen || b == closeParen || b == comma || b == dot || b == star ||
    0x80 ≤ b || (b != colon && Operator.all.any (·.contains b))

theorem isSignificant_eq_false : ∀ b : UInt8,
    (isBlank b ∨ isControl b ∨ b ∈ Lexeme.idle ∨ b = colon) → isSignificant b = false :=
  forall_of_digits (by decide)

theorem not_significant_of_startsNothing {b : UInt8} {next : Option UInt8}
    (h : Lexeme.StartsNothing b next) : isSignificant b = false := by
  refine isSignificant_eq_false b ?_
  rcases h with h | h | h | ⟨h, -⟩
  · exact .inl h
  · exact .inr (.inl h)
  · exact .inr (.inr (.inl h))
  · exact .inr (.inr (.inr h))

/-! ## The shape of a cover -/

theorem length_gapSpans (size start : Nat) (ts : List Token) :
    (gapSpans size start ts).length = ts.length + 1 := by
  induction ts generalizing start with
  | nil => rfl
  | cons t ts ih => rw [gapSpans, List.length_cons, ih, List.length_cons]

theorem gap_or_token {size start p : Nat} (ts : List Token) (hs : start ≤ p) (hp : p < size) :
    (∃ g ∈ gapSpans size start ts, g.start ≤ p ∧ p < g.stop) ∨
      ∃ t ∈ ts, t.span.start ≤ p ∧ p < t.span.stop := by
  induction ts generalizing start with
  | nil => exact .inl ⟨_, List.mem_singleton_self _, hs, hp⟩
  | cons t ts ih =>
    by_cases h₁ : p < t.span.start
    · exact .inl ⟨_, List.mem_cons_self, hs, h₁⟩
    by_cases h₂ : p < t.span.stop
    · exact .inr ⟨t, List.mem_cons_self, by omega, h₂⟩
    rcases ih (show t.span.stop ≤ p by omega) with ⟨g, hg, h⟩ | ⟨u, hu, h⟩
    · exact .inl ⟨g, List.mem_cons_of_mem _ hg, h⟩
    · exact .inr ⟨u, List.mem_cons_of_mem _ hu, h⟩

theorem weave_eq {source : Bytes} {start : Nat} {ps : List (Nat × Lexeme)}
    (h : Standing source start ps) (hs : start ≤ source.length) :
    weave ((gapSpans source.length start (ps.map fun p => Token.ofLexeme p.1 p.2)).map
      (·.slice source)) (ps.map (·.2.text)) = source.drop start := by
  induction ps generalizing start with
  | nil =>
    have hlen : (source.drop start).length = source.length - start := List.length_drop
    simp only [List.map_nil, gapSpans, List.map_cons, weave, List.flatten_cons, List.flatten_nil,
      List.append_nil]
    rw [Span.slice_of_le hs (Nat.le_refl _), ← hlen, List.take_length]
  | cons p ps ih =>
    obtain ⟨hle, hlt, hend⟩ := h.bounds
    have hbehind := List.prefix_iff_eq_append.1 h.2.2.2.1
    rw [List.drop_drop] at hbehind
    have hd : start + (p.1 - start) = p.1 := by omega
    simp only [List.map_cons, gapSpans, weave, Token.span_ofLexeme]
    rw [ih h.2.2.2.2 hend, Span.slice_of_le hle (by omega), List.append_assoc, hbehind]
    conv => rhs; rw [← List.take_append_drop (p.1 - start) (source.drop start), List.drop_drop, hd]

/-! ## What a gap holds -/

def Quiet (source : Bytes) (p : Nat) : Prop :=
  ∀ b, source[p]? = some b → Lexeme.StartsNothing b source[p + 1]?

theorem quiet_of_gap {source bs : Bytes} {start offset : Nat} (hbs : source.drop offset = bs)
    (hs : start ≤ offset) (hq : ∀ p, start ≤ p → p < offset → Quiet source p) :
    ∀ g ∈ gapSpans source.length start
      ((Piece.place offset (Piece.cut bs)).map fun p => Token.ofLexeme p.1 p.2),
      ∀ p, g.start ≤ p → p < g.stop → Quiet source p := by
  induction bs using Piece.cut_induction generalizing start offset with
  | nil =>
    intro g hg p hp₁ hp₂
    rw [List.drop_eq_nil_iff] at hbs
    obtain rfl := List.mem_singleton.1 hg
    exact hq p hp₁ (Nat.lt_of_lt_of_le hp₂ hbs)
  | gap b rest hf ih =>
    have hrest : source.drop (offset + 1) = rest := by rw [← List.drop_drop, hbs]; rfl
    rw [Piece.place_cut_cons_of_none hf]
    refine ih hrest (Nat.le_succ_of_le hs) fun p hp₁ hp₂ => ?_
    rcases Nat.lt_or_eq_of_le (Nat.le_of_lt_succ hp₂) with hlt | rfl
    · exact hq p hp₁ hlt
    · intro c hc
      have hb : source[p]? = some b := by rw [← List.head?_drop, hbs]; rfl
      rw [hb] at hc
      cases hc
      rw [← List.head?_drop, hrest]
      exact Lexeme.startsNothing_of_front?_eq_none hf
  | lexeme b body tail l hl hf ih =>
    have htail : source.drop (offset + l.text.length) = tail := by
      rw [← List.drop_drop, hbs, Piece.drop_text hl]
    rw [Piece.place_cut_append_of_some hl hf, List.map_cons, gapSpans]
    intro g hg
    rcases List.mem_cons.1 hg with rfl | hg
    · exact hq
    · exact ih htail (Nat.le_refl _) (fun p hp₁ hp₂ => absurd hp₂ (by omega)) g hg

/-- **Nothing significant is lost.** The gaps and the lexemes of the delivered tokens make up the
source by turns. A byte in a gap is blank or starts nothing, and every significant byte of the source
lies in a token. -/
theorem tokens_cover_source (lx : Lexer) (source : Bytes) :
    let ts := (lx.bind source).rest.1
    let gaps := gapSpans source.length 0 ts
    gaps.length = ts.length + 1 ∧
      source = weave (gaps.map (·.slice source)) (ts.map fun t => (t.lexeme source).text) ∧
      (∀ g ∈ gaps, ∀ p b, g.start ≤ p → p < g.stop → source[p]? = some b →
        Lexeme.StartsNothing b source[p + 1]?) ∧
      (∀ p b, source[p]? = some b → isSignificant b →
        ∃ t ∈ ts, t.span.start ≤ p ∧ p < t.span.stop) := by
  intro ts gaps
  have hstand : Standing source 0 (Piece.place 0 (Piece.cut source)) := Standing.place_cut rfl
  have hts : ts = (Piece.place 0 (Piece.cut source)).map fun p => Token.ofLexeme p.1 p.2 :=
    lx.rest_bind source
  have htexts : (ts.map fun t => (t.lexeme source).text) =
      (Piece.place 0 (Piece.cut source)).map (·.2.text) := by
    have hmap := congrArg (List.map Lexeme.text) hstand.map_lexeme
    rw [← hts, List.map_map, List.map_map] at hmap
    exact hmap
  have hquiet : ∀ g ∈ gaps, ∀ p, g.start ≤ p → p < g.stop → Quiet source p := by
    intro g hg
    rw [show gaps = gapSpans source.length 0 ts from rfl, hts] at hg
    exact quiet_of_gap rfl (Nat.le_refl _) (fun p hp₁ hp₂ => absurd hp₂ (Nat.not_lt_zero p)) g hg
  refine ⟨length_gapSpans _ _ _, ?_, fun g hg p b h₁ h₂ => hquiet g hg p h₁ h₂ b, ?_⟩
  · have hweave := weave_eq hstand (Nat.zero_le _)
    rw [← hts, ← htexts] at hweave
    exact hweave.symm
  · intro p b hb hsig
    have hlt := (List.getElem?_eq_some_iff.1 hb).1
    rcases gap_or_token ts (Nat.zero_le p) hlt with ⟨g, hg, h₁, h₂⟩ | h
    · have := not_significant_of_startsNothing (hquiet g hg p h₁ h₂ b hb)
      rw [this] at hsig
      cases hsig
    · exact h

end SqlCanon
