import SqlCanon.Proofs.Cursor
import SqlCanon.Proofs.Front

/-!
# Delivery of tokens

`Lexer.left` lists the lexemes that a lexer has not read, each with its place. A call of `next` takes
the first of them, whatever the lexer did before, and the end of input comes when there are none.
-/

namespace SqlCanon

namespace Piece

theorem place_cut_cons_of_none {b : UInt8} {rest : Bytes} (h : Lexeme.front? b rest = none)
    (offset : Nat) : place offset (cut (b :: rest)) = place (offset + 1) (cut rest) := by
  rw [cut_cons_of_none h, place]

theorem place_cut_append_of_some {b : UInt8} {body tail : Bytes} {l : Lexeme}
    (hl : l.text = b :: body) (h : Lexeme.front? b (body ++ tail) = some l) (offset : Nat) :
    place offset (cut (b :: (body ++ tail))) =
      (offset, l) :: place (offset + l.text.length) (cut tail) := by
  rw [cut_append_of_some hl h, place]

theorem place_cut_tail {offset start : Nat} {bs : Bytes} {l : Lexeme} {ps : List (Nat × Lexeme)}
    (h : place offset (cut bs) = (start, l) :: ps) :
    offset ≤ start ∧
      ps = place (start + l.text.length) (cut (bs.drop (start + l.text.length - offset))) := by
  induction bs using cut_induction generalizing offset with
  | nil => cases h
  | gap b rest hf ih =>
    rw [place_cut_cons_of_none hf] at h
    obtain ⟨hle, hps⟩ := ih h
    have hn : start + l.text.length - offset = start + l.text.length - (offset + 1) + 1 := by omega
    rw [hn, List.drop_succ_cons]
    exact ⟨by omega, hps⟩
  | lexeme b body tail m hm hf ih =>
    rw [place_cut_append_of_some hm hf] at h
    simp only [List.cons.injEq, Prod.mk.injEq] at h
    obtain ⟨⟨rfl, rfl⟩, rfl⟩ := h
    rw [Nat.add_sub_cancel_left, drop_text hm]
    exact ⟨Nat.le_refl _, rfl⟩

end Piece

/-- Lexemes that stand in `source` one behind the other, the first no earlier than `offset`. -/
def Standing (source : Bytes) : (offset : Nat) → List (Nat × Lexeme) → Prop
  | _, [] => True
  | offset, (start, l) :: ps =>
    offset ≤ start ∧ l.text ≠ [] ∧ l.kind ≠ .endOfInput ∧ l.text <+: source.drop start ∧
      Standing source (start + l.text.length) ps

namespace Standing
variable {source : Bytes} {offset start : Nat} {l : Lexeme} {ps : List (Nat × Lexeme)}

theorem mono {m n : Nat} (hmn : m ≤ n) (h : Standing source n ps) : Standing source m ps := by
  cases ps with
  | nil => trivial
  | cons p ps => exact ⟨Nat.le_trans hmn h.1, h.2⟩

theorem bounds (h : Standing source offset ((start, l) :: ps)) :
    offset ≤ start ∧ start < start + l.text.length ∧ start + l.text.length ≤ source.length := by
  obtain ⟨hle, hne, -, hp, -⟩ := h
  have hpos := List.length_pos_iff.mpr hne
  have hlen := hp.length_le
  rw [List.length_drop] at hlen
  omega

theorem slice_eq (h : Standing source offset ((start, l) :: ps)) :
    (Token.ofLexeme start l).lexeme source = l := by
  obtain ⟨-, hlt, hle⟩ := h.bounds
  have hp := List.prefix_iff_eq_take.1 h.2.2.2.1
  rw [Token.lexeme, Token.ofLexeme, Span.slice_of_le (by omega) hle, Nat.add_sub_cancel_left, ← hp]

theorem length_le (h : Standing source offset ps) (ho : offset ≤ source.length) :
    ps.length ≤ source.length - offset := by
  induction ps generalizing offset with
  | nil => exact Nat.zero_le _
  | cons p ps ih =>
    obtain ⟨hle, hlt, hend⟩ := h.bounds
    have := ih h.2.2.2.2 hend
    simp only [List.length_cons]
    omega

theorem map_lexeme (h : Standing source offset ps) :
    (ps.map fun p => Token.ofLexeme p.1 p.2).map (·.lexeme source) = ps.map Prod.snd := by
  induction ps generalizing offset with
  | nil => rfl
  | cons p ps ih => rw [List.map_cons, List.map_cons, List.map_cons, h.slice_eq, ih h.2.2.2.2]

theorem place_cut {bs : Bytes} (h : source.drop offset = bs) :
    Standing source offset (Piece.place offset (Piece.cut bs)) := by
  induction bs using Piece.cut_induction generalizing offset with
  | nil => trivial
  | gap b rest hf ih =>
    rw [Piece.place_cut_cons_of_none hf]
    have hrest : source.drop (offset + 1) = rest := by rw [← List.drop_drop, h]; rfl
    exact (ih hrest).mono (Nat.le_succ _)
  | lexeme b body tail l hl hf ih =>
    have htail : source.drop (offset + l.text.length) = tail := by
      rw [← List.drop_drop, h, Piece.drop_text hl]
    rw [Piece.place_cut_append_of_some hl hf]
    refine ⟨Nat.le_refl _, by simp [hl], Lexeme.front?_kind_ne hf, ?_, ih htail⟩
    rw [h, hl, ← List.cons_append]
    exact List.prefix_append _ _

end Standing

namespace Lexer

/-- The lexemes that have not been read, each with its place. -/
def left (lx : Lexer) : List (Nat × Lexeme) :=
  Piece.place lx.cursor (Piece.cut (lx.source.drop lx.cursor))

theorem standing_left (lx : Lexer) : Standing lx.source lx.cursor lx.left :=
  Standing.place_cut rfl

theorem seek_eq_head? (offset : Nat) (bs : Bytes) :
    seek offset bs = (Piece.place offset (Piece.cut bs)).head? := by
  induction bs using Piece.cut_induction generalizing offset with
  | nil => rfl
  | gap b rest hf ih => rw [Piece.place_cut_cons_of_none hf, seek, hf, ih]
  | lexeme b body tail l hl hf ih => rw [Piece.place_cut_append_of_some hl hf, seek, hf]; rfl

theorem front?_of_seek {offset start : Nat} {bs : Bytes} {l : Lexeme}
    (h : seek offset bs = some (start, l)) :
    ∃ b rest, bs.drop (start - offset) = b :: rest ∧ Lexeme.front? b rest = some l := by
  induction bs generalizing offset with
  | nil => cases h
  | cons b rest ih =>
    rw [seek] at h
    split at h
    · next hf =>
      cases h
      rw [Nat.sub_self]
      exact ⟨b, rest, rfl, hf⟩
    · have hle := (seek_bounds h).1
      have hn : start - offset = start - (offset + 1) + 1 := by omega
      rw [hn, List.drop_succ_cons]
      exact ih h

/-! ## One call -/

theorem next_of_left_nil {lx : Lexer} (h : lx.left = []) :
    lx.next = (Token.endOfInput lx.source.length,
      { lx with cursor := max lx.cursor lx.source.length }) := by
  have hs : seek lx.cursor (lx.source.drop lx.cursor) = none := by
    rw [seek_eq_head?, ← left, h]
    rfl
  rw [next, hs]

theorem next_of_left_cons {lx : Lexer} {start : Nat} {l : Lexeme} {ps : List (Nat × Lexeme)}
    (h : lx.left = (start, l) :: ps) :
    lx.next = (Token.ofLexeme start l,
      { lx with cursor := start + l.text.length, arena := arenaAfter lx.arena l }) := by
  have hs : seek lx.cursor (lx.source.drop lx.cursor) = some (start, l) := by
    rw [seek_eq_head?, ← left, h]
    rfl
  rw [next, hs]

theorem source_next (lx : Lexer) : lx.next.2.source = lx.source := by
  cases h : lx.left with
  | nil => rw [next_of_left_nil h]
  | cons p ps => rw [next_of_left_cons h]

theorem left_next (lx : Lexer) : lx.next.2.left = lx.left.tail := by
  cases h : lx.left with
  | nil =>
    rw [next_of_left_nil h, left, List.drop_of_length_le (Nat.le_max_right _ _)]
    rfl
  | cons p ps =>
    obtain ⟨start, l⟩ := p
    obtain ⟨hle, hps⟩ := Piece.place_cut_tail h
    have hn : lx.cursor + (start + l.text.length - lx.cursor) = start + l.text.length := by omega
    rw [List.drop_drop, hn] at hps
    rw [next_of_left_cons h, List.tail_cons, hps]
    rfl

theorem left_next_of_left_cons {lx : Lexer} {p : Nat × Lexeme} {ps : List (Nat × Lexeme)}
    (h : lx.left = p :: ps) : lx.next.2.left = ps := by
  rw [left_next, h, List.tail_cons]

theorem kind_of_left_nil {lx after : Lexer} {t : Token} (h : lx.left = [])
    (hn : lx.next = (t, after)) : t.kind = .endOfInput := by
  rw [next_of_left_nil h] at hn
  cases hn
  rfl

theorem token_of_left_cons {lx after : Lexer} {t : Token} {start : Nat} {l : Lexeme}
    {ps : List (Nat × Lexeme)} (h : lx.left = (start, l) :: ps) (hn : lx.next = (t, after)) :
    t = Token.ofLexeme start l := by
  rw [next_of_left_cons h] at hn
  cases hn
  rfl

theorem front?_of_next {lx : Lexer} (h : lx.next.1.kind ≠ .endOfInput) :
    ∃ b rest l, lx.source.drop lx.next.1.span.start = b :: rest ∧ Lexeme.front? b rest = some l ∧
      lx.next.1 = Token.ofLexeme lx.next.1.span.start l ∧ lx.next.1.lexeme lx.source = l := by
  cases hl : lx.left with
  | nil =>
    rw [next_of_left_nil hl] at h
    exact absurd rfl h
  | cons p ps =>
    obtain ⟨start, l⟩ := p
    have hstanding := hl ▸ lx.standing_left
    have hseek : seek lx.cursor (lx.source.drop lx.cursor) = some (start, l) := by
      rw [seek_eq_head?, ← left, hl]
      rfl
    obtain ⟨b, rest, hdrop, hf⟩ := front?_of_seek hseek
    rw [List.drop_drop, Nat.add_sub_cancel' hstanding.1] at hdrop
    rw [next_of_left_cons hl]
    exact ⟨b, rest, l, hdrop, hf, rfl, hstanding.slice_eq⟩

theorem cursor_next_le (lx : Lexer) (h : lx.cursor ≤ lx.source.length) :
    lx.cursor ≤ lx.next.2.cursor ∧ lx.next.2.cursor ≤ lx.source.length := by
  cases hl : lx.left with
  | nil =>
    rw [next_of_left_nil hl]
    exact ⟨Nat.le_max_left _ _, Nat.max_le.2 ⟨h, Nat.le_refl _⟩⟩
  | cons p ps =>
    obtain ⟨hle, hlt, hend⟩ := (hl ▸ lx.standing_left).bounds
    rw [next_of_left_cons hl]
    exact ⟨by dsimp only; omega, hend⟩

/-! ## Many calls -/

theorem nextMany_succ (k : Nat) (lx : Lexer) :
    (nextMany (k + 1) lx).2 = (nextMany k lx).2.next.2 := by
  induction k generalizing lx with
  | zero => rfl
  | succ k ih => exact ih lx.next.2

theorem source_nextMany (k : Nat) (lx : Lexer) : (nextMany k lx).2.source = lx.source := by
  induction k with
  | zero => rfl
  | succ k ih => rw [nextMany_succ, source_next, ih]

theorem left_nextMany (k : Nat) (lx : Lexer) : (nextMany k lx).2.left = lx.left.drop k := by
  induction k with
  | zero => rfl
  | succ k ih => rw [nextMany_succ, left_next, ih, List.tail_drop]

theorem cursor_nextMany_le (k : Nat) {lx : Lexer} (h : lx.cursor ≤ lx.source.length) :
    (nextMany k lx).2.cursor ≤ lx.source.length := by
  induction k with
  | zero => exact h
  | succ k ih =>
    rw [nextMany_succ, ← source_nextMany k lx]
    rw [← source_nextMany k lx] at ih
    exact (cursor_next_le _ ih).2

/-! ## All tokens -/

theorem rest_of_left_nil {lx : Lexer} (h : lx.left = []) : lx.rest = ([], lx.next.2) := by
  rw [rest]
  split
  next t after hn => rw [if_pos (kind_of_left_nil h hn), hn]

theorem rest_of_left_cons {lx : Lexer} {start : Nat} {l : Lexeme} {ps : List (Nat × Lexeme)}
    (h : lx.left = (start, l) :: ps) :
    lx.rest = (Token.ofLexeme start l :: lx.next.2.rest.1, lx.next.2.rest.2) := by
  rw [rest]
  split
  next t after hn =>
    have hk : (Token.ofLexeme start l).kind ≠ .endOfInput := (h ▸ lx.standing_left).2.2.1
    obtain rfl := token_of_left_cons h hn
    rw [if_neg hk, hn]

theorem rest_eq (lx : Lexer) : lx.rest.1 = lx.left.map fun p => Token.ofLexeme p.1 p.2 := by
  induction h : lx.left generalizing lx with
  | nil => rw [rest_of_left_nil h]; rfl
  | cons p ps ih =>
    rw [rest_of_left_cons h, ih _ (left_next_of_left_cons h)]
    rfl

theorem rest_lexemes (lx : Lexer) :
    lx.rest.1.map (·.lexeme lx.source) = lx.left.map Prod.snd := by
  rw [rest_eq, lx.standing_left.map_lexeme]

theorem source_rest (lx : Lexer) : lx.rest.2.source = lx.source := by
  induction h : lx.left generalizing lx with
  | nil => rw [rest_of_left_nil h, source_next]
  | cons p ps ih =>
    rw [rest_of_left_cons h, ih _ (left_next_of_left_cons h), source_next]

theorem source_bind (lx : Lexer) (source : Bytes) : (lx.bind source).source = source := by
  simp only [bind]
  split <;> rfl

theorem cursor_bind (lx : Lexer) (source : Bytes) : (lx.bind source).cursor = 0 := by
  simp only [bind]
  split <;> rfl

theorem left_of_cursor_zero {lx : Lexer} (h : lx.cursor = 0) :
    lx.left = Piece.place 0 (Piece.cut lx.source) := by
  rw [left, h]
  rfl

theorem left_bind (lx : Lexer) (source : Bytes) :
    (lx.bind source).left = Piece.place 0 (Piece.cut source) := by
  rw [left_of_cursor_zero (cursor_bind lx source), source_bind]

theorem rest_bind (lx : Lexer) (source : Bytes) : (lx.bind source).rest.1 = tokens source := by
  rw [rest_eq, left_bind]
  rfl

theorem tokenize_eq (lx : Lexer) : lx.tokenize.1 = allTokens lx.source := by
  have hleft := left_of_cursor_zero (show lx.reset.cursor = 0 from rfl)
  simp only [tokenize, rest_eq, hleft, source_rest]
  rfl

/-! ## Calls after a source has been bound -/

theorem next_cases {lx : Lexer} (h : lx.cursor ≤ lx.source.length) :
    (lx.left ≠ [] ∧ lx.next.1.kind ≠ .endOfInput ∧ lx.cursor ≤ lx.next.1.span.start ∧
      lx.next.1.span.start < lx.next.1.span.stop ∧ lx.next.1.span.stop ≤ lx.source.length ∧
      lx.next.2.cursor = lx.next.1.span.stop) ∨
    (lx.left = [] ∧ lx.next.1 = Token.endOfInput lx.source.length ∧
      lx.next.2 = { lx with cursor := lx.source.length }) := by
  cases hl : lx.left with
  | nil =>
    rw [next_of_left_nil hl, Nat.max_eq_right h]
    exact .inr ⟨rfl, rfl, rfl⟩
  | cons p ps =>
    have hs := hl ▸ lx.standing_left
    rw [next_of_left_cons hl]
    exact .inl ⟨by simp, hs.2.2.1, hs.bounds.1, hs.bounds.2.1, hs.bounds.2.2, rfl⟩

theorem nextMany_before {lx : Lexer} (h : lx.cursor ≤ lx.source.length) {k : Nat}
    (hk : k < lx.left.length) :
    let state := (nextMany k lx).2
    let span := state.next.1.span
    state.next.1.kind ≠ .endOfInput ∧ state.cursor ≤ span.start ∧ span.start < span.stop ∧
      span.stop ≤ lx.source.length ∧ (nextMany (k + 1) lx).2.cursor = span.stop := by
  intro state span
  have hstate : state.cursor ≤ state.source.length := by
    rw [source_nextMany]
    exact cursor_nextMany_le k h
  rcases next_cases hstate with ⟨-, h₁, h₂, h₃, h₄, h₅⟩ | ⟨hnil, -⟩
  · rw [source_nextMany] at h₄
    refine ⟨h₁, h₂, h₃, h₄, ?_⟩
    rw [nextMany_succ, h₅]
  · rw [left_nextMany, List.drop_eq_nil_iff] at hnil
    omega

theorem nextMany_after {lx : Lexer} (h : lx.cursor ≤ lx.source.length) {k : Nat}
    (hk : lx.left.length ≤ k) :
    (nextMany k lx).2.next.1 = Token.endOfInput lx.source.length ∧
      (nextMany (k + 1) lx).2 = { (nextMany k lx).2 with cursor := lx.source.length } := by
  have hstate : (nextMany k lx).2.cursor ≤ (nextMany k lx).2.source.length := by
    rw [source_nextMany]
    exact cursor_nextMany_le k h
  rcases next_cases hstate with ⟨hne, -⟩ | ⟨-, h₁, h₂⟩
  · rw [left_nextMany, List.drop_of_length_le hk] at hne
    exact absurd rfl hne
  · rw [nextMany_succ, ← source_nextMany k lx]
    exact ⟨h₁, h₂⟩

/-- **Tokenization is total and ordered.** After a source has been bound, the end of input comes
within one call more than the source has bytes. The tokens before it are not empty, lie in the source
one behind the other, and leave the cursor at their end. After it nothing changes any more. No call
makes the scanner look outside the source. -/
theorem next_reaches_end (lx : Lexer) (source : Bytes) :
    let state := fun k => (nextMany k (lx.bind source)).2
    let token := fun k => (state k).next.1
    ∃ n ≤ source.length,
      (∀ k < n, (token k).kind ≠ .endOfInput ∧ (state k).cursor ≤ (token k).span.start ∧
        (token k).span.start < (token k).span.stop ∧ (token k).span.stop ≤ source.length ∧
        (state (k + 1)).cursor = (token k).span.stop) ∧
      (∀ k, k + 1 < n → (token k).span.stop ≤ (token (k + 1)).span.start) ∧
      (∀ k, n ≤ k → token k = Token.endOfInput source.length) ∧
      (∀ k, n < k → state (k + 1) = state k) ∧
      (∀ k, (state k).cursor ≤ (state (k + 1)).cursor ∧ (state k).cursor ≤ source.length) ∧
      (∀ k, Cursor.next source (state k).cursor = .ok (token k, (state (k + 1)).cursor)) := by
  intro state token
  have hsource : ∀ k, (state k).source = source := fun k => by
    rw [source_nextMany, source_bind]
  have hzero : (lx.bind source).cursor ≤ (lx.bind source).source.length := by
    rw [cursor_bind]
    exact Nat.zero_le _
  have hcursor : ∀ k, (state k).cursor ≤ source.length := fun k => by
    rw [← source_bind lx source]
    exact cursor_nextMany_le k hzero
  have hsucc : ∀ k, state (k + 1) = (state k).next.2 := fun k => nextMany_succ k _
  have hbefore := fun k => nextMany_before hzero (k := k)
  have hafter := fun k => nextMany_after hzero (k := k)
  rw [source_bind] at hbefore hafter
  refine ⟨(lx.bind source).left.length, ?_, hbefore, ?_, fun k hk => (hafter k hk).1, ?_, ?_, ?_⟩
  · have hle := (lx.bind source).standing_left.length_le hzero
    rwa [source_bind, cursor_bind] at hle
  · intro k hk
    have h₁ := (hbefore k (by omega)).2.2.2.2
    have h₂ := (hbefore (k + 1) hk).2.1
    exact Nat.le_trans (Nat.le_of_eq h₁.symm) h₂
  · -- The first end of input may still move the cursor, over the last gap.
    intro k hk
    obtain ⟨j, rfl⟩ : ∃ j, k = j + 1 := ⟨k - 1, by omega⟩
    have h₁ : state (j + 1) = { state j with cursor := source.length } := (hafter j (by omega)).2
    have h₂ : state (j + 1 + 1) = { state (j + 1) with cursor := source.length } :=
      (hafter (j + 1) (by omega)).2
    rw [h₂, h₁]
  · intro k
    refine ⟨?_, hcursor k⟩
    rw [hsucc]
    exact (cursor_next_le _ (by rw [hsource]; exact hcursor k)).1
  · intro k
    rw [hsucc, ← hsource k]
    exact Cursor.next_eq (state k)

end Lexer

end SqlCanon
