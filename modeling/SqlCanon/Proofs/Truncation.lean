import SqlCanon.Normalize
import SqlCanon.Proofs.Delivery

/-!
# Truncation of the output

A run of `Lexer.fill` writes what putting the whole output in at once would write, so a buffer that is
too small holds the front of the output and nothing else.
-/

namespace SqlCanon

theorem Piece.place_map_snd (n : Nat) (ps : List Piece) :
    (place n ps).map Prod.snd = ps.filterMap lexeme? := by
  induction ps generalizing n with
  | nil => rfl
  | cons p ps ih => cases p <;> simp [place, lexeme?, List.filterMap_cons, ih]

namespace Rules

theorem shown_flatten (r : Rules) (prev : Option Category) (l : Lexeme) :
    (r.shown prev l).flatten = (r.parts prev l).flatten.map (r.foldOf l.kind) := by
  rw [shown, List.map_flatten]

end Rules

namespace Lexer

theorem put_parts_mapFrom (r : Rules) (prev : Option Category) (l : Lexeme) (buf : Buffer) :
    ((buf.putAll (r.parts prev l)).1.mapFrom buf.written (r.foldOf l.kind),
      (buf.putAll (r.parts prev l)).2) = buf.put (r.shown prev l).flatten := by
  rw [Buffer.putAll_eq, Buffer.mapFrom_put, Rules.shown_flatten]

variable {lx : Lexer} {start : Nat} {l : Lexeme} {ps : List (Nat × Lexeme)}
  (r : Rules) (prev : Option Category) (buf : Buffer)

theorem fill_of_left_nil (h : lx.left = []) : lx.fill r prev buf = ⟨buf, lx.next.2, true⟩ := by
  rw [fill]
  split
  next t after hn => rw [if_pos (kind_of_left_nil h hn), hn]

theorem fill_of_comment (h : lx.left = (start, l) :: ps) (hc : l.kind = .comment) :
    lx.fill r prev buf = lx.next.2.fill r prev buf := by
  rw [fill]
  split
  next t after hn =>
    have hk : (Token.ofLexeme start l).kind ≠ .endOfInput := (h ▸ lx.standing_left).2.2.1
    obtain rfl := token_of_left_cons h hn
    rw [if_neg hk, Token.toCategory_ofLexeme, if_pos hc, hn]

/-- A lexeme goes in as its separator and its own bytes in a row would. If they fit, the run goes on
behind them, else it ends. -/
theorem fill_of_lexeme (h : lx.left = (start, l) :: ps) (hc : l.kind ≠ .comment) :
    lx.fill r prev buf =
      match buf.put (r.added prev l) with
      | (filled, true) => lx.next.2.fill r (some l.toCategory) filled
      | (filled, false) => ⟨filled, lx.next.2, false⟩ := by
  have hs := h ▸ lx.standing_left
  rw [fill]
  split
  next t after hn =>
  obtain rfl := token_of_left_cons h hn
  rw [hs.slice_eq, Token.toCategory_ofLexeme, if_neg hs.2.2.1, if_neg hc, hn, Rules.added,
    Buffer.put_append]
  cases hsep : buf.put (r.separator prev l.toCategory) with
  | mk spaced fits =>
  cases fits with
  | false => rfl
  | true =>
    simp only [if_true]
    rw [← put_parts_mapFrom]
    cases spaced.putAll (r.parts prev l) with
    | mk shown fits => cases fits <;> rfl

theorem fill_eq (lx : Lexer) :
    ((lx.fill r prev buf).buffer, (lx.fill r prev buf).complete) =
      buf.put (r.textAfter prev (lx.left.map Prod.snd)) := by
  induction h : lx.left generalizing lx prev buf with
  | nil =>
    rw [fill_of_left_nil r prev buf h]
    simp [Rules.textAfter, Buffer.put_eq]
  | cons p ps ih =>
    obtain ⟨start, l⟩ := p
    have htail := left_next_of_left_cons h
    rw [List.map_cons, Rules.textAfter]
    by_cases hc : l.kind = .comment
    · rw [if_pos hc, fill_of_comment r prev buf h hc]
      exact ih prev buf _ htail
    · rw [if_neg hc, fill_of_lexeme r prev buf h hc, Buffer.put_append]
      cases buf.put (r.added prev l) with
      | mk filled fits =>
      cases fits with
      | false => rfl
      | true => exact ih (some l.toCategory) filled _ htail

theorem bind_left_lexemes (source : Bytes) :
    (lx.bind source).left.map Prod.snd = lexemes source := by
  rw [left_bind, Piece.place_map_snd]
  rfl

theorem reset_bind (source : Bytes) : (lx.bind source).reset = lx.bind source := by
  have h := cursor_bind lx source
  cases hb : lx.bind source
  rw [hb] at h
  cases h
  rfl

theorem normalize_eq (lx : Lexer) (hr : r.validate = .ok ()) (source buffer : Bytes) :
    (lx.normalize r source buffer).1 =
      { buffer := (r.text source).take buffer.length ++ buffer.drop (r.text source).length
        written := min buffer.length (r.text source).length
        result :=
          if (r.text source).length ≤ buffer.length then .ok ()
          else .error (.bufferTooSmall buffer.length buffer.length) } := by
  have hf := fill_eq r none (Buffer.ofBytes buffer) (lx.bind source)
  rw [bind_left_lexemes, ← Rules.text, Buffer.put_eq] at hf
  simp only [Prod.mk.injEq] at hf
  obtain ⟨hb, hc⟩ := hf
  simp only [normalize, hr, reset_bind, hb, hc]
  by_cases hle : (r.text source).length ≤ buffer.length
  · simp [hle, Buffer.ofBytes, Buffer.toBytes, Buffer.written]
  · simp [hle, Buffer.ofBytes, Buffer.toBytes, Buffer.written]
    omega

theorem output_normalize (lx : Lexer) (hr : r.validate = .ok ()) (source buffer : Bytes) :
    (lx.normalize r source buffer).1.output = (r.text source).take buffer.length := by
  rw [normalize_eq r lx hr]
  exact List.take_left' List.length_take

theorem length_buffer_normalize (lx : Lexer) (hr : r.validate = .ok ()) (source buffer : Bytes) :
    (lx.normalize r source buffer).1.buffer.length = buffer.length := by
  rw [normalize_eq r lx hr, List.length_append, List.length_take, List.length_drop]
  omega

theorem textAfter_rest_bind (lx : Lexer) (source : Bytes) :
    r.textAfter none ((lx.bind source).rest.1.map (·.lexeme source)) = r.text source := by
  have hrest := rest_lexemes (lx.bind source)
  rw [source_bind, bind_left_lexemes] at hrest
  rw [hrest]
  rfl

/-- **Truncation.** The whole output is read off the tokens a lexer delivers. The front of it that fits
is written, the rest of the buffer keeps its bytes, and a run succeeds just when all of it fits. -/
theorem normalize_truncates (lx : Lexer) (r : Rules) (source buffer : Bytes)
    (hr : r.validate = .ok ()) :
    let full := r.text source
    let o := (lx.normalize r source buffer).1
    full = r.textAfter none ((lx.bind source).rest.1.map (·.lexeme source)) ∧
      o.written = min buffer.length full.length ∧
      o.output = full.take o.written ∧
      o.buffer.drop o.written = buffer.drop o.written ∧
      o.buffer.length = buffer.length ∧
      (o.result = .ok () ↔ full.length ≤ buffer.length) ∧
      (buffer.length < full.length →
        o.result = .error (.bufferTooSmall buffer.length buffer.length)) := by
  intro full o
  have ho : o =
      { buffer := full.take buffer.length ++ buffer.drop full.length
        written := min buffer.length full.length
        result :=
          if full.length ≤ buffer.length then .ok ()
          else .error (.bufferTooSmall buffer.length buffer.length) } :=
    normalize_eq r lx hr source buffer
  have hfront : (full.take buffer.length).length = min buffer.length full.length :=
    List.length_take
  rw [Outcome.output, ho]
  refine ⟨(textAfter_rest_bind r lx source).symm, rfl, (List.take_left' hfront).trans List.take_eq_take_min, ?_, ?_, ?_, ?_⟩
  · refine (List.drop_left' hfront).trans ?_
    by_cases hle : full.length ≤ buffer.length
    · rw [Nat.min_eq_right hle]
    · rw [Nat.min_eq_left (by omega), List.drop_length, List.drop_of_length_le (by omega)]
  · rw [List.length_append, hfront, List.length_drop]
    omega
  · by_cases hle : full.length ≤ buffer.length <;> simp [hle]
  · intro hlt
    exact if_neg (by omega)

theorem normalize_truncates_in_word :
    ({ keywordCase := .lower } : Rules).validate = .ok () ∧
      let o := (({} : Lexer).normalize { keywordCase := .lower } (Utf8.encode "WHERE a") [0, 0, 0]).1
      o.output = Utf8.encode "whe" ∧ o.result = .error (.bufferTooSmall 3 3) := by
  obtain ⟨-, hwritten, houtput, -, -, -, hresult⟩ :=
    normalize_truncates {} { keywordCase := .lower } (Utf8.encode "WHERE a") [0, 0, 0] rfl
  refine ⟨rfl, houtput.trans ?_, hresult (by decide +kernel)⟩
  rw [hwritten]
  decide +kernel

end Lexer

end SqlCanon
