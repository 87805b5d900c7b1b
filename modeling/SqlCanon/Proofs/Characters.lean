import SqlCanon.Proofs.Growth
import SqlCanon.Proofs.LetterCase
import SqlCanon.Proofs.Utf8

/-!
# Characters

Where a lexeme begins or ends, a byte of ASCII stands on one side at least. So the lexemes of a text
are texts, and so is its output under all rules.
-/

namespace SqlCanon
open Byte Utf8

/-! ## Lexemes end at seams -/

theorem Utf8.Seam.cons {b : UInt8} {front back : Bytes} (h : Seam front back) (hne : front ≠ []) :
    Seam (b :: front) back := by
  refine h.imp_left fun h c hc => h c ?_
  rwa [List.getLast?_cons_of_ne_nil hne] at hc

theorem seam_of_ascii {front back : Bytes} (h : ∀ b ∈ front, b < 0x80) : Seam front back :=
  .inl fun b hb => h b (List.mem_of_getLast? hb)

theorem seam_of_byte {b : UInt8} (hb : b < 0x80) (tail : Bytes) : Seam [b] tail :=
  seam_of_ascii (List.forall_mem_singleton.2 hb)

theorem seam_of_closed {q : UInt8} (hq : q < 0x80) {b : UInt8} {body tail : Bytes}
    (h : Delimited.Closed q body (body ++ tail)) : Seam (b :: body) tail := by
  rcases h with h | h
  · have htail : tail = [] := by simpa using h
    exact .inr (by simp [htail])
  · left
    rw [List.getLast?_cons, h]
    simpa using hq

theorem seam_of_takeWhile {p : UInt8 → Bool} (hp : ∀ b, p b = false → b < 0x80)
    {front body tail : Bytes} (h : (body ++ tail).takeWhile p = body) : Seam front tail :=
  .inr fun c hc => hp c ((takeWhile_append_iff.1 h).2 c hc)

theorem ascii_of_not_wordPart {b : UInt8} (h : isWordPart b = false) : b < 0x80 := by
  rw [← UInt8.not_le]
  intro hb
  simp [isWordPart, isWordStart, hb] at h

theorem ascii_of_line {b : UInt8} (h : (b != newline) = false) : b < 0x80 := by
  obtain rfl : b = newline := by simpa using h
  exact ascii_of_not_wordPart rfl

theorem ascii_of_not_blobPart {b : UInt8} (h : Lexeme.isBlobPart b = false) : b < 0x80 := by
  refine ascii_of_not_wordPart (Bool.eq_false_iff.2 fun hb => ?_)
  have hne : ∀ c, isWordPart c = false → b ≠ c := fun c hc => ne_of_class hb hc
  simp [Lexeme.isBlobPart, isBlank, hne space rfl, hne tab rfl, hne newline rfl,
    hne carriageReturn rfl, hne openParen rfl, hne closeParen rfl, hne comma rfl] at h

theorem ascii_of_numberPart : ∀ b : UInt8, Number.isPart b → b < 0x80 :=
  forall_of_digits (by decide)

theorem ascii_of_operator : ∀ op ∈ Operator.all, ∀ b ∈ op, b < 0x80 := by decide +kernel

theorem ascii_of_startsNothing {b : UInt8} {next : Option UInt8}
    (h : Lexeme.StartsNothing b next) : b < 0x80 := by
  have key : ∀ b : UInt8, (isBlank b ∨ isControl b ∨ b ∈ Lexeme.idle ∨ b = colon) → b < 0x80 :=
    forall_of_digits (by decide)
  exact key b (h.imp_right (Or.imp_right (Or.imp_right And.left)))

namespace Lexeme
variable {b : UInt8} {body tail : Bytes}

theorem seam_of_comment (h : comment? b (body ++ tail) = some body) : Seam (b :: body) tail := by
  unfold comment? at h
  split at h
  · exact seam_of_takeWhile (fun _ => ascii_of_line) (Option.some.inj h)
  split at h
  · exact seam_of_takeWhile (fun _ => ascii_of_line) (Option.some.inj h)
  split at h
  · next hslash =>
    obtain ⟨inner, rfl, hinner⟩ := (opened_iff hslash.2).1 (Option.some.inj h)
    have hclosed := Delimited.block_closed (inner ++ tail)
    rw [hinner] at hclosed
    exact seam_of_closed (ascii_of_not_wordPart rfl) (hclosed.cons star)
  · cases h

theorem seam_of_literal (h : literal? b (body ++ tail) = some body) : Seam (b :: body) tail := by
  cases literalCase h with
  | string hq hs =>
    have hclosed := Delimited.string_closed b (body ++ tail)
    rw [hs] at hclosed
    have hascii : b < 0x80 := by rcases hq with rfl | rfl <;> exact ascii_of_not_wordPart rfl
    exact seam_of_closed hascii hclosed
  | @quoted inner _ hbody hinner =>
    subst hbody
    have hclosed := Delimited.through_closed quote (inner ++ tail)
    rw [hinner] at hclosed
    exact seam_of_closed (ascii_of_not_wordPart rfl) (hclosed.cons quote)
  | blob _ _ _ hinner => exact seam_of_takeWhile (fun _ => ascii_of_not_blobPart) hinner
  | number hfirst _ htail =>
    refine seam_of_ascii (List.forall_mem_cons.2 ⟨?_, fun c hc => ?_⟩)
    · refine ascii_of_numberPart b ?_
      rcases hfirst with h | ⟨rfl | rfl | rfl, -⟩
      · simp [Number.isPart, h]
      all_goals rfl
    · rw [← htail] at hc
      exact ascii_of_numberPart c (Number.isPart_of_mem_tail c hc)

theorem seam_of_front? {l : Lexeme} (hl : l.text = b :: body)
    (h : front? b (body ++ tail) = some l) : Seam l.text tail := by
  cases front?_cases h with
  | star hb => exact seam_of_byte (hb ▸ ascii_of_not_wordPart rfl) tail
  | comma hb => exact seam_of_byte (hb ▸ ascii_of_not_wordPart rfl) tail
  | openParen hb => exact seam_of_byte (hb ▸ ascii_of_not_wordPart rfl) tail
  | closeParen hb => exact seam_of_byte (hb ▸ ascii_of_not_wordPart rfl) tail
  | dot hb => exact seam_of_byte (hb ▸ ascii_of_not_wordPart rfl) tail
  | comment _ hc =>
    obtain rfl := (List.cons.inj hl).2
    exact seam_of_comment hc
  | literal _ _ hlit =>
    obtain rfl := (List.cons.inj hl).2
    exact seam_of_literal hlit
  | name =>
    have hname := (List.cons.inj hl).2
    have hclosed := Delimited.name_closed (body ++ tail)
    rw [hname] at hclosed
    dsimp only
    rw [hname]
    exact seam_of_closed (ascii_of_not_wordPart rfl) hclosed
  | word => exact seam_of_takeWhile (fun _ => ascii_of_not_wordPart) (List.cons.inj hl).2
  | operator _ _ _ _ hop => exact seam_of_ascii (ascii_of_operator _ (Operator.mem_all_of_front? hop))

theorem isText_of_front? {l : Lexeme} (hl : l.text = b :: body)
    (h : front? b (body ++ tail) = some l) (htext : IsText (b :: (body ++ tail))) :
    IsText l.text ∧ IsText tail :=
  IsText.split (by rwa [hl, List.cons_append]) (seam_of_front? hl h)

theorem isText_of_front?_none {rest : Bytes} (h : front? b rest = none)
    (htext : IsText (b :: rest)) : IsText [b] ∧ IsText rest := by
  have hseam : Seam [b] rest :=
    seam_of_byte (ascii_of_startsNothing (startsNothing_of_front?_eq_none h)) rest
  exact IsText.split htext hseam

end Lexeme

/-! ## The lexemes of a text -/

theorem boundaries_of_place {s : String} {front bs : Bytes} (hs : encode s = front ++ bs)
    (hfront : IsText front) (hbs : IsText bs) :
    ∀ p ∈ Piece.place front.length (Piece.cut bs),
      IsBoundary s p.1 ∧ IsBoundary s (p.1 + p.2.text.length) ∧ IsText p.2.text := by
  induction bs using Piece.cut_induction generalizing front with
  | nil => intro p hp; cases hp
  | gap b rest hf ih =>
    obtain ⟨hb, hrest⟩ := Lexeme.isText_of_front?_none hf hbs
    have hsplit : encode s = (front ++ [b]) ++ rest := by simpa using hs
    rw [Piece.place_cut_cons_of_none hf]
    have hstep := ih hsplit (hfront.append hb) hrest
    rwa [List.length_append, List.length_singleton] at hstep
  | lexeme b body tail l hl hf ih =>
    obtain ⟨htext, htail⟩ := Lexeme.isText_of_front? hl hf hbs
    have hsplit : encode s = (front ++ l.text) ++ tail := by simpa [hl] using hs
    have hbehind := hfront.append htext
    rw [Piece.place_cut_append_of_some hl hf, List.forall_mem_cons]
    have hstep := ih hsplit hbehind htail
    have hstop := isBoundary_of_split hsplit hbehind htail
    rw [List.length_append] at hstep hstop
    exact ⟨⟨isBoundary_of_split hs hfront hbs, hstop, htext⟩, hstep⟩

theorem isText_of_mem_lexemes {source : Bytes} (h : IsText source) :
    ∀ l ∈ lexemes source, IsText l.text := by
  obtain ⟨s, rfl⟩ := h
  rw [lexemes, ← Piece.place_map_snd 0]
  intro l hl
  obtain ⟨p, hp, rfl⟩ := List.mem_map.1 hl
  exact (boundaries_of_place (List.nil_append _).symm isText_nil ⟨s, rfl⟩ p hp).2.2

theorem Standing.slice_of_mem {source : Bytes} {offset : Nat} {ps : List (Nat × Lexeme)}
    (h : Standing source offset ps) :
    ∀ p ∈ ps, (Token.ofLexeme p.1 p.2).lexeme source = p.2 := by
  induction ps generalizing offset with
  | nil => intro p hp; cases hp
  | cons p ps ih => exact List.forall_mem_cons.2 ⟨h.slice_eq, ih h.2.2.2.2⟩

theorem boundaries_of_mem_allTokens {s : String} {t : Token} (ht : t ∈ allTokens (encode s)) :
    IsBoundary s t.span.start ∧ IsBoundary s t.span.stop ∧ IsText (t.lexeme (encode s)).text := by
  have hs : IsText (encode s) := ⟨s, rfl⟩
  rcases List.mem_append.1 ht with ht | ht
  · obtain ⟨p, hp, rfl⟩ := List.mem_map.1 ht
    have hstand : Standing (encode s) 0 (Piece.place 0 (Piece.cut (encode s))) :=
      Standing.place_cut rfl
    have hslice := hstand.slice_of_mem p hp
    obtain ⟨hstart, hstop, htext⟩ :=
      boundaries_of_place (List.nil_append _).symm isText_nil hs p hp
    rw [← hslice] at htext
    exact ⟨hstart, hstop, htext⟩
  · obtain rfl := List.mem_singleton.1 ht
    have hend : IsBoundary s (encode s).length :=
      isBoundary_of_split (List.append_nil _).symm hs isText_nil
    have hslice : Span.slice ⟨(encode s).length, (encode s).length⟩ (encode s) = [] := by
      rw [Span.slice_of_le (Nat.le_refl _) (Nat.le_refl _), Nat.sub_self, List.take_zero]
    exact ⟨hend, hend, "", hslice⟩

/-! ## The output for a text -/

theorem Lexeme.text_of_isQuoted {l : Lexeme} (h : l.isQuoted) :
    l.text = backtick :: (l.text.tail.dropLast ++ [backtick]) := by
  simp only [isQuoted, Bool.and_eq_true, decide_eq_true_eq, beq_iff_eq] at h
  obtain ⟨⟨hlen, hhead⟩, hlast⟩ := h
  obtain ⟨rest, hrest⟩ := List.head?_eq_some_iff.1 hhead
  rw [hrest] at hlen hlast ⊢
  have hne : rest ≠ [] := by
    rintro rfl
    simp at hlen
  rw [List.getLast?_cons_of_ne_nil hne, List.getLast?_eq_some_getLast hne, Option.some.injEq] at hlast
  have hrest := List.dropLast_concat_getLast hne
  rw [hlast] at hrest
  rw [List.tail_cons, hrest]

theorem isText_of_isQuoted {l : Lexeme} (hq : l.isQuoted) (h : IsText l.text) :
    IsText l.text.tail.dropLast := by
  rw [l.text_of_isQuoted hq] at h
  have hopen : Seam [backtick] (l.text.tail.dropLast ++ [backtick]) :=
    seam_of_byte (ascii_of_not_wordPart rfl) _
  have hclose : Seam l.text.tail.dropLast [backtick] :=
    .inr fun b hb => ascii_of_not_wordPart (Option.some.inj hb ▸ rfl)
  exact ((IsText.split h hopen).2.split hclose).1

theorem KeywordCase.fixesHigh (c : KeywordCase) : FixesHigh c.fold where
  low b hb := by
    rcases c.fold_cases b with h | ⟨-, h⟩
    · rwa [h]
    · exact (of_isLetter _ h).2.2
  high b hb := c.fold_of_not_letter <| Bool.eq_false_iff.2 fun h =>
    absurd (of_isLetter b h).2.2 (UInt8.not_lt.2 hb)

namespace Rules
variable (r : Rules)

theorem foldOf_fixesHigh (k : Kind) : FixesHigh (r.foldOf k) := by
  unfold foldOf
  split
  · exact r.keywordCase.fixesHigh
  · exact ⟨fun _ hb => hb, fun _ _ => rfl⟩

theorem isText_parts {l : Lexeme} (h : IsText l.text) (prev : Option Category) :
    ∀ p ∈ r.parts prev l, IsText p := by
  have htick : IsText [backtick] := isText_singleton (ascii_of_not_wordPart rfl)
  unfold parts
  split
  · exact List.forall_mem_singleton.2 (isText_singleton (ascii_of_not_wordPart rfl))
  split
  · split
    · simp only [List.forall_mem_cons]
      exact ⟨htick, h, htick, by simp⟩
    split
    · next hq =>
      rw [Bool.and_eq_true] at hq
      exact List.forall_mem_singleton.2 (isText_of_isQuoted hq.2 h)
    · exact List.forall_mem_singleton.2 h
  · exact List.forall_mem_singleton.2 h

theorem isText_separator (prev : Option Category) (c : Category) : IsText (r.separator prev c) := by
  unfold separator
  split
  · exact isText_singleton (ascii_of_not_wordPart rfl)
  · exact isText_nil

theorem isText_added {l : Lexeme} (h : IsText l.text) (prev : Option Category) :
    IsText (r.added prev l) := by
  rw [added, shown_flatten]
  exact (r.isText_separator _ _).append
    ((isText_flatten (r.isText_parts h prev)).map (r.foldOf_fixesHigh _))

theorem isText_textAfter {ls : List Lexeme} (h : ∀ l ∈ ls, IsText l.text)
    (prev : Option Category) : IsText (r.textAfter prev ls) := by
  induction ls generalizing prev with
  | nil => exact isText_nil
  | cons l ls ih =>
    have ih' := ih fun m hm => h m (List.mem_cons_of_mem _ hm)
    rw [textAfter]
    split
    · exact ih' prev
    · exact (r.isText_added (h l List.mem_cons_self) prev).append (ih' _)

theorem isText_text {source : Bytes} (h : IsText source) : IsText (r.text source) :=
  r.isText_textAfter (isText_of_mem_lexemes h) none

end Rules

namespace Lexer

theorem eq_lossy_of_grow {r : Rules} (hr : r.validate = .ok ()) {source : Bytes} {text : String}
    {lx : Lexer} {capacity : Nat} {pos : 0 < capacity}
    (h : (lx.grow r source capacity pos).1 = .ok text) : text = lossy (r.text source) := by
  -- every growth leaves less room below the limit
  induction hn : maximumBuffer - capacity using Nat.strongRecOn generalizing lx capacity with
  | _ n ih =>
    have hout : (lx.normalize r source (List.replicate capacity 0)).1.result = .ok () → _ :=
      output_of_ok hr
    rw [grow] at h
    generalize lx.normalize r source (List.replicate capacity 0) = run at h hout
    obtain ⟨o, last⟩ := run
    dsimp only at h hout
    cases hres : o.result with
    | ok u =>
      rw [hres] at h hout
      rw [← hout rfl]
      exact (Except.ok.inj h).symm
    | error fault =>
      rw [hres] at h
      dsimp only at h
      split at h
      · exact ih _ (by omega) h rfl
      · cases h

/-- **Text stays text.** Every token of a text begins and ends between characters, and its lexeme is a
text. Under rules that go together the whole output is a text as well, so showing lexemes or output
as text replaces no byte, and the text that a run returns has the bytes of the output. -/
theorem text_preserved (lx : Lexer) (r : Rules) (hr : r.validate = .ok ()) (s : String) :
    let source := encode s
    (∀ t ∈ (lx.bind source).tokenize.1,
      IsBoundary s t.span.start ∧ IsBoundary s t.span.stop ∧
        text? (t.lexeme source).text = some (lossy (t.lexeme source).text) ∧
        encode (lossy (t.lexeme source).text) = (t.lexeme source).text) ∧
      (∀ buffer, (lx.normalize r source buffer).1.result = .ok () →
        let out := (lx.normalize r source buffer).1.output
        out = r.text source ∧ text? out = some (lossy out) ∧ encode (lossy out) = out) ∧
      (∀ initial text, (lx.normalizeText r source initial).1 = .ok text →
        encode text = r.text source) ∧
      (∀ initial, (r.text source).length ≤ maximumBuffer →
        ∃ text, (lx.normalizeText r source initial).1 = .ok text) := by
  intro source
  have hsource : IsText source := ⟨s, rfl⟩
  have hout := (r.isText_text hsource).lossy_eq
  refine ⟨fun t ht => ?_, fun buffer hok => ?_, fun initial text hok => ?_, fun initial hfit => ?_⟩
  · rw [tokenize_eq, source_bind] at ht
    obtain ⟨hstart, hstop, hlexeme⟩ := boundaries_of_mem_allTokens ht
    exact ⟨hstart, hstop, hlexeme.lossy_eq⟩
  · rw [output_of_ok hr hok]
    exact ⟨rfl, hout⟩
  · rw [eq_lossy_of_grow hr hok]
    exact hout.2
  · exact ⟨_, grow_eq hr hfit _ _ _⟩

theorem text_preserved_unquoted :
    ({ stripBackticks := true } : Rules).validate = .ok () ∧
      ∃ text, (({} : Lexer).normalizeText { stripBackticks := true } (encode "ë.`é`, 'ü") 1).1 =
        .ok text ∧ encode text = encode "ë.é, 'ü" := by
  have key : (({ stripBackticks := true } : Rules).text (encode "ë.`é`, 'ü")).length ≤ maximumBuffer ∧
      ({ stripBackticks := true } : Rules).text (encode "ë.`é`, 'ü") = encode "ë.é, 'ü" := by
    decide +kernel
  obtain ⟨-, -, hbytes, hfit⟩ :=
    text_preserved {} { stripBackticks := true } rfl "ë.`é`, 'ü"
  obtain ⟨text, htext⟩ := hfit 1 key.1
  exact ⟨rfl, text, htext, (hbytes 1 text htext).trans key.2⟩

end Lexer

end SqlCanon
