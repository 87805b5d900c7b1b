import SqlCanon.Proofs.Lookahead
import SqlCanon.Proofs.Output

/-!
# Blanks and comments between lexemes

A blank leads no reader on, so behind a blank that stands alone the source is cut afresh. Blanks and closed
block comments put there are cut off in front of the rest and show nothing.
-/

namespace SqlCanon
open Byte
open Piece (ComesOff)

/-- Blanks and closed block comments in any order. -/
inductive Filler : Bytes → Prop
  | nil : Filler []
  | blank {b text} : isBlank b → Filler text → Filler (b :: text)
  | comment {body text} : ¬ [star, slash] <:+: body → Filler text →
      Filler (slash :: star :: (body ++ star :: slash :: text))

theorem Delimited.block_close {body : Bytes} (h : ¬ [star, slash] <:+: body) (rest : Bytes) :
    block (body ++ star :: slash :: rest) = body ++ [star, slash] := by
  induction body with
  | nil => rfl
  | cons b body ih =>
    have hopen : ¬ (b = star ∧ (body ++ star :: slash :: rest).head? = some slash) := by
      rintro ⟨rfl, hhead⟩
      cases body with
      | nil => exact absurd (Option.some.inj hhead) (by decide)
      | cons c body =>
        obtain rfl : c = slash := by simpa using hhead
        exact h (List.prefix_append [star, slash] body).isInfix
    rw [List.cons_append, block, if_neg hopen, ih fun hbody => h (List.infix_cons hbody),
      List.cons_append]

theorem Lexeme.front?_block {body : Bytes} (h : ¬ [star, slash] <:+: body) (rest : Bytes) :
    front? slash (star :: (body ++ star :: slash :: rest)) =
      some { kind := .comment, text := slash :: star :: (body ++ [star, slash]) } := by
  refine FrontCase.front?_eq (.comment rfl ?_)
  simp +decide [comment?, Delimited.block_close h]

theorem Filler.visible_append {text : Bytes} (h : Filler text) (rest : Bytes) :
    visible (text ++ rest) = visible rest := by
  induction h with
  | nil => rfl
  | @blank b text hb _ ih =>
    rw [List.cons_append, visible, lexemes_cons_of_none (Lexeme.FrontCase.blank hb).front?_eq]
    exact ih
  | @comment body text hbody _ ih =>
    have hfront := Lexeme.front?_block hbody (text ++ rest)
    have hsource : slash :: star :: (body ++ star :: slash :: text) ++ rest =
        slash :: (star :: (body ++ [star, slash]) ++ (text ++ rest)) := by simp
    have hrest : star :: (body ++ star :: slash :: (text ++ rest)) =
        star :: (body ++ [star, slash]) ++ (text ++ rest) := by simp
    rw [hrest] at hfront
    rw [hsource, visible, lexemes_append_of_some rfl hfront]
    exact ih

namespace Piece

theorem exists_gap_of_uncovered {offset n : Nat} {ps : List Piece} (hstart : offset ≤ n)
    (hstop : n < offset + (join ps).length)
    (h : ∀ q ∈ place offset ps, ¬ (q.1 ≤ n ∧ n < q.1 + q.2.text.length)) :
    ∃ front b back, ps = front ++ gap b :: back ∧ offset + (join front).length = n := by
  induction ps generalizing offset with
  | nil => exact absurd hstop (Nat.not_lt.2 hstart)
  | cons p ps ih =>
    rw [join_cons, List.length_append, ← Nat.add_assoc] at hstop
    cases p with
    | gap b =>
      by_cases hn : offset = n
      · exact ⟨[], b, ps, rfl, hn⟩
      · have hlater : offset + 1 ≤ n := Nat.lt_of_le_of_ne hstart hn
        obtain ⟨front, b', back, rfl, hlength⟩ := ih hlater hstop h
        refine ⟨gap b :: front, b', back, rfl, ?_⟩
        rw [join_cons, List.length_append, ← Nat.add_assoc]
        exact hlength
    | lexeme l =>
      have hlater : offset + l.text.length ≤ n :=
        Nat.le_of_not_lt fun hlt => h (offset, l) (List.mem_cons_self ..) ⟨hstart, hlt⟩
      obtain ⟨front, b', back, rfl, hlength⟩ :=
        ih hlater hstop fun q hq => h q (List.mem_cons_of_mem _ hq)
      refine ⟨lexeme l :: front, b', back, rfl, ?_⟩
      rw [join_cons, List.length_append, ← Nat.add_assoc]
      exact hlength

theorem comesOff_blank {b : UInt8} (hb : isBlank b) (tail : Bytes) : ComesOff (gap b) tail :=
  .gap (Lexeme.FrontCase.blank hb).front?_eq

theorem sight_blank {b : UInt8} (hb : isBlank b) (rest : Bytes) : sight (b :: rest) = [b] := by
  have key : ∀ b : UInt8, isBlank b → leadsOn b = false := forall_of_digits (by decide)
  exact sight_cons (key b hb) rest

/-- What is put behind a blank that no lexeme covers leaves the pieces up to the blank as they were. -/
theorem cut_behind_blank {source : Bytes} {b : UInt8} {front back : List Piece} (hb : isBlank b)
    (h : cut source = front ++ gap b :: back) (behind : Bytes) :
    cut (join front ++ b :: behind) = front ++ gap b :: cut behind := by
  have hloose := h ▸ loose_cut source
  have hsource : join front ++ b :: behind = join (front ++ gap b :: cut behind) := by
    rw [join_append, join_cons, join_cut]
    rfl
  rw [hsource]
  -- the pieces in front see the blank and nothing behind it
  refine cut_join_iff.2 (loose_append_of_sight hloose ⟨comesOff_blank hb _, loose_cut behind⟩ ?_)
  rw [join_cons, join_cons]
  exact (sight_blank hb _).trans (sight_blank hb _).symm

end Piece

theorem visible_behind_blank {source : Bytes} {b : UInt8} {front back : List Piece} (hb : isBlank b)
    (h : Piece.cut source = front ++ .gap b :: back) (behind : Bytes) :
    visible (Piece.join front ++ b :: behind) =
      (front.filterMap Piece.lexeme?).filter (·.kind != .comment) ++ visible behind := by
  rw [visible, lexemes, Piece.cut_behind_blank hb h, List.filterMap_append, List.filter_append]
  rfl

namespace Lexer

theorem exists_gap_of_rest {lx : Lexer} {source : Bytes} {n : Nat} {b : UInt8}
    (hb : source[n]? = some b)
    (h : ∀ t ∈ (lx.bind source).rest.1, ¬ (t.span.start ≤ n ∧ n < t.span.stop)) :
    ∃ front back, Piece.cut source = front ++ .gap b :: back ∧
      source.take (n + 1) = Piece.join front ++ [b] ∧ source.drop (n + 1) = Piece.join back := by
  have hstop : n < 0 + (Piece.join (Piece.cut source)).length := by
    rw [Piece.join_cut, Nat.zero_add]
    exact (List.getElem?_eq_some_iff.1 hb).1
  have huncovered : ∀ q ∈ Piece.place 0 (Piece.cut source),
      ¬ (q.1 ≤ n ∧ n < q.1 + q.2.text.length) := by
    intro q hq
    apply h (Token.ofLexeme q.1 q.2)
    rw [rest_bind]
    exact List.mem_map_of_mem hq
  obtain ⟨front, c, back, hcut, hn⟩ := Piece.exists_gap_of_uncovered (Nat.zero_le n) hstop huncovered
  rw [Nat.zero_add] at hn
  have hsource : source = Piece.join front ++ c :: Piece.join back := Piece.eq_join_append hcut
  obtain rfl : c = b := by
    rw [hsource, ← hn, List.getElem?_append_right (Nat.le_refl _), Nat.sub_self] at hb
    exact Option.some.inj hb
  obtain ⟨-, htake, hdrop⟩ := Piece.around hcut
  rw [hn] at htake hdrop
  exact ⟨front, back, hcut, htake, hdrop⟩

/-- **Fillers are unseen.** Blanks and closed block comments behind a blank that stands outside all tokens
leave the row of lexemes that are no comments as it was, and with it the outcome of every run. -/
theorem filler_unseen (lx fresh : Lexer) (source : Bytes) (n : Nat) (b : UInt8)
    (hb : source[n]? = some b) (hblank : isBlank b)
    (hgap : ∀ t ∈ (lx.bind source).rest.1, ¬ (t.span.start ≤ n ∧ n < t.span.stop))
    (filler : Bytes) (hfiller : Filler filler) :
    let source' := source.take (n + 1) ++ filler ++ source.drop (n + 1)
    ((fresh.bind source').rest.1.map (·.lexeme source')).filter (·.kind != .comment) =
        ((lx.bind source).rest.1.map (·.lexeme source)).filter (·.kind != .comment) ∧
      ∀ r : Rules, r.validate = .ok () → ∀ buffer,
        (fresh.normalize r source' buffer).1 = (lx.normalize r source buffer).1 := by
  intro source'
  obtain ⟨front, back, hcut, htake, hdrop⟩ := exists_gap_of_rest hb hgap
  have hsource : source = Piece.join front ++ b :: source.drop (n + 1) := by
    conv => lhs; rw [← List.take_append_drop (n + 1) source, htake, List.append_assoc]
    rfl
  have hfilled : source' = Piece.join front ++ b :: (filler ++ source.drop (n + 1)) := by
    simp only [source', htake, List.append_assoc, List.singleton_append]
  have hvisible : visible source' = visible source := by
    rw [hfilled, visible_behind_blank hblank hcut, hfiller.visible_append,
      ← visible_behind_blank hblank hcut, ← hsource]
  refine ⟨?_, fun r hr buffer => normalize_congr hr ?_ fresh lx buffer⟩
  · rw [map_lexeme_rest_bind, map_lexeme_rest_bind]
    exact hvisible
  · rw [r.text_eq_visible, r.text_eq_visible, hvisible]

theorem filler_unseen_newline :
    let source := Utf8.encode "0xA -- y\n-1"
    let filled := Utf8.encode "0xA -- y\n/* 'it*/ /* -- **/\t-1"
    ((({} : Lexer).bind filled).rest.1.map (·.lexeme filled)).filter (·.kind != .comment) =
        ((({} : Lexer).bind source).rest.1.map (·.lexeme source)).filter (·.kind != .comment) ∧
      ∀ buffer, (({} : Lexer).normalize {} filled buffer).1 =
        (({} : Lexer).normalize {} source buffer).1 := by
  intro source filled
  have hgap : ∀ t ∈ (({} : Lexer).bind source).rest.1, ¬ (t.span.start ≤ 8 ∧ 8 < t.span.stop) := by
    rw [rest_bind]
    decide
  have hfiller : Filler (Utf8.encode "/* 'it*/ /* -- **/\t") :=
    @Filler.comment (Utf8.encode " 'it") _ (by decide) <| .blank (by decide) <|
      @Filler.comment (Utf8.encode " -- *") _ (by decide) <| .blank (by decide) .nil
  obtain ⟨hlexemes, houtcome⟩ := filler_unseen {} {} source 8 newline (by decide)
    (by decide) hgap _ hfiller
  exact ⟨hlexemes, houtcome {} rfl⟩

end Lexer

end SqlCanon
