import SqlCanon.Proofs.Characters
import SqlCanon.Proofs.Readback

/-!
# Fingerprints of fingerprints

The placeholders of a fingerprint start no lexeme, so a second pass drops them. All else of it is shown
again as it was, as long as what lost its backticks is a plain word. A name that was cut off behind a doubled
backtick loses two bytes as well, and what is left of it is none.
-/

namespace SqlCanon
open Byte

namespace Lexeme

theorem not_isQuoted_of_isPlain {word : Bytes} (h : isPlain word) : (ofWord word).isQuoted = false := by
  obtain ⟨b, hb, hstart⟩ := (Option.any_eq_true _ _).1 (Bool.and_eq_true_iff.1 h).1
  have hne : b ≠ backtick := ne_of_class hstart rfl
  simp [isQuoted, ofWord, hb, hne]

end Lexeme

namespace Rules

theorem piece_of_literal {l : Lexeme} (h : l.kind = .literal) :
    canonical.piece l = .gap question := by
  simp [piece, canonical, h]

theorem exists_sameShape {l : Lexeme} (hlit : l.kind ≠ .literal)
    (hquoted : l.isQuoted → l.kind = .keyword ∧ l.attrs = {})
    (hplain : l.isQuoted → Lexeme.isPlain l.bare) :
    ∃ m, canonical.piece l = .lexeme m ∧ Lexeme.SameShape l m := by
  have hlower : ∀ bs : Bytes, (bs.map toLower).map toLower = bs.map toLower :=
    KeywordCase.map_fold_fold .lower
  cases hq : l.isQuoted with
  | true =>
    obtain ⟨hkey, -⟩ := hquoted hq
    have hword : Lexeme.isPlain (l.bare.map toLower) := Lexeme.isPlain_map .lower (hplain hq)
    refine ⟨Lexeme.ofWord (l.bare.map toLower), by simp [piece, canonical, hlit, hq]; rfl, hkey,
      fun _ h => absurd hkey h, fun _ => ?_⟩
    rw [Lexeme.bare_of_not_isQuoted (Lexeme.not_isQuoted_of_isPlain hword)]
    exact (hlower _).symm
  | false =>
    have hq' : (l.inCase .lower).isQuoted = false := (l.isQuoted_inCase .lower).trans hq
    refine ⟨l.inCase .lower, by simp [piece, canonical, hlit, hq], ?_, fun _ hkey => ?_, fun hkey => ?_⟩
    · exact (congrArg Category.kind (Lexeme.toCategory_inCase .lower l)).symm
    · rw [Lexeme.inCase, if_neg hkey]
    · rw [Lexeme.bare_of_not_isQuoted hq, Lexeme.bare_of_not_isQuoted hq', Lexeme.inCase, if_pos hkey]
      exact (hlower _).symm

theorem sameShape_filterMap_piece {ls : List Lexeme}
    (hquoted : ∀ l ∈ ls, l.isQuoted → l.kind = .keyword ∧ l.attrs = {})
    (hplain : ∀ l ∈ ls, l.isQuoted → Lexeme.isPlain l.bare) :
    List.Forall₂ Lexeme.SameShape (ls.filter (·.kind != .literal))
      (ls.filterMap fun l => (canonical.piece l).lexeme?) := by
  induction ls with
  | nil => exact .nil
  | cons l ls ih =>
    rw [List.forall_mem_cons] at hquoted hplain
    have hrest := ih hquoted.2 hplain.2
    by_cases hlit : l.kind = .literal
    · simpa [hlit, piece_of_literal hlit, Piece.lexeme?] using hrest
    · obtain ⟨m, hm, hshape⟩ := exists_sameShape hlit hquoted.1 hplain.1
      simpa [hlit, hm, Piece.lexeme?] using List.Forall₂.cons hshape hrest

section
variable {source : Bytes}

theorem text_text_canonical (hplain : ∀ l ∈ visible source, l.isQuoted → Lexeme.isPlain l.bare) :
    canonical.text (canonical.text source) =
      canonical.textAfter none ((visible source).filter (·.kind != .literal)) := by
  have hcut := cut_text canonical_validate rfl (apart_of_redacted rfl fun _ => hplain)
  have hlexemes : lexemes (canonical.text source) =
      (visible source).filterMap fun l => (canonical.piece l).lexeme? := by
    rw [lexemes, hcut, filterMap_row]
  have hshape := sameShape_filterMap_piece quoted_of_mem_visible hplain
  rw [← hlexemes] at hshape
  exact (textAfter_canonical hshape (fun l hl => quoted_of_mem_visible l (List.mem_filter.1 hl).1)
    quoted_of_mem_lexemes rfl).symm

/-- Every literal is one placeholder in the output, and nothing else in it changes their number. -/
theorem count_textAfter {ls : List Lexeme} (hcomment : ∀ l ∈ ls, l.kind ≠ .comment)
    (hquoted : ∀ l ∈ ls, l.isQuoted → l.kind = .keyword ∧ l.attrs = {}) (p q : Option Category) :
    (canonical.textAfter p (ls.filter (·.kind != .literal))).count question +
        ls.countP (·.kind == .literal) =
      (canonical.textAfter q ls).count question := by
  have hseparator : ∀ p c, (canonical.separator p c).count question = 0 := fun p c => by
    unfold separator
    split <;> rfl
  induction ls generalizing p q with
  | nil => rfl
  | cons l ls ih =>
    rw [List.forall_mem_cons] at hcomment hquoted
    have hrest := ih hcomment.2 hquoted.2
    rw [textAfter, if_neg hcomment.1, added, List.count_append, List.count_append, hseparator,
      shown_canonical hquoted.1, Lexeme.canonical]
    by_cases hlit : l.kind = .literal
    · -- the left side leaves the literal out, so the lexeme before it stays the last one there
      have hthis := hrest p (some l.toCategory)
      rw [List.filter_cons_of_neg (by simp [hlit]), List.countP_cons_of_pos (by simp [hlit]),
        if_pos hlit, List.count_singleton_self]
      omega
    · have hthis := hrest (some l.toCategory) (some l.toCategory)
      rw [List.filter_cons_of_pos (by simp [hlit]), List.countP_cons_of_neg (by simp [hlit]), textAfter,
        if_neg hcomment.1, added, List.count_append, List.count_append, hseparator,
        shown_canonical hquoted.1, Lexeme.canonical]
      omega

theorem text_text_canonical_iff
    (hplain : ∀ l ∈ visible source, l.isQuoted → Lexeme.isPlain l.bare) :
    canonical.text (canonical.text source) = canonical.text source ↔
      ∀ l ∈ visible source, l.kind ≠ .literal := by
  rw [text_text_canonical hplain, text_eq_visible]
  constructor
  · intro h
    have hcomment : ∀ l ∈ visible source, l.kind ≠ .comment := fun l hl => by
      simpa using (List.mem_filter.1 hl).2
    have hcount := count_textAfter hcomment quoted_of_mem_visible none none
    rw [h, Nat.add_eq_left, List.countP_eq_zero] at hcount
    exact fun l hl hlit => hcount l hl (by simp [hlit])
  · intro h
    rw [List.filter_eq_self.2 fun l hl => by simpa using h l hl]

end

end Rules

namespace Fingerprinter

/-- **Fingerprints of fingerprints.** If every lexeme that begins and ends with a backtick, closed or cut off
behind a doubled one, is a plain word without the two, the fingerprint of a fingerprint shows the lexemes of
the statement without the literals, so it is the same fingerprint just when there are none. -/
theorem fingerprint_fingerprint (f g : Fingerprinter) (hf : f.rules = Rules.canonical)
    (hg : g.rules = Rules.canonical) (before before' : List String) (s : String)
    (hs : 4 * (Utf8.encode s).length ≤ Lexer.maximumBuffer)
    (hplain : ∀ l ∈ visible (Utf8.encode s), l.isQuoted → Lexeme.isPlain l.bare) :
    ∃ first second, ((f.feed before).fingerprint s).1 = .ok first ∧
      ((g.feed before').fingerprint first).1 = .ok second ∧
      Utf8.encode second = Rules.canonical.textAfter none
        ((visible (Utf8.encode s)).filter (·.kind != .literal)) ∧
      (second = first ↔ ∀ l ∈ visible (Utf8.encode s), l.kind ≠ .literal) := by
  have hsource : Utf8.IsText (Utf8.encode s) := ⟨s, rfl⟩
  have hbytes : ∀ {source}, Utf8.IsText source →
      Utf8.encode (Utf8.lossy (Rules.canonical.text source)) = Rules.canonical.text source :=
    fun h => (Rules.canonical.isText_text h).lossy_eq.2
  have hfirst := fingerprint_eq ((rules_feed f before).trans hf) (s := s) (by omega)
  have hlength := Rules.canonical.length_text_le rfl (Utf8.encode s)
  rw [← hbytes hsource] at hlength
  have hsecond := fingerprint_eq ((rules_feed g before').trans hg)
    (s := Utf8.lossy (Rules.canonical.text (Utf8.encode s))) (by omega)
  rw [hbytes hsource] at hsecond
  refine ⟨_, _, hfirst, hsecond, ?_, ?_⟩
  · rw [hbytes (Rules.canonical.isText_text hsource), Rules.text_text_canonical hplain]
  · rw [← Rules.text_text_canonical_iff hplain]
    refine ⟨fun h => ?_, congrArg Utf8.lossy⟩
    rw [← hbytes (Rules.canonical.isText_text hsource), h, hbytes hsource]

theorem fingerprint_fingerprint_quoted :
    4 * (Utf8.encode "SELECT `B`, 1 FROM t").length ≤ Lexer.maximumBuffer ∧
      (∀ l ∈ visible (Utf8.encode "SELECT `B`, 1 FROM t"), l.isQuoted → Lexeme.isPlain l.bare) ∧
      ∃ first second, ((feed {} ["x"]).fingerprint "SELECT `B`, 1 FROM t").1 = .ok first ∧
        ((feed {} []).fingerprint first).1 = .ok second ∧
        Utf8.encode second = Utf8.encode "select b, from t" ∧ second ≠ first := by
  have key : 4 * (Utf8.encode "SELECT `B`, 1 FROM t").length ≤ Lexer.maximumBuffer ∧
      (∀ l ∈ visible (Utf8.encode "SELECT `B`, 1 FROM t"), l.isQuoted → Lexeme.isPlain l.bare) ∧
      Rules.canonical.textAfter none
          ((visible (Utf8.encode "SELECT `B`, 1 FROM t")).filter (·.kind != .literal)) =
        Utf8.encode "select b, from t" ∧
      ¬ ∀ l ∈ visible (Utf8.encode "SELECT `B`, 1 FROM t"), l.kind ≠ .literal := by
    decide +kernel
  obtain ⟨hs, hplain, htext, hliteral⟩ := key
  obtain ⟨first, second, hfirst, hsecond, hbytes, hiff⟩ :=
    fingerprint_fingerprint {} {} rfl rfl ["x"] [] "SELECT `B`, 1 FROM t" hs hplain
  exact ⟨hs, hplain, first, second, hfirst, hsecond, hbytes.trans htext, mt hiff.1 hliteral⟩

/-- A placeholder is not read again, and bytes of a name are read as they stand. So is the backtick that is left
of a name that was cut off. -/
theorem fingerprint_not_canonical :
    (fingerprint {} "select 1").1 = .ok "select ?" ∧ (fingerprint {} "select ?").1 = .ok "select" ∧
      (fingerprint {} "`a-b`").1 = .ok "a-b" ∧ (fingerprint {} "a-b").1 = .ok "a - b" ∧
      (fingerprint {} "`a``").1 = .ok "a`" ∧ (fingerprint {} "a`").1 = .ok "a `" := by
  have heq : ∀ s t, 2 * (Utf8.encode s).length ≤ Lexer.maximumBuffer ∧
      Utf8.lossy (Rules.canonical.text (Utf8.encode s)) = t → (fingerprint {} s).1 = .ok t :=
    fun s t h => h.2 ▸ fingerprint_eq rfl h.1
  refine ⟨heq _ _ ?_, heq _ _ ?_, heq _ _ ?_, heq _ _ ?_, heq _ _ ?_, heq _ _ ?_⟩ <;> decide +kernel

end Fingerprinter

end SqlCanon
