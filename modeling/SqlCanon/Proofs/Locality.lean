import SqlCanon.Proofs.Delivery
import SqlCanon.Proofs.Lookahead

/-!
# Locality

What a token is depends on its own bytes and on the two behind them. Sources that begin alike have the
same tokens as far as that reaches, and a lexer that stands anywhere in a source goes on as if the
source began there.
-/

namespace SqlCanon

def Token.moved (t : Token) (n : Nat) : Token :=
  { t with span := ⟨t.span.start + n, t.span.stop + n⟩ }

theorem Token.moved_ofLexeme (start n : Nat) (l : Lexeme) :
    (Token.ofLexeme start l).moved n = Token.ofLexeme (start + n) l := by
  simp only [moved, Token.ofLexeme, Nat.add_right_comm]

theorem take_eq_of_le {s t : Bytes} {m n : Nat} (h : s.take n = t.take n) (hm : m ≤ n) :
    s.take m = t.take m := by
  have htake := congrArg (List.take m) h
  rwa [List.take_take, List.take_take, Nat.min_eq_left hm] at htake

theorem drop_take_eq {s t : Bytes} {m n : Nat} (h : s.take (m + n) = t.take (m + n)) :
    (s.drop m).take n = (t.drop m).take n := by
  rw [List.take_drop, List.take_drop, h]

/-- Two bytes behind a lexeme are enough to know that it ends there. -/
theorem Lexeme.front?_of_take_eq {b : UInt8} {s t : Bytes} {n : Nat} {l : Lexeme}
    (h : s.take n = t.take n) (hf : front? b s = some l) (hn : l.text.length + 1 ≤ n) :
    front? b t = some l := by
  obtain ⟨body, hl, rest, rfl⟩ := front?_text hf
  rw [hl, List.length_cons] at hn
  have hbody : t.take body.length = body := by
    rw [← take_eq_of_le h (by omega), List.take_left]
  have hbehind : rest.take 2 = (t.drop body.length).take 2 := by
    have hdrop := drop_take_eq (m := body.length) (n := 2) (take_eq_of_le h hn)
    rwa [List.drop_left] at hdrop
  rw [← List.take_append_drop body.length t, hbody]
  exact front?_of_sight hl (sight_of_take_eq hbehind) hf

namespace Piece

theorem place_add (offset n : Nat) (ps : List Piece) :
    place (offset + n) ps = (place offset ps).map fun p => (p.1 + n, p.2) := by
  induction ps generalizing offset with
  | nil => rfl
  | cons p ps ih =>
    cases p with
    | gap b => rw [place, place, Nat.add_right_comm, ih]
    | lexeme l => rw [place, place, Nat.add_right_comm, ih, List.map_cons]

theorem lt_of_mem_place {offset : Nat} {bs : Bytes} :
    ∀ p ∈ place offset (cut bs), offset < p.1 + p.2.text.length := by
  induction bs using cut_induction generalizing offset with
  | nil => intro p hp; cases hp
  | gap b rest hf ih =>
    rw [place_cut_cons_of_none hf]
    intro p hp
    exact Nat.lt_of_succ_lt (ih p hp)
  | lexeme b body tail l hl hf ih =>
    rw [place_cut_append_of_some hl hf, List.forall_mem_cons]
    have hpos : 0 < l.text.length := by rw [hl]; exact Nat.succ_pos _
    refine ⟨Nat.lt_add_of_pos_right hpos, fun p hp => ?_⟩
    have := ih p hp
    omega

def settled (k : Nat) (p : Nat × Lexeme) : Bool := p.1 + p.2.text.length + 2 ≤ k

theorem filter_settled_eq_nil {offset k : Nat} (h : k ≤ offset + 2) (bs : Bytes) :
    (place offset (cut bs)).filter (settled k) = [] := by
  refine List.filter_eq_nil_iff.2 fun p hp => ?_
  have := lt_of_mem_place p hp
  simp only [settled, decide_eq_true_eq]
  omega

theorem filter_settled_of_long {b : UInt8} {rest : Bytes} {l : Lexeme} {offset n : Nat}
    (hf : Lexeme.front? b rest = some l) (hl : ¬ l.text.length + 2 ≤ n) :
    (place offset (cut (b :: rest))).filter (settled (offset + n)) = [] := by
  have hhead : ¬ settled (offset + n) (offset, l) = true := by
    simp only [settled, decide_eq_true_eq]
    omega
  rw [cut_cons_of_some hf, place, List.filter_cons_of_neg hhead]
  exact filter_settled_eq_nil (by omega) _

/-- The two-run invariant: where two sources go on alike for `n` bytes, so do their lexemes. -/
theorem filter_place_of_take_eq {s t : Bytes} {n : Nat} (h : s.take n = t.take n) (offset : Nat) :
    (place offset (cut s)).filter (settled (offset + n)) =
      (place offset (cut t)).filter (settled (offset + n)) := by
  induction n using Nat.strongRecOn generalizing s t offset with
  | _ n ih =>
  by_cases hn : n ≤ 2
  · rw [filter_settled_eq_nil (by omega), filter_settled_eq_nil (by omega)]
  obtain ⟨m, rfl⟩ : ∃ m, n = m + 1 := ⟨n - 1, by omega⟩
  cases s with
  | nil =>
    cases t with
    | nil => rfl
    | cons c t => cases h
  | cons b s =>
  cases t with
  | nil => cases h
  | cons c t =>
  obtain ⟨rfl, hrest⟩ := List.cons.inj h
  have hhead : s.head? = t.head? := by
    simpa [List.head?_take, show m ≠ 0 by omega] using congrArg List.head? hrest
  cases hs : Lexeme.front? b s with
  | none =>
    have ht := Lexeme.front?_eq_none_of_head? hhead hs
    have hstep := ih m (Nat.lt_succ_self m) hrest (offset + 1)
    rw [place_cut_cons_of_none hs, place_cut_cons_of_none ht]
    rwa [Nat.add_right_comm] at hstep
  | some l =>
    by_cases hl : l.text.length + 2 ≤ m + 1
    · -- the lexeme is settled, so it stands in both sources
      have ht := Lexeme.front?_of_take_eq hrest hs (by omega)
      obtain ⟨body, hbody, -⟩ := Lexeme.front?_text hs
      have hpos : 0 < l.text.length := by rw [hbody]; exact Nat.succ_pos _
      have hn' : l.text.length + (m + 1 - l.text.length) = m + 1 := by omega
      have hbehind := drop_take_eq (m := l.text.length) (n := m + 1 - l.text.length) (hn'.symm ▸ h)
      have hstep := ih _ (by omega) hbehind (offset + l.text.length)
      rw [Nat.add_assoc, hn'] at hstep
      rw [cut_cons_of_some hs, cut_cons_of_some ht, place, place, List.filter_cons, List.filter_cons,
        hstep]
    · -- a settled lexeme in the other source would stand here as well
      rw [filter_settled_of_long hs hl]
      cases ht : Lexeme.front? b t with
      | none =>
        rw [Lexeme.front?_eq_none_of_head? hhead.symm ht] at hs
        cases hs
      | some l' =>
        have hl' : ¬ l'.text.length + 2 ≤ m + 1 := fun hle => by
          rw [Lexeme.front?_of_take_eq hrest.symm ht (by omega)] at hs
          cases hs
          exact hl hle
        rw [filter_settled_of_long ht hl']

end Piece

theorem filter_tokens_of_take_eq {s t : Bytes} {k : Nat} (h : s.take k = t.take k) :
    (tokens s).filter (·.span.stop + 2 ≤ k) = (tokens t).filter (·.span.stop + 2 ≤ k) := by
  have hsettled := Piece.filter_place_of_take_eq h 0
  rw [Nat.zero_add] at hsettled
  have hmap := congrArg (List.map fun p => Token.ofLexeme p.1 p.2) hsettled
  rw [tokens, tokens, List.filter_map, List.filter_map]
  exact hmap

theorem eq_of_take_eq {s t : Bytes} {k : Nat} (h : s.take k = t.take k) (hs : s.length < k) : s = t := by
  have hlength := congrArg List.length h
  rw [List.length_take, List.length_take] at hlength
  rwa [List.take_of_length_le (by omega), List.take_of_length_le (by omega)] at h

theorem filter_allTokens_of_take_eq {s t : Bytes} {k : Nat} (h : s.take k = t.take k) :
    (allTokens s).filter (·.span.stop + 2 ≤ k) = (allTokens t).filter (·.span.stop + 2 ≤ k) := by
  by_cases hs : s.length < k
  · rw [eq_of_take_eq h hs]
  by_cases ht : t.length < k
  · rw [eq_of_take_eq h.symm ht]
  have hend : ∀ bs : Bytes, ¬ bs.length < k →
      [Token.endOfInput bs.length].filter (·.span.stop + 2 ≤ k) = [] := fun bs hbs => by
    simp only [Token.endOfInput, List.filter_eq_nil_iff, List.mem_singleton, forall_eq,
      decide_eq_true_eq]
    omega
  rw [allTokens, allTokens, List.filter_append, List.filter_append, hend s hs, hend t ht,
    filter_tokens_of_take_eq h]

namespace Lexer

/-- One lexer stands in its source as the other does in a source that begins `n` bytes later. -/
structure Offset (n : Nat) (lx fresh : Lexer) : Prop where
  left : lx.left = fresh.left.map fun p => (p.1 + n, p.2)
  length : lx.source.length = fresh.source.length + n
  cursor : lx.cursor = fresh.cursor + n

namespace Offset
variable {n : Nat} {lx fresh : Lexer}

theorem next (h : Offset n lx fresh) :
    lx.next.1 = fresh.next.1.moved n ∧ Offset n lx.next.2 fresh.next.2 := by
  have hleft : lx.next.2.left = fresh.next.2.left.map fun p => (p.1 + n, p.2) := by
    rw [left_next, left_next, h.left, List.map_tail]
  have hlength : lx.next.2.source.length = fresh.next.2.source.length + n := by
    rw [source_next, source_next, h.length]
  cases hfresh : fresh.left with
  | nil =>
    have hnil : lx.left = [] := by rw [h.left, hfresh]; rfl
    rw [next_of_left_nil hnil, next_of_left_nil hfresh] at hleft hlength ⊢
    refine ⟨by rw [h.length]; rfl, hleft, hlength, ?_⟩
    dsimp only
    rw [h.length, h.cursor, Nat.add_max_add_right]
  | cons p ps =>
    have hcons : lx.left = (p.1 + n, p.2) :: ps.map fun p => (p.1 + n, p.2) := by
      rw [h.left, hfresh]
      rfl
    rw [next_of_left_cons hcons, next_of_left_cons hfresh] at hleft hlength ⊢
    exact ⟨(Token.moved_ofLexeme _ _ _).symm, hleft, hlength, Nat.add_right_comm _ _ _⟩

theorem nextMany (h : Offset n lx fresh) (m : Nat) :
    (lx.nextMany m).1 = (fresh.nextMany m).1.map (·.moved n) ∧
      Offset n (lx.nextMany m).2 (fresh.nextMany m).2 := by
  induction m generalizing lx fresh with
  | zero => exact ⟨rfl, h⟩
  | succ m ih =>
    obtain ⟨hfirst, hnext⟩ := h.next
    obtain ⟨hmore, hlast⟩ := ih hnext
    refine ⟨?_, hlast⟩
    calc (lx.nextMany (m + 1)).1
        = lx.next.1 :: (lx.next.2.nextMany m).1 := rfl
      _ = fresh.next.1.moved n :: (fresh.next.2.nextMany m).1.map (·.moved n) := by
          rw [hfirst, hmore]

theorem rest (h : Offset n lx fresh) : lx.rest.1 = fresh.rest.1.map (·.moved n) := by
  rw [rest_eq, rest_eq, h.left, List.map_map, List.map_map]
  exact List.map_congr_left fun p _ => (Token.moved_ofLexeme _ _ _).symm

end Offset

theorem offset_bind_drop (lx fresh : Lexer) (h : lx.cursor ≤ lx.source.length) :
    Offset lx.cursor lx (fresh.bind (lx.source.drop lx.cursor)) where
  left := by rw [left_bind, ← Piece.place_add, Nat.zero_add, left]
  length := by rw [source_bind, List.length_drop, Nat.sub_add_cancel h]
  cursor := by rw [cursor_bind, Nat.zero_add]

/-- **Lexing is local.** Sources that agree on their first `k` bytes have the same tokens among those that
end at least two bytes before. After any number of calls a lexer goes on with the tokens of what is left
of its source, moved to where that begins, up to the end of input and beyond. The scanner that reads the
whole source by position does the same, so nothing before a token has a say in it. -/
theorem tokens_local (lx fresh : Lexer) :
    (∀ (s t : Bytes) (k : Nat), s.take k = t.take k →
      (lx.bind s).tokenize.1.filter (·.span.stop + 2 ≤ k) =
        (fresh.bind t).tokenize.1.filter (·.span.stop + 2 ≤ k)) ∧
    ∀ (source : Bytes) (n : Nat),
      let state := (nextMany n (lx.bind source)).2
      let again := fresh.bind (source.drop state.cursor)
      state.rest.1 = again.rest.1.map (·.moved state.cursor) ∧
        ∀ m, (nextMany m state).1 = (nextMany m again).1.map (·.moved state.cursor) ∧
          Cursor.next source ((nextMany m again).2.cursor + state.cursor) =
            .ok ((nextMany m again).2.next.1.moved state.cursor,
              (nextMany (m + 1) again).2.cursor + state.cursor) := by
  refine ⟨fun s t k h => ?_, fun source n => ?_⟩
  · rw [tokenize_eq, tokenize_eq, source_bind, source_bind]
    exact filter_allTokens_of_take_eq h
  · intro state again
    have hsource : state.source = source := by rw [source_nextMany, source_bind]
    have hcursor : state.cursor ≤ state.source.length := by
      rw [source_nextMany]
      exact cursor_nextMany_le n (by rw [cursor_bind]; exact Nat.zero_le _)
    have hoffset : Offset state.cursor state again := by
      have hdrop := offset_bind_drop state fresh hcursor
      rwa [hsource] at hdrop
    refine ⟨hoffset.rest, fun m => ?_⟩
    obtain ⟨htokens, hlater⟩ := hoffset.nextMany m
    obtain ⟨htoken, hnext⟩ := hlater.next
    refine ⟨htokens, ?_⟩
    have hscan := Cursor.next_eq (nextMany m state).2
    rwa [source_nextMany, hsource, hlater.cursor, htoken, hnext.cursor, ← nextMany_succ] at hscan

theorem tokens_local_exponent :
    let s := Utf8.encode "select 1e+5"
    let t := Utf8.encode "select 1e+x"
    let rows := fun (source : Bytes) (ahead : Nat) =>
      ((({} : Lexer).bind source).tokenize.1).filter (·.span.stop + ahead ≤ 10)
    s.take 10 = t.take 10 ∧ rows s 2 = rows t 2 ∧ rows s 1 ≠ rows t 1 := by
  intro s t rows
  have hagree : s.take 10 = t.take 10 := by decide
  refine ⟨hagree, (tokens_local {} {}).1 s t 10 hagree, ?_⟩
  simp only [rows, tokenize_eq, source_bind]
  decide

end Lexer

end SqlCanon
