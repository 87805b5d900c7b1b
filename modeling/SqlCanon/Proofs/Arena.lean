import SqlCanon.Proofs.Delivery

/-!
# Scanning with an arena

The scanner once more with all that one call leaves for the next: where the last token started, and the
word that the arena still holds. A word is copied into the arena over what was there, folded in place and
looked up from there. Nothing that is left behind has a say in a later token.
-/

namespace SqlCanon

theorem Lexer.next_lexeme {lx : Lexer} {b : UInt8} {l : Lexeme} (hb : lx.source[lx.cursor]? = some b)
    (hf : Lexeme.front? b (lx.source.drop (lx.cursor + 1)) = some l) :
    lx.next = (Token.ofLexeme lx.cursor l,
      { lx with cursor := lx.cursor + l.text.length, arena := arenaAfter lx.arena l }) := by
  unfold Lexer.next
  rw [Cursor.drop_eq_cons hb, Lexer.seek, hf]

theorem Lexer.next_gap {lx : Lexer} {b : UInt8} (hb : lx.source[lx.cursor]? = some b)
    (hf : Lexeme.front? b (lx.source.drop (lx.cursor + 1)) = none) :
    Lexer.next { lx with cursor := lx.cursor + 1 } = lx.next := by
  have hlt := (List.getElem?_eq_some_iff.1 hb).1
  have hmax : max (lx.cursor + 1) lx.source.length = max lx.cursor lx.source.length := by omega
  unfold Lexer.next
  rw [Cursor.drop_eq_cons hb, Lexer.seek, hf]
  simp only [hmax]

namespace Lexer

def bareWord? (lx : Lexer) : Option Bytes :=
  let l := lx.next.1.lexeme lx.source
  if l.isBareWord then some l.text else none

theorem length_le_of_bareWord? {lx : Lexer} {word : Bytes} (h : lx.bareWord? = some word) :
    word.length ≤ lx.source.length := by
  have hslice := lx.next.1.span.length_slice_le lx.source
  simp only [bareWord?] at h
  split at h
  · cases h
    exact hslice
  · cases h

theorem bareWord?_lexeme {lx : Lexer} {b : UInt8} {l : Lexeme}
    (hb : lx.source[lx.cursor]? = some b)
    (hf : Lexeme.front? b (lx.source.drop (lx.cursor + 1)) = some l) :
    lx.bareWord? = if l.isBareWord then some l.text else none := by
  have hnext := next_lexeme hb hf
  have hkind : lx.next.1.kind ≠ .endOfInput := hnext ▸ Lexeme.front?_kind_ne hf
  obtain ⟨b', rest, l', hdrop, hf', -, hl⟩ := front?_of_next hkind
  rw [hnext] at hdrop hl
  obtain ⟨rfl, rfl⟩ := List.cons.inj (hdrop.symm.trans (Cursor.drop_eq_cons hb))
  obtain rfl : l = l' := Option.some.inj (hf.symm.trans hf')
  rw [bareWord?, hnext, hl]

theorem bareWord?_gap {lx : Lexer} {b : UInt8} (hb : lx.source[lx.cursor]? = some b)
    (hf : Lexeme.front? b (lx.source.drop (lx.cursor + 1)) = none) :
    bareWord? { lx with cursor := lx.cursor + 1 } = lx.bareWord? := by
  rw [bareWord?, next_gap hb hf]
  rfl

theorem bareWord?_of_left_nil {lx : Lexer} (h : lx.left = []) : lx.bareWord? = none := by
  rw [bareWord?, next_of_left_nil h]
  rfl

end Lexer

/-- A lexer with what its calls leave behind. -/
structure Machine extends Lexer where
  /-- Where the last token started. -/
  start : Nat := 0
  /-- What the arena holds. -/
  held : Bytes := []

namespace Machine
open Byte Cursor

def clear (m : Machine) : Machine := { m with held := [] }

/-- Copies bytes behind those that the arena holds. It grows where it has no room for them. -/
def copy (m : Machine) (bs : Bytes) : Machine :=
  { m with held := m.held ++ bs, arena := max m.arena (m.held ++ bs).length }

def foldHeld (m : Machine) : Machine := { m with held := m.held.map toUpper }

def wordAttrs (m : Machine) (word : Span) : Except Escape (Attrs × Machine) := do
  let word ← slice m.source word
  let m := (m.clear.copy word).foldHeld
  return ((Reserved.find? m.held).getD {}, m)

/-- The token that starts at `start`, if one does, looked up in the arena where it is a word. -/
def scan (m : Machine) : Except Escape (Option Token × Machine) := do
  let ((t, stop), m) ← tokenBy m.source m.wordAttrs m m.start
  return (t, { m with cursor := stop })

def after (m : Machine) (start : Nat) (l : Lexeme) : Machine :=
  { m with
    start, cursor := start + l.text.length, arena := Lexer.arenaAfter m.arena l
    held := if l.isBareWord then l.text.map toUpper else m.held }

theorem finds_wordAttrs (m : Machine) : Finds m.source m.wordAttrs fun word =>
    { m with arena := max m.arena word.length, held := word.map toUpper } := by
  intro start word hslice
  rw [wordAttrs, hslice]
  rfl

theorem scan_eq {m : Machine} {b : UInt8} (hb : m.source[m.cursor]? = some b) :
    scan { m with start := m.cursor } =
      .ok (match Lexeme.front? b (m.source.drop (m.cursor + 1)) with
        | some l => (some (Token.ofLexeme m.cursor l), m.after m.cursor l)
        | none => (none, { m with start := m.cursor, cursor := m.cursor + 1 })) := by
  rw [scan, tokenBy_eq (finds_wordAttrs { m with start := m.cursor }) _ hb]
  cases Lexeme.front? b (m.source.drop (m.cursor + 1)) with
  | none => rfl
  | some l =>
    by_cases hbare : l.isBareWord <;>
      simp [after, Lexer.arenaAfter, hbare, bind, Except.bind, pure, Except.pure]

theorem scan_progress {m m' : Machine} {t : Option Token} (hlt : m.cursor < m.source.length)
    (h : scan { m with start := m.cursor } = .ok (t, m')) :
    m'.source = m.source ∧ m.cursor < m'.cursor := by
  rw [scan_eq (List.getElem?_eq_getElem hlt)] at h
  split at h
  · next l hf =>
    obtain ⟨body, hl, -⟩ := Lexeme.front?_text hf
    cases h
    simp [after, hl]
  · cases h
    simp

def next (m : Machine) : Except Escape (Token × Machine) :=
  if m.cursor < m.source.length then
    match _ : scan { m with start := m.cursor } with
    | .ok (some t, m) => .ok (t, m)
    | .ok (none, m) => m.next
    | .error e => .error e
  else .ok (Token.endOfInput m.source.length, m)
termination_by m.source.length - m.cursor
decreasing_by
  have hp := scan_progress ‹_› ‹_›
  rw [hp.1]
  omega

/-- What the machine holds when a call begins has no say in the token and the lexer after it. Behind the
call it holds the word that the call copied, folded. -/
theorem next_held (m : Machine) :
    ∃ start, m.next = .ok (m.toLexer.next.1,
      ⟨m.toLexer.next.2, start, (m.toLexer.bareWord?.map (·.map toUpper)).getD m.held⟩) := by
  fun_induction next m with
  | case1 m hlt t m' hs =>
    have hb := List.getElem?_eq_getElem hlt
    rw [scan_eq hb] at hs
    split at hs
    · next l hf =>
      cases hs
      refine ⟨m.cursor, ?_⟩
      rw [Lexer.bareWord?_lexeme hb hf, Lexer.next_lexeme hb hf, after]
      split <;> rfl
    · cases hs
  | case2 m hlt m' hs ih =>
    have hb := List.getElem?_eq_getElem hlt
    rw [scan_eq hb] at hs
    split at hs
    · cases hs
    · next hf =>
      cases hs
      rwa [Lexer.next_gap hb hf, Lexer.bareWord?_gap hb hf] at ih
  | case3 m hlt e hs =>
    rw [scan_eq (List.getElem?_eq_getElem hlt)] at hs
    cases hs
  | case4 m hlt =>
    have hmax : max m.cursor m.source.length = m.cursor := by omega
    have hleft : m.toLexer.left = [] := by
      rw [Lexer.left, List.drop_of_length_le (by omega)]
      rfl
    refine ⟨m.start, ?_⟩
    rw [Lexer.bareWord?_of_left_nil hleft, Lexer.next_of_left_nil hleft]
    simp only [hmax]
    rfl

theorem next_eq (m : Machine) :
    ∃ start held, m.next = .ok (m.toLexer.next.1, ⟨m.toLexer.next.2, start, held⟩) := by
  obtain ⟨start, hnext⟩ := next_held m
  exact ⟨start, _, hnext⟩

end Machine

end SqlCanon
