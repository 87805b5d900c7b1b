import SqlCanon.Event
import SqlCanon.Piece

/-!
# Lexers

A lexer hands out the tokens of one source after the other. Its arena is the room in which bare
words are folded to upper case before they are looked up. The arena grows when a source is bound
that is longer, and never shrinks.
-/

namespace SqlCanon

structure Lexer where
  source : Bytes := []
  cursor : Nat := 0
  arena : Nat := 0
  /-- What happened so far, oldest first. -/
  log : List Event := []
deriving DecidableEq, Repr

namespace Lexer

def minimumArena : Nat := 1024

def withCapacity (capacity : Nat) : Lexer := { arena := capacity }

def record (lx : Lexer) (e : Event) : Lexer := { lx with log := lx.log ++ [e] }

def bind (lx : Lexer) (source : Bytes) : Lexer :=
  let lx := { lx with source, cursor := 0 }
  if lx.arena < source.length ∨ lx.arena = 0 then
    let capacity := max source.length minimumArena
    { lx.record (.arenaGrown lx.arena capacity) with arena := capacity }
  else lx

def forSource (source : Bytes) : Lexer := bind {} source

def reset (lx : Lexer) : Lexer := { lx with cursor := 0 }

/-- Lets go of the source and keeps the arena. -/
def recycle (lx : Lexer) : Lexer := { lx with source := [], cursor := 0 }

/-- The capacity of the arena after a lexeme has been read. A bare word is copied into it, whether
there is room or not. -/
def arenaAfter (arena : Nat) (l : Lexeme) : Nat :=
  if l.isBareWord then max arena l.text.length else arena

/-- The first lexeme of `bs`, where `bs` starts at `offset`, and the place at which it starts. -/
def seek (offset : Nat) : Bytes → Option (Nat × Lexeme)
  | [] => none
  | b :: rest =>
    match Lexeme.front? b rest with
    | some l => some (offset, l)
    | none => seek (offset + 1) rest

/-- The next token and the lexer after it. At the end this is always the end of input. -/
def next (lx : Lexer) : Token × Lexer :=
  match seek lx.cursor (lx.source.drop lx.cursor) with
  | some (start, l) =>
    (Token.ofLexeme start l,
      { lx with cursor := start + l.text.length, arena := arenaAfter lx.arena l })
  | none =>
    (Token.endOfInput lx.source.length, { lx with cursor := max lx.cursor lx.source.length })

/-- The next `count` tokens, the end of input among them as often as it comes up. -/
def nextMany : Nat → Lexer → List Token × Lexer
  | 0, lx => ([], lx)
  | count + 1, lx =>
    let (t, lx) := lx.next
    let (ts, lx) := nextMany count lx
    (t :: ts, lx)

/-- At most `count` tokens before the end of input. After the last of them nothing more is read. -/
def take : Nat → Lexer → List Token × Lexer
  | 0, lx => ([], lx)
  | count + 1, lx =>
    let (t, lx) := lx.next
    if t.kind = .endOfInput then ([], lx)
    else
      let (ts, lx) := take count lx
      (t :: ts, lx)

theorem seek_bounds {offset start : Nat} {bs : Bytes} {l : Lexeme}
    (h : seek offset bs = some (start, l)) :
    offset ≤ start ∧ l.text ≠ [] ∧ start + l.text.length ≤ offset + bs.length := by
  fun_induction seek offset bs with
  | case1 offset => cases h
  | case2 offset b rest l' hf =>
    simp only [Option.some.injEq, Prod.mk.injEq] at h
    obtain ⟨rfl, rfl⟩ := h
    obtain ⟨body, hl, hp⟩ := Lexeme.front?_text hf
    have := hp.length_le
    simp only [hl, List.length_cons]
    exact ⟨Nat.le_refl _, by simp, by omega⟩
  | case3 offset b rest hf ih =>
    obtain ⟨h₁, h₂, h₃⟩ := ih h
    simp only [List.length_cons]
    exact ⟨by omega, h₂, by omega⟩

theorem next_progress (lx : Lexer) (h : lx.next.1.kind ≠ .endOfInput) :
    lx.next.2.source = lx.source ∧ lx.cursor < lx.next.2.cursor ∧
      lx.next.2.cursor ≤ lx.source.length := by
  unfold next at h ⊢
  split at h
  · next start l hs =>
    obtain ⟨h₁, h₂, h₃⟩ := seek_bounds hs
    have := List.length_pos_iff.mpr h₂
    rw [List.length_drop] at h₃
    refine ⟨rfl, ?_, ?_⟩ <;> dsimp only <;> omega
  · exact absurd rfl h

/-- The tokens that are left before the end of input. -/
def rest (lx : Lexer) : List Token × Lexer :=
  match _ : lx.next with
  | (t, after) =>
    if t.kind = .endOfInput then ([], after)
    else
      let (ts, last) := after.rest
      (t :: ts, last)
termination_by lx.source.length - lx.cursor
decreasing_by
  next hn hk =>
  have hp := next_progress lx (by rwa [hn])
  simp only [hn] at hp
  rw [hp.1]
  omega

def tokenize (lx : Lexer) : List Token × Lexer :=
  let (ts, lx) := lx.reset.rest
  (ts ++ [Token.endOfInput lx.source.length], lx)

end Lexer

end SqlCanon
