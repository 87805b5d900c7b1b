import SqlCanon.Lexeme.Front

/-!
# Cutting a source into pieces

A source is cut into lexemes and gap bytes, front to back and without loss. The lexemes and the
tokens of a source are both read off its pieces.
-/

namespace SqlCanon

inductive Piece where
  | gap (byte : UInt8)
  | lexeme (lexeme : Lexeme)
deriving DecidableEq, Repr

namespace Piece

def text : Piece → Bytes
  | gap b => [b]
  | lexeme l => l.text

def lexeme? : Piece → Option Lexeme
  | gap _ => none
  | lexeme l => some l

/-- The pieces of a source whose first `taken` bytes belong to a piece already cut. -/
def cutAfter : (taken : Nat) → Bytes → List Piece
  | _, [] => []
  | taken + 1, _ :: rest => cutAfter taken rest
  | 0, b :: rest =>
    match Lexeme.front? b rest with
    | some l => lexeme l :: cutAfter (l.text.length - 1) rest
    | none => gap b :: cutAfter 0 rest

def cut (source : Bytes) : List Piece := cutAfter 0 source

def join (ps : List Piece) : Bytes := ps.flatMap text

theorem cutAfter_eq (n : Nat) (bs : Bytes) : cutAfter n bs = cut (bs.drop n) := by
  induction n generalizing bs with
  | zero => rfl
  | succ n ih => cases bs with
    | nil => simp [cut, cutAfter]
    | cons b rest => simpa [cutAfter] using ih rest

theorem cut_cons_of_none {b : UInt8} {rest : Bytes} (h : Lexeme.front? b rest = none) :
    cut (b :: rest) = gap b :: cut rest := by
  simp [cut, cutAfter, h]

theorem cut_cons_of_some {b : UInt8} {rest : Bytes} {l : Lexeme}
    (h : Lexeme.front? b rest = some l) :
    cut (b :: rest) = lexeme l :: cut ((b :: rest).drop l.text.length) := by
  obtain ⟨body, hl, -⟩ := Lexeme.front?_text h
  simpa [cut, cutAfter, h, hl] using cutAfter_eq _ _

theorem drop_text {b : UInt8} {body : Bytes} {l : Lexeme} (hl : l.text = b :: body) (tail : Bytes) :
    (b :: (body ++ tail)).drop l.text.length = tail := by
  rw [hl, ← List.cons_append, List.drop_left]

theorem cut_append_of_some {b : UInt8} {body tail : Bytes} {l : Lexeme}
    (hl : l.text = b :: body) (h : Lexeme.front? b (body ++ tail) = some l) :
    cut (b :: (body ++ tail)) = lexeme l :: cut tail := by
  rw [cut_cons_of_some h, drop_text hl]

/-- Induction along the cuts of a source: a gap byte or a whole lexeme comes off its front. -/
@[elab_as_elim]
theorem cut_induction {motive : Bytes → Prop} (nil : motive [])
    (gap : ∀ b rest, Lexeme.front? b rest = none → motive rest → motive (b :: rest))
    (lexeme : ∀ b body tail l, l.text = b :: body → Lexeme.front? b (body ++ tail) = some l →
      motive tail → motive (b :: (body ++ tail)))
    (bs : Bytes) : motive bs := by
  induction h : bs.length using Nat.strongRecOn generalizing bs with
  | _ n ih =>
    subst h
    cases bs with
    | nil => exact nil
    | cons b rest =>
      cases hf : Lexeme.front? b rest with
      | none => exact gap b rest hf (ih _ (by simp) rest rfl)
      | some l =>
        obtain ⟨body, hl, tail, rfl⟩ := Lexeme.front?_text hf
        have hlt : tail.length < (b :: (body ++ tail)).length := by
          rw [List.length_cons, List.length_append]
          omega
        exact lexeme b body tail l hl hf (ih _ hlt tail rfl)

theorem join_cut (bs : Bytes) : join (cut bs) = bs := by
  induction bs using cut_induction with
  | nil => rfl
  | gap b rest hf ih => simpa [cut_cons_of_none hf, join, text] using ih
  | lexeme b body tail l hl hf ih => simpa [cut_append_of_some hl hf, join, text, hl] using ih

end Piece

def lexemes (source : Bytes) : List Lexeme := (Piece.cut source).filterMap Piece.lexeme?

theorem lexemes_cons_of_none {b : UInt8} {rest : Bytes} (h : Lexeme.front? b rest = none) :
    lexemes (b :: rest) = lexemes rest := by
  rw [lexemes, Piece.cut_cons_of_none h]
  rfl

theorem lexemes_append_of_some {b : UInt8} {body tail : Bytes} {l : Lexeme}
    (hl : l.text = b :: body) (h : Lexeme.front? b (body ++ tail) = some l) :
    lexemes (b :: (body ++ tail)) = l :: lexemes tail := by
  rw [lexemes, Piece.cut_append_of_some hl h]
  rfl

theorem forall_lexemes {P : Lexeme → Prop}
    (hP : ∀ b rest l, Lexeme.front? b rest = some l → P l) (source : Bytes) :
    ∀ l ∈ lexemes source, P l := by
  induction source using Piece.cut_induction with
  | nil => intro l hl; cases hl
  | gap b rest hf ih => rwa [lexemes_cons_of_none hf]
  | lexeme b body tail l hl hf ih =>
    rw [lexemes_append_of_some hl hf]
    intro m hm
    rcases List.mem_cons.1 hm with rfl | hm
    · exact hP _ _ _ hf
    · exact ih m hm

theorem text_ne_nil_of_mem {source : Bytes} {l : Lexeme} (h : l ∈ lexemes source) : l.text ≠ [] := by
  refine forall_lexemes (P := fun l => l.text ≠ []) (fun b rest l hf => ?_) source l h
  obtain ⟨body, hl, -⟩ := Lexeme.front?_text hf
  rw [hl]
  exact List.cons_ne_nil _ _

theorem length_flatMap_lexemes_le (source : Bytes) :
    ((lexemes source).flatMap (·.text)).length ≤ source.length := by
  induction source using Piece.cut_induction with
  | nil => exact Nat.le_refl _
  | gap b rest hf ih =>
    rw [lexemes_cons_of_none hf, List.length_cons]
    exact Nat.le_succ_of_le ih
  | lexeme b body tail l hl hf ih =>
    rw [lexemes_append_of_some hl hf, List.flatMap_cons, hl, ← List.cons_append,
      List.length_append, List.length_append]
    exact Nat.add_le_add_left ih _

/-- The lexemes among pieces in a row that starts at `offset`, each with its place. -/
def Piece.place (offset : Nat) : List Piece → List (Nat × Lexeme)
  | [] => []
  | .gap _ :: ps => place (offset + 1) ps
  | .lexeme l :: ps => (offset, l) :: place (offset + l.text.length) ps

/-- The tokens of a source without the end of input. -/
def tokens (source : Bytes) : List Token :=
  (Piece.place 0 (Piece.cut source)).map fun (start, l) => Token.ofLexeme start l

def allTokens (source : Bytes) : List Token :=
  tokens source ++ [Token.endOfInput source.length]

end SqlCanon
