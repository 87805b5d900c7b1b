import SqlCanon.Proofs.Truncation

/-!
# Signed output

Each byte of an output is signed with the token that it shows. Without its signatures the signed output is the
output, so a buffer that is too small holds the front of it.
-/

namespace SqlCanon
open Byte

/-- A byte of an output with the token that it shows. A separator shows none. -/
structure Signed where
  byte : UInt8
  token : Option Token
deriving DecidableEq, Repr

namespace Rules
variable (r : Rules)

/-- The output for a row of lexemes that follows `prev`, every byte signed. -/
def signedAfter : (prev : Option Category) → List (Nat × Lexeme) → List Signed
  | _, [] => []
  | prev, (start, l) :: ps =>
    if l.kind = .comment then signedAfter prev ps
    else
      let separator : List Signed := (r.separator prev l.toCategory).map (⟨·, none⟩)
      let shown : List Signed := (r.shown prev l).flatten.map (⟨·, some (Token.ofLexeme start l)⟩)
      separator ++ shown ++ signedAfter (some l.toCategory) ps

def signed (source : Bytes) : List Signed := r.signedAfter none (Piece.place 0 (Piece.cut source))

theorem map_byte_signedAfter (prev : Option Category) (ps : List (Nat × Lexeme)) :
    (r.signedAfter prev ps).map (·.byte) = r.textAfter prev (ps.map Prod.snd) := by
  induction ps generalizing prev with
  | nil => rfl
  | cons p ps ih =>
    by_cases hc : p.2.kind = .comment
    · simp [signedAfter, textAfter, hc, ih]
    · simp [signedAfter, textAfter, added, hc, ih, Function.comp_def]

theorem map_byte_signed (source : Bytes) : (r.signed source).map (·.byte) = r.text source := by
  rw [signed, map_byte_signedAfter, Piece.place_map_snd, text, lexemes]

theorem length_signed (source : Bytes) : (r.signed source).length = (r.text source).length := by
  rw [← r.map_byte_signed, List.length_map]

theorem forall_signedAfter {P : Signed → Prop} (hspace : P ⟨space, none⟩) {ps : List (Nat × Lexeme)}
    (hps : ∀ p ∈ ps, p.2.kind ≠ .comment → ∀ prev, ∀ b ∈ (r.shown prev p.2).flatten,
      P ⟨b, some (Token.ofLexeme p.1 p.2)⟩) (prev : Option Category) :
    ∀ s ∈ r.signedAfter prev ps, P s := by
  induction ps generalizing prev with
  | nil => intro s hs; cases hs
  | cons p ps ih =>
    have ih' := ih fun q hq => hps q (List.mem_cons_of_mem _ hq)
    unfold signedAfter
    split
    · exact ih' prev
    next hc =>
    intro s hs
    rcases List.mem_append.1 hs with hs | hs
    · rcases List.mem_append.1 hs with hs | hs
      · obtain ⟨b, hb, rfl⟩ := List.mem_map.1 hs
        unfold separator at hb
        split at hb
        · obtain rfl := List.mem_singleton.1 hb
          exact hspace
        · cases hb
      · obtain ⟨b, hb, rfl⟩ := List.mem_map.1 hs
        exact hps p List.mem_cons_self hc prev b hb
    · exact ih' _ s hs

theorem mem_tokens_of_signed (source : Bytes) :
    ∀ s ∈ r.signed source, ∀ t, s.token = some t → t ∈ tokens source := by
  refine r.forall_signedAfter (fun t ht => by cases ht) (fun p hp _ prev b _ t ht => ?_) none
  obtain rfl := Option.some.inj ht
  exact List.mem_map_of_mem hp

end Rules

namespace Lexer

variable {r : Rules} (hr : r.validate = .ok ()) (lx : Lexer) (source buffer : Bytes)
include hr

theorem written_normalize :
    (lx.normalize r source buffer).1.written = min buffer.length (r.signed source).length := by
  rw [normalize_eq r lx hr, r.length_signed]

theorem output_normalize_signed :
    (lx.normalize r source buffer).1.output =
      ((r.signed source).take (lx.normalize r source buffer).1.written).map (·.byte) := by
  rw [output_normalize r lx hr, written_normalize hr, List.map_take, r.map_byte_signed, r.length_signed,
    ← List.take_eq_take_min]

theorem getElem?_output_normalize {i : Nat} (hi : i < (lx.normalize r source buffer).1.written) :
    (lx.normalize r source buffer).1.output[i]? = ((r.signed source)[i]?).map (·.byte) := by
  rw [output_normalize_signed hr, List.getElem?_map, List.getElem?_take_of_lt hi]

end Lexer

end SqlCanon
