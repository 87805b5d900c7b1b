import SqlCanon.Proofs.Arena
import SqlCanon.Proofs.StringValues

/-!
# Where operators are read

A byte that no other reader takes is left to the reader of operators. It takes the longest operator there
is, and where there is none the lexer steps over that one byte.
-/

namespace SqlCanon
open Byte
open Piece (ComesOff)

namespace Lexeme

/-- The byte `b` in front of `rest` is left to the reader of operators. -/
structure FallsThrough (b : UInt8) (rest : Bytes) : Prop where
  mark : b ∉ [star, comma, openParen, closeParen, dot, backtick]
  blank : isBlank b = false
  word : isWordStart b = false
  comment : comment? b rest = none
  literal : literal? b rest = none

variable {b : UInt8} {rest : Bytes}

theorem FallsThrough.front?_eq (h : FallsThrough b rest) :
    front? b rest = (Operator.front? (b :: rest)).map fun op => { kind := .operator, text := op } := by
  cases hop : Operator.front? (b :: rest) with
  | some op => exact FrontCase.front?_eq (.operator h.mark h.word h.comment h.literal hop)
  | none => exact FrontCase.front?_eq (.nothing h.mark h.word h.comment h.literal hop)

theorem fallsThrough_of_operator {l : Lexeme} (h : front? b rest = some l) (hl : l.kind = .operator) :
    FallsThrough b rest := by
  cases front?_cases h with
  | operator hmark hword hcomment hliteral hop =>
    exact ⟨hmark, not_blank_of_operator hop, hword, hcomment, hliteral⟩
  | _ => cases hl

theorem front?_eq_operator_iff {op : Bytes} :
    front? b rest = some { kind := .operator, text := op } ↔
      FallsThrough b rest ∧ Operator.front? (b :: rest) = some op := by
  constructor
  · intro h
    have hfalls := fallsThrough_of_operator h rfl
    rw [hfalls.front?_eq, Option.map_eq_some_iff] at h
    obtain ⟨op', hop, heq⟩ := h
    cases heq
    exact ⟨hfalls, hop⟩
  · rintro ⟨hfalls, hop⟩
    rw [hfalls.front?_eq, hop, Option.map_some]

end Lexeme

namespace Lexer

section
variable {lx : Lexer} {b : UInt8} (hb : lx.source[lx.cursor]? = some b)
  (hfalls : Lexeme.FallsThrough b (lx.source.drop (lx.cursor + 1)))
include hb hfalls

theorem read_operator {op : Bytes} (hop : Operator.front? (lx.source.drop lx.cursor) = some op) :
    let stop := lx.cursor + op.length
    let t : Token := { kind := .operator, span := ⟨lx.cursor, stop⟩ }
    Cursor.token lx.source lx.cursor = .ok (some t, stop) ∧ lx.next = (t, { lx with cursor := stop }) := by
  rw [Cursor.drop_eq_cons hb] at hop
  have hfront := Lexeme.front?_eq_operator_iff.2 ⟨hfalls, hop⟩
  refine ⟨?_, next_lexeme hb hfront⟩
  rw [Cursor.token_eq hb, hfront]
  rfl

theorem read_no_operator (hop : Operator.front? (lx.source.drop lx.cursor) = none) :
    Cursor.token lx.source lx.cursor = .ok (none, lx.cursor + 1) ∧
      lx.next = Lexer.next { lx with cursor := lx.cursor + 1 } := by
  have hfront := hfalls.front?_eq
  rw [← Cursor.drop_eq_cons hb, hop, Option.map_none] at hfront
  refine ⟨?_, (next_gap hb hfront).symm⟩
  rw [Cursor.token_eq hb, hfront]

end

theorem front?_of_operator_token {lx : Lexer} {source : Bytes} {t : Token}
    (ht : t ∈ (lx.bind source).rest.1) (hkind : t.kind = .operator) :
    Operator.front? (source.drop t.span.start) = some (t.lexeme source).text := by
  obtain ⟨hoff, hsplit⟩ := comesOff_of_mem_rest ht
  cases hoff with
  | lexeme htext hf =>
  have hfalls := Lexeme.fallsThrough_of_operator hf hkind
  rw [hfalls.front?_eq, Option.map_eq_some_iff] at hf
  obtain ⟨op, hop, hl⟩ := hf
  rw [hsplit, htext, List.cons_append, hop, ← htext, ← hl]

/-- **Operators are read as far as they go.** Where a byte is left to the reader of operators, a token is
produced if some operator stands there, and it is the longest of them. Otherwise the lexer steps over that
byte alone. Conversely the operators among the tokens of a source are each the longest at their place. -/
theorem operators_longest (lx : Lexer) :
    (∀ b, lx.source[lx.cursor]? = some b →
        Lexeme.FallsThrough b (lx.source.drop (lx.cursor + 1)) →
      let left := lx.source.drop lx.cursor
      ((∃ op ∈ Operator.all, op <+: left) → ∃ op ∈ Operator.all, op <+: left ∧
          (∀ other ∈ Operator.all, other <+: left → other.length ≤ op.length) ∧
          let stop := lx.cursor + op.length
          let t : Token := { kind := .operator, span := ⟨lx.cursor, stop⟩ }
          Cursor.token lx.source lx.cursor = .ok (some t, stop) ∧
            lx.next = (t, { lx with cursor := stop })) ∧
        ((¬ ∃ op ∈ Operator.all, op <+: left) →
          Cursor.token lx.source lx.cursor = .ok (none, lx.cursor + 1) ∧
            lx.next = Lexer.next { lx with cursor := lx.cursor + 1 })) ∧
      ∀ source, ∀ t ∈ (lx.bind source).rest.1, t.kind = .operator →
        let text := (t.lexeme source).text
        Operator.isOperator text ∧ text <+: source.drop t.span.start ∧
          ∀ op ∈ Operator.all, op <+: source.drop t.span.start → op.length ≤ text.length := by
  refine ⟨fun b hb hfalls => ⟨?_, fun hnone => ?_⟩, fun source t ht hkind => ?_⟩
  · rintro ⟨start, hmem, hprefix⟩
    obtain ⟨op, hop, -⟩ := Operator.exists_front?_of_prefix hmem hprefix
    obtain ⟨hall, hp, hmax⟩ := Operator.front?_eq_some_iff.1 hop
    exact ⟨op, hall, hp, hmax, read_operator hb hfalls hop⟩
  · have hop : Operator.front? (lx.source.drop lx.cursor) = none :=
      Operator.front?_eq_none_iff.2 fun op hmem hp => hnone ⟨op, hmem, hp⟩
    exact read_no_operator hb hfalls hop
  · obtain ⟨hall, hp, hmax⟩ := Operator.front?_eq_some_iff.1 (front?_of_operator_token ht hkind)
    exact ⟨Operator.isOperator_iff.2 hall, hp, hmax⟩

theorem operators_longest_arrow :
    let source := Utf8.encode "a->>:b"
    let arrow : Token := { kind := .operator, span := ⟨1, 4⟩ }
    Cursor.token source 1 = .ok (some arrow, 4) ∧
      Lexer.next { source, cursor := 1 } = (arrow, { source, cursor := 4 }) ∧
      Cursor.token source 4 = .ok (none, 5) ∧
      Operator.isOperator (arrow.lexeme source).text := by
  intro source arrow
  obtain ⟨hread, htokens⟩ := operators_longest { source, cursor := 1 }
  have hminus : Lexeme.FallsThrough minus (source.drop 2) := by constructor <;> decide
  have hcolon : Lexeme.FallsThrough colon (source.drop 5) := by constructor <;> decide
  obtain ⟨op, hall, hp, hmax, htoken, hnext⟩ :=
    (hread minus (by decide) hminus).1 ⟨[minus], by decide, by decide⟩
  have honly : ∀ op ∈ Operator.all, op <+: source.drop 1 → 3 ≤ op.length →
      op = Utf8.encode "->>" := by decide
  obtain rfl := honly op hall hp (hmax (Utf8.encode "->>") (by decide) (by decide))
  obtain ⟨hskip, -⟩ :=
    ((operators_longest { source, cursor := 4 }).1 colon (by decide) hcolon).2 (by decide)
  have hmem : arrow ∈ (({} : Lexer).bind source).rest.1 := by
    rw [rest_bind]
    decide
  exact ⟨htoken, hnext, hskip, (htokens source arrow hmem rfl).1⟩

end Lexer

end SqlCanon
