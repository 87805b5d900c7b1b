import SqlCanon.Proofs.Munch
import SqlCanon.Proofs.Starts

/-!
# What is seen behind a lexeme

A reader looks at the byte behind its lexeme, and at one more only where that byte may lead on. `sight`
is what there is to see. A piece that comes off one source comes off every source that looks the same
behind it.
-/

namespace SqlCanon
open Byte
open Piece (ComesOff)

/-- A point, a sign and an exponent letter may lead on to a digit, and a minus to a blank. -/
def leadsOn (b : UInt8) : Bool := b == dot || b == minus || b == plus || isExponent b

def sight : Bytes → Bytes
  | [] => []
  | b :: rest => if leadsOn b then b :: rest.take 1 else [b]

theorem head?_sight (bs : Bytes) : (sight bs).head? = bs.head? := by
  cases bs with
  | nil => rfl
  | cons b rest => rw [sight]; split <;> rfl

theorem sight_of_take_eq {rest tail : Bytes} (h : rest.take 2 = tail.take 2) :
    sight rest = sight tail := by
  cases rest with
  | nil =>
    cases tail with
    | nil => rfl
    | cons c tail => cases h
  | cons b rest =>
    cases tail with
    | nil => cases h
    | cons c tail =>
      simp only [List.take_succ_cons, List.cons.injEq] at h
      rw [h.1, sight, sight, h.2]

theorem sight_cons {b : UInt8} (hb : leadsOn b = false) (rest : Bytes) : sight (b :: rest) = [b] := by
  rw [sight, hb]
  rfl

theorem head?_eq_of_sight_cons {b : UInt8} {rest tail : Bytes} (hb : leadsOn b)
    (h : sight (b :: rest) = sight (b :: tail)) : rest.head? = tail.head? := by
  rw [sight, sight, if_pos hb, if_pos hb, List.cons.injEq] at h
  simpa [List.head?_take] using congrArg List.head? h.2

section
variable {rest tail : Bytes} (h : sight rest = sight tail)
include h

theorem head?_eq_of_sight : rest.head? = tail.head? := by
  rw [← head?_sight rest, h, head?_sight]

theorem eq_nil_of_sight (hrest : rest = []) : tail = [] := by
  have hhead := head?_eq_of_sight h
  rw [hrest] at hhead
  exact List.head?_eq_none_iff.1 hhead.symm

theorem sight_append (body : Bytes) : sight (body ++ rest) = sight (body ++ tail) := by
  cases body with
  | nil => exact h
  | cons b body =>
    have htake : (body ++ rest).take 1 = (body ++ tail).take 1 := by
      cases body with
      | nil =>
        rw [List.nil_append, List.nil_append, List.take_one, List.take_one, head?_eq_of_sight h]
      | cons c body => rfl
    rw [List.cons_append, List.cons_append, sight, sight, htake]

end

theorem takeWhile_replace {p : UInt8 → Bool} {body rest tail : Bytes}
    (h : (body ++ rest).takeWhile p = body) (hhead : rest.head? = tail.head?) :
    (body ++ tail).takeWhile p = body := by
  rw [takeWhile_append_iff] at h ⊢
  rwa [← hhead]

/-! ## Numbers -/

namespace Number

theorem continues_congr {last : UInt8} {pointed : Bool} {b : UInt8} {rest bs : Bytes}
    (h : leadsOn b → rest.head? = bs.head?) :
    continues last pointed b rest = continues last pointed b bs := by
  by_cases hb : leadsOn b
  · simp only [continues, digitNext, exponentNext, h hb]
  · simp only [leadsOn, Bool.or_eq_true, not_or, Bool.not_eq_true] at hb
    simp [continues, hb]

theorem continues_of_sight {last : UInt8} {pointed : Bool} {b : UInt8} {rest bs : Bytes}
    (h : sight (b :: rest) = sight (b :: bs)) :
    continues last pointed b rest = continues last pointed b bs :=
  continues_congr fun hb => head?_eq_of_sight_cons hb h

theorem tail_of_sight {last : UInt8} {pointed : Bool} {body rest bs : Bytes}
    (h : sight rest = sight bs) (htail : tail last pointed (body ++ rest) = body) :
    tail last pointed (body ++ bs) = body := by
  induction body generalizing last pointed with
  | nil =>
    cases bs with
    | nil => rfl
    | cons b bs =>
      obtain ⟨rest, rfl⟩ := List.head?_eq_some_iff.1 (head?_eq_of_sight h)
      rw [List.nil_append, tail] at htail ⊢
      rw [← continues_of_sight h]
      split at htail
      · cases htail
      · next hc => rw [if_neg hc]
  | cons b body ih =>
    have hsight : sight (b :: (body ++ rest)) = sight (b :: (body ++ bs)) := sight_append h (b :: body)
    rw [List.cons_append, tail] at htail ⊢
    rw [← continues_of_sight hsight]
    split at htail
    · next hc =>
      rw [List.cons.injEq] at htail
      rw [if_pos hc, ih htail.2]
    · cases htail

end Number

/-! ## Comments and literals -/

namespace Lexeme
variable {b : UInt8} {body rest tail : Bytes}

theorem dashes_of_sight (h : sight rest = sight tail)
    (hdash : rest.head? = some minus ∧ rest.tail.head?.all isBlank) :
    tail.head? = some minus ∧ tail.tail.head?.all isBlank := by
  obtain ⟨rest, rfl⟩ := List.head?_eq_some_iff.1 hdash.1
  obtain ⟨tail, rfl⟩ := List.head?_eq_some_iff.1 (head?_eq_of_sight h).symm
  exact ⟨rfl, head?_eq_of_sight_cons rfl h ▸ hdash.2⟩

theorem comment?_of_sight (h : sight rest = sight tail) (hc : comment? b (body ++ rest) = some body) :
    comment? b (body ++ tail) = some body := by
  have hbody := sight_append h body
  have hhead := head?_eq_of_sight hbody
  unfold comment? at hc ⊢
  by_cases h₁ : b = hash
  · rw [if_pos h₁, Option.some.injEq] at hc ⊢
    exact takeWhile_replace hc (head?_eq_of_sight h)
  rw [if_neg h₁] at hc ⊢
  by_cases h₂ : b = minus ∧ (body ++ rest).head? = some minus ∧ (body ++ rest).tail.head?.all isBlank
  · rw [if_pos h₂, Option.some.injEq] at hc
    rw [if_pos ⟨h₂.1, dashes_of_sight hbody h₂.2⟩, Option.some.injEq]
    exact takeWhile_replace hc (head?_eq_of_sight h)
  rw [if_neg h₂] at hc
  rw [if_neg fun h₃ => h₂ ⟨h₃.1, dashes_of_sight hbody.symm h₃.2⟩]
  rw [hhead] at hc
  by_cases h₃ : b = slash ∧ (body ++ tail).head? = some star
  · rw [if_pos h₃, Option.some.injEq, opened_iff (hhead.trans h₃.2)] at hc
    rw [if_pos h₃, Option.some.injEq, opened_iff h₃.2]
    obtain ⟨inner, hinner, hblock⟩ := hc
    exact ⟨inner, hinner, Delimited.block_replace (eq_nil_of_sight h) hblock⟩
  · rw [if_neg h₃] at hc
    cases hc

theorem comment?_eq_none_of_sight (h : sight rest = sight tail) (hc : comment? b rest = none) :
    comment? b tail = none := by
  unfold comment? at hc
  split at hc
  · cases hc
  next h₁ =>
  split at hc
  · cases hc
  next h₂ =>
  split at hc
  · cases hc
  next h₃ =>
  unfold comment?
  rw [if_neg h₁, if_neg fun hd => h₂ ⟨hd.1, dashes_of_sight h.symm hd.2⟩,
    ← head?_eq_of_sight h, if_neg h₃]

theorem LiteralCase.of_sight (h : sight rest = sight tail) (hlit : LiteralCase b body rest) :
    LiteralCase b body tail := by
  have hend := eq_nil_of_sight h
  have hhead := head?_eq_of_sight (sight_append h body)
  cases hlit with
  | string hq hs =>
    have hback : b ≠ backslash := by rcases hq with rfl | rfl <;> decide
    have hne := Delimited.head?_ne_of_string hback hs
    rw [head?_eq_of_sight h] at hne
    exact .string hq (Delimited.string_replace hend hback hs hne)
  | quoted hbase hbody hinner => exact .quoted hbase hbody (Delimited.through_replace hend hinner)
  | blob hzero hbase hbody hinner =>
    exact .blob hzero hbase hbody (takeWhile_replace hinner (head?_eq_of_sight h))
  | number hfirst hzero htail =>
    refine .number ?_ (fun hb => hhead ▸ hzero hb) (Number.tail_of_sight h htail)
    rwa [Number.digitNext, ← hhead]

theorem literal?_of_sight (h : sight rest = sight tail)
    (hlit : literal? b (body ++ rest) = some body) : literal? b (body ++ tail) = some body :=
  ((literalCase hlit).of_sight h).literal?_eq

theorem literal?_eq_none_of_head? (h : rest.head? = tail.head?) (hlit : literal? b rest = none) :
    literal? b tail = none := by
  unfold literal? Number.digitNext at hlit
  split at hlit
  · cases hlit
  next h₁ =>
  split at hlit
  · cases hlit
  next h₂ =>
  split at hlit
  · cases hlit
  next h₃ =>
  split at hlit
  · cases hlit
  next h₄ =>
  unfold literal? Number.digitNext
  rw [← h, if_neg h₁, if_neg h₂, if_neg h₃, if_neg h₄]

/-! ## Fronts -/

theorem front?_of_sight {l : Lexeme} (hl : l.text = b :: body) (h : sight rest = sight tail)
    (hf : front? b (body ++ rest) = some l) : front? b (body ++ tail) = some l := by
  have hbody := sight_append h body
  have hhead := head?_eq_of_sight hbody
  apply FrontCase.front?_eq
  cases front?_cases hf with
  | star hb => exact .star hb
  | comma hb => exact .comma hb
  | openParen hb => exact .openParen hb
  | closeParen hb => exact .closeParen hb
  | comment hblank hc =>
    obtain rfl := (List.cons.inj hl).2
    exact .comment hblank (comment?_of_sight h hc)
  | literal hblank hc hlit =>
    obtain rfl := (List.cons.inj hl).2
    exact .literal hblank (comment?_eq_none_of_sight hbody hc) (literal?_of_sight h hlit)
  | dot hb hlit => exact .dot hb (literal?_eq_none_of_head? hhead hlit)
  | name hb =>
    have hname : Delimited.name (body ++ rest) = body := (List.cons.inj hl).2
    have hne := Delimited.head?_ne_of_name hname
    rw [head?_eq_of_sight h] at hne
    have hsame := (Delimited.name_replace (eq_nil_of_sight h) hname hne).trans hname.symm
    rw [← hsame]
    exact .name hb
  | word hb hlit =>
    have hword : (body ++ rest).takeWhile isWordPart = body := (List.cons.inj hl).2
    have hsame := (takeWhile_replace hword (head?_eq_of_sight h)).trans hword.symm
    rw [← hsame]
    exact .word hb (literal?_eq_none_of_head? hhead hlit)
  | operator hb hword hc hlit hop =>
    obtain rfl := hl
    have hop' : Operator.front? (b :: body ++ tail) = some (b :: body) :=
      Operator.front?_of_head?_eq hop (head?_eq_of_sight h)
    exact .operator hb hword (comment?_eq_none_of_sight hbody hc)
      (literal?_eq_none_of_head? hhead hlit) hop'

theorem front?_eq_none_of_head? (h : rest.head? = tail.head?) (hf : front? b rest = none) :
    front? b tail = none := by
  rw [front?_eq_none_iff] at hf ⊢
  rwa [← h]

end Lexeme

/-! ## Pieces -/

namespace Piece

theorem ComesOff.of_sight {p : Piece} {rest tail : Bytes} (hp : ComesOff p rest)
    (h : sight rest = sight tail) : ComesOff p tail := by
  cases hp with
  | gap hf => exact .gap (Lexeme.front?_eq_none_of_head? (head?_eq_of_sight h) hf)
  | lexeme hl hf => exact .lexeme hl (Lexeme.front?_of_sight hl h hf)

theorem join_append (ps qs : List Piece) : join (ps ++ qs) = join ps ++ join qs :=
  List.flatMap_append

theorem eq_join_append {source : Bytes} {front back : List Piece} {p : Piece}
    (h : cut source = front ++ p :: back) : source = join front ++ (p.text ++ join back) := by
  rw [← join_cut source, h, join_append, join_cons]

theorem around {source : Bytes} {front back : List Piece} {p : Piece}
    (h : cut source = front ++ p :: back) :
    source.take (join front).length = join front ∧
      source.take ((join front).length + p.text.length) = join front ++ p.text ∧
      source.drop ((join front).length + p.text.length) = join back := by
  rw [eq_join_append h, List.take_left, List.take_length_add_append, List.take_left,
    ← List.drop_drop, List.drop_left, List.drop_left]
  exact ⟨rfl, rfl, rfl⟩

theorem loose_append_of_sight {ps qs qs' : List Piece} (h : Loose (ps ++ qs)) (hqs : Loose qs')
    (hsight : sight (join qs) = sight (join qs')) : Loose (ps ++ qs') := by
  induction ps with
  | nil => exact hqs
  | cons p ps ih =>
    have hrest : sight (join (ps ++ qs)) = sight (join (ps ++ qs')) := by
      rw [join_append, join_append]
      exact sight_append hsight (join ps)
    exact ⟨h.1.of_sight hrest, ih h.2⟩

end Piece

end SqlCanon
