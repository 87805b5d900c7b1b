import SqlCanon.Piece
import SqlCanon.Proofs.Ends

/-!
# Pieces in a row

Pieces in a row are cut apart as they were put together just when each of them comes off before what
follows it. Words, literals and operators do so before a blank and before most punctuation.
-/

namespace SqlCanon
open Byte

namespace Piece

/-- The piece is what is cut off first where `tail` follows it. -/
inductive ComesOff : Piece → Bytes → Prop
  | gap {b tail} : Lexeme.front? b tail = none → ComesOff (gap b) tail
  | lexeme {l b body tail} : l.text = b :: body → Lexeme.front? b (body ++ tail) = some l →
      ComesOff (lexeme l) tail

def Loose : List Piece → Prop
  | [] => True
  | p :: ps => ComesOff p (join ps) ∧ Loose ps

theorem join_cons (p : Piece) (ps : List Piece) : join (p :: ps) = p.text ++ join ps :=
  List.flatMap_cons

theorem ComesOff.cut_append {p : Piece} {tail : Bytes} (h : ComesOff p tail) :
    cut (p.text ++ tail) = p :: cut tail := by
  cases h with
  | gap hf => exact cut_cons_of_none hf
  | @lexeme l b body tail hl hf => rw [text, hl, List.cons_append, cut_append_of_some hl hf]

theorem loose_cut (bs : Bytes) : Loose (cut bs) := by
  induction bs using cut_induction with
  | nil => trivial
  | gap b rest hf ih =>
    rw [cut_cons_of_none hf]
    exact ⟨.gap (by rwa [join_cut]), ih⟩
  | lexeme b body tail l hl hf ih =>
    rw [cut_append_of_some hl hf]
    exact ⟨.lexeme hl (by rwa [join_cut]), ih⟩

theorem cut_join_iff {ps : List Piece} : cut (join ps) = ps ↔ Loose ps := by
  constructor
  · intro h
    have hloose := loose_cut (join ps)
    rwa [h] at hloose
  · intro h
    induction ps with
    | nil => rfl
    | cons p ps ih => rw [join_cons, h.1.cut_append, ih h.2]

end Piece

open Piece (ComesOff)

/-! ## What ends a lexeme -/

def stopBytes : Bytes := [space, comma, openParen, closeParen, dot]

def isStop (b : UInt8) : Bool := stopBytes.contains b

/-- Whether a word, a literal and an operator end before `tail`. -/
def stops : Bytes → Bool
  | [] => true
  | b :: rest => isStop b && (b != dot || !Number.digitNext rest)

theorem isStop_of_stops {tail : Bytes} (h : stops tail) : ∀ c ∈ tail.head?, isStop c := by
  intro c hc
  obtain ⟨rest, rfl⟩ := List.head?_eq_some_iff.1 hc
  exact (Bool.and_eq_true_iff.1 h).1

theorem not_of_isStop {p : UInt8 → Bool} {b : UInt8} (h : isStop b) (hp : stopBytes.all (!p ·)) :
    p b = false := by
  have hb := List.all_eq_true.1 hp b (List.contains_iff_mem.1 h)
  rwa [Bool.not_eq_true'] at hb

theorem isOperatorPart_of_isStop {b : UInt8} (h : isStop b) : Operator.isPart b = false :=
  not_of_isStop h (by decide)

theorem not_goesOn_of_stops {tail : Bytes} (h : stops tail) : Number.goesOn tail = false := by
  cases tail with
  | nil => rfl
  | cons b rest =>
    obtain ⟨hstop, hdot⟩ := Bool.and_eq_true_iff.1 h
    by_cases hb : b = dot
    · have hnext : Number.digitNext rest = false := by simpa [hb] using hdot
      rw [Number.goesOn, hnext, hb]
      rfl
    · have hpart := not_of_isStop (p := fun b => b != dot && Number.isPart b) hstop rfl
      rw [bne_iff_ne.2 hb, Bool.true_and] at hpart
      rw [Number.goesOn, hpart, Bool.false_and]

theorem not_exponentNext_of_stops {tail : Bytes} (h : stops tail) :
    Number.exponentNext tail = false := by
  cases tail with
  | nil => rfl
  | cons b rest =>
    exact not_of_isStop (p := fun b => isDigit b || b == minus || b == plus) (isStop_of_stops h b rfl) rfl

theorem head?_append_of_stops {p : UInt8 → Prop} {body tail : Bytes} (hbody : ∀ c ∈ body.head?, p c)
    (hstop : ∀ c, isStop c → p c) (ht : stops tail) : ∀ c ∈ (body ++ tail).head?, p c := by
  cases body with
  | nil => exact fun c hc => hstop c (isStop_of_stops ht c hc)
  | cons b body => exact hbody

namespace Lexeme

/-- A literal in digits of base two or sixteen, which runs up to a blank, a comma or a parenthesis. -/
def isBlob (l : Lexeme) : Bool :=
  l.kind = .literal && l.text.head? == some zero && l.text.tail.head?.any isBase

def isNumber (l : Lexeme) : Bool :=
  l.kind = .literal && !l.isBlob &&
    l.text.head?.any fun b => isDigit b || b == minus || b == plus || b == dot

/-- A number that was read up to its exponent letter, because a sign without a digit follows it. -/
def isDangling (l : Lexeme) : Bool := l.isNumber && l.text.getLast?.any isExponent

/-- A word that needs no backticks. -/
def isPlain (word : Bytes) : Bool := word.head?.any isWordStart && word.all isWordPart

/-! ## Words -/

theorem comment?_eq_none {b : UInt8} {rest : Bytes} (hhash : b ≠ hash)
    (hminus : b = minus → rest.head? ≠ some minus) (hslash : b = slash → rest.head? ≠ some star) :
    comment? b rest = none := by
  unfold comment?
  rw [if_neg hhash, if_neg, if_neg]
  · rintro ⟨hb, hstar⟩
    exact hslash hb hstar
  · rintro ⟨hb, hhead, -⟩
    exact hminus hb hhead

theorem literal?_eq_none {b : UInt8} {rest : Bytes}
    (hb : b ≠ quote ∧ b ≠ doubleQuote ∧ isDigit b = false)
    (hnext : ∀ c ∈ rest.head?, c ≠ quote ∧ isDigit c = false) : literal? b rest = none := by
  have hzero : b ≠ zero := by
    rintro rfl
    exact absurd hb.2.2 (by decide)
  have hdigit : Number.digitNext rest = false := by
    cases rest with
    | nil => rfl
    | cons c rest => exact (hnext c rfl).2
  unfold literal?
  rw [if_neg (by simp [hb.1, hb.2.1]), if_neg, if_neg (by simp [hzero]), if_neg]
  · simp [hb.2.2, hdigit]
  · rintro ⟨-, hquote⟩
    exact (hnext _ hquote).1 rfl

theorem literal?_eq_none_of_wordStart {b : UInt8} {rest : Bytes} (hb : isWordStart b)
    (hnext : ∀ c ∈ rest.head?, c ≠ quote) : literal? b rest = none := by
  have hne : ∀ c, isWordStart c = false → b ≠ c := fun c hc => ne_of_class hb hc
  unfold literal?
  -- of the letters that start words, those of a base start a literal if a quote follows
  rw [if_neg (by simp [hne quote rfl, hne doubleQuote rfl]), if_neg, if_neg (by simp [hne zero rfl]),
    if_neg]
  · simp [not_digit_of_wordStart b hb, hne minus rfl, hne plus rfl, hne dot rfl]
  · rintro ⟨-, hquote⟩
    exact hnext _ hquote rfl

theorem front?_wordStart {b : UInt8} {rest : Bytes} (hb : isWordStart b)
    (hliteral : literal? b rest = none) :
    front? b rest = some (ofWord (b :: rest.takeWhile isWordPart)) := by
  have hne : ∀ c, isWordStart c = false → b ≠ c := fun c hc => ne_of_class hb hc
  have hblank : isBlank b = false := by
    simp [isBlank, hne space rfl, hne tab rfl, hne newline rfl, hne carriageReturn rfl]
  have hcomment : comment? b rest = none :=
    comment?_eq_none (hne hash rfl) (fun h => absurd h (hne minus rfl))
      fun h => absurd h (hne slash rfl)
  simp [front?, hne star rfl, hne comma rfl, hne openParen rfl, hne closeParen rfl, hne dot rfl,
    hne backtick rfl, hblank, hcomment, hliteral, hb]

theorem comesOff_word {word tail : Bytes} (hword : isPlain word) (ht : stops tail) :
    ComesOff (.lexeme (ofWord word)) tail := by
  obtain ⟨hhead, hall⟩ := Bool.and_eq_true_iff.1 hword
  obtain ⟨b, hb, hstart⟩ := (Option.any_eq_true _ _).1 hhead
  obtain ⟨body, rfl⟩ := List.head?_eq_some_iff.1 hb
  rw [List.all_cons, Bool.and_eq_true, List.all_eq_true] at hall
  have hquote : ∀ c ∈ (body ++ tail).head?, c ≠ quote := by
    refine head?_append_of_stops (fun c hc => ?_) (fun c hc => ne_of_class hc rfl) ht
    exact ne_of_class (hall.2 c (List.mem_of_mem_head? hc)) rfl
  have htake : (body ++ tail).takeWhile isWordPart = body :=
    takeWhile_append_iff.2 ⟨hall.2, fun c hc => not_of_isStop (isStop_of_stops ht c hc) rfl⟩
  refine .lexeme rfl ?_
  rw [front?_wordStart hstart (literal?_eq_none_of_wordStart hstart hquote), htake]

theorem comesOff_name {body tail : Bytes} (h : Delimited.name (body ++ tail) = body) :
    ComesOff (.lexeme { kind := .keyword, text := backtick :: body }) tail := by
  refine .lexeme rfl ?_
  rw [front?_backtick, h]

/-! ## Literals -/

theorem LiteralCase.front?_eq {b : UInt8} {body tail : Bytes} (h : LiteralCase b body tail) :
    front? b (body ++ tail) = some { kind := .literal, text := b :: body } := by
  have key : ∀ b : UInt8, (b = quote ∨ b = doubleQuote) ∨ isBase b ∨ isDigit b ∨ b = minus ∨
      b = plus ∨ b = dot →
      b ≠ star ∧ b ≠ comma ∧ b ≠ openParen ∧ b ≠ closeParen ∧ isBlank b = false ∧ b ≠ hash ∧
        b ≠ slash ∧ (b = minus → ¬ isBase b ∧ ¬ isDigit b) :=
    forall_of_digits (by decide)
  have hb : (b = quote ∨ b = doubleQuote) ∨ isBase b ∨ isDigit b ∨ b = minus ∨ b = plus ∨
      b = dot := by
    cases h with
    | string hq => exact .inl hq
    | quoted hbase => exact .inr (.inl hbase)
    | blob hzero => subst hzero; exact .inr (.inr (.inl rfl))
    | number hfirst => exact .inr (.inr (hfirst.imp_right And.left))
  obtain ⟨h₁, h₂, h₃, h₄, h₅, h₆, h₇, hminus⟩ := key b hb
  have hsign : b = minus → (body ++ tail).head? ≠ some minus := by
    rintro rfl hhead
    obtain ⟨hbase, hdigit⟩ := hminus rfl
    cases h with
    | string hq => exact absurd hq (by decide)
    | quoted hb => exact hbase hb
    | blob hzero => exact absurd hzero (by decide)
    | number hfirst =>
      obtain ⟨-, hnext⟩ := hfirst.resolve_left hdigit
      rw [Number.digitNext, hhead] at hnext
      exact absurd hnext (by decide)
  have hcomment := comment?_eq_none h₆ hsign fun hb => absurd hb h₇
  simp [front?, h₁, h₂, h₃, h₄, h₅, hcomment, h.literal?_eq]

theorem isNumber_of_first {b : UInt8} {body rest : Bytes}
    (hfirst : isDigit b ∨ (b = minus ∨ b = plus ∨ b = dot) ∧ Number.digitNext (body ++ rest))
    (hzero : b = zero → (body ++ rest).head?.any isBase = false) :
    isNumber { kind := .literal, text := b :: body } := by
  have hblob : isBlob { kind := .literal, text := b :: body } = false := by
    cases body with
    | nil => simp [isBlob]
    | cons c body =>
      have hbase : b = zero → isBase c = false := hzero
      simpa [isBlob] using hbase
  rw [isNumber, hblob]
  rcases hfirst with h | ⟨h | h | h, -⟩ <;> simp [h]

variable {b : UInt8} {body rest tail : Bytes}

theorem LiteralCase.replace (h : LiteralCase b body rest) (hend : rest = [] → tail = [])
    (ht : stops tail)
    (hblob : isBlob { kind := .literal, text := b :: body } → tail.head? ≠ some dot)
    (hnumber : isDangling { kind := .literal, text := b :: body } = false) :
    LiteralCase b body tail := by
  have hstop := isStop_of_stops ht
  cases h with
  | string hq hs =>
    have hne : tail.head? ≠ some b := fun hc =>
      hq.elim (ne_of_class (hstop b hc) rfl) (ne_of_class (hstop b hc) rfl)
    have hback : b ≠ backslash := by rcases hq with rfl | rfl <;> decide
    exact .string hq (Delimited.string_replace hend hback hs hne)
  | quoted hbase hbody hinner => exact .quoted hbase hbody (Delimited.through_replace hend hinner)
  | @blob c inner hzero hbase hbody hinner =>
    have hdot : tail.head? ≠ some dot := hblob (by simp [isBlob, hzero, hbody, hbase])
    refine .blob hzero hbase hbody (takeWhile_append_iff.2 ⟨(takeWhile_append_iff.1 hinner).1, ?_⟩)
    intro c hc
    have hpart := not_of_isStop (p := fun c => c != dot && isBlobPart c) (hstop c hc) rfl
    have hne : c ≠ dot := fun e => hdot (e ▸ hc)
    rwa [bne_iff_ne.2 hne, Bool.true_and] at hpart
  | number hfirst hzero htail =>
    -- an exponent letter at the end would hang on the byte behind it
    have hlast : ∀ c ∈ body.getLast?, isExponent c = false := by
      intro c hc
      have hne : body ≠ [] := by rintro rfl; cases hc
      have hc' : (b :: body).getLast? = some c := by rwa [List.getLast?_cons_of_ne_nil hne]
      simpa [isDangling, isNumber_of_first hfirst hzero, hc'] using hnumber
    refine .number ?_ ?_ (Number.tail_replace htail hlast (not_goesOn_of_stops ht))
    · refine hfirst.imp_right (And.imp_right fun hnext => ?_)
      have hne : body ≠ [] := htail ▸ Number.tail_ne_nil_of_digitNext hnext
      obtain ⟨c, inner, rfl⟩ := List.exists_cons_of_ne_nil hne
      exact hnext
    · intro hb
      cases body with
      | nil =>
        cases tail with
        | nil => rfl
        | cons c tail => exact not_of_isStop (p := isBase) (hstop c rfl) rfl
      | cons c body => exact hzero hb

/-! ## Operators and marks -/

theorem first_of_operator : ∀ op ∈ Operator.all, op ≠ [] ∧ ∀ b ∈ op.head?,
    b ≠ comma ∧ b ≠ openParen ∧ b ≠ closeParen ∧ isBlank b = false ∧ b ≠ hash ∧ b ≠ dot ∧
      b ≠ backtick ∧ isWordStart b = false ∧ b ≠ quote ∧ b ≠ doubleQuote ∧ isDigit b = false ∧
      (b = Byte.star → op = [Byte.star]) := by decide +kernel

theorem second_of_operator : ∀ op ∈ Operator.all, ∀ c ∈ op.tail.head?,
    c ≠ minus ∧ c ≠ Byte.star ∧ c ≠ quote ∧ isDigit c = false := by decide +kernel

theorem comesOff_operator {op : Bytes} (hop : op ∈ Operator.all) (hstar : op ≠ [Byte.star])
    (ht : stops tail) : ComesOff (.lexeme { kind := .operator, text := op }) tail := by
  obtain ⟨hne, hhead⟩ := first_of_operator op hop
  obtain ⟨b, body, rfl⟩ := List.exists_cons_of_ne_nil hne
  obtain ⟨h₁, h₂, h₃, h₄, h₅, h₆, h₇, h₈, h₉, h₁₀, h₁₁, hb⟩ := hhead b rfl
  have hnext : ∀ c ∈ (body ++ tail).head?,
      c ≠ minus ∧ c ≠ Byte.star ∧ c ≠ quote ∧ isDigit c = false :=
    head?_append_of_stops (second_of_operator _ hop) (fun c hc => ⟨ne_of_class hc rfl,
      ne_of_class hc rfl, ne_of_class hc rfl, not_of_isStop hc rfl⟩) ht
  have hcomment : comment? b (body ++ tail) = none :=
    comment?_eq_none h₅ (fun _ h => (hnext _ h).1 rfl) fun _ h => (hnext _ h).2.1 rfl
  have hliteral : literal? b (body ++ tail) = none :=
    literal?_eq_none ⟨h₉, h₁₀, h₁₁⟩ fun c hc => (hnext c hc).2.2
  have halone : Operator.front? (b :: body ++ []) = some (b :: body) := by
    rw [List.append_nil]
    exact Operator.front?_self _ hop
  have hwhole : Operator.front? (b :: (body ++ tail)) = some (b :: body) :=
    Operator.front?_replace halone fun c hc => isOperatorPart_of_isStop (isStop_of_stops ht c hc)
  refine .lexeme rfl ?_
  have h₀ : b ≠ Byte.star := fun e => hstar (hb e)
  simp [front?, h₀, h₁, h₂, h₃, h₄, h₆, h₇, h₈, hcomment, hliteral, hwhole]

theorem literal?_dot_iff : literal? dot tail = none ↔ Number.digitNext tail = false := by
  simp +decide [literal?]

theorem comesOff_dot (h : Number.digitNext tail = false) :
    ComesOff (.lexeme { kind := .dot, text := [dot] }) tail := by
  have hcomment : comment? dot tail = none := rfl
  refine .lexeme rfl ?_
  simp +decide [front?, hcomment, literal?_dot_iff.2 h]

end Lexeme

end SqlCanon
