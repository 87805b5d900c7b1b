import SqlCanon.Proofs.Front

/-!
# Where lexemes end

A reader stops for a reason that lies in the bytes it took or in the byte behind them. So a part that
was taken off one source is taken off every source in which nothing behind it could go on with it.
-/

namespace SqlCanon
open Byte

theorem Byte.ne_of_class {p : UInt8 → Bool} {b c : UInt8} (hb : p b = true) (hc : p c = false) :
    b ≠ c := by
  rintro rfl
  rw [hb] at hc
  cases hc

theorem Byte.not_digit_of_wordStart : ∀ b : UInt8, isWordStart b → isDigit b = false :=
  forall_of_digits (by decide)

theorem takeWhile_append_iff {p : UInt8 → Bool} {body tail : Bytes} :
    (body ++ tail).takeWhile p = body ↔ (∀ b ∈ body, p b) ∧ ∀ c ∈ tail.head?, p c = false := by
  induction body with
  | nil =>
    cases tail with
    | nil => simp
    | cons c tail => by_cases hc : p c <;> simp [hc]
  | cons b body ih => by_cases hb : p b <;> simp [hb, ih]

theorem wordPart_of_mem_word {b : UInt8} (hb : isWordStart b) (rest : Bytes) :
    ∀ c ∈ b :: rest.takeWhile isWordPart, isWordPart c := by
  have hpart : isWordPart b := by simp [isWordPart, hb]
  exact List.forall_mem_cons.2 ⟨hpart, fun c hc => List.all_eq_true.1 List.all_takeWhile c hc⟩

namespace Delimited

/-- `part` is all there is of `whole`, or it ends with the closing mark `q`. -/
def Closed (q : UInt8) (part whole : Bytes) : Prop := part = whole ∨ part.getLast? = some q

theorem Closed.cons {q : UInt8} {part whole : Bytes} (h : Closed q part whole) (b : UInt8) :
    Closed q (b :: part) (b :: whole) := by
  rcases h with rfl | h
  · exact .inl rfl
  · right
    rw [List.getLast?_cons, h]
    rfl

theorem string_closed (q : UInt8) (bs : Bytes) : Closed q (string q bs) bs := by
  fun_induction string q bs with
  | case1 => exact .inl rfl
  | case2 => exact .inl rfl
  | case3 c rest ih => exact (ih.cons c).cons _
  | case4 => exact .inl rfl
  | case5 rest _ ih => exact (ih.cons q).cons q
  | case6 => exact .inr rfl
  | case7 b rest _ _ ih => exact ih.cons b

theorem name_closed (bs : Bytes) : Closed backtick (name bs) bs := by
  fun_induction name bs with
  | case1 => exact .inl rfl
  | case2 => exact .inl rfl
  | case3 rest ih => exact (ih.cons _).cons _
  | case4 => exact .inr rfl
  | case5 b rest _ ih => exact ih.cons b

theorem through_closed (q : UInt8) (bs : Bytes) : Closed q (through q bs) bs := by
  fun_induction through q bs with
  | case1 => exact .inl rfl
  | case2 => exact .inr rfl
  | case3 b rest _ ih => exact ih.cons b

theorem block_closed (bs : Bytes) : Closed slash (block bs) bs := by
  fun_induction block bs with
  | case1 => exact .inl rfl
  | case2 b rest h =>
    right
    obtain ⟨rest, rfl⟩ := List.head?_eq_some_iff.1 h.2
    rfl
  | case3 b rest _ ih => exact ih.cons b

theorem Closed.eq_nil {q : UInt8} {whole : Bytes} (h : Closed q [] whole) : whole = [] := by
  rcases h with h | h
  · exact h.symm
  · cases h

/-! A part that is not closed takes the whole source, so what follows it must stay away with it. -/

section
variable {q : UInt8} {body rest tail : Bytes} (hend : rest = [] → tail = [])
include hend

theorem through_replace (h : through q (body ++ rest) = body) : through q (body ++ tail) = body := by
  induction body with
  | nil =>
    have hrest : Closed q [] rest := h ▸ through_closed q rest
    rw [hend hrest.eq_nil]
    rfl
  | cons b body ih =>
    rw [List.cons_append, through] at h ⊢
    split
    · next hb => rwa [if_pos hb] at h
    · next hb =>
      rw [if_neg hb, List.cons.injEq] at h
      rw [ih h.2]

theorem block_replace (h : block (body ++ rest) = body) : block (body ++ tail) = body := by
  induction body with
  | nil =>
    have hrest : Closed slash [] rest := h ▸ block_closed rest
    rw [hend hrest.eq_nil]
    rfl
  | cons b body ih =>
    rw [List.cons_append, block] at h ⊢
    cases body with
    | nil =>
      have hrest : rest = [] := by
        split at h
        · next hb =>
          obtain ⟨rest, rfl⟩ := List.head?_eq_some_iff.1 hb.2
          cases h
        · have hclosed : Closed slash [] rest := (List.cons.inj h).2 ▸ block_closed rest
          exact hclosed.eq_nil
      rw [hend hrest]
      simp [block]
    | cons c body =>
      by_cases hb : b = star ∧ c = slash
      · simp only [List.cons_append, List.head?_cons, hb, and_self, if_true] at h ⊢
        exact h
      · have hne : ∀ more : Bytes, ¬ (b = star ∧ (c :: body ++ more).head? = some slash) := by
          simpa using hb
        rw [if_neg (hne rest), List.cons.injEq] at h
        rw [if_neg (hne tail), ih h.2]

theorem name_replace (h : name (body ++ rest) = body) (htail : tail.head? ≠ some backtick) :
    name (body ++ tail) = body := by
  fun_induction name body with
  | case1 =>
    have hrest : Closed backtick [] rest := h ▸ name_closed rest
    rw [hend hrest.eq_nil]
    rfl
  | case2 => exact name_close htail
  | case3 body ih =>
    simp only [List.cons_append, name_doubled, List.cons.injEq, true_and] at h ⊢
    exact ih h
  | case4 c body hc =>
    have hne : (c :: body ++ rest).head? ≠ some backtick := by simpa using hc
    rw [List.cons_append, name_close hne] at h
    cases h
  | case5 b body hb ih =>
    rw [List.cons_append, name_cons_of_ne hb, List.cons.injEq] at h ⊢
    exact ⟨rfl, ih h.2⟩

theorem string_replace (hq : q ≠ backslash) (h : string q (body ++ rest) = body)
    (htail : tail.head? ≠ some q) : string q (body ++ tail) = body := by
  fun_induction string q body with
  | case1 =>
    have hrest : Closed q [] rest := h ▸ string_closed q rest
    rw [hend hrest.eq_nil]
    rfl
  | case2 =>
    have hrest : rest = [] := by
      cases rest with
      | nil => rfl
      | cons c rest => simp [string] at h
    rw [hend hrest, List.append_nil, string]
    rfl
  | case3 c body ih =>
    simp only [List.cons_append, string, if_true, List.cons.injEq, true_and] at h ⊢
    exact ih h
  | case4 => exact string_close hq htail
  | case5 body _ ih =>
    simp only [List.cons_append, string_doubled hq, List.cons.injEq, true_and] at h ⊢
    exact ih h
  | case6 c body hc =>
    have hne : (c :: body ++ rest).head? ≠ some q := by simpa using hc
    rw [List.cons_append, string_close hq hne] at h
    cases h
  | case7 b body h₁ h₂ ih =>
    rw [List.cons_append, string_cons_of_ne h₁ h₂, List.cons.injEq] at h ⊢
    exact ⟨rfl, ih h.2⟩

end

/-! A part that ends before more of the source is not followed by its own mark, which would be doubled. -/

theorem head?_ne_of_name {body rest : Bytes} (h : name (body ++ rest) = body) :
    rest.head? ≠ some backtick := by
  intro hr
  obtain ⟨rest, rfl⟩ := List.head?_eq_some_iff.1 hr
  fun_induction name body with
  | case1 =>
    have hrest : Closed backtick [] (backtick :: rest) := h ▸ name_closed (backtick :: rest)
    cases hrest.eq_nil
  | case2 => simp [name_doubled] at h
  | case3 body ih =>
    simp only [List.cons_append, name_doubled, List.cons.injEq, true_and] at h
    exact ih h
  | case4 c body hc =>
    have hne : (c :: body ++ backtick :: rest).head? ≠ some backtick := by simpa using hc
    rw [List.cons_append, name_close hne] at h
    cases h
  | case5 b body hb ih =>
    rw [List.cons_append, name_cons_of_ne hb, List.cons.injEq] at h
    exact ih h.2

theorem head?_ne_of_string {q : UInt8} (hq : q ≠ backslash) {body rest : Bytes}
    (h : string q (body ++ rest) = body) : rest.head? ≠ some q := by
  intro hr
  obtain ⟨rest, rfl⟩ := List.head?_eq_some_iff.1 hr
  fun_induction string q body with
  | case1 =>
    have hrest : Closed q [] (q :: rest) := h ▸ string_closed q (q :: rest)
    cases hrest.eq_nil
  | case2 => simp [string] at h
  | case3 c body ih =>
    simp only [List.cons_append, string, if_true, List.cons.injEq, true_and] at h
    exact ih h
  | case4 => simp [string_doubled hq] at h
  | case5 body _ ih =>
    simp only [List.cons_append, string_doubled hq, List.cons.injEq, true_and] at h
    exact ih h
  | case6 c body hc =>
    have hne : (c :: body ++ q :: rest).head? ≠ some q := by simpa using hc
    rw [List.cons_append, string_close hq hne] at h
    cases h
  | case7 b body h₁ h₂ ih =>
    rw [List.cons_append, string_cons_of_ne h₁ h₂, List.cons.injEq] at h
    exact ih h.2

theorem name_map {f : UInt8 → UInt8} (hf : ∀ b, f b = backtick ↔ b = backtick) (bs : Bytes) :
    name (bs.map f) = (name bs).map f := by
  have hb : f backtick = backtick := (hf backtick).2 rfl
  fun_induction name bs with
  | case1 => rfl
  | case2 => simp [name, hb]
  | case3 rest ih => simp [name, hb, ih]
  | case4 c rest hc => simp [name, hb, hf, hc]
  | case5 b rest h ih =>
    have hne : f b ≠ backtick := fun e => h ((hf b).1 e)
    rw [List.map_cons, name_cons_of_ne hne, ih, List.map_cons]

end Delimited

/-! ## Numbers -/

namespace Number

def isPart (b : UInt8) : Bool :=
  isDigit b || b == dot || b == minus || b == plus || isExponent b

theorem not_digit_of_exponent : ∀ b : UInt8, isExponent b →
    ¬ isDigit b ∧ b ≠ minus ∧ b ≠ plus ∧ b ≠ dot :=
  forall_of_digits (by decide)

theorem isPart_of_continues {last : UInt8} {pointed : Bool} {b : UInt8} {rest : Bytes}
    (h : continues last pointed b rest) : isPart b := by
  simp only [continues, isPart, Bool.or_eq_true, Bool.and_eq_true] at h ⊢
  rcases h with (((h | h) | h) | h) | h
  · exact .inl (.inl (.inl (.inl h)))
  · exact .inl (.inl (.inl (.inr h.1.1)))
  · exact .inl (.inl (.inr h.1))
  · exact .inl (.inr h.1.1)
  · exact .inr h.1

theorem isPart_of_mem_tail {last : UInt8} {pointed : Bool} {bs : Bytes} :
    ∀ b ∈ tail last pointed bs, isPart b := by
  fun_induction tail last pointed bs with
  | case1 => simp
  | case2 last pointed b rest h ih =>
    rw [List.forall_mem_cons]
    exact ⟨isPart_of_continues h, ih⟩
  | case3 => simp

/-- Whether `bs` may go on with a number whose last byte is a digit. -/
def goesOn (bs : Bytes) : Bool :=
  match bs with
  | [] => false
  | b :: rest => isPart b && (b != dot || digitNext rest)

theorem tail_of_not_goesOn {last : UInt8} {pointed : Bool} {bs : Bytes} (h : goesOn bs = false) :
    tail last pointed bs = [] := by
  cases bs with
  | nil => rfl
  | cons b rest =>
    rw [tail, if_neg]
    intro hc
    have hpart := isPart_of_continues hc
    have hdot : b = dot → digitNext rest := by
      rintro rfl
      simp only [continues, Bool.or_eq_true, Bool.and_eq_true] at hc
      rcases hc with (((hc | hc) | hc) | hc) | hc
      · cases hc
      · exact hc.2
      · cases hc.1
      · cases hc.1.1
      · cases hc.1
    rw [goesOn, hpart] at h
    by_cases hb : b = dot
    · simp [hdot hb] at h
    · simp [hb] at h

theorem tail_ne_nil_of_digitNext {last : UInt8} {pointed : Bool} {bs : Bytes}
    (h : digitNext bs) : tail last pointed bs ≠ [] := by
  cases bs with
  | nil => cases h
  | cons b rest =>
    have hb : isDigit b = true := h
    simp [tail, continues, hb]

theorem isDigit_of_tail_nil {last : UInt8} {pointed : Bool} {b : UInt8} {rest : Bytes} {p : Bool}
    (hc : continues last pointed b rest) (h : tail b p rest = []) (hb : isExponent b = false) :
    isDigit b := by
  have hno : digitNext rest = false := by
    cases hd : digitNext rest with
    | false => rfl
    | true => exact absurd h (tail_ne_nil_of_digitNext hd)
  simpa [continues, hno, hb] using hc

theorem tail_replace {last : UInt8} {pointed : Bool} {body rest bs : Bytes}
    (h : tail last pointed (body ++ rest) = body)
    (hlast : ∀ b ∈ body.getLast?, isExponent b = false) (hbs : goesOn bs = false) :
    tail last pointed (body ++ bs) = body := by
  induction body generalizing last pointed with
  | nil => exact tail_of_not_goesOn hbs
  | cons b body ih =>
    rw [List.cons_append, tail] at h
    split at h
    next hc =>
      rw [List.cons.injEq] at h
      cases body with
      | nil =>
        have hdigit := isDigit_of_tail_nil hc h.2 (hlast b rfl)
        simp [tail, continues, hdigit, tail_of_not_goesOn hbs]
      | cons c body =>
        rw [List.cons_append, tail, if_pos (by exact hc), ih h.2 hlast]
    next => cases h

theorem exponentNext_of_tail {last : UInt8} {pointed : Bool} {body rest : Bytes} {b : UInt8}
    (h : tail last pointed (body ++ rest) = body) (hb : body.getLast? = some b) (he : isExponent b) :
    exponentNext rest := by
  induction body generalizing last pointed with
  | nil => cases hb
  | cons c body ih =>
    rw [List.cons_append, tail] at h
    split at h
    next hc =>
      rw [List.cons.injEq] at h
      cases body with
      | nil =>
        obtain rfl := Option.some.inj hb
        have hnext : isExponent c ∧ exponentNext rest := by
          simpa [continues, not_digit_of_exponent c he] using hc
        exact hnext.2
      | cons d body => exact ih h.2 hb
    next => cases h

end Number

/-! ## Operators -/

namespace Operator

def isPart (b : UInt8) : Bool := all.any (·.contains b)

theorem isOperator_extend {read : Bytes} {best : Option Bytes} {bs op : Bytes}
    (hbest : ∀ b, best = some b → isOperator b) (h : extend read best bs = some op) :
    isOperator op := by
  fun_induction extend read best bs with
  | case1 => exact hbest op h
  | case2 read best b rest longer _ ih =>
    refine ih (fun c hc => ?_) h
    split at hc
    · next hl => cases hc; exact hl
    · exact hbest c hc
  | case3 => exact hbest op h

theorem mem_all_of_front? {bs op : Bytes} (h : front? bs = some op) : op ∈ all := by
  have hop : isOperator op := isOperator_extend (by simp) h
  rwa [isOperator, List.contains_iff_mem] at hop

theorem front?_self : ∀ op ∈ all, front? op = some op := by decide

theorem not_startsOperator_append {c : UInt8} (hc : isPart c = false) (bs : Bytes) :
    startsOperator (bs ++ [c]) = false := by
  rw [Bool.eq_false_iff]
  intro h
  simp only [startsOperator, Bool.and_eq_true, List.any_eq_true, List.isPrefixOf_iff_prefix] at h
  obtain ⟨-, op, hop, hp⟩ := h
  have hmem : c ∈ op := hp.subset (by simp)
  have : isPart c = true := List.any_eq_true.2 ⟨op, hop, by simpa using hmem⟩
  rw [hc] at this
  cases this

theorem extend_append {tail : Bytes} (ht : ∀ c ∈ tail.head?, isPart c = false) (read : Bytes)
    (best : Option Bytes) (bs : Bytes) : extend read best (bs ++ tail) = extend read best bs := by
  fun_induction extend read best bs with
  | case1 read best =>
    cases tail with
    | nil => rfl
    | cons c tail =>
      have hc := not_startsOperator_append (ht c rfl) read
      rw [List.nil_append, extend, if_neg (by simp [hc])]
  | case2 read best b rest longer hs ih => rw [List.cons_append, extend, if_pos hs]; exact ih
  | case3 read best b rest longer hs => rw [List.cons_append, extend, if_neg hs]

theorem front?_replace {op rest tail : Bytes} (h : front? (op ++ rest) = some op)
    (ht : ∀ c ∈ tail.head?, isPart c = false) : front? (op ++ tail) = some op := by
  rw [front?, extend_append ht]
  exact front?_self op (mem_all_of_front? h)

end Operator

/-! ## Literals -/

theorem opened_iff {f : Bytes → Bytes} {c : UInt8} {body tail : Bytes}
    (hc : (body ++ tail).head? = some c) :
    (body ++ tail).take 1 ++ f ((body ++ tail).drop 1) = body ↔
      ∃ inner, body = c :: inner ∧ f (inner ++ tail) = inner := by
  constructor
  · intro h
    obtain ⟨rest, hrest⟩ := List.head?_eq_some_iff.1 hc
    rw [hrest] at h
    have hbody : body = c :: f rest := h.symm
    rw [hbody, List.cons_append, List.cons.injEq] at hrest
    exact ⟨f rest, hbody, by rw [hrest.2]⟩
  · rintro ⟨inner, rfl, h⟩
    simp [h]

namespace Lexeme

def isBase (b : UInt8) : Bool := toLower b == 0x62 || toLower b == 0x78

/-- How a literal is read: `b` is its first byte, `body` the rest of it, and `tail` what follows. -/
inductive LiteralCase (b : UInt8) (body tail : Bytes) : Prop
  | string : b = quote ∨ b = doubleQuote → Delimited.string b (body ++ tail) = body →
      LiteralCase b body tail
  | quoted {inner} : isBase b → body = quote :: inner →
      Delimited.through quote (inner ++ tail) = inner → LiteralCase b body tail
  | blob {c inner} : b = zero → isBase c → body = c :: inner →
      (inner ++ tail).takeWhile isBlobPart = inner → LiteralCase b body tail
  | number : (isDigit b ∨ (b = minus ∨ b = plus ∨ b = dot) ∧ Number.digitNext (body ++ tail)) →
      (b = zero → (body ++ tail).head?.any isBase = false) →
      Number.tail b (b == dot) (body ++ tail) = body → LiteralCase b body tail

theorem isBase_iff {b : UInt8} : isBase b ↔ toLower b = 0x62 ∨ toLower b = 0x78 := by
  simp [isBase]

theorem not_base_of_first : ∀ b : UInt8, isDigit b ∨ b = minus ∨ b = plus ∨ b = dot →
    b ≠ quote ∧ b ≠ doubleQuote ∧ isBase b = false :=
  forall_of_digits (by decide)

theorem ne_of_isBase : ∀ b : UInt8, isBase b → b ≠ quote ∧ b ≠ doubleQuote :=
  forall_of_digits (by decide)

theorem literalCase {b : UInt8} {body tail : Bytes} (h : literal? b (body ++ tail) = some body) :
    LiteralCase b body tail := by
  unfold literal? at h
  split at h
  · next hq => exact .string hq (Option.some.inj h)
  split at h
  · next hb =>
    obtain ⟨inner, hbody, hinner⟩ := (opened_iff hb.2).1 (Option.some.inj h)
    exact .quoted (isBase_iff.2 hb.1) hbody hinner
  split at h
  · next hb =>
    obtain ⟨c, hhead, hbase⟩ := (Option.any_eq_true _ _).1 hb.2
    obtain ⟨inner, hbody, hinner⟩ := (opened_iff hhead).1 (Option.some.inj h)
    exact .blob hb.1 hbase hbody hinner
  split at h
  · next hzero hfirst =>
    exact .number hfirst (fun hb => Bool.eq_false_iff.2 fun hany => hzero ⟨hb, hany⟩)
      (Option.some.inj h)
  · cases h

theorem LiteralCase.literal?_eq {b : UInt8} {body tail : Bytes} (h : LiteralCase b body tail) :
    literal? b (body ++ tail) = some body := by
  unfold literal?
  cases h with
  | string hq hs => rw [if_pos hq, hs]
  | @quoted inner hb hbody hinner =>
    have hhead : (body ++ tail).head? = some quote := by rw [hbody]; rfl
    rw [if_neg (by simpa [not_or] using ne_of_isBase b hb), if_pos ⟨isBase_iff.1 hb, hhead⟩,
      (opened_iff hhead).2 ⟨inner, hbody, hinner⟩]
  | @blob c inner hb hc hbody hinner =>
    have hhead : (body ++ tail).head? = some c := by rw [hbody]; rfl
    subst hb
    rw [if_neg (by decide), if_neg (by rintro ⟨h, -⟩; revert h; decide),
      if_pos ⟨rfl, by rw [hhead]; exact hc⟩, (opened_iff hhead).2 ⟨inner, hbody, hinner⟩]
  | number hfirst hzero htail =>
    have hb := not_base_of_first b (hfirst.imp_right And.left)
    rw [if_neg (by simp [hb.1, hb.2.1]), if_neg, if_neg, if_pos hfirst, htail]
    · rintro ⟨h, hany⟩
      exact Bool.eq_false_iff.1 (hzero h) hany
    · rintro ⟨h, -⟩
      exact Bool.eq_false_iff.1 hb.2.2 (isBase_iff.2 h)

end Lexeme

end SqlCanon
