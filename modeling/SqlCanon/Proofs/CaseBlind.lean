import SqlCanon.Proofs.Munch
import SqlCanon.Proofs.Output
import SqlCanon.Proofs.Rows
import SqlCanon.Proofs.Starts

/-!
# Letter case goes unseen

No reader tells a letter from the same letter in the other case. So a source whose letters are folded is
cut where the source itself is, into the folded pieces. An output that folds its keywords shows both alike.
-/

namespace SqlCanon
open Byte

variable (c : KeywordCase)

namespace KeywordCase

theorem head?_map_eq_iff {m : UInt8} (hm : isLetter m = false) (bs : Bytes) :
    (bs.map c.fold).head? = some m ↔ bs.head? = some m := by
  cases bs with
  | nil => rfl
  | cons b rest => simpa using c.fold_eq_iff b hm

theorem takeWhile_map {p : UInt8 → Bool} (hp : ∀ b, p (c.fold b) = p b) (bs : Bytes) :
    (bs.map c.fold).takeWhile p = (bs.takeWhile p).map c.fold := by
  have hcomp : p ∘ c.fold = p := funext hp
  rw [List.takeWhile_map, hcomp]

theorem map_fold_eq_self {bs : Bytes} (h : ∀ b ∈ bs, isLetter b = false) : bs.map c.fold = bs := by
  rw [List.map_congr_left fun b hb => c.fold_of_not_letter (h b hb), List.map_id']

theorem prefix_map_iff {text : Bytes} (h : ∀ b ∈ text, isLetter b = false) {bs : Bytes} :
    text <+: bs.map c.fold ↔ text <+: bs := by
  induction text generalizing bs with
  | nil => simp
  | cons m text ih =>
    rw [List.forall_mem_cons] at h
    cases bs with
    | nil => simp
    | cons b bs =>
      rw [List.map_cons, List.cons_prefix_cons, List.cons_prefix_cons, ih h.2, eq_comm,
        c.fold_eq_iff b h.1, eq_comm]

end KeywordCase

/-! ## Readers -/

namespace Delimited

theorem through_map {q : UInt8} (hq : isLetter q = false) (bs : Bytes) :
    through q (bs.map c.fold) = (through q bs).map c.fold := by
  have hmark : ∀ b, c.fold b = q ↔ b = q := fun b => c.fold_eq_iff b hq
  induction bs with
  | nil => rfl
  | cons b rest ih => by_cases hb : b = q <;> simp [through, hmark, hb, (hmark q).2 rfl, ih]

theorem block_map (bs : Bytes) : block (bs.map c.fold) = (block bs).map c.fold := by
  induction bs with
  | nil => rfl
  | cons b rest ih =>
    have hclose : c.fold b = star ∧ (rest.map c.fold).head? = some slash ↔
        b = star ∧ rest.head? = some slash :=
      and_congr (c.fold_eq_iff b rfl) (c.head?_map_eq_iff rfl rest)
    rw [List.map_cons, block, block]
    by_cases hb : b = star ∧ rest.head? = some slash
    · rw [if_pos hb, if_pos (hclose.2 hb), List.map_cons, List.map_take]
    · rw [if_neg hb, if_neg (mt hclose.1 hb), ih, List.map_cons]

theorem string_map {q : UInt8} (hq : isLetter q = false) (bs : Bytes) :
    string q (bs.map c.fold) = (string q bs).map c.fold := by
  have hmark : ∀ b, c.fold b = q ↔ b = q := fun b => c.fold_eq_iff b hq
  have hback : ∀ b, c.fold b = backslash ↔ b = backslash := fun b => c.fold_eq_iff b rfl
  have hquote : c.fold q = q := (hmark q).2 rfl
  have hslash : c.fold backslash = backslash := (hback backslash).2 rfl
  fun_induction string q bs with
  | case1 => rfl
  | case2 => simp [string, hslash]
  | case3 d rest ih => simp [string, hslash, ih]
  | case4 hb => simp [string, hquote, hb]
  | case5 rest hb ih => simp [string, hquote, hb, ih]
  | case6 d rest hb hd => simp [string, hquote, hb, hmark, hd]
  | case7 b rest h₁ h₂ ih =>
    have hne := string_cons_of_ne (mt (hback b).1 h₁) (mt (hmark b).1 h₂) (rest.map c.fold)
    rw [List.map_cons, hne, ih, List.map_cons]

end Delimited

namespace Number

theorem digitNext_map (rest : Bytes) : digitNext (rest.map c.fold) = digitNext rest := by
  simp [digitNext, Option.any_map, c.isDigit_fold]

theorem continues_map (last : UInt8) (pointed : Bool) (b : UInt8) (rest : Bytes) :
    continues (c.fold last) pointed (c.fold b) (rest.map c.fold) = continues last pointed b rest := by
  have hnext : exponentNext (rest.map c.fold) = exponentNext rest := by
    simp [exponentNext, Option.any_map, c.isDigit_fold, c.fold_beq _ (m := minus) rfl,
      c.fold_beq _ (m := plus) rfl]
  simp only [continues, c.isDigit_fold, digitNext_map, c.isExponent_fold, hnext,
    c.fold_beq _ (m := dot) rfl, c.fold_beq _ (m := minus) rfl, c.fold_beq _ (m := plus) rfl]

theorem tail_map (last : UInt8) (pointed : Bool) (bs : Bytes) :
    tail (c.fold last) pointed (bs.map c.fold) = (tail last pointed bs).map c.fold := by
  induction bs generalizing last pointed with
  | nil => rfl
  | cons b rest ih =>
    rw [List.map_cons, tail, tail, continues_map, c.fold_beq b (m := dot) rfl, ih]
    split <;> rfl

end Number

namespace Operator

theorem not_letter_of_mem : ∀ op ∈ all, ∀ b ∈ op, isLetter b = false := by decide +kernel

theorem front?_map (bs : Bytes) : front? (bs.map c.fold) = front? bs := by
  have hstart : ∀ op ∈ all, (op <+: bs.map c.fold ↔ op <+: bs) := fun op hop =>
    c.prefix_map_iff (not_letter_of_mem op hop)
  cases h : front? bs with
  | none =>
    rw [front?_eq_none_iff] at h ⊢
    exact fun op hop => mt (hstart op hop).1 (h op hop)
  | some op =>
    obtain ⟨hop, hp, hmax⟩ := front?_eq_some_iff.1 h
    refine front?_eq_some_iff.2 ⟨hop, (hstart op hop).2 hp, fun other hother hp' => ?_⟩
    exact hmax other hother ((hstart other hother).1 hp')

end Operator

namespace Lexeme

theorem comment?_map (b : UInt8) (rest : Bytes) :
    comment? (c.fold b) (rest.map c.fold) = (comment? b rest).map (·.map c.fold) := by
  have hline : Delimited.line (rest.map c.fold) = (Delimited.line rest).map c.fold :=
    c.takeWhile_map (fun b => c.class_fold b fun b h => bne_iff_ne.2 (ne_of_class h rfl)) rest
  have hblank : (rest.map c.fold).tail.head?.all isBlank = rest.tail.head?.all isBlank := by
    simp [← List.map_tail, Option.all_map, c.isBlank_fold]
  unfold comment?
  simp only [c.fold_eq_iff b (m := hash) rfl, c.fold_eq_iff b (m := minus) rfl,
    c.fold_eq_iff b (m := slash) rfl, c.head?_map_eq_iff (m := minus) rfl,
    c.head?_map_eq_iff (m := star) rfl, hline, hblank, ← List.map_take, ← List.map_drop,
    Delimited.block_map]
  split
  · rfl
  split
  · rfl
  split
  · rw [Option.map_some, List.map_append]
  · rfl

theorem literal?_map (b : UInt8) (rest : Bytes) :
    literal? (c.fold b) (rest.map c.fold) = (literal? b rest).map (·.map c.fold) := by
  have hbase : (rest.map c.fold).head?.any (fun d => toLower d == 0x62 || toLower d == 0x78) =
      rest.head?.any (fun d => toLower d == 0x62 || toLower d == 0x78) := by
    simp [Option.any_map, c.toLower_fold]
  have hblob : ∀ b, isBlobPart (c.fold b) = isBlobPart b := fun b =>
    c.class_fold b (forall_of_digits (by decide) : ∀ b, isLetter b → isBlobPart b = true)
  unfold literal?
  simp only [c.fold_eq_iff b (m := quote) rfl, c.fold_eq_iff b (m := doubleQuote) rfl, c.toLower_fold,
    c.head?_map_eq_iff (m := quote) rfl, c.fold_eq_iff b (m := zero) rfl, hbase, c.isDigit_fold,
    c.fold_eq_iff b (m := minus) rfl, c.fold_eq_iff b (m := plus) rfl,
    c.fold_eq_iff b (m := dot) rfl, Number.digitNext_map, ← List.map_take, ← List.map_drop,
    Delimited.through_map c (q := quote) rfl, c.takeWhile_map hblob, c.fold_beq b (m := dot) rfl,
    Number.tail_map]
  split
  · next hq =>
    have hletter : isLetter b = false := by rcases hq with rfl | rfl <;> rfl
    rw [c.fold_of_not_letter hletter, Delimited.string_map c hletter]
    rfl
  split
  · rw [Option.map_some, List.map_append]
  split
  · rw [Option.map_some, List.map_append]
  split
  · rfl
  · rfl

/-- A lexeme of any kind with all its letters folded. -/
def folded (l : Lexeme) : Lexeme := { l with text := l.text.map c.fold }

theorem front?_map (b : UInt8) (rest : Bytes) :
    front? (c.fold b) (rest.map c.fold) = (front? b rest).map (folded c) := by
  have hmark : ∀ {m : UInt8}, isLetter m = false → (c.fold b = m ↔ b = m) := fun hm =>
    c.fold_eq_iff b hm
  have hblank : isBlank b = false → isBlank (c.fold b) = false := (c.isBlank_fold b).trans
  have hcomment : comment? b rest = none → comment? (c.fold b) (rest.map c.fold) = none := fun h => by
    rw [comment?_map, h]
    rfl
  have hliteral : literal? b rest = none → literal? (c.fold b) (rest.map c.fold) = none := fun h => by
    rw [literal?_map, h]
    rfl
  have hother : b ∉ [star, comma, openParen, closeParen, dot, backtick] →
      c.fold b ∉ [star, comma, openParen, closeParen, dot, backtick] := fun h => by
    simpa [hmark (m := star) rfl, hmark (m := comma) rfl, hmark (m := openParen) rfl,
      hmark (m := closeParen) rfl, hmark (m := dot) rfl, hmark (m := backtick) rfl] using h
  have hword : isWordStart b = false → isWordStart (c.fold b) = false := (c.isWordStart_fold b).trans
  have hop : Operator.front? (c.fold b :: rest.map c.fold) = Operator.front? (b :: rest) :=
    Operator.front?_map c (b :: rest)
  -- the folded bytes fall into the case of the bytes themselves, and each case fixes its answer
  apply FrontCase.front?_eq
  generalize hf : front? b rest = answer
  cases front?_cases hf with
  | star hb => exact .star ((hmark rfl).2 hb)
  | comma hb => exact .comma ((hmark rfl).2 hb)
  | openParen hb => exact .openParen ((hmark rfl).2 hb)
  | closeParen hb => exact .closeParen ((hmark rfl).2 hb)
  | blank hb => exact .blank ((c.isBlank_fold b).trans hb)
  | comment hb hc => exact .comment (hblank hb) (by rw [comment?_map, hc]; rfl)
  | literal hb hc hl => exact .literal (hblank hb) (hcomment hc) (by rw [literal?_map, hl]; rfl)
  | dot hb hl => exact .dot ((hmark rfl).2 hb) (hliteral hl)
  | name hb =>
    have hname := Delimited.name_map (fun b => c.fold_eq_iff b rfl) rest
    rw [Option.map_some, folded, List.map_cons, ← hname]
    exact .name ((hmark rfl).2 hb)
  | word hb hl =>
    have hsame : (ofWord (b :: rest.takeWhile isWordPart)).folded c =
        ofWord (c.fold b :: (rest.map c.fold).takeWhile isWordPart) := by
      rw [c.takeWhile_map c.isWordPart_fold, ← List.map_cons, ofWord_map]
      rfl
    rw [Option.map_some, hsame]
    exact .word ((c.isWordStart_fold b).trans hb) (hliteral hl)
  | @operator op hb hw hc hl hfront =>
    have hletters := Operator.not_letter_of_mem op (Operator.mem_all_of_front? hfront)
    rw [Option.map_some, folded, c.map_fold_eq_self hletters]
    exact .operator (hother hb) (hword hw) (hcomment hc) (hliteral hl) (hop.trans hfront)
  | nothing hb hw hc hl hfront =>
    exact .nothing (hother hb) (hword hw) (hcomment hc) (hliteral hl) (hop.trans hfront)

end Lexeme

/-! ## Pieces and tokens -/

namespace Piece

def folded : Piece → Piece
  | gap b => gap (c.fold b)
  | lexeme l => lexeme (l.folded c)

theorem cut_map (bs : Bytes) : cut (bs.map c.fold) = (cut bs).map (folded c) := by
  induction bs using cut_induction with
  | nil => rfl
  | gap b rest hf ih =>
    have hfold : Lexeme.front? (c.fold b) (rest.map c.fold) = none := by
      rw [Lexeme.front?_map, hf]
      rfl
    rw [List.map_cons, cut_cons_of_none hfold, cut_cons_of_none hf, ih]
    rfl
  | lexeme b body tail l hl hf ih =>
    have hfold : Lexeme.front? (c.fold b) (body.map c.fold ++ tail.map c.fold) =
        some (l.folded c) := by
      rw [← List.map_append, Lexeme.front?_map, hf]
      rfl
    have htext : (l.folded c).text = c.fold b :: body.map c.fold := by
      rw [Lexeme.folded, hl]
      rfl
    rw [List.map_cons, List.map_append, cut_append_of_some htext hfold, cut_append_of_some hl hf, ih]
    rfl

theorem place_map (offset : Nat) (ps : List Piece) :
    place offset (ps.map (folded c)) =
      (place offset ps).map fun (start, l) => (start, l.folded c) := by
  induction ps generalizing offset with
  | nil => rfl
  | cons p ps ih =>
    cases p with
    | gap b => exact ih (offset + 1)
    | lexeme l => simp [folded, place, ih, Lexeme.folded]

end Piece

theorem tokens_map (source : Bytes) : tokens (source.map c.fold) = tokens source := by
  rw [tokens, Piece.cut_map, Piece.place_map, List.map_map, tokens]
  refine List.map_congr_left fun p _ => ?_
  simp [Token.ofLexeme, Lexeme.folded]

theorem allTokens_map (source : Bytes) : allTokens (source.map c.fold) = allTokens source := by
  rw [allTokens, tokens_map, List.length_map, allTokens]

theorem lexemes_map (source : Bytes) :
    lexemes (source.map c.fold) = (lexemes source).map (Lexeme.folded c) := by
  rw [lexemes, Piece.cut_map, List.filterMap_map, lexemes, List.map_filterMap]
  refine List.filterMap_congr fun p _ => ?_
  cases p <;> rfl

/-! ## Outputs -/

theorem Lexeme.folded_eq_inCase {source : Bytes} {l : Lexeme} (h : l ∈ lexemes source)
    (hliteral : l.kind ≠ .literal) (hcomment : l.kind ≠ .comment) : l.folded c = l.inCase c := by
  refine forall_lexemes (P := fun l => l.kind ≠ .literal → l.kind ≠ .comment → l.folded c = l.inCase c)
    (fun b rest l hf => ?_) source l h hliteral hcomment
  have hself : ∀ {l : Lexeme}, l.kind ≠ .keyword → (∀ b ∈ l.text, isLetter b = false) →
      l.folded c = l.inCase c := fun hkind hl => by
    rw [folded, c.map_fold_eq_self hl, inCase, if_neg hkind]
  intro hliteral hcomment
  cases front?_cases hf with
  | star hb => subst hb; exact hself (by decide) (List.forall_mem_singleton.2 rfl)
  | comma hb => subst hb; exact hself (by decide) (List.forall_mem_singleton.2 rfl)
  | openParen hb => subst hb; exact hself (by decide) (List.forall_mem_singleton.2 rfl)
  | closeParen hb => subst hb; exact hself (by decide) (List.forall_mem_singleton.2 rfl)
  | dot hb => subst hb; exact hself (by decide) (List.forall_mem_singleton.2 rfl)
  | comment => exact absurd rfl hcomment
  | literal => exact absurd rfl hliteral
  | name => exact (if_pos rfl).symm
  | word => exact (if_pos rfl).symm
  | operator _ _ _ _ hop =>
    exact hself (by simp) (Operator.not_letter_of_mem _ (Operator.mem_all_of_front? hop))

namespace Rules
variable {r : Rules}

theorem parts_inCase {l : Lexeme} (hkey : l.kind = .keyword) (prev : Option Category) :
    r.parts prev (l.inCase c) = (r.parts prev l).map (·.map c.fold) := by
  have htext : (l.inCase c).text = l.text.map c.fold := by rw [Lexeme.inCase, if_pos hkey]
  have hkind : (l.inCase c).kind = .keyword := by rw [Lexeme.toCategory_inCase, hkey]
  have htick : c.fold backtick = backtick := c.fold_of_not_letter rfl
  unfold parts
  rw [Lexeme.toCategory_inCase, Lexeme.isQuoted_inCase, htext, hkey]
  split
  · next hlit => simp at hlit
  split
  · split
    · simp [htick]
    split
    · simp [List.map_tail, List.map_dropLast]
    · rfl
  · rfl

theorem shownAlike_folded (hlit : r.removeLiterals = true) (hcase : r.keywordCase ≠ .asWritten)
    {source : Bytes} {l : Lexeme} (hl : l ∈ lexemes source) : r.ShownAlike (l.folded c) l where
  category := rfl
  shown hcomment prev := by
    by_cases hliteral : l.kind = .literal
    · have hparts : ∀ m : Lexeme, m.kind = .literal → r.parts prev m = [[question]] := fun m hm => by
        simp [parts, hlit, hm]
      rw [shown, shown, hparts _ hliteral, hparts (l.folded c) hliteral]
      rfl
    rw [Lexeme.folded_eq_inCase c hl hliteral hcomment]
    by_cases hkey : l.kind = .keyword
    · have hkind : (l.inCase c).kind = .keyword := by rw [Lexeme.toCategory_inCase, hkey]
      rw [shown, shown, parts_inCase c hkey, hkind, hkey, foldOf, if_pos rfl]
      simp [Function.comp_def, c.fold_fold _ hcase]
    · rw [Lexeme.inCase, if_neg hkey]

theorem text_map (hlit : r.removeLiterals = true) (hcase : r.keywordCase ≠ .asWritten)
    (source : Bytes) : r.text (source.map c.fold) = r.text source := by
  rw [text, lexemes_map, text]
  refine textAfter_congr ?_ none
  exact List.forall₂_map_left_iff.2
    (List.forall₂_same.2 fun l hl => shownAlike_folded c hlit hcase hl)

end Rules

/-- **Letter case is unseen.** Sources that differ in nothing but the case of letters have the same
tokens at the same places. Under rules that remove literals and fold keywords a run on one ends as a run
on the other does, at every capacity. -/
theorem Lexer.letter_case_unseen (lx fresh : Lexer) (s t : Bytes)
    (h : s.map toLower = t.map toLower) :
    (lx.bind s).tokenize.1 = (fresh.bind t).tokenize.1 ∧
      ∀ r : Rules, r.validate = .ok () → r.removeLiterals = true →
        r.keywordCase = .lower ∨ r.keywordCase = .upper → ∀ buffer,
          (lx.normalize r s buffer).1 = (fresh.normalize r t buffer).1 := by
  constructor
  · rw [tokenize_eq, tokenize_eq, source_bind, source_bind, ← allTokens_map .lower s,
      ← allTokens_map .lower t]
    exact congrArg allTokens h
  · intro r hr hlit hcase buffer
    have hfolds : r.keywordCase ≠ .asWritten := by rcases hcase with hc | hc <;> rw [hc] <;> decide
    refine normalize_congr hr ?_ lx fresh buffer
    rw [← Rules.text_map .lower hlit hfolds s, ← Rules.text_map .lower hlit hfolds t]
    exact congrArg r.text h

theorem Lexer.letter_case_unseen_literals :
    let s := Utf8.encode "select X'0A', 0b1, 1E5 from T"
    let t := Utf8.encode "SELECT x'0a', 0B1, 1e5 FROM t"
    s ≠ t ∧ (({} : Lexer).bind s).tokenize.1 = (({} : Lexer).bind t).tokenize.1 ∧
      ∀ buffer, (({} : Lexer).normalize { keywordCase := .upper, removeLiterals := true } s buffer).1 =
        (({} : Lexer).normalize { keywordCase := .upper, removeLiterals := true } t buffer).1 := by
  intro s t
  obtain ⟨htokens, houtcome⟩ := letter_case_unseen {} {} s t (by decide)
  exact ⟨by decide, htokens, houtcome _ rfl rfl (.inr rfl)⟩

end SqlCanon
