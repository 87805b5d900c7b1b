import Mathlib.Data.List.Chain
import SqlCanon.Proofs.Apart
import SqlCanon.Proofs.LetterCase
import SqlCanon.Proofs.Shape

/-!
# Outputs as rows of pieces

Without added backticks every lexeme is shown as one piece, with a space before it or not. The row of
these pieces is loose, so a separator is left out only where nothing runs together, as long as no point
comes before a digit or behind a literal that takes it in.
-/

namespace SqlCanon
open Byte
open Piece (ComesOff)

namespace Lexeme

def inCase (c : KeywordCase) (l : Lexeme) : Lexeme :=
  if l.kind = .keyword then { l with text := l.text.map c.fold } else l

theorem toCategory_inCase (c : KeywordCase) (l : Lexeme) :
    (l.inCase c).toCategory = l.toCategory := by
  unfold inCase
  split <;> rfl

theorem isQuoted_inCase (c : KeywordCase) (l : Lexeme) : (l.inCase c).isQuoted = l.isQuoted := by
  unfold inCase
  split
  · have hmap : ∀ o : Option UInt8, (o.map c.fold == some backtick) = (o == some backtick) := by
      intro o
      cases o with
      | none => rfl
      | some b =>
        rw [Option.map_some, Bool.eq_iff_iff, beq_iff_eq, beq_iff_eq, Option.some.injEq,
          Option.some.injEq]
        exact c.fold_eq_iff b rfl
    simp [isQuoted, hmap]
  · rfl

theorem ofWord_map (c : KeywordCase) (word : Bytes) :
    ofWord (word.map c.fold) = (ofWord word).inCase c := by
  have hattrs : Reserved.attrs (word.map c.fold) = Reserved.attrs word := by
    simp only [Reserved.attrs, List.map_map, Function.comp_def, c.toUpper_fold]
  simp [ofWord, inCase, hattrs]

theorem isPlain_map (c : KeywordCase) {word : Bytes} (h : isPlain word) :
    isPlain (word.map c.fold) := by
  cases word with
  | nil => cases h
  | cons b body =>
    simpa [isPlain, c.isWordStart_fold, c.isWordPart_fold, List.all_map, Function.comp_def] using h

/-- What has to follow a lexeme for it to end where it does. -/
structure EndsBefore (l : Lexeme) (tail : Bytes) : Prop where
  dot : l.kind = .dot → Number.digitNext tail = false
  stops : l.kind = .keyword ∨ l.kind = .literal ∨ l.kind = .operator → stops tail
  blob : l.isBlob → tail.head? ≠ some Byte.dot
  number : l.isDangling = false

theorem EndsBefore.comesOff {l : Lexeme} {rest tail : Bytes} (h : l.EndsBefore tail)
    (hl : ComesOff (.lexeme l) rest) (hcomment : l.kind ≠ .comment) (hend : rest = [] → tail = [])
    (c : KeywordCase) : ComesOff (.lexeme (l.inCase c)) tail := by
  cases hl with
  | @lexeme _ b body _ htext hf =>
  cases front?_cases hf with
  | star hb => subst hb; exact .lexeme rfl rfl
  | comma hb => subst hb; exact .lexeme rfl rfl
  | openParen hb => subst hb; exact .lexeme rfl rfl
  | closeParen hb => subst hb; exact .lexeme rfl rfl
  | dot hb => subst hb; exact comesOff_dot (h.dot rfl)
  | comment => exact absurd rfl hcomment
  | literal _ _ hlit =>
    obtain rfl := (List.cons.inj htext).2
    exact .lexeme rfl
      ((literalCase hlit).replace hend (h.stops (.inr (.inl rfl))) h.blob h.number).front?_eq
  | name hb =>
    have hname := (List.cons.inj htext).2
    have hstops := h.stops (.inl rfl)
    have hfold : Delimited.name (body.map c.fold ++ rest.map c.fold) = body.map c.fold := by
      rw [← List.map_append, Delimited.name_map fun b => c.fold_eq_iff b rfl, hname]
    have hreplace : Delimited.name (body.map c.fold ++ tail) = body.map c.fold :=
      Delimited.name_replace (fun h => hend (List.map_eq_nil_iff.1 h)) hfold
        fun hc => ne_of_class (isStop_of_stops hstops _ hc) rfl rfl
    have hb' : c.fold b = backtick := (c.fold_eq_iff b rfl).2 hb
    simpa [inCase, hname, hb'] using comesOff_name hreplace
  | word hb =>
    have hplain : isPlain (b :: (body ++ rest).takeWhile isWordPart) := by
      rw [isPlain, List.head?_cons, Option.any_some, hb, Bool.true_and, List.all_eq_true]
      exact wordPart_of_mem_word hb _
    rw [← ofWord_map]
    exact comesOff_word (isPlain_map c hplain) (h.stops (.inl rfl))
  | @operator op hb _ _ _ hop =>
    refine comesOff_operator (Operator.mem_all_of_front? hop) (fun hstar => ?_)
      (h.stops (.inr (.inr rfl)))
    rw [hstar, List.cons.injEq] at htext
    exact hb (by simp [← htext.1])

theorem literal_of_isBlob {l : Lexeme} (h : l.isBlob) : l.kind = .literal := by
  rw [isBlob, Bool.and_eq_true, Bool.and_eq_true] at h
  exact of_decide_eq_true h.1.1

theorem literal_of_isDangling {l : Lexeme} (h : l.isDangling) : l.kind = .literal := by
  rw [isDangling, isNumber, Bool.and_eq_true, Bool.and_eq_true, Bool.and_eq_true] at h
  exact of_decide_eq_true h.1.1.1

/-- A point before a digit, or before a blob's end: the second lexeme goes on with the first. -/
def fuses (l m : Lexeme) : Bool :=
  l.kind = .dot && m.kind = .literal && m.text.head?.any isDigit || l.isBlob && m.kind = .dot

end Lexeme

/-! ## Lexemes as they come off a source -/

/-- Lexemes without comments that come off a source one after the other. -/
inductive Taken : List Lexeme → Prop
  | nil : Taken []
  | cons {l ls rest} : ComesOff (.lexeme l) rest → (rest = [] → ls = []) → l.kind ≠ .comment →
      Taken ls → Taken (l :: ls)

theorem taken_visible (source : Bytes) : Taken (visible source) := by
  induction source using Piece.cut_induction with
  | nil => exact .nil
  | gap b rest hf ih => rwa [visible, lexemes_cons_of_none hf]
  | lexeme b body tail l hl hf ih =>
    rw [visible, lexemes_append_of_some hl hf, List.filter_cons]
    split
    · next hc =>
      refine .cons (.lexeme hl hf) (fun htail => ?_) (by simpa using hc) ih
      rw [htail]
      rfl
    · exact ih

/-- The byte of which all lexemes of a kind consist. -/
def Kind.mark? : Kind → Option UInt8
  | .openParen => some Byte.openParen
  | .closeParen => some Byte.closeParen
  | .comma => some Byte.comma
  | .dot => some Byte.dot
  | _ => none

theorem Kind.mark?_eq_dot_iff {k : Kind} : k.mark? = some Byte.dot ↔ k = .dot := by
  cases k <;> decide

section
variable {l : Lexeme} {rest : Bytes} (h : ComesOff (.lexeme l) rest)
include h

theorem text_of_mark {b : UInt8} (hb : l.kind.mark? = some b) : l.text = [b] := by
  cases h with
  | lexeme hl hf =>
  cases Lexeme.front?_cases hf with
  | comma hc => cases hb; rw [hc]
  | openParen hc => cases hb; rw [hc]
  | closeParen hc => cases hb; rw [hc]
  | dot hc => cases hb; rw [hc]
  | _ => cases hb

theorem head?_inCase (c : KeywordCase) :
    ∃ b, (l.inCase c).text.head? = some b ∧ isDigit b = l.text.head?.any isDigit := by
  cases h with
  | @lexeme _ b body _ hl =>
  rw [hl, Lexeme.inCase]
  split
  · exact ⟨c.fold b, by simp [hl], c.isDigit_fold b⟩
  · exact ⟨b, by simp [hl], rfl⟩

theorem digitNext_of_dot (hdot : l.kind = .dot) : Number.digitNext rest = false := by
  cases h with
  | lexeme hl hf =>
  cases Lexeme.front?_cases hf with
  | dot hb hnone =>
    subst hb
    obtain rfl := (List.cons.inj hl).2
    exact Lexeme.literal?_dot_iff.1 hnone
  | _ => cases hdot

theorem keyword_of_isQuoted (hq : l.isQuoted) : l.kind = .keyword ∧ l.attrs = {} := by
  cases h with
  | lexeme _ hf => exact Lexeme.of_isQuoted hf hq

theorem literal_of_digit (hd : l.text.head?.any isDigit) : l.kind = .literal := by
  cases h with
  | @lexeme _ b body _ hl hf =>
  have hdigit : isDigit b := by simpa [hl] using hd
  have hne : ∀ c, isDigit c = false → b ≠ c := fun c hc => ne_of_class hdigit hc
  have hliteral : Lexeme.literal? b (body ++ rest) ≠ none := fun hnone => by
    rw [(Lexeme.of_literal?_eq_none hnone).2.2] at hdigit
    cases hdigit
  cases Lexeme.front?_cases hf with
  | star hb => exact absurd hb (hne star rfl)
  | comma hb => exact absurd hb (hne comma rfl)
  | openParen hb => exact absurd hb (hne openParen rfl)
  | closeParen hb => exact absurd hb (hne closeParen rfl)
  | comment _ hc =>
    have hnone : Lexeme.comment? b (body ++ rest) = none :=
      Lexeme.comment?_eq_none (hne hash rfl) (fun hb => absurd hb (hne minus rfl))
        fun hb => absurd hb (hne slash rfl)
    rw [hnone] at hc
    cases hc
  | literal => rfl
  | dot _ hnone => exact absurd hnone hliteral
  | name hb => exact absurd hb (hne backtick rfl)
  | word _ hnone => exact absurd hnone hliteral
  | operator _ _ _ hnone => exact absurd hnone hliteral

end

/-! ## Rows -/

theorem front?_space (rest : Bytes) : Lexeme.front? space rest = none := rfl

theorem front?_question (rest : Bytes) : Lexeme.front? question rest = none := by
  have hcomment : Lexeme.comment? question rest = none := rfl
  have hliteral : Lexeme.literal? question rest = none := by simp +decide [Lexeme.literal?]
  have hoperator : Operator.front? (question :: rest) = none := rfl
  simp +decide [Lexeme.front?, hcomment, hliteral, hoperator]

namespace Rules
variable (r : Rules)

/-- The piece that shows a lexeme where no backticks are added. -/
def piece (l : Lexeme) : Piece :=
  if r.removeLiterals && l.kind = .literal then .gap question
  else if r.stripBackticks && l.isQuoted then .lexeme (Lexeme.ofWord (l.bare.map r.keywordCase.fold))
  else .lexeme (l.inCase r.keywordCase)

def spacing (prev : Option Category) (c : Category) : List Piece :=
  if r.spaceBetween prev c then [.gap space] else []

def row : (prev : Option Category) → List Lexeme → List Piece
  | _, [] => []
  | prev, l :: ls => r.spacing prev l.toCategory ++ r.piece l :: row (some l.toCategory) ls

theorem join_spacing (prev : Option Category) (c : Category) :
    Piece.join (r.spacing prev c) = r.separator prev c := by
  unfold spacing separator
  split <;> rfl

theorem loose_spacing_append (prev : Option Category) (c : Category) {ps : List Piece} :
    Piece.Loose (r.spacing prev c ++ ps) ↔ Piece.Loose ps := by
  unfold spacing
  split
  · exact and_iff_right (.gap (front?_space _))
  · rfl

section
variable (hadd : r.addBackticks = false) {l : Lexeme}
  (hquoted : l.isQuoted → l.kind = .keyword ∧ l.attrs = {})
include hadd hquoted

theorem text_piece (prev : Option Category) : (r.shown prev l).flatten = (r.piece l).text := by
  rw [shown_flatten, parts, piece, hadd, Bool.false_and]
  by_cases hlit : (r.removeLiterals && l.kind = .literal) = true
  · have hkind : l.kind = .literal := by simpa using (Bool.and_eq_true_iff.1 hlit).2
    rw [if_pos hlit, if_pos hlit, hkind]
    rfl
  rw [if_neg hlit, if_neg hlit]
  by_cases hstrip : (r.stripBackticks && l.isQuoted) = true
  · have hname := hquoted (Bool.and_eq_true_iff.1 hstrip).2
    have htakes := takesBackticks_of_name hname prev
    have hbare : l.bare = l.text.tail.dropLast := if_pos (Bool.and_eq_true_iff.1 hstrip).2
    simp [hstrip, htakes, hname.1, foldOf, Piece.text, Lexeme.ofWord, hbare]
  · simp only [hstrip, ite_self, Bool.false_eq_true, if_false, List.flatten_cons, List.flatten_nil,
      List.append_nil, Piece.text, Lexeme.inCase, foldOf]
    split <;> simp

end

theorem join_row (hadd : r.addBackticks = false) {ls : List Lexeme} (h : Taken ls)
    (prev : Option Category) : Piece.join (r.row prev ls) = r.textAfter prev ls := by
  induction h generalizing prev with
  | nil => rfl
  | cons hl _ hcomment _ ih =>
    rw [row, textAfter, if_neg hcomment, added, r.text_piece hadd (keyword_of_isQuoted hl),
      ← ih, ← join_spacing, Piece.join, List.flatMap_append, List.flatMap_cons, List.append_assoc]
    rfl

/-- Nothing runs together in the output for `ls`: names that lose their backticks are plain words, and
literals that are shown do not go on or end elsewhere. -/
structure Apart (ls : List Lexeme) : Prop where
  plain : r.stripBackticks → ∀ l ∈ ls, l.isQuoted → Lexeme.isPlain l.bare
  ended : r.removeLiterals = false → ∀ l ∈ ls, l.isDangling = false
  chain : r.removeLiterals = false → ls.IsChain fun l m => l.fuses m = false

variable {r}

theorem apart_of_redacted (hlit : r.removeLiterals = true) {ls : List Lexeme}
    (hplain : r.stripBackticks → ∀ l ∈ ls, l.isQuoted → Lexeme.isPlain l.bare) : r.Apart ls where
  plain := hplain
  ended h := by rw [hlit] at h; cases h
  chain h := by rw [hlit] at h; cases h

theorem apart_iff_of_shown (hlit : r.removeLiterals = false) (hstrip : r.stripBackticks = false)
    {ls : List Lexeme} : r.Apart ls ↔
      (∀ l ∈ ls, l.isDangling = false) ∧ ls.IsChain fun l m => l.fuses m = false :=
  ⟨fun h => ⟨h.ended hlit, h.chain hlit⟩,
    fun h => ⟨fun hs => absurd hs (by simp [hstrip]), fun _ => h.1, fun _ => h.2⟩⟩

theorem Apart.tail {l : Lexeme} {ls : List Lexeme} (h : r.Apart (l :: ls)) : r.Apart ls where
  plain hstrip m hm := h.plain hstrip m (List.mem_cons_of_mem _ hm)
  ended hlit m hm := h.ended hlit m (List.mem_cons_of_mem _ hm)
  chain hlit := (h.chain hlit).tail

theorem piece_of_mark {l : Lexeme} {rest : Bytes} {b : UInt8} (h : ComesOff (.lexeme l) rest)
    (hb : l.kind.mark? = some b) : r.piece l = .lexeme l := by
  have hquoted : l.isQuoted = false := by simp [Lexeme.isQuoted, text_of_mark h hb]
  have hlit : l.kind ≠ .literal := fun hk => by rw [hk] at hb; cases hb
  have hkey : l.kind ≠ .keyword := fun hk => by rw [hk] at hb; cases hb
  simp [piece, hquoted, hlit, Lexeme.inCase, hkey]

section
variable (hparen : r.spaceBeforeParen = false)
include hparen

theorem row_of_dot {p : Category} {l : Lexeme} (hdot : p.kind = .dot ∨ l.kind = .dot)
    (ls : List Lexeme) : r.row (some p) (l :: ls) = r.piece l :: r.row (some l.toCategory) ls := by
  simp [row, spacing, spaceBetween, hparen, hdot]

theorem row_cases {p : Category} (hp : p.kind ≠ .dot ∧ p.kind ≠ .openParen) {l : Lexeme}
    {rest : Bytes} (h : ComesOff (.lexeme l) rest) (ls : List Lexeme) :
    (∃ ps, r.row (some p) (l :: ls) = .gap space :: ps) ∨
      ∃ b, l.kind.mark? = some b ∧ isStop b ∧
        r.row (some p) (l :: ls) = .lexeme l :: r.row (some l.toCategory) ls := by
  rw [row]
  cases hspace : r.spaceBetween (some p) l.toCategory with
  | true =>
    refine .inl ⟨r.piece l :: r.row (some l.toCategory) ls, ?_⟩
    rw [spacing, hspace]
    rfl
  | false =>
    right
    have hmark : ∃ b, l.kind.mark? = some b ∧ isStop b := by
      simp only [spaceBetween, hparen, Bool.false_and] at hspace
      cases hk : l.kind <;> simp [hk, hp, Kind.mark?, isStop, stopBytes] at hspace ⊢
    obtain ⟨b, hb, hstop⟩ := hmark
    refine ⟨b, hb, hstop, ?_⟩
    rw [piece_of_mark h hb, spacing, hspace]
    rfl

theorem stops_row {p : Category} (hp : p.kind ≠ .dot ∧ p.kind ≠ .openParen) {ls : List Lexeme}
    (h : Taken ls) (hloose : Piece.Loose (r.row (some p) ls)) :
    stops (Piece.join (r.row (some p) ls)) := by
  cases h with
  | nil => rfl
  | @cons l ls rest hl =>
  rcases row_cases hparen hp hl ls with ⟨ps, hrow⟩ | ⟨b, hb, hstop, hrow⟩
  · rw [hrow]
    rfl
  · rw [hrow] at hloose ⊢
    rw [Piece.join_cons, Piece.text, text_of_mark hl hb, List.singleton_append, stops, hstop,
      Bool.true_and, Bool.or_eq_true, bne_iff_ne, Bool.not_eq_true']
    by_cases hdot : b = dot
    · exact .inr (digitNext_of_dot hloose.1 (Kind.mark?_eq_dot_iff.1 (hdot ▸ hb)))
    · exact .inl hdot

theorem digitNext_row {p : Category} (hp : p.kind = .dot) {l : Lexeme} {rest : Bytes}
    (h : ComesOff (.lexeme l) rest) (hplain : r.stripBackticks → l.isQuoted → Lexeme.isPlain l.bare)
    (hfuse : r.removeLiterals = false → l.kind = .literal → l.text.head?.any isDigit = false)
    (ls : List Lexeme) : Number.digitNext (Piece.join (r.row (some p) (l :: ls))) = false := by
  rw [row_of_dot hparen (.inl hp), Piece.join_cons, Number.digitNext, piece]
  split
  · rfl
  next hlit =>
  split
  · next hstrip =>
    obtain ⟨hstrip, hquoted⟩ := Bool.and_eq_true_iff.1 hstrip
    have hword := Lexeme.isPlain_map r.keywordCase (hplain hstrip hquoted)
    obtain ⟨b, hb, hstart⟩ := (Option.any_eq_true _ _).1 (Bool.and_eq_true_iff.1 hword).1
    rw [Piece.text, Lexeme.ofWord, List.head?_append, hb]
    exact not_digit_of_wordStart b hstart
  · obtain ⟨b, hb, hfirst⟩ := head?_inCase h r.keywordCase
    rw [Piece.text, List.head?_append, hb, Option.some_or, Option.any_some, hfirst]
    cases hdigit : l.text.head?.any isDigit with
    | false => rfl
    | true =>
      have hkind := literal_of_digit h hdigit
      rw [hfuse (by simpa [hkind] using hlit) hkind] at hdigit
      cases hdigit

theorem not_dot_row {p : Category} (hp : p.kind ≠ .dot ∧ p.kind ≠ .openParen) {l : Lexeme}
    {rest : Bytes} (h : ComesOff (.lexeme l) rest) (hdot : l.kind ≠ .dot) (ls : List Lexeme) :
    (Piece.join (r.row (some p) (l :: ls))).head? ≠ some dot := by
  rcases row_cases hparen hp h ls with ⟨ps, hrow⟩ | ⟨b, hb, -, hrow⟩
  · rw [hrow, Piece.join_cons]
    exact fun h => absurd (Option.some.inj h) (by decide)
  · rw [hrow, Piece.join_cons, Piece.text, text_of_mark h hb]
    intro h
    rw [Option.some.inj h] at hb
    exact hdot (Kind.mark?_eq_dot_iff.1 hb)

theorem endsBefore_row {l : Lexeme} {ls : List Lexeme} (hls : Taken ls) (hapart : r.Apart (l :: ls))
    (hloose : Piece.Loose (r.row (some l.toCategory) ls))
    (hshown : l.kind = .literal → r.removeLiterals = false) :
    l.EndsBefore (Piece.join (r.row (some l.toCategory) ls)) where
  dot hdot := by
    cases hls with
    | nil => rfl
    | @cons m ms _ hm =>
      refine digitNext_row hparen hdot hm
        (fun hstrip => hapart.plain hstrip m (List.mem_cons_of_mem _ List.mem_cons_self))
        (fun hshown hkind => ?_) ms
      have hfuse := (List.isChain_cons_cons.1 (hapart.chain hshown)).1
      simpa [Lexeme.fuses, hdot, hkind] using hfuse
  stops hkind := stops_row hparen (by rcases hkind with h | h | h <;> simp [h]) hls hloose
  blob hblob := by
    have hkind := l.literal_of_isBlob hblob
    cases hls with
    | nil => exact fun h => by cases h
    | @cons m ms _ hm =>
      have hfuse := (List.isChain_cons_cons.1 (hapart.chain (hshown hkind))).1
      rw [Lexeme.fuses, hblob, Bool.true_and, Bool.or_eq_false_iff] at hfuse
      exact not_dot_row hparen (by simp [hkind]) hm (of_decide_eq_false hfuse.2) ms
  number := by
    by_cases hkind : l.kind = .literal
    · exact hapart.ended (hshown hkind) l List.mem_cons_self
    · simp [Lexeme.isDangling, Lexeme.isNumber, hkind]

theorem loose_row {ls : List Lexeme} (h : Taken ls) (hapart : r.Apart ls) (prev : Option Category) :
    Piece.Loose (r.row prev ls) := by
  -- from the right: a loose rest begins with a stop, and behind a stop the next piece comes off
  induction h generalizing prev with
  | nil => trivial
  | @cons l ls rest hl hend hcomment hls ih =>
    have hloose := ih hapart.tail (some l.toCategory)
    refine (r.loose_spacing_append _ _).2 ⟨?_, hloose⟩
    unfold piece
    split
    · exact .gap (front?_question _)
    next hlit =>
    split
    · next hstrip =>
      obtain ⟨hstrip, hquoted⟩ := Bool.and_eq_true_iff.1 hstrip
      have hkind := (keyword_of_isQuoted hl hquoted).1
      have hplain := hapart.plain hstrip l List.mem_cons_self hquoted
      exact Lexeme.comesOff_word (Lexeme.isPlain_map _ hplain)
        (stops_row hparen (by simp [hkind]) hls hloose)
    · have hshown : l.kind = .literal → r.removeLiterals = false := fun hkind => by
        simpa [hkind] using hlit
      refine (endsBefore_row hparen hls hapart hloose hshown).comesOff hl hcomment (fun hrest => ?_) _
      rw [hend hrest]
      rfl

end

/-! ## The output of a source -/

theorem spaceBeforeParen_of_validate (hr : r.validate = .ok ()) (hadd : r.addBackticks = false) :
    r.spaceBeforeParen = false := by
  cases hparen : r.spaceBeforeParen with
  | false => rfl
  | true => simp [validate, hadd, hparen] at hr

theorem text_eq_join (hadd : r.addBackticks = false) (source : Bytes) :
    r.text source = Piece.join (r.row none (visible source)) := by
  rw [join_row r hadd (taken_visible source), text_eq_visible]

/-- **Output that comes apart.** The output is cut into the pieces that show the lexemes and the spaces
between them. -/
theorem cut_text (hr : r.validate = .ok ()) (hadd : r.addBackticks = false) {source : Bytes}
    (hapart : r.Apart (visible source)) : Piece.cut (r.text source) = r.row none (visible source) := by
  rw [text_eq_join hadd]
  exact Piece.cut_join_iff.2 <|
    loose_row (spaceBeforeParen_of_validate hr hadd) (taken_visible source) hapart none

theorem filterMap_row (prev : Option Category) (ls : List Lexeme) :
    (r.row prev ls).filterMap Piece.lexeme? = ls.filterMap fun l => (r.piece l).lexeme? := by
  induction ls generalizing prev with
  | nil => rfl
  | cons l ls ih =>
    have hspacing : (r.spacing prev l.toCategory).filterMap Piece.lexeme? = [] := by
      unfold spacing
      split <;> rfl
    rw [row, List.filterMap_append, hspacing, List.nil_append, List.filterMap_cons,
      List.filterMap_cons, ih]

end Rules

end SqlCanon
