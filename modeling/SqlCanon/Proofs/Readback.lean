import SqlCanon.Proofs.Rows
import SqlCanon.Proofs.Starts

/-!
# Reading output back

Output without added or stripped backticks is read as the lexemes it was made of. With literals removed
it determines all else. With literals shown, it reads back just when no point runs into a literal and no
number stops short of its exponent letter.
-/

namespace SqlCanon
open Byte
open Piece (ComesOff)

/-! ## Redacted output -/

/-- Two lexemes that differ in the value of a literal, or in the letter case of a word that is folded. -/
structure Lexeme.SameUpTo (c : KeywordCase) (l m : Lexeme) : Prop where
  kind : l.kind = m.kind
  text : l.kind ≠ .literal → l.kind ≠ .keyword → l.text = m.text
  word : l.kind = .keyword →
    if c = .asWritten then l.text = m.text else l.text.map toLower = m.text.map toLower

namespace Rules
variable {r : Rules}

theorem piece_eq_inCase (hstrip : r.stripBackticks = false) {l : Lexeme}
    (hshown : r.removeLiterals = false ∨ l.kind ≠ .literal) :
    r.piece l = .lexeme (l.inCase r.keywordCase) := by
  rcases hshown with h | h <;> simp [piece, hstrip, h]

theorem piece_ne_space (l : Lexeme) : r.piece l ≠ .gap space := by
  unfold piece
  split
  · decide
  split <;> exact Piece.noConfusion

theorem filter_row (prev : Option Category) (ls : List Lexeme) :
    (r.row prev ls).filter (· != .gap space) = ls.map r.piece := by
  induction ls generalizing prev with
  | nil => rfl
  | cons l ls ih =>
    have hspacing : (r.spacing prev l.toCategory).filter (· != .gap space) = [] := by
      unfold spacing
      split <;> rfl
    have hpiece : (r.piece l != .gap space) = true := bne_iff_ne.2 (piece_ne_space l)
    rw [row, List.filter_append, hspacing, List.nil_append, List.filter_cons, if_pos hpiece, ih,
      List.map_cons]

end Rules

namespace Lexeme
variable {c : KeywordCase} {l m : Lexeme}

theorem sameUpTo_of_inCase_eq (h : l.inCase c = m.inCase c) : SameUpTo c l m := by
  have hkind : l.kind = m.kind := by
    rw [← toCategory_inCase c l, ← toCategory_inCase c m, h]
  refine ⟨hkind, fun _ hkey => ?_, fun hkey => ?_⟩
  · have htext := congrArg text h
    rwa [inCase, if_neg hkey, inCase, if_neg (hkind ▸ hkey)] at htext
  · have htext : l.text.map c.fold = m.text.map c.fold := by
      have htext := congrArg text h
      rwa [inCase, if_pos hkey, inCase, if_pos (hkind ▸ hkey)] at htext
    split
    · next hc =>
      subst hc
      simpa [KeywordCase.fold] using htext
    · have hlower := congrArg (List.map toLower) htext
      simpa only [List.map_map, Function.comp_def, c.toLower_fold] using hlower

end Lexeme

namespace Rules
variable {r : Rules}

theorem sameUpTo_of_piece_eq (hlit : r.removeLiterals = true) (hstrip : r.stripBackticks = false)
    {l m : Lexeme} (h : r.piece l = r.piece m) : Lexeme.SameUpTo r.keywordCase l m := by
  have hliteral : ∀ l : Lexeme, l.kind = .literal → r.piece l = .gap question := fun l hl => by
    simp [piece, hlit, hl]
  have hother : ∀ l : Lexeme, l.kind ≠ .literal → r.piece l = .lexeme (l.inCase r.keywordCase) :=
    fun l hl => piece_eq_inCase hstrip (.inr hl)
  by_cases hl : l.kind = .literal <;> by_cases hm : m.kind = .literal
  · exact ⟨hl.trans hm.symm, fun h => absurd hl h, fun h => by rw [hl] at h; cases h⟩
  · rw [hliteral l hl, hother m hm] at h
    cases h
  · rw [hother l hl, hliteral m hm] at h
    cases h
  · rw [hother l hl, hother m hm, Piece.lexeme.injEq] at h
    exact Lexeme.sameUpTo_of_inCase_eq h

theorem sameUpTo_of_text_eq (hr : r.validate = .ok ()) (hlit : r.removeLiterals = true)
    (hadd : r.addBackticks = false) (hstrip : r.stripBackticks = false) {a b : Bytes}
    (h : r.text a = r.text b) :
    List.Forall₂ (Lexeme.SameUpTo r.keywordCase) (visible a) (visible b) := by
  have hapart : ∀ ls, r.Apart ls := fun ls =>
    apart_of_redacted hlit fun h => by rw [hstrip] at h; cases h
  have hrow := congrArg Piece.cut h
  rw [cut_text hr hadd (hapart _), cut_text hr hadd (hapart _)] at hrow
  have hpieces := congrArg (List.filter (· != .gap space)) hrow
  rw [filter_row, filter_row, ← List.forall₂_eq_eq_eq, List.forall₂_map_left_iff,
    List.forall₂_map_right_iff] at hpieces
  exact hpieces.imp fun _ _ h => sameUpTo_of_piece_eq hlit hstrip h

end Rules

/-- **Redaction keeps shapes apart.** Two sources whose complete redacted outputs are equal have the
same lexemes up to literals, comments and the letter case that the rules take from words. -/
theorem Lexer.sameUpTo_of_output_eq (r : Rules) (hr : r.validate = .ok ())
    (hlit : r.removeLiterals = true) (hadd : r.addBackticks = false) (hstrip : r.stripBackticks = false)
    (lx lx' : Lexer) (a b buffer buffer' : Bytes) (ha : (lx.normalize r a buffer).1.result = .ok ())
    (hb : (lx'.normalize r b buffer').1.result = .ok ())
    (h : (lx.normalize r a buffer).1.output = (lx'.normalize r b buffer').1.output) :
    List.Forall₂ (Lexeme.SameUpTo r.keywordCase) (visible a) (visible b) := by
  rw [output_of_ok hr ha, output_of_ok hr hb] at h
  exact Rules.sameUpTo_of_text_eq hr hlit hadd hstrip h

theorem Lexer.sameUpTo_of_output_eq_folded :
    let r : Rules := { keywordCase := .lower, removeLiterals := true }
    let a := Utf8.encode "SELECT A, 1 FROM `T`"
    let b := Utf8.encode "select a ,'x'/* x */from `t`"
    let run := fun source => (({} : Lexer).normalize r source (List.replicate 40 0)).1
    r.validate = .ok () ∧ (run a).result = .ok () ∧ (run b).result = .ok () ∧
      (run a).output = (run b).output ∧
      List.Forall₂ (Lexeme.SameUpTo .lower) (visible a) (visible b) := by
  intro r a b run
  have hfits : (r.text a).length ≤ 40 ∧ (r.text b).length ≤ 40 ∧ r.text a = r.text b := by
    decide +kernel
  have ha : (run a).result = .ok () := result_of_fits {} rfl hfits.1
  have hb : (run b).result = .ok () := result_of_fits {} rfl hfits.2.1
  have h : (run a).output = (run b).output :=
    (output_of_ok rfl ha).trans (hfits.2.2.trans (output_of_ok rfl hb).symm)
  exact ⟨rfl, ha, hb, h, sameUpTo_of_output_eq r rfl rfl rfl rfl {} {} a b _ _ ha hb h⟩

/-! ## Lexemes that start in any surroundings -/

namespace Lexeme
variable {rest : Bytes} {l : Lexeme}

theorem starts_map (c : KeywordCase) {text : Bytes} (h : Starts text) : Starts (text.map c.fold) := by
  rcases h with h | rfl
  · obtain ⟨b, hb, hsome⟩ := (Option.any_eq_true _ _).1 h
    left
    rw [List.head?_map, hb]
    exact (c.startsSome_fold b).trans hsome
  · right
    cases c <;> decide

theorem starts_inCase (c : KeywordCase) (h : ComesOff (.lexeme l) rest) : Starts (l.inCase c).text := by
  cases h with
  | lexeme hl hf =>
  unfold inCase
  split
  · exact starts_map c (starts_of_front? hl hf)
  · exact starts_of_front? hl hf

end Lexeme

/-- A row is cut apart as it was put together if its lexemes alone come off it again. -/
theorem Piece.cut_join_of_lexemes {ps : List Piece}
    (hps : ∀ p ∈ ps, p = .gap space ∨ ∃ l, p = .lexeme l ∧ Lexeme.Starts l.text)
    (h : lexemes (join ps) = ps.filterMap lexeme?) : cut (join ps) = ps := by
  induction ps with
  | nil => rfl
  | cons p ps ih =>
    obtain ⟨hp, hrest⟩ := List.forall_mem_cons.1 hps
    rw [join_cons] at h ⊢
    rcases hp with rfl | ⟨l, rfl, hstarts⟩
    · -- a space starts no lexeme, so the cut takes it alone
      have hgap := front?_space (join ps)
      rw [text, List.singleton_append, lexemes_cons_of_none hgap] at h
      rw [text, List.singleton_append, cut_cons_of_none hgap, ih hrest h]
    · -- some lexeme starts here, and the lexemes of the row say which
      have hne : l.text ≠ [] := by
        intro hnil
        rw [hnil] at hstarts
        rcases hstarts with h | h <;> cases h
      obtain ⟨b, body, hl⟩ := List.exists_cons_of_ne_nil hne
      rw [hl] at hstarts
      obtain ⟨m, hm⟩ := Option.ne_none_iff_exists'.1 (Lexeme.front?_ne_none hstarts (join ps))
      rw [text, hl, List.cons_append] at h ⊢
      have hfirst : m = l := by
        rw [lexemes, cut_cons_of_some hm] at h
        exact (List.cons.inj h).1
      subst hfirst
      rw [lexemes_append_of_some hl hm] at h
      rw [cut_append_of_some hl hm, ih hrest (List.cons.inj h).2]

/-! ## Output that shows its literals -/

namespace Lexeme
variable {l : Lexeme} {tail : Bytes} (h : ComesOff (.lexeme l) tail)
include h

theorem literalCase_of_comesOff (hkind : l.kind = .literal) :
    ∃ b body, l = { kind := .literal, text := b :: body } ∧ LiteralCase b body tail := by
  cases h with
  | @lexeme _ b body _ hl hf =>
  cases front?_cases hf with
  | literal _ _ hlit =>
    obtain rfl := (List.cons.inj hl).2
    exact ⟨b, _, rfl, literalCase hlit⟩
  | _ => cases hkind

theorem not_dot_of_isBlob (hblob : l.isBlob) : tail.head? ≠ some dot := by
  obtain ⟨b, body, rfl, hcase⟩ := literalCase_of_comesOff h (l.literal_of_isBlob hblob)
  simp only [isBlob, List.head?_cons, List.tail_cons, Bool.and_eq_true, beq_iff_eq,
    Option.some.injEq] at hblob
  obtain ⟨⟨-, rfl⟩, hbase⟩ := hblob
  cases hcase with
  | string hq => exact absurd hq (by decide)
  | quoted hb => exact absurd hb (by decide)
  | blob _ _ _ hinner =>
    intro hdot
    exact absurd ((takeWhile_append_iff.1 hinner).2 dot hdot) (by decide)
  | number _ hzero =>
    obtain ⟨c, hc, hc'⟩ := (Option.any_eq_true _ _).1 hbase
    obtain ⟨inner, rfl⟩ := List.head?_eq_some_iff.1 hc
    rw [show isBase c = false from hzero rfl] at hc'
    cases hc'

theorem tail_of_isNumber (hnumber : l.isNumber) :
    ∃ b body, l = { kind := .literal, text := b :: body } ∧
      (isDigit b ∨ (b = minus ∨ b = plus ∨ b = dot) ∧ Number.digitNext (body ++ tail)) ∧
      (b = zero → (body ++ tail).head?.any isBase = false) ∧
      Number.tail b (b == dot) (body ++ tail) = body := by
  obtain ⟨hliteral, hfirst⟩ := Bool.and_eq_true_iff.1 hnumber
  obtain ⟨hkind, hblob⟩ := Bool.and_eq_true_iff.1 hliteral
  obtain ⟨b, body, rfl, hcase⟩ := literalCase_of_comesOff h (of_decide_eq_true hkind)
  have hfirst' : isDigit b ∨ b = minus ∨ b = plus ∨ b = dot := by
    simpa only [List.head?_cons, Option.any_some, Bool.or_eq_true, beq_iff_eq, or_assoc] using hfirst
  have hb := not_base_of_first b hfirst'
  cases hcase with
  | string hq => exact absurd hq (not_or.2 ⟨hb.1, hb.2.1⟩)
  | quoted hbase => exact absurd hbase (Bool.eq_false_iff.1 hb.2.2)
  | blob hzero hbase hbody => simp [isBlob, hzero, hbody, hbase] at hblob
  | number hread hzero htail => exact ⟨b, body, rfl, hread, hzero, htail⟩

theorem tail_of_isDangling (hdangling : l.isDangling) :
    ∃ b front e, l = { kind := .literal, text := b :: (front ++ [e]) } ∧ isExponent e ∧
      (isDigit b ∨ (b = minus ∨ b = plus ∨ b = dot) ∧ Number.digitNext (front ++ e :: tail)) ∧
      (b = zero → (front ++ e :: tail).head?.any isBase = false) ∧
      Number.tail b (b == dot) (front ++ e :: tail) = front ++ [e] := by
  obtain ⟨hnumber, hlast⟩ := Bool.and_eq_true_iff.1 hdangling
  obtain ⟨b, body, rfl, hfirst, hzero, htail⟩ := tail_of_isNumber h hnumber
  obtain ⟨e, he, hexp⟩ := (Option.any_eq_true _ _).1 hlast
  have hne : body ≠ [] := by
    rintro rfl
    obtain rfl := Option.some.inj he
    exact absurd (hfirst.imp_right And.left)
      (by simpa [not_or] using Number.not_digit_of_exponent b hexp)
  rw [List.getLast?_cons_of_ne_nil hne] at he
  obtain ⟨front, rfl⟩ := List.getLast?_eq_some_iff.1 he
  rw [List.append_assoc, List.singleton_append] at hfirst hzero htail
  exact ⟨b, front, e, rfl, hexp, hfirst, hzero, htail⟩

theorem exponentNext_of_isDangling (hdangling : l.isDangling) : Number.exponentNext tail := by
  obtain ⟨b, front, e, rfl, hexp, -, -, htail⟩ := tail_of_isDangling h hdangling
  rw [← List.singleton_append, ← List.append_assoc] at htail
  exact Number.exponentNext_of_tail htail List.getLast?_concat hexp

end Lexeme

namespace Rules
variable {r : Rules} (hlit : r.removeLiterals = false) (hadd : r.addBackticks = false)
  (hstrip : r.stripBackticks = false)

section
include hlit hstrip

theorem filterMap_row_of_shown (prev : Option Category) (ls : List Lexeme) :
    (r.row prev ls).filterMap Piece.lexeme? = ls.map (·.inCase r.keywordCase) := by
  have hpiece : ∀ l, (r.piece l).lexeme? = some (l.inCase r.keywordCase) := fun l => by
    rw [piece_eq_inCase hstrip (.inl hlit)]
    rfl
  rw [filterMap_row, funext hpiece]
  exact congrFun List.filterMap_eq_map ls

theorem mem_row_of_shown {ls : List Lexeme} (h : Taken ls) (prev : Option Category) :
    ∀ p ∈ r.row prev ls, p = .gap space ∨ ∃ l, p = .lexeme l ∧ Lexeme.Starts l.text := by
  induction h generalizing prev with
  | nil => intro p hp; cases hp
  | @cons l ls rest hl _ _ _ ih =>
    rw [row, List.forall_mem_append, List.forall_mem_cons, piece_eq_inCase hstrip (.inl hlit)]
    refine ⟨fun p hp => .inl ?_, .inr ⟨_, rfl, Lexeme.starts_inCase _ hl⟩, ih _⟩
    unfold spacing at hp
    split at hp
    · exact List.mem_singleton.1 hp
    · cases hp

variable (hparen : r.spaceBeforeParen = false)
include hparen

theorem not_fuses_of_comesOff {l m : Lexeme} {ms : List Lexeme} {rest : Bytes}
    (hm : ComesOff (.lexeme m) rest)
    (h : ComesOff (r.piece l) (Piece.join (r.row (some l.toCategory) (m :: ms)))) :
    l.fuses m = false := by
  rw [piece_eq_inCase hstrip (.inl hlit)] at h
  rw [Lexeme.fuses, Bool.or_eq_false_iff, Bool.eq_false_iff, Bool.eq_false_iff]
  refine ⟨fun hfuse => ?_, fun hfuse => ?_⟩
  · simp only [Bool.and_eq_true, decide_eq_true_eq] at hfuse
    obtain ⟨⟨hdot, -⟩, hdigit⟩ := hfuse
    have hkind : (l.inCase r.keywordCase).kind = .dot :=
      (congrArg Category.kind (Lexeme.toCategory_inCase _ l)).trans hdot
    obtain ⟨b, hb, hfirst⟩ := head?_inCase hm r.keywordCase
    have hnext := digitNext_of_dot h hkind
    rw [row_of_dot hparen (.inl hdot), Piece.join_cons, piece_eq_inCase hstrip (.inl hlit), Piece.text,
      Number.digitNext, List.head?_append, hb, Option.some_or, Option.any_some, hfirst, hdigit] at hnext
    cases hnext
  · simp only [Bool.and_eq_true, decide_eq_true_eq] at hfuse
    obtain ⟨hblob, hdot⟩ := hfuse
    have hsame : l.inCase r.keywordCase = l := if_neg (by rw [l.literal_of_isBlob hblob]; decide)
    have hmark : m.kind.mark? = some dot := Kind.mark?_eq_dot_iff.2 hdot
    rw [hsame, row_of_dot hparen (.inr hdot), Piece.join_cons, piece_of_mark hm hmark, Piece.text,
      text_of_mark hm hmark] at h
    exact Lexeme.not_dot_of_isBlob h hblob rfl

theorem not_dangling_of_comesOff {l : Lexeme} {ls : List Lexeme} (hls : Taken ls)
    (h : ComesOff (r.piece l) (Piece.join (r.row (some l.toCategory) ls)))
    (hloose : Piece.Loose (r.row (some l.toCategory) ls)) : l.isDangling = false := by
  rw [Bool.eq_false_iff]
  intro hdangling
  have hkind := l.literal_of_isDangling hdangling
  have hsame : l.inCase r.keywordCase = l := if_neg (by rw [hkind]; decide)
  rw [piece_eq_inCase hstrip (.inl hlit), hsame] at h
  have hstops := stops_row hparen (p := l.toCategory) (by simp [hkind]) hls hloose
  have hnext := Lexeme.exponentNext_of_isDangling h hdangling
  rw [not_exponentNext_of_stops hstops] at hnext
  cases hnext

theorem apart_of_loose {ls : List Lexeme} (h : Taken ls) {prev : Option Category}
    (hloose : Piece.Loose (r.row prev ls)) : r.Apart ls := by
  rw [apart_iff_of_shown hlit hstrip]
  induction h generalizing prev with
  | nil => exact ⟨fun _ hl => (List.not_mem_nil hl).elim, .nil⟩
  | cons _ _ _ hls ih =>
    obtain ⟨hoff, hrow⟩ := (r.loose_spacing_append _ _).1 hloose
    obtain ⟨hended, hchain⟩ := ih hrow
    have hfirst := not_dangling_of_comesOff hlit hstrip hparen hls hoff hrow
    refine ⟨List.forall_mem_cons.2 ⟨hfirst, hended⟩, ?_⟩
    cases hls with
    | nil => exact .singleton _
    | cons hm =>
      exact List.isChain_cons_cons.2 ⟨not_fuses_of_comesOff hlit hstrip hparen hm hoff, hchain⟩

end

section
include hlit hadd hstrip

theorem shown_inCase (prev : Option Category) (l : Lexeme) :
    r.shown prev (l.inCase r.keywordCase) = r.shown prev l := by
  have hparts : ∀ m : Lexeme, r.parts prev m = [m.text] := fun m => by
    simp [parts, hlit, hadd, hstrip]
  have hkind : (l.inCase r.keywordCase).kind = l.kind :=
    congrArg Category.kind (Lexeme.toCategory_inCase _ l)
  rw [shown, shown, hparts, hparts, hkind, foldOf, Lexeme.inCase]
  split
  · simp only [List.map_singleton, KeywordCase.map_fold_fold]
  · rfl

theorem textAfter_inCase (prev : Option Category) (ls : List Lexeme) :
    r.textAfter prev (ls.map (·.inCase r.keywordCase)) = r.textAfter prev ls := by
  induction ls generalizing prev with
  | nil => rfl
  | cons l ls ih =>
    rw [List.map_cons, textAfter, textAfter, added, added, shown_inCase hlit hadd hstrip,
      Lexeme.toCategory_inCase, ih, ih]

variable (hr : r.validate = .ok ()) {source : Bytes}
include hr

theorem lexemes_text_iff :
    lexemes (r.text source) = (visible source).map (·.inCase r.keywordCase) ↔
      r.Apart (visible source) := by
  have hparen := spaceBeforeParen_of_validate hr hadd
  have htaken := taken_visible source
  constructor
  · intro h
    rw [text_eq_join hadd, ← filterMap_row_of_shown hlit hstrip none] at h
    have hcut := Piece.cut_join_of_lexemes (mem_row_of_shown hlit hstrip htaken none) h
    exact apart_of_loose hlit hstrip hparen htaken (Piece.cut_join_iff.1 hcut)
  · intro hapart
    rw [lexemes, cut_text hr hadd hapart, filterMap_row_of_shown hlit hstrip]

theorem text_text (hapart : r.Apart (visible source)) : r.text (r.text source) = r.text source := by
  rw [text, (lexemes_text_iff hlit hadd hstrip hr).2 hapart,
    textAfter_inCase hlit hadd hstrip, text_eq_visible]

end

end Rules

namespace Lexer

/-- **Output reads back.** The tokens of a complete output with literals and backticks as they were are
those of the source, up to the letter case of words, just when no number ends in its exponent letter and
no point stands before a digit or behind a literal that would take it in. Then normalizing the output
again changes nothing. -/
theorem output_reads_back (r : Rules) (hr : r.validate = .ok ()) (hlit : r.removeLiterals = false)
    (hadd : r.addBackticks = false) (hstrip : r.stripBackticks = false) (lx : Lexer)
    (source buffer : Bytes) (hok : (lx.normalize r source buffer).1.result = .ok ()) :
    let out := (lx.normalize r source buffer).1.output
    let kept := (∀ l ∈ visible source, l.isDangling = false) ∧
      (visible source).IsChain fun l m => l.fuses m = false
    ((∀ again : Lexer, (again.bind out).rest.1.map (·.lexeme out) =
        (visible source).map (·.inCase r.keywordCase)) ↔ kept) ∧
      (kept → ∀ (again : Lexer) (buffer' : Bytes), out.length ≤ buffer'.length →
        (again.normalize r out buffer').1.result = .ok () ∧
          (again.normalize r out buffer').1.output = out) := by
  intro out kept
  have hout : out = r.text source := output_of_ok hr hok
  have hkept : kept ↔ r.Apart (visible source) := (Rules.apart_iff_of_shown hlit hstrip).symm
  have hiff : lexemes (r.text source) = _ ↔ r.Apart (visible source) :=
    Rules.lexemes_text_iff hlit hadd hstrip hr
  simp only [map_lexeme_rest_bind, hout, hkept]
  refine ⟨⟨fun h => hiff.1 (h {}), fun h _ => hiff.2 h⟩, fun hapart again buffer' hfit => ?_⟩
  have htext := Rules.text_text hlit hadd hstrip hr hapart
  have hagain := result_of_fits again hr (htext.symm ▸ hfit)
  exact ⟨hagain, (output_of_ok hr hagain).trans htext⟩

theorem output_reads_back_upper :
    let r : Rules := { keywordCase := .upper }
    let source := Utf8.encode "select a.b, 0x1f from t -- c\nwhere x=1e-5"
    let o := (({} : Lexer).normalize r source (List.replicate 64 0)).1
    r.validate = .ok () ∧ o.result = .ok () ∧
      o.output = Utf8.encode "SELECT A.B, 0x1f FROM T WHERE X = 1e-5" ∧
      (∀ again : Lexer, (again.bind o.output).rest.1.map (·.lexeme o.output) =
        (visible source).map (·.inCase .upper)) ∧
      (({} : Lexer).normalize r o.output (List.replicate 64 0)).1.output = o.output := by
  intro r source o
  have htext : r.text source = Utf8.encode "SELECT A.B, 0x1f FROM T WHERE X = 1e-5" ∧
      (r.text source).length ≤ 64 ∧ (∀ l ∈ visible source, l.isDangling = false) ∧
      (visible source).IsChain fun l m => l.fuses m = false := by decide +kernel
  obtain ⟨htext, hfit, hended, hchain⟩ := htext
  have hok : o.result = .ok () := result_of_fits {} rfl hfit
  have hout : o.output = r.text source := output_of_ok rfl hok
  obtain ⟨hiff, hagain⟩ := output_reads_back r rfl rfl rfl rfl {} source _ hok
  exact ⟨rfl, hok, hout.trans htext, hiff.2 ⟨hended, hchain⟩,
    (hagain ⟨hended, hchain⟩ {} _ (hout.symm ▸ hfit)).2⟩

theorem output_runs_together :
    let r : Rules := {}
    let reads := fun source =>
      lexemes (r.text source) = (visible source).map (·.inCase r.keywordCase)
    r.validate = .ok () ∧ r.text (Utf8.encode "a . 5") = Utf8.encode "a.5" ∧
      ¬ reads (Utf8.encode "a . 5") ∧ r.text (Utf8.encode "a.5") ≠ Utf8.encode "a.5" ∧
      ¬ reads (Utf8.encode "0x1 .a") ∧ ¬ reads (Utf8.encode "1e+a") := by
  decide +kernel

end Lexer

end SqlCanon
