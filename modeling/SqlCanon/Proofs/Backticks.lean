import SqlCanon.Proofs.Characters
import SqlCanon.Proofs.Delimiters
import SqlCanon.Proofs.Standalone

/-!
# Names in backticks

A name in backticks is closed, or it is open and runs to the end of its source. The rules look at its first
and its last byte only, and take an open name that ends in a doubled backtick for a closed one. All other
names lose or get a whole pair of backticks.
-/

namespace SqlCanon
open Byte
open Piece (ComesOff)

/-! ## Bodies of names -/

namespace NameBody
variable {body : Bytes}

theorem append {more : Bytes} (h : NameBody body) (hmore : NameBody more) : NameBody (body ++ more) := by
  induction h with
  | nil => exact hmore
  | doubled _ ih => exact ih.doubled
  | plain hb _ ih => exact ih.plain hb

theorem map {f : UInt8 → UInt8} (hf : ∀ b, f b = backtick ↔ b = backtick) (h : NameBody body) :
    NameBody (body.map f) := by
  have htick : f backtick = backtick := (hf backtick).2 rfl
  induction h with
  | nil => exact .nil
  | doubled _ ih =>
    rw [List.map_cons, List.map_cons, htick]
    exact ih.doubled
  | plain hb _ ih => exact ih.plain fun h => hb ((hf _).1 h)

theorem of_not_mem (h : backtick ∉ body) : NameBody body := by
  induction body with
  | nil => exact .nil
  | cons b body ih =>
    rw [List.mem_cons, not_or] at h
    exact (ih h.2).plain (Ne.symm h.1)

theorem of_cons {b : UInt8} (h : NameBody (b :: body)) (hb : b ≠ backtick) : NameBody body := by
  cases h with
  | doubled => exact absurd rfl hb
  | plain _ h => exact h

theorem of_doubled (h : NameBody (backtick :: backtick :: body)) : NameBody body := by
  cases h with
  | doubled h => exact h
  | plain hb => exact absurd rfl hb

theorem not_single : ¬ NameBody [backtick] := by
  intro h
  cases h with
  | plain hb => exact hb rfl

theorem not_cons (h : NameBody body) : ¬ NameBody (backtick :: body) := by
  induction h with
  | nil => exact not_single
  | doubled _ ih => exact fun h => ih h.of_doubled
  | plain hb _ _ =>
    intro h
    cases h with
    | doubled => exact hb rfl
    | plain htick => exact htick rfl

theorem not_concat (h : NameBody body) : ¬ NameBody (body ++ [backtick]) := by
  induction h with
  | nil => exact not_single
  | doubled _ ih => exact fun h => ih h.of_doubled
  | plain hb _ ih => exact fun h => ih (h.of_cons hb)

theorem exists_of_getLast? (h : NameBody body) (hlast : body.getLast? = some backtick) :
    ∃ inner, NameBody inner ∧ body = inner ++ [backtick, backtick] := by
  induction h with
  | nil => cases hlast
  | @doubled body h ih =>
    cases body with
    | nil => exact ⟨[], .nil, rfl⟩
    | cons c body =>
      obtain ⟨inner, hinner, hbody⟩ := ih hlast
      exact ⟨_, hinner.doubled, by rw [hbody]; rfl⟩
  | @plain b body hb h ih =>
    cases body with
    | nil => exact absurd (Option.some.inj hlast) hb
    | cons c body =>
      obtain ⟨inner, hinner, hbody⟩ := ih hlast
      exact ⟨_, hinner.plain hb, by rw [hbody]; rfl⟩

end NameBody

/-! ## Closed and open names -/

def IsClosedName (text : Bytes) : Prop :=
  ∃ inner, NameBody inner ∧ text = backtick :: (inner ++ [backtick])

def IsOpenName (text : Bytes) : Prop := ∃ body, NameBody body ∧ text = backtick :: body

/-- An open name whose last two bytes are a doubled backtick. -/
def IsCutOnEscape (text : Bytes) : Prop :=
  ∃ inner, NameBody inner ∧ text = backtick :: (inner ++ [backtick, backtick])

section
variable {text : Bytes}

theorem IsClosedName.not_isOpenName (h : IsClosedName text) : ¬ IsOpenName text := by
  rintro ⟨body, hbody, rfl⟩
  obtain ⟨inner, hinner, hbody'⟩ := h
  rw [(List.cons.inj hbody').2] at hbody
  exact hinner.not_concat hbody

theorem IsCutOnEscape.isOpenName (h : IsCutOnEscape text) : IsOpenName text := by
  obtain ⟨inner, hinner, rfl⟩ := h
  exact ⟨_, hinner.append (.doubled .nil), rfl⟩

end

namespace Lexeme
variable {l : Lexeme} {rest : Bytes}

section
variable {inner : Bytes} (h : l.text = backtick :: (inner ++ [backtick]))
include h

theorem isQuoted_of_ends : l.isQuoted := by
  simp [isQuoted, h, List.getLast?_cons]

theorem bare_of_ends : l.bare = inner := by
  rw [bare, if_pos (isQuoted_of_ends h), h, List.tail_cons, List.dropLast_concat]

end

theorem isQuoted_of_isClosedName (h : IsClosedName l.text) : l.isQuoted := by
  obtain ⟨inner, -, htext⟩ := h
  exact isQuoted_of_ends htext

theorem bare_of_cut {inner : Bytes} (h : l.text = backtick :: (inner ++ [backtick, backtick])) :
    l.isQuoted ∧ l.bare = inner ++ [backtick] := by
  have hends : l.text = backtick :: ((inner ++ [backtick]) ++ [backtick]) := by
    rw [h, List.append_assoc]
    rfl
  exact ⟨isQuoted_of_ends hends, bare_of_ends hends⟩

theorem isQuoted_iff_of_isOpenName (h : IsOpenName l.text) : l.isQuoted ↔ IsCutOnEscape l.text := by
  constructor
  · intro hq
    obtain ⟨body, hbody, htext⟩ := h
    have hquoted := l.text_of_isQuoted hq
    rw [htext, List.tail_cons] at hquoted
    have hlast : body.getLast? = some backtick := by
      rw [(List.cons.inj hquoted).2, List.getLast?_concat]
    obtain ⟨inner, hinner, rfl⟩ := hbody.exists_of_getLast? hlast
    exact ⟨inner, hinner, htext⟩
  · rintro ⟨inner, -, htext⟩
    exact (bare_of_cut htext).1

theorem isQuoted_iff_isClosedName_iff (h : IsClosedName l.text ∨ IsOpenName l.text) :
    (l.isQuoted ↔ IsClosedName l.text) ↔ ¬ IsCutOnEscape l.text := by
  rcases h with hclosed | hopen
  · have hcut : ¬ IsCutOnEscape l.text := fun hcut => hclosed.not_isOpenName hcut.isOpenName
    exact iff_of_true (iff_of_true (isQuoted_of_isClosedName hclosed) hclosed) hcut
  · have hclosed : ¬ IsClosedName l.text := fun hclosed => hclosed.not_isOpenName hopen
    rw [isQuoted_iff_of_isOpenName hopen, iff_false_right hclosed]

theorem name_of_comesOff (h : ComesOff (.lexeme l) rest) (hl : l.text.head? = some backtick) :
    l.toCategory = { kind := .keyword } ∧
      (IsClosedName l.text ∨ IsOpenName l.text ∧ rest = []) := by
  cases h with
  | @lexeme _ b body _ htext hf =>
  rw [htext, List.head?_cons, Option.some.injEq] at hl
  subst hl
  rw [front?_backtick, Option.some.injEq] at hf
  subst hf
  have hname := (List.cons.inj htext).2
  refine ⟨rfl, ?_⟩
  rcases Delimited.name_cases (body ++ rest) with ⟨-, -, inner, hclosed, hinner, -⟩ | ⟨hopen, hbody⟩
  · exact .inl ⟨inner, hinner, by rw [hclosed]⟩
  · have hrest : rest = [] := by simpa using hname.symm.trans hopen
    exact .inr ⟨⟨_, hbody, by rw [hopen]⟩, hrest⟩

end Lexeme

/-! ## Stripped backticks -/

namespace Rules
variable {r : Rules} (hr : r.validate = .ok ())
include hr

theorem addBackticks_of_strip (hstrip : r.stripBackticks = true) : r.addBackticks = false := by
  cases hadd : r.addBackticks with
  | false => rfl
  | true => simp [validate, hadd, hstrip] at hr

theorem parts_stripped (hstrip : r.stripBackticks = true) {l : Lexeme}
    (hl : l.toCategory = { kind := .keyword }) (prev : Option Category) : r.parts prev l = [l.bare] := by
  have hkey : l.kind = .keyword := congrArg Category.kind hl
  have htakes := takesBackticks_of_name ⟨hkey, congrArg Category.attrs hl⟩ prev
  have hadd := addBackticks_of_strip hr hstrip
  by_cases hq : l.isQuoted <;> simp [parts, hkey, htakes, hstrip, hadd, Lexeme.bare, hq]

end Rules

namespace Lexer

theorem stop_of_isOpenName {lx : Lexer} {source : Bytes} {t : Token}
    (ht : t ∈ (lx.bind source).rest.1) (hopen : IsOpenName (t.lexeme source).text) :
    t.span.stop = source.length := by
  obtain ⟨body, -, htext⟩ := id hopen
  have htick : (t.lexeme source).text.head? = some backtick := by rw [htext]; rfl
  have hne : t.span.slice source ≠ [] := fun hnil => List.cons_ne_nil _ _ (htext.symm.trans hnil)
  rcases (Lexeme.name_of_comesOff (comesOff_of_mem_rest ht).1 htick).2 with hclosed | ⟨-, hrest⟩
  · exact absurd hopen hclosed.not_isOpenName
  · exact Nat.le_antisymm (t.span.stop_le_of_slice_ne_nil hne) (List.drop_eq_nil_iff.1 hrest)

/-- **Closed names look quoted.** A name in backticks is closed, or it is open and runs to the end of its
source. It looks quoted just when it is closed, unless it was cut off behind a doubled backtick. So rules
that strip backticks take both of them off a closed name, and half of the escape at the end of a name that
was cut off there. All other open names stay as they are. -/
theorem quoted_names (lx : Lexer) (source : Bytes) (t : Token) (ht : t ∈ (lx.bind source).rest.1)
    (htick : (t.lexeme source).text.head? = some backtick) :
    let l := t.lexeme source
    (IsClosedName l.text ∧ ¬ IsOpenName l.text ∨
        IsOpenName l.text ∧ ¬ IsClosedName l.text ∧ t.span.stop = source.length) ∧
      ((l.isQuoted ↔ IsClosedName l.text) ↔ ¬ IsCutOnEscape l.text) ∧
      ∀ r : Rules, r.validate = .ok () → r.stripBackticks = true → ∀ prev,
        (∀ inner, NameBody inner → l.text = backtick :: (inner ++ [backtick]) →
          r.parts prev l = [inner]) ∧
        (∀ inner, NameBody inner → l.text = backtick :: (inner ++ [backtick, backtick]) →
          r.parts prev l = [inner ++ [backtick]]) ∧
        (¬ IsClosedName l.text → ¬ IsCutOnEscape l.text → r.parts prev l = [l.text]) := by
  intro l
  obtain ⟨hcategory, hname⟩ := Lexeme.name_of_comesOff (comesOff_of_mem_rest ht).1 htick
  refine ⟨?_, ?_, fun r hr hstrip prev => ?_⟩
  · rcases hname with hclosed | ⟨hopen, -⟩
    · exact .inl ⟨hclosed, hclosed.not_isOpenName⟩
    · exact .inr ⟨hopen, fun hclosed => hclosed.not_isOpenName hopen, stop_of_isOpenName ht hopen⟩
  · exact Lexeme.isQuoted_iff_isClosedName_iff (hname.imp_right And.left)
  · rw [Rules.parts_stripped hr hstrip hcategory prev]
    refine ⟨fun inner _ htext => ?_, fun inner _ htext => ?_, fun hclosed hcut => ?_⟩
    · rw [Lexeme.bare_of_ends htext]
    · rw [(Lexeme.bare_of_cut htext).2]
    · have hopen := (hname.resolve_left hclosed).1
      have hquoted := mt (Lexeme.isQuoted_iff_of_isOpenName hopen).1 hcut
      rw [Lexeme.bare_of_not_isQuoted (Bool.eq_false_iff.2 hquoted)]

theorem quoted_names_escaped :
    let source := Utf8.encode "x.`a``b`"
    let t : Token := { kind := .keyword, span := ⟨2, 8⟩ }
    t ∈ (({} : Lexer).bind source).rest.1 ∧ (t.lexeme source).text.head? = some backtick ∧
      ((t.lexeme source).isQuoted ↔ IsClosedName (t.lexeme source).text) ∧
      ({ stripBackticks := true } : Rules).parts none (t.lexeme source) = [Utf8.encode "a``b"] := by
  intro source t
  have ht : t ∈ (({} : Lexer).bind source).rest.1 := by
    rw [rest_bind]
    decide
  have hbody : NameBody (Utf8.encode "a``b") :=
    .plain (by decide) <| .doubled <| .plain (by decide) .nil
  obtain ⟨-, hiff, hparts⟩ := quoted_names {} source t ht (by decide)
  have hclosed : IsClosedName (t.lexeme source).text := ⟨_, hbody, by decide⟩
  exact ⟨ht, by decide,
    hiff.2 fun hcut => hclosed.not_isOpenName hcut.isOpenName,
    (hparts { stripBackticks := true } rfl rfl none).1 _ hbody (by decide)⟩

/-- A name that was cut off behind a doubled backtick looks quoted, and loses half of the escape. -/
theorem quoted_names_cut :
    let source := Utf8.encode "`a``"
    let t : Token := { kind := .keyword, span := ⟨0, 4⟩ }
    t ∈ (({} : Lexer).bind source).rest.1 ∧ (t.lexeme source).text = source ∧
      (t.lexeme source).isQuoted ∧ ¬ IsClosedName (t.lexeme source).text ∧
      ({ stripBackticks := true } : Rules).validate = .ok () ∧
      ({ stripBackticks := true } : Rules).text source = Utf8.encode "a`" := by
  intro source t
  have ht : t ∈ (({} : Lexer).bind source).rest.1 := by
    rw [rest_bind]
    decide
  have hopen : IsOpenName (t.lexeme source).text :=
    ⟨Utf8.encode "a``", .plain (by decide) (.doubled .nil), by decide⟩
  exact ⟨ht, by decide, by decide, fun hclosed => hclosed.not_isOpenName hopen, rfl, by decide⟩

end Lexer

/-! ## Added backticks -/

theorem Lexeme.comesOff_of_isClosedName {text : Bytes} (h : IsClosedName text) :
    ComesOff (.lexeme { kind := .keyword, text }) [] := by
  obtain ⟨inner, hinner, rfl⟩ := h
  refine comesOff_name ?_
  rw [List.append_nil, Delimited.name_body hinner]
  rfl

theorem Lexeme.name_or_not_mem {l : Lexeme} {rest : Bytes} (h : ComesOff (.lexeme l) rest)
    (hkind : l.kind = .keyword ∨ l.kind = .star) :
    backtick ∉ l.text ∨ IsClosedName l.text ∨ IsOpenName l.text := by
  by_cases htick : l.text.head? = some backtick
  · exact .inr ((name_of_comesOff h htick).2.imp_right And.left)
  cases h with
  | lexeme htext hf =>
  cases front?_cases hf with
  | star hb => exact .inl (by simp +decide [hb])
  | name hb => exact absurd (by rw [hb]; rfl) htick
  | word hb =>
    exact .inl fun hmem => absurd (wordPart_of_mem_word hb _ _ hmem) (by decide)
  | _ => simp at hkind

namespace Rules

theorem kind_of_takesBackticks {prev : Option Category} {c : Category} (h : takesBackticks prev c) :
    c.kind = .keyword ∨ c.kind = .star := by
  simp only [takesBackticks, Category.isIdentifier, Bool.or_eq_true, Bool.and_eq_true,
    decide_eq_true_eq] at h
  rcases h with (h | h) | h
  · exact .inl h.1
  · exact .inr h
  · exact .inl h.1

variable {r : Rules} {l : Lexeme} {prev : Option Category} (hr : r.validate = .ok ())
  (hadd : r.addBackticks = true) (htakes : takesBackticks prev l.toCategory = true)
include hr hadd htakes

theorem shown_added : (r.shown prev l).flatten =
    if l.isQuoted then l.text.map (r.foldOf l.kind)
    else backtick :: (l.text.map (r.foldOf l.kind) ++ [backtick]) := by
  have hlit : l.kind ≠ .literal := by
    rcases kind_of_takesBackticks htakes with h | h <;> rw [h] <;> decide
  have hstrip : r.stripBackticks = false := by
    cases hstrip : r.stripBackticks with
    | false => rfl
    | true => rw [addBackticks_of_strip hr hstrip] at hadd; cases hadd
  have htick := (r.foldOf_eq_backtick_iff l.kind backtick).2 rfl
  rw [shown_flatten, parts]
  by_cases hq : l.isQuoted
  · simp [hlit, htakes, hstrip, hq]
  · simp [hlit, htakes, hadd, hq, htick]

variable {rest : Bytes} (h : ComesOff (.lexeme l) rest)
include h

theorem shown_of_not_open (hopen : ¬ IsOpenName l.text) :
    NameBody l.bare ∧
      (r.shown prev l).flatten = backtick :: (l.bare.map (r.foldOf l.kind) ++ [backtick]) := by
  rw [shown_added hr hadd htakes]
  rcases Lexeme.name_or_not_mem h (kind_of_takesBackticks htakes) with hmem | hclosed | hopen'
  · have hquoted : l.isQuoted = false := Bool.eq_false_iff.2 fun hq =>
      hmem (l.text_of_isQuoted hq ▸ List.mem_cons_self)
    have hbare : l.bare = l.text := Lexeme.bare_of_not_isQuoted hquoted
    rw [hbare, hquoted]
    exact ⟨.of_not_mem hmem, rfl⟩
  · have hquoted := Lexeme.isQuoted_of_isClosedName hclosed
    have htick := (r.foldOf_eq_backtick_iff l.kind backtick).2 rfl
    obtain ⟨inner, hinner, htext⟩ := hclosed
    rw [Lexeme.bare_of_ends htext, if_pos hquoted, htext]
    exact ⟨hinner, by simp [htick]⟩
  · exact absurd hopen' hopen

theorem isClosedName_shown_iff : IsClosedName (r.shown prev l).flatten ↔ ¬ IsOpenName l.text := by
  have hfold := r.foldOf_eq_backtick_iff l.kind
  constructor
  · rintro hclosed ⟨body, hbody, htext⟩
    have hopen := hbody.map hfold
    rw [shown_added hr hadd htakes, htext, List.map_cons, (hfold backtick).2 rfl] at hclosed
    split at hclosed
    · exact hclosed.not_isOpenName ⟨_, hopen, rfl⟩
    · obtain ⟨inner, hinner, hshown⟩ := hclosed
      rw [List.cons.injEq, List.append_left_inj] at hshown
      exact hopen.not_cons (hshown.2 ▸ hinner)
  · intro hopen
    obtain ⟨hbare, hshown⟩ := shown_of_not_open hr hadd htakes h hopen
    exact ⟨_, hbare.map hfold, hshown⟩

end Rules

namespace Lexer

/-- **Added backticks close names.** The complete output is what comes before a token, its separator, what
shows the token, and what comes behind it. Where backticks are added to a token that may take them, what
shows it is a closed name, and on its own it is read as that one word, just when the token is no name that
was cut off at the end of the source. A whole pair of backticks then stands around it, once. -/
theorem added_backticks (lx fresh : Lexer) (r : Rules) (hr : r.validate = .ok ())
    (hadd : r.addBackticks = true) (source : Bytes) (before behind : List Token) (t : Token)
    (htokens : (lx.bind source).rest.1 = before ++ t :: behind)
    (htakes : Rules.takesBackticks (lastShown none (before.map (·.lexeme source))) t.toCategory = true) :
    let l := t.lexeme source
    let prev := lastShown none (before.map (·.lexeme source))
    let shown := (r.shown prev l).flatten
    (∀ buffer, (lx.normalize r source buffer).1.result = .ok () →
        (lx.normalize r source buffer).1.output =
          r.textAfter none (before.map (·.lexeme source)) ++ (r.separator prev t.toCategory ++ shown) ++
            r.textAfter (some t.toCategory) (behind.map (·.lexeme source))) ∧
      (IsClosedName shown ∧ (fresh.bind shown).tokenize.1 =
          [{ kind := .keyword, span := ⟨0, shown.length⟩ }, Token.endOfInput shown.length] ↔
        ¬ IsOpenName l.text) ∧
      (¬ IsOpenName l.text → shown = backtick :: (l.bare.map (r.foldOf l.kind) ++ [backtick])) ∧
      (IsOpenName l.text → t.span.stop = source.length) := by
  intro l prev shown
  have ht : t ∈ (lx.bind source).rest.1 := htokens ▸ List.mem_append_cons_self
  have hoff := (comesOff_of_mem_rest ht).1
  have hclosed := Rules.isClosedName_shown_iff hr hadd htakes hoff
  refine ⟨fun buffer hok => ?_, ⟨fun h => hclosed.1 h.1, fun hopen => ⟨hclosed.2 hopen, ?_⟩⟩,
    fun hopen => (Rules.shown_of_not_open hr hadd htakes hoff hopen).2, stop_of_isOpenName ht⟩
  · have hcomment : l.kind ≠ .comment := by
      rcases Rules.kind_of_takesBackticks htakes with h | h <;> exact fun hc => by cases h.symm.trans hc
    rw [output_of_ok hr hok, Rules.text, ← lx.map_lexeme_rest_bind, htokens, List.map_append,
      List.map_cons, Rules.textAfter_append, Rules.textAfter, if_neg hcomment]
    exact (List.append_assoc ..).symm
  · exact tokenize_lexeme fresh (Lexeme.comesOff_of_isClosedName (hclosed.2 hopen))

theorem added_backticks_after_dot :
    let r : Rules := { keywordCase := .upper, addBackticks := true }
    let source := Utf8.encode "db./* c */order"
    let o := (({} : Lexer).normalize r source (List.replicate 16 0)).1
    r.validate = .ok () ∧ o.output = Utf8.encode "`DB`.`ORDER`" ∧
      (({} : Lexer).bind (Utf8.encode "`ORDER`")).tokenize.1 =
        [{ kind := .keyword, span := ⟨0, 7⟩ }, Token.endOfInput 7] := by
  intro r source o
  let db : Token := { kind := .keyword, span := ⟨0, 2⟩ }
  let point : Token := { kind := .dot, span := ⟨2, 3⟩ }
  let comment : Token := { kind := .comment, span := ⟨3, 10⟩ }
  let order : Token := { kind := .keyword, attrs := { reserved := true }, span := ⟨10, 15⟩ }
  have htokens : (({} : Lexer).bind source).rest.1 = [db, point, comment] ++ order :: [] := by
    rw [rest_bind]
    decide +kernel
  have hok : o.result = .ok () := result_of_fits {} rfl (by decide +kernel)
  have hword : ¬ IsOpenName (order.lexeme source).text := by
    rintro ⟨body, -, htext⟩
    cases htext
  obtain ⟨houtput, hclosed, -, -⟩ :=
    added_backticks {} {} r rfl rfl source [db, point, comment] [] order htokens (by decide)
  refine ⟨rfl, ?_, (hclosed.2 hword).2⟩
  rw [houtput _ hok]
  decide +kernel

/-- Around an open name a pair of backticks makes an empty name with more words behind it, and an open name
that looks closed is left open. -/
theorem added_backticks_cut :
    let r : Rules := { addBackticks := true }
    let t : Token := { kind := .keyword, span := ⟨0, 2⟩ }
    let shown := Utf8.encode "``a`"
    r.validate = .ok () ∧ r.text (Utf8.encode "`a") = shown ∧
      (({} : Lexer).bind (Utf8.encode "`a")).tokenize.1 = [t, Token.endOfInput 2] ∧
      Rules.takesBackticks none t.toCategory = true ∧
      (({} : Lexer).bind shown).tokenize.1 =
        [{ kind := .keyword, span := ⟨0, 2⟩ }, { kind := .keyword, span := ⟨2, 3⟩ },
          { kind := .keyword, span := ⟨3, 4⟩ }, Token.endOfInput 4] ∧
      r.text (Utf8.encode "`a``") = Utf8.encode "`a``" := by
  intro r t shown
  rw [tokenize_eq, tokenize_eq, source_bind, source_bind]
  decide +kernel

end Lexer

end SqlCanon
