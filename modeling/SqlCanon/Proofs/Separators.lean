import SqlCanon.Proofs.Characters
import SqlCanon.Proofs.Output
import SqlCanon.Proofs.Shape
import SqlCanon.Proofs.Signed

/-!
# Separators

A separator stands between two lexemes, and between bytes of them as long as each lexeme shows one. A name
without a byte between its backticks shows none where backticks are stripped. Where such a name has a
separator or an end of the output on both of its sides, these meet.
-/

namespace SqlCanon
open Byte

/-- Separators stand between bytes of tokens: none at either end, and no two in a row. -/
structure Flanked (ss : List Signed) : Prop where
  first : ∀ s ∈ ss.head?, s.token ≠ none
  last : ∀ s ∈ ss.getLast?, s.token ≠ none
  inner : ss.IsChain fun s t => s.token ≠ none ∨ t.token ≠ none

/-- What may follow a byte of a token, or a separator where `shown` is false. -/
def Tidy (shown : Bool) : List Signed → Prop
  | [] => shown = true
  | s :: ss => (s.token = none → shown = true) ∧ Tidy s.token.isSome ss

theorem tidy_iff (shown : Bool) (ss : List Signed) :
    Tidy shown ss ↔ (ss = [] → shown = true) ∧ (∀ s ∈ ss.head?, s.token = none → shown = true) ∧
      (∀ s ∈ ss.getLast?, s.token ≠ none) ∧
        ss.IsChain fun s t => s.token ≠ none ∨ t.token ≠ none := by
  induction ss generalizing shown with
  | nil => simp [Tidy]
  | cons s ss ih =>
    have hshows : s.token.isSome = true ↔ s.token ≠ none := Option.isSome_iff_ne_none
    cases ss with
    | nil => simp [Tidy, hshows]
    | cons t ts =>
      rw [Tidy, ih, List.isChain_cons_cons, List.getLast?_cons_cons]
      simp only [hshows, List.head?_cons, Option.mem_some_iff, forall_eq', reduceCtorEq, false_implies,
        true_and]
      tauto

instance (ss : List Signed) : Decidable (Flanked ss) :=
  decidable_of_iff ((∀ s ∈ ss.head?, s.token ≠ none) ∧ (∀ s ∈ ss.getLast?, s.token ≠ none) ∧
      ss.IsChain fun s t => s.token ≠ none ∨ t.token ≠ none)
    ⟨fun ⟨h₁, h₂, h₃⟩ => ⟨h₁, h₂, h₃⟩, fun ⟨h₁, h₂, h₃⟩ => ⟨h₁, h₂, h₃⟩⟩

theorem flanked_iff (ss : List Signed) : Flanked ss ↔ ss = [] ∨ Tidy false ss := by
  rw [tidy_iff]
  constructor
  · rintro ⟨hfirst, hlast, hinner⟩
    by_cases hss : ss = []
    · exact .inl hss
    · exact .inr ⟨fun h => absurd h hss, fun s hs h => absurd h (hfirst s hs), hlast, hinner⟩
  · rintro (rfl | ⟨-, hfirst, hlast, hinner⟩)
    · exact ⟨by simp, by simp, .nil⟩
    · exact ⟨fun s hs h => Bool.false_ne_true (hfirst s hs h), hlast, hinner⟩

theorem tidy_append_shown {ss : List Signed} (hne : ss ≠ []) (h : ∀ s ∈ ss, s.token ≠ none) (shown : Bool)
    (rest : List Signed) : Tidy shown (ss ++ rest) ↔ Tidy true rest := by
  induction ss generalizing shown with
  | nil => exact absurd rfl hne
  | cons s ss ih =>
    rw [List.forall_mem_cons] at h
    have hs : s.token.isSome = true := Option.isSome_iff_ne_none.2 h.1
    rw [List.cons_append, Tidy, hs, and_iff_right fun hnone => absurd hnone h.1]
    by_cases hss : ss = []
    · rw [hss, List.nil_append]
    · exact ih hss h.2 true

theorem getLast?_cons_or {α : Type} (a : α) (as : List α) (prev : Option α) :
    (a :: as).getLast?.or prev = as.getLast?.or (some a) := by
  rw [List.getLast?_cons]
  cases as.getLast? <;> rfl

/-! ## The lexemes of an output -/

structure Lexeme.Visible (l : Lexeme) : Prop where
  text_ne_nil : l.text ≠ []
  kind : l.kind ≠ .comment
  quoted : l.isQuoted → l.kind = .keyword ∧ l.attrs = {}

theorem Lexeme.visible_of_mem {source : Bytes} {l : Lexeme} (h : l ∈ visible source) : l.Visible where
  text_ne_nil := text_ne_nil_of_mem (List.mem_filter.1 h).1
  kind := by simpa using (List.mem_filter.1 h).2
  quoted := quoted_of_mem_visible l h

def placed (source : Bytes) : List (Nat × Lexeme) :=
  (Piece.place 0 (Piece.cut source)).filter (·.2.kind != .comment)

theorem map_snd_placed (source : Bytes) : (placed source).map Prod.snd = visible source := by
  rw [visible, lexemes, ← Piece.place_map_snd 0, List.filter_map]
  rfl

theorem visible_of_mem_placed {source : Bytes} : ∀ p ∈ placed source, p.2.Visible := by
  intro p hp
  have hmem : p.2 ∈ visible source := by
    rw [← map_snd_placed]
    exact List.mem_map_of_mem hp
  exact Lexeme.visible_of_mem hmem

theorem slice_of_mem_placed {source : Bytes} {p : Nat × Lexeme} (hp : p ∈ placed source) :
    (Token.ofLexeme p.1 p.2).lexeme source = p.2 :=
  Standing.slice_of_mem (Standing.place_cut rfl) p (List.mem_filter.1 hp).1

theorem exists_placed {source : Bytes} {t : Token} (ht : t ∈ tokens source) (hc : t.kind ≠ .comment) :
    ∃ p ∈ placed source, Token.ofLexeme p.1 p.2 = t := by
  obtain ⟨p, hp, rfl⟩ := List.mem_map.1 ht
  exact ⟨p, List.mem_filter.2 ⟨hp, by simpa using hc⟩, rfl⟩

namespace Rules
variable (r : Rules)

/-! ## Lexemes that show nothing -/

/-- Nothing is left of an empty name without its backticks. -/
def Drops (l : Lexeme) : Prop := r.stripBackticks = true ∧ l.text = [backtick, backtick]

instance (l : Lexeme) : Decidable (r.Drops l) := inferInstanceAs (Decidable (_ ∧ _))

theorem isQuoted_of_drops {l : Lexeme} (h : r.Drops l) : l.isQuoted := by simp [Lexeme.isQuoted, h.2]

section
variable {l : Lexeme} (hl : l.Visible)
include hl

theorem keyword_of_drops (h : r.Drops l) : l.kind = .keyword := (hl.quoted (r.isQuoted_of_drops h)).1

theorem shown_eq_nil_iff (prev : Option Category) : (r.shown prev l).flatten = [] ↔ r.Drops l := by
  rw [shown_flatten, List.map_eq_nil_iff]
  constructor
  · intro h
    unfold parts at h
    split at h
    · cases h
    split at h
    · split at h
      · simp at h
      split at h
      · next hstrip =>
        rw [Bool.and_eq_true] at hstrip
        have htext := l.text_of_isQuoted hstrip.2
        rw [show l.text.tail.dropLast = [] by simpa using h] at htext
        exact ⟨hstrip.1, htext⟩
      · simp [hl.text_ne_nil] at h
    · simp [hl.text_ne_nil] at h
  · intro h
    have hname := hl.quoted (r.isQuoted_of_drops h)
    simp [parts, hname.1, takesBackticks_of_name hname, r.isQuoted_of_drops h, h.1, h.2]

end

theorem spaceBetween_keywords {p c : Category} (hp : p.kind = .keyword) (hc : c.kind = .keyword) :
    r.spaceBetween (some p) c = true := by
  simp [spaceBetween, hp, hc]

/-! ## The scan over the lexemes -/

theorem signedAfter_filter (prev : Option Category) (ps : List (Nat × Lexeme)) :
    r.signedAfter prev (ps.filter (·.2.kind != .comment)) = r.signedAfter prev ps := by
  induction ps generalizing prev with
  | nil => rfl
  | cons p ps ih =>
    by_cases hc : p.2.kind = .comment
    · simp [hc, signedAfter, ih]
    · simp [hc, signedAfter, ih]

theorem tidy_separator (prev : Option Category) (c : Category) (shown : Bool) (rest : List Signed) :
    Tidy shown ((r.separator prev c).map (⟨·, none⟩) ++ rest) ↔
      (r.spaceBetween prev c = true → shown = true) ∧ Tidy (shown && !r.spaceBetween prev c) rest := by
  cases h : r.spaceBetween prev c <;> simp [separator, h, Tidy]

section
variable {l : Lexeme} (hl : l.Visible) {start : Nat} {ps : List (Nat × Lexeme)} {prev : Option Category}
  {shown : Bool}
include hl

theorem tidy_of_shows (h : ¬ r.Drops l) :
    Tidy shown (r.signedAfter prev ((start, l) :: ps)) ↔
      (r.spaceBetween prev l.toCategory = true → shown = true) ∧
        Tidy true (r.signedAfter (some l.toCategory) ps) := by
  have hne : (r.shown prev l).flatten ≠ [] := mt (r.shown_eq_nil_iff hl prev).1 h
  rw [signedAfter, if_neg hl.kind, List.append_assoc, tidy_separator,
    tidy_append_shown (mt List.map_eq_nil_iff.1 hne)]
  intro s hs
  obtain ⟨b, -, rfl⟩ := List.mem_map.1 hs
  exact Option.some_ne_none _

theorem signedAfter_of_drops (h : r.Drops l) :
    r.signedAfter prev ((start, l) :: ps) =
      (r.separator prev l.toCategory).map (⟨·, none⟩) ++ r.signedAfter (some l.toCategory) ps := by
  rw [signedAfter, if_neg hl.kind, (r.shown_eq_nil_iff hl prev).2 h, List.append_assoc, List.map_nil,
    List.nil_append]

theorem tidy_of_drops (h : r.Drops l) :
    Tidy shown (r.signedAfter prev ((start, l) :: ps)) ↔
      (r.spaceBetween prev l.toCategory = true → shown = true) ∧
        Tidy (shown && !r.spaceBetween prev l.toCategory) (r.signedAfter (some l.toCategory) ps) := by
  rw [r.signedAfter_of_drops hl h, tidy_separator]

theorem of_signedAfter_eq_nil (h : r.signedAfter prev ((start, l) :: ps) = []) :
    r.Drops l ∧ r.spaceBetween prev l.toCategory = false := by
  rw [signedAfter, if_neg hl.kind, List.append_assoc, List.append_eq_nil_iff, List.append_eq_nil_iff,
    List.map_eq_nil_iff, List.map_eq_nil_iff, r.shown_eq_nil_iff hl] at h
  refine ⟨h.2.1, Bool.eq_false_iff.2 fun hspace => ?_⟩
  rw [separator, if_pos hspace] at h
  exact List.cons_ne_nil _ _ h.1

/-- Behind a separator and a lexeme that shows nothing, the next lexeme has no separator before it. -/
theorem tidy_behind_drop (h : r.Drops l) {ps : List (Nat × Lexeme)} (hps : ∀ p ∈ ps, p.2.Visible) :
    Tidy false (r.signedAfter (some l.toCategory) ps) ↔
      (¬ ∀ m ∈ (ps.map Prod.snd).head?, r.spaceBetween (some l.toCategory) m.toCategory = true) ∧
        Tidy true (r.signedAfter (some l.toCategory) ps) := by
  cases ps with
  | nil => simp [signedAfter, Tidy]
  | cons p ps =>
    obtain ⟨start, m⟩ := p
    have hm : m.Visible := hps _ List.mem_cons_self
    by_cases hdrop : r.Drops m
    · -- two names have a separator between them, so the second one cannot mend what the first one left
      have hspace : r.spaceBetween (some l.toCategory) m.toCategory = true :=
        r.spaceBetween_keywords (r.keyword_of_drops hl h) (r.keyword_of_drops hm hdrop)
      simp [r.tidy_of_drops hm, hdrop, hspace]
    · simp [r.tidy_of_shows hm, hdrop]

end

/-- A lexeme with a separator or an end of the output on both sides, and not the only one. -/
structure StandsFree (before : Option Lexeme) (l : Lexeme) (behind : Option Lexeme) : Prop where
  left : ∀ m ∈ before, r.spaceBetween (some m.toCategory) l.toCategory = true
  right : ∀ m ∈ behind, r.spaceBetween (some l.toCategory) m.toCategory = true
  others : before ≠ none ∨ behind ≠ none

instance (before : Option Lexeme) (l : Lexeme) (behind : Option Lexeme) :
    Decidable (r.StandsFree before l behind) :=
  decidable_of_iff ((∀ m ∈ before, r.spaceBetween (some m.toCategory) l.toCategory = true) ∧
      (∀ m ∈ behind, r.spaceBetween (some l.toCategory) m.toCategory = true) ∧
        (before ≠ none ∨ behind ≠ none))
    ⟨fun ⟨h₁, h₂, h₃⟩ => ⟨h₁, h₂, h₃⟩, fun ⟨h₁, h₂, h₃⟩ => ⟨h₁, h₂, h₃⟩⟩

theorem standsFree_some_iff {p l : Lexeme} {behind : Option Lexeme} :
    r.StandsFree (some p) l behind ↔ r.spaceBetween (some p.toCategory) l.toCategory = true ∧
      ∀ m ∈ behind, r.spaceBetween (some l.toCategory) m.toCategory = true := by
  refine ⟨fun h => ⟨h.left p rfl, h.right⟩, fun h => ⟨fun m hm => ?_, h.2, .inl (Option.some_ne_none p)⟩⟩
  obtain rfl := Option.some.inj hm
  exact h.1

theorem standsFree_none_iff {l : Lexeme} {behind : Option Lexeme} :
    r.StandsFree none l behind ↔ behind ≠ none ∧
      ∀ m ∈ behind, r.spaceBetween (some l.toCategory) m.toCategory = true := by
  refine ⟨fun h => ⟨h.others.resolve_left (not_not.2 rfl), h.right⟩, fun h => ⟨fun m hm => ?_, h.2, .inr h.1⟩⟩
  cases hm

def Clear (prev : Option Lexeme) : List Lexeme → Prop
  | [] => True
  | l :: ls => (r.Drops l → ¬ r.StandsFree prev l ls.head?) ∧ Clear (some l) ls

instance decidableClear : ∀ (prev : Option Lexeme) (ls : List Lexeme), Decidable (r.Clear prev ls)
  | _, [] => .isTrue trivial
  | prev, l :: ls =>
    have := decidableClear (some l) ls
    inferInstanceAs (Decidable ((r.Drops l → ¬ r.StandsFree prev l ls.head?) ∧ r.Clear (some l) ls))

theorem clear_iff (prev : Option Lexeme) (ls : List Lexeme) :
    r.Clear prev ls ↔ ∀ before l behind, ls = before ++ l :: behind → r.Drops l →
      ¬ r.StandsFree (before.getLast?.or prev) l behind.head? := by
  induction ls generalizing prev with
  | nil => simp [Clear]
  | cons l ls ih =>
    rw [Clear, ih]
    constructor
    · rintro ⟨hl, hls⟩ before m behind hsplit
      cases before with
      | nil =>
        obtain ⟨rfl, rfl⟩ := List.cons.inj hsplit
        exact hl
      | cons k ks =>
        obtain ⟨rfl, rfl⟩ := List.cons.inj hsplit
        rw [getLast?_cons_or]
        exact hls ks m behind rfl
    · intro h
      refine ⟨h [] l ls rfl, fun before m behind hsplit => ?_⟩
      have hm := h (l :: before) m behind (by rw [hsplit, List.cons_append])
      rwa [getLast?_cons_or] at hm

/-- The run lemma: behind a byte of a token, separators stand apart just when the rest is clear. -/
theorem tidy_signedAfter_iff {ps : List (Nat × Lexeme)} (hps : ∀ p ∈ ps, p.2.Visible) (p : Lexeme) :
    Tidy true (r.signedAfter (some p.toCategory) ps) ↔ r.Clear (some p) (ps.map Prod.snd) := by
  induction ps generalizing p with
  | nil => simp [signedAfter, Tidy, Clear]
  | cons q ps ih =>
    obtain ⟨start, l⟩ := q
    have hl : l.Visible := hps _ List.mem_cons_self
    have hps := fun p hp => hps p (List.mem_cons_of_mem _ hp)
    rw [List.map_cons, Clear, ← ih hps l]
    by_cases hdrop : r.Drops l
    · rw [r.tidy_of_drops hl hdrop, imp_iff_right hdrop, standsFree_some_iff]
      cases hspace : r.spaceBetween (some p.toCategory) l.toCategory with
      | false => simp
      | true => simpa using r.tidy_behind_drop hl hdrop hps
    · rw [r.tidy_of_shows hl hdrop]
      simp [hdrop]

theorem flanked_signedAfter_iff {ps : List (Nat × Lexeme)} (hps : ∀ p ∈ ps, p.2.Visible) :
    Flanked (r.signedAfter none ps) ↔ r.Clear none (ps.map Prod.snd) := by
  rw [flanked_iff]
  cases ps with
  | nil => simp [signedAfter, Clear]
  | cons p ps =>
    obtain ⟨start, l⟩ := p
    have hl : l.Visible := hps _ List.mem_cons_self
    have hps := fun p hp => hps p (List.mem_cons_of_mem _ hp)
    have hnone : r.spaceBetween none l.toCategory = false := rfl
    rw [List.map_cons, Clear, ← r.tidy_signedAfter_iff hps l]
    by_cases hdrop : r.Drops l
    · have hnil : (r.separator none l.toCategory).map (Signed.mk · none) = [] := rfl
      rw [r.signedAfter_of_drops hl hdrop, hnil, List.nil_append, imp_iff_right hdrop,
        standsFree_none_iff]
      cases ps with
      | nil => simp [signedAfter, Tidy]
      | cons q ps =>
        obtain ⟨start, m⟩ := q
        have hm : m.Visible := hps _ List.mem_cons_self
        have hne : r.signedAfter (some l.toCategory) ((start, m) :: ps) ≠ [] := fun h => by
          obtain ⟨hdrop', hspace⟩ := r.of_signedAfter_eq_nil hm h
          rw [r.spaceBetween_keywords (r.keyword_of_drops hl hdrop) (r.keyword_of_drops hm hdrop')] at hspace
          cases hspace
        rw [or_iff_right hne, r.tidy_behind_drop hl hdrop hps]
        simp
    · rw [or_iff_right fun h => hdrop (r.of_signedAfter_eq_nil hl h).1,
        r.tidy_of_shows hl hdrop]
      simp [hdrop, hnone]

theorem flanked_signed_iff (source : Bytes) :
    Flanked (r.signed source) ↔ ∀ before l behind, visible source = before ++ l :: behind → r.Drops l →
      ¬ r.StandsFree before.getLast? l behind.head? := by
  rw [signed, ← signedAfter_filter, ← placed, r.flanked_signedAfter_iff visible_of_mem_placed, clear_iff,
    map_snd_placed]
  simp only [Option.or_none]

theorem exists_signedAfter_iff {ps : List (Nat × Lexeme)} (hps : ∀ p ∈ ps, p.2.Visible)
    (prev : Option Category) (t : Token) :
    (∃ s ∈ r.signedAfter prev ps, s.token = some t) ↔
      ∃ p ∈ ps, Token.ofLexeme p.1 p.2 = t ∧ ¬ r.Drops p.2 := by
  induction ps generalizing prev with
  | nil => simp [signedAfter]
  | cons p ps ih =>
    have hp : p.2.Visible := hps _ List.mem_cons_self
    have hsep : ¬ ∃ s ∈ (r.separator prev p.2.toCategory).map (Signed.mk · none), s.token = some t := by
      simp
    have hshown : (∃ s ∈ (r.shown prev p.2).flatten.map (Signed.mk · (some (Token.ofLexeme p.1 p.2))),
        s.token = some t) ↔ Token.ofLexeme p.1 p.2 = t ∧ ¬ r.Drops p.2 := by
      rw [← r.shown_eq_nil_iff hp prev]
      constructor
      · rintro ⟨s, hs, hst⟩
        obtain ⟨b, hb, rfl⟩ := List.mem_map.1 hs
        exact ⟨Option.some.inj hst, List.ne_nil_of_mem hb⟩
      · rintro ⟨rfl, hne⟩
        obtain ⟨b, hb⟩ := List.exists_mem_of_ne_nil _ hne
        exact ⟨_, List.mem_map_of_mem hb, rfl⟩
    rw [signedAfter, if_neg hp.kind, List.exists_mem_cons_iff, ← hshown,
      ← ih (fun q hq => hps q (List.mem_cons_of_mem _ hq)) (some p.2.toCategory)]
    simp only [List.mem_append, or_and_right, exists_or, hsep, false_or]

theorem exists_signed_iff {source : Bytes} {t : Token} (ht : t ∈ tokens source) (hc : t.kind ≠ .comment) :
    (∃ s ∈ r.signed source, s.token = some t) ↔ ¬ r.Drops (t.lexeme source) := by
  rw [signed, ← signedAfter_filter, ← placed, r.exists_signedAfter_iff visible_of_mem_placed]
  constructor
  · rintro ⟨p, hp, rfl, hdrop⟩
    rwa [slice_of_mem_placed hp]
  · intro hdrop
    obtain ⟨p, hp, rfl⟩ := exists_placed ht hc
    rw [slice_of_mem_placed hp] at hdrop
    exact ⟨p, hp, rfl, hdrop⟩

theorem byte_of_separator (source : Bytes) : ∀ s ∈ r.signed source, s.token = none → s.byte = space :=
  r.forall_signedAfter (fun _ => rfl) (fun _ _ _ _ _ _ h => by cases h) none

end Rules

namespace Lexer

/-- **Separators.** A token that is no comment has a byte of its own in the full output, unless it is a name
without a byte between its backticks and these are stripped. The output begins and ends with bytes of
tokens, and has such a byte between two separators, just when no name of that sort stands free: with a
separator or an end of the output on either side of it. -/
theorem separators_flanked (lx : Lexer) (r : Rules) (hr : r.validate = .ok ()) (source : Bytes) :
    (∀ buffer, (r.signed source).length ≤ buffer.length →
        (lx.normalize r source buffer).1.result = .ok () ∧
          (lx.normalize r source buffer).1.output = (r.signed source).map (·.byte)) ∧
      (∀ s ∈ r.signed source, s.token = none → s.byte = space) ∧
      (∀ t ∈ (lx.bind source).rest.1, t.kind ≠ .comment →
        ((∃ s ∈ r.signed source, s.token = some t) ↔ ¬ r.Drops (t.lexeme source))) ∧
      (Flanked (r.signed source) ↔
        ∀ before l behind, visible source = before ++ l :: behind → r.Drops l →
          ¬ r.StandsFree before.getLast? l behind.head?) := by
  refine ⟨fun buffer hfit => ?_, r.byte_of_separator source, fun t ht hc => ?_, r.flanked_signed_iff source⟩
  · rw [r.length_signed] at hfit
    have hok := result_of_fits lx hr hfit
    rw [r.map_byte_signed]
    exact ⟨hok, output_of_ok hr hok⟩
  · rw [rest_bind] at ht
    exact r.exists_signed_iff ht hc

theorem separators_flanked_parens :
    let r : Rules := { stripBackticks := true }
    let source := Utf8.encode "(``), ` `"
    let name : Token := { kind := .keyword, span := ⟨1, 3⟩ }
    r.validate = .ok () ∧
      (({} : Lexer).normalize r source (List.replicate 5 0)).1.output = Utf8.encode "(),  " ∧
      name ∈ (({} : Lexer).bind source).rest.1 ∧ ¬ (∃ s ∈ r.signed source, s.token = some name) ∧
      Flanked (r.signed source) := by
  intro r source name
  obtain ⟨houtput, -, htoken, hflanked⟩ := separators_flanked {} r rfl source
  have hname : name ∈ (({} : Lexer).bind source).rest.1 := by
    rw [rest_bind]
    decide +kernel
  have hclear : r.Clear none (visible source) := by decide +kernel
  refine ⟨rfl, ?_, hname, fun h => (htoken name hname (by decide)).1 h (by decide +kernel), ?_⟩
  · rw [(houtput _ (by decide +kernel)).2]
    decide +kernel
  · refine hflanked.2 fun before l behind hsplit hdrop => ?_
    have hfree := (r.clear_iff none _).1 hclear before l behind hsplit hdrop
    rwa [Option.or_none] at hfree

theorem separators_meet :
    let r : Rules := { stripBackticks := true }
    r.validate = .ok () ∧
      (r.text (Utf8.encode "a `` b") = Utf8.encode "a  b" ∧
        (r.signed (Utf8.encode "a `` b")).map (·.token.isSome) = [true, false, false, true]) ∧
      (r.text (Utf8.encode "`` a") = Utf8.encode " a" ∧
        (r.signed (Utf8.encode "`` a")).map (·.token.isSome) = [false, true]) ∧
      (r.text (Utf8.encode "a ``") = Utf8.encode "a " ∧
        (r.signed (Utf8.encode "a ``")).map (·.token.isSome) = [true, false]) ∧
      (∀ source ∈ ["a `` b", "`` a", "a ``"], ¬ Flanked (r.signed (Utf8.encode source))) := by
  intro r
  decide +kernel

end Lexer

end SqlCanon
