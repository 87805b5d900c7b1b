import SqlCanon.Fingerprint
import SqlCanon.Proofs.Growth
import SqlCanon.Proofs.Output

/-!
# Fingerprints and the shape of a statement

Under the canonical rules a lexeme shows its shape and nothing else: a literal is a placeholder and a
word loses its letter case and its backticks. So statements of one shape have one fingerprint.
-/

namespace SqlCanon

namespace Lexeme

def bare (l : Lexeme) : Bytes := if l.isQuoted then l.text.tail.dropLast else l.text

theorem bare_of_not_isQuoted {l : Lexeme} (h : l.isQuoted = false) : l.bare = l.text := by
  rw [bare, h]
  rfl

/-- Two lexemes that differ in the value of a literal, or in the letter case, the backticks and the
attributes of a word. -/
structure SameShape (l m : Lexeme) : Prop where
  kind : l.kind = m.kind
  text : l.kind ≠ .literal → l.kind ≠ .keyword → l.text = m.text
  bare : l.kind = .keyword → l.bare.map Byte.toLower = m.bare.map Byte.toLower

instance (l m : Lexeme) : Decidable (SameShape l m) :=
  decidable_of_iff (l.kind = m.kind ∧ (l.kind ≠ .literal → l.kind ≠ .keyword → l.text = m.text) ∧
      (l.kind = .keyword → l.bare.map Byte.toLower = m.bare.map Byte.toLower))
    ⟨fun ⟨h₁, h₂, h₃⟩ => ⟨h₁, h₂, h₃⟩, fun ⟨h₁, h₂, h₃⟩ => ⟨h₁, h₂, h₃⟩⟩

def canonical (l : Lexeme) : Bytes :=
  if l.kind = .literal then [Byte.question]
  else if l.kind = .keyword then l.bare.map Byte.toLower
  else l.text

theorem SameShape.canonical_eq {l m : Lexeme} (h : SameShape l m) : l.canonical = m.canonical := by
  unfold canonical
  rw [h.kind]
  split
  · rfl
  next hlit =>
  split
  · next hkey => exact h.bare (h.kind.trans hkey)
  · next hkey => exact h.text (h.kind ▸ hlit) (h.kind ▸ hkey)

end Lexeme

namespace Rules

theorem canonical_validate : canonical.validate = .ok () := rfl

theorem takesBackticks_of_name {c : Category} (h : c.kind = .keyword ∧ c.attrs = {})
    (prev : Option Category) : takesBackticks prev c = true := by
  simp [takesBackticks, Category.isIdentifier, Category.isReserved, h.1, h.2]

theorem parts_canonical {l : Lexeme} (hlit : l.kind ≠ .literal)
    (hq : l.isQuoted → l.kind = .keyword ∧ l.attrs = {}) (prev : Option Category) :
    (canonical.parts prev l).flatten = l.bare := by
  unfold parts Lexeme.bare
  rw [if_neg (by simp [hlit])]
  by_cases h : l.isQuoted
  · rw [if_pos (takesBackticks_of_name (hq h) prev)]
    simp [canonical, h]
  · simp [canonical, h]

theorem shown_canonical {l : Lexeme} (hq : l.isQuoted → l.kind = .keyword ∧ l.attrs = {})
    (prev : Option Category) : (canonical.shown prev l).flatten = l.canonical := by
  rw [shown_flatten, Lexeme.canonical]
  by_cases hlit : l.kind = .literal
  · simp [canonical, parts, foldOf, hlit]
  rw [if_neg hlit, parts_canonical hlit hq, foldOf]
  by_cases hkey : l.kind = .keyword
  · rw [if_pos hkey, if_pos hkey]
    rfl
  · have hbare : l.bare = l.text := if_neg fun h => hkey (hq h).1
    rw [if_neg hkey, if_neg hkey, hbare, List.map_id]

theorem separator_canonical {p q : Option Category} {c d : Category}
    (hprev : p.map (·.kind) = q.map (·.kind)) (hkind : c.kind = d.kind) :
    canonical.separator p c = canonical.separator q d := by
  cases p with
  | none =>
    cases q with
    | none => rfl
    | some q => cases hprev
  | some p =>
    cases q with
    | none => cases hprev
    | some q =>
      have hpq : p.kind = q.kind := Option.some.inj hprev
      simp [separator, spaceBetween, hpq, hkind]

/-- The two-run invariant: after lexemes of one shape the rest of two outputs is the same. -/
theorem textAfter_canonical {ls ms : List Lexeme} (h : List.Forall₂ Lexeme.SameShape ls ms)
    (hls : ∀ l ∈ ls, l.isQuoted → l.kind = .keyword ∧ l.attrs = {})
    (hms : ∀ m ∈ ms, m.isQuoted → m.kind = .keyword ∧ m.attrs = {})
    {p q : Option Category} (hprev : p.map (·.kind) = q.map (·.kind)) :
    canonical.textAfter p ls = canonical.textAfter q ms := by
  induction h generalizing p q with
  | nil => rfl
  | @cons l m ls ms hlm _ ih =>
    have hrest : ∀ {p q : Option Category}, p.map (·.kind) = q.map (·.kind) →
        canonical.textAfter p ls = canonical.textAfter q ms := fun hpq =>
      ih (fun l hl => hls l (List.mem_cons_of_mem _ hl))
        (fun m hm => hms m (List.mem_cons_of_mem _ hm)) hpq
    rw [textAfter, textAfter, hlm.kind]
    split
    · exact hrest hprev
    · rw [added, added, shown_canonical (hls l List.mem_cons_self),
        shown_canonical (hms m List.mem_cons_self), hlm.canonical_eq,
        separator_canonical hprev hlm.kind,
        hrest (show (some l.toCategory).map (·.kind) = (some m.toCategory).map (·.kind) from
          congrArg some hlm.kind)]

theorem text_canonical {a b : Bytes} (h : List.Forall₂ Lexeme.SameShape (visible a) (visible b)) :
    canonical.text a = canonical.text b := by
  rw [text_eq_visible, text_eq_visible]
  exact textAfter_canonical h quoted_of_mem_visible quoted_of_mem_visible rfl

end Rules

/-! ## Fingerprinters -/

namespace Fingerprinter

def feed (f : Fingerprinter) (statements : List String) : Fingerprinter :=
  statements.foldl (fun f statement => (f.fingerprint statement).2) f

theorem rules_feed (f : Fingerprinter) (statements : List String) :
    (f.feed statements).rules = f.rules := by
  induction statements generalizing f with
  | nil => rfl
  | cons s ss ih => exact ih _

theorem fingerprint_eq {f : Fingerprinter} (hf : f.rules = Rules.canonical) {s : String}
    (hs : 2 * (Utf8.encode s).length ≤ Lexer.maximumBuffer) :
    (f.fingerprint s).1 = .ok (Utf8.lossy (Rules.canonical.text (Utf8.encode s))) := by
  have hfit := Nat.le_trans (Rules.canonical.length_text_le rfl (Utf8.encode s)) hs
  simp only [fingerprint, Lexer.normalizeText, hf]
  exact Lexer.grow_eq Rules.canonical_validate hfit _ _ _

/-- **Fingerprints depend on shape.** -/
theorem fingerprint_of_sameShape (f g : Fingerprinter) (hf : f.rules = Rules.canonical)
    (hg : g.rules = Rules.canonical) (before before' : List String) (a b : String)
    (ha : 4 * (Utf8.encode a).length ≤ Lexer.maximumBuffer)
    (hb : 4 * (Utf8.encode b).length ≤ Lexer.maximumBuffer)
    (h : List.Forall₂ Lexeme.SameShape (visible (Utf8.encode a)) (visible (Utf8.encode b))) :
    ∃ text, ((f.feed before).fingerprint a).1 = .ok text ∧
      ((g.feed before').fingerprint b).1 = .ok text := by
  refine ⟨_, fingerprint_eq ((rules_feed f before).trans hf) (by omega), ?_⟩
  rw [Rules.text_canonical h]
  exact fingerprint_eq ((rules_feed g before').trans hg) (by omega)

theorem fingerprint_of_sameShape_quoted :
    4 * (Utf8.encode "SELECT `From`, 'a' FROM t").length ≤ Lexer.maximumBuffer ∧
      4 * (Utf8.encode "select from,2 /* b */ from `T`").length ≤ Lexer.maximumBuffer ∧
      List.Forall₂ Lexeme.SameShape (visible (Utf8.encode "SELECT `From`, 'a' FROM t"))
        (visible (Utf8.encode "select from,2 /* b */ from `T`")) ∧
      ∃ text,
        ((feed {} ["x"]).fingerprint "SELECT `From`, 'a' FROM t").1 = .ok text ∧
          ((feed (withBufferSize {} 0) []).fingerprint "select from,2 /* b */ from `T`").1 =
            .ok text := by
  have hshape : List.Forall₂ Lexeme.SameShape (visible (Utf8.encode "SELECT `From`, 'a' FROM t"))
      (visible (Utf8.encode "select from,2 /* b */ from `T`")) := by
    have hzip : ∀ p ∈ List.zip (visible (Utf8.encode "SELECT `From`, 'a' FROM t"))
        (visible (Utf8.encode "select from,2 /* b */ from `T`")), Lexeme.SameShape p.1 p.2 := by
      decide +kernel
    exact List.forall₂_iff_zip.2 ⟨by decide +kernel, fun h => hzip _ h⟩
  have ha : 4 * (Utf8.encode "SELECT `From`, 'a' FROM t").length ≤ Lexer.maximumBuffer := by
    decide +kernel
  have hb : 4 * (Utf8.encode "select from,2 /* b */ from `T`").length ≤ Lexer.maximumBuffer := by
    decide +kernel
  exact ⟨ha, hb, hshape,
    fingerprint_of_sameShape {} (withBufferSize {} 0) rfl rfl ["x"] [] _ _ ha hb hshape⟩

end Fingerprinter

end SqlCanon
