import Mathlib.Data.List.Forall2
import SqlCanon.Query.Fingerprint

/-!
# Redacted trees

A redacted tree is a normal form: it holds no value but NULL and placeholders, and no sign stands over a
placeholder. Two trees have the same one if they differ in values and in the signs over them alone.
-/

namespace SqlCanon.Query.Ast
variable {φ : Type}

/-! ## Parts of trees -/

inductive PartOf : Ast φ → Ast φ → Prop
  | self {t} : PartOf t t
  | signed {t u s} : PartOf t u → PartOf t (.signed s u)
  | phrase {t u form parts} : u ∈ parts → PartOf t u → PartOf t (.phrase form parts)

structure Redacted (t : Ast φ) : Prop where
  values : ∀ v, PartOf (.value v) t → v = .null ∨ v = .placeholder
  signs : ∀ s, ¬ PartOf (.signed s (.value .placeholder)) t

/-- A chain of signs, which may be empty, over a value other than NULL. -/
inductive SignedValue : Ast φ → Prop
  | value {v} : v ≠ .null → SignedValue (.value v)
  | signed {s t} : SignedValue t → SignedValue (.signed s t)

/-- Two trees that differ at most in values other than NULL and in the chains of signs directly over
those. -/
inductive Alike : Ast φ → Ast φ → Prop
  | values {a b} : SignedValue a → SignedValue b → Alike a b
  | null : Alike (.value .null) (.value .null)
  | signed {a b} (s) : Alike a b → Alike (.signed s a) (.signed s b)
  | phrase {as bs} (form) : List.Forall₂ Alike as bs → Alike (.phrase form as) (.phrase form bs)

/-- What a visitor of trees does: it passes every expression through the function that it is given, those
inside an expression before that one. A phrase may be no expression, and is then left as it is. -/
structure BottomUp (visit : (Ast φ → Ast φ) → Ast φ → Ast φ) : Prop where
  value : ∀ f v, visit f (.value v) = f (.value v)
  signed : ∀ f s t, visit f (.signed s t) = f (.signed s (visit f t))
  phrase : ∀ f form parts,
    let visited := phrase form (parts.map (visit f))
    visit f (.phrase form parts) = f visited ∨ visit f (.phrase form parts) = visited

theorem visitAll_eq_map (f : Ast φ → Ast φ) (ts : List (Ast φ)) :
    visitAll f ts = ts.map (visit f) := by
  induction ts with
  | nil => rfl
  | cons t ts ih => rw [visitAll, ih, List.map_cons]

theorem bottomUp_visit : BottomUp (visit (φ := φ)) where
  value _ _ := rfl
  signed _ _ _ := rfl
  phrase f form parts := .inl (by rw [visit, visitAll_eq_map])

/-! ## Redaction, form by form -/

theorem hideValue_value {v : Value} (h : v ≠ .null) :
    hideValue (.value v : Ast φ) = .value .placeholder := by
  cases v with
  | null => exact absurd rfl h
  | placeholder => rfl
  | literal text => rfl

theorem hideValue_signed {t : Ast φ} (h : t ≠ .value .placeholder) (s : Sign) :
    hideValue (.signed s t) = .signed s t := by
  unfold hideValue
  split <;> simp_all

theorem redact_signed (s : Sign) (t : Ast φ) :
    redact (.signed s t) = hideValue (.signed s (redact t)) := rfl

theorem redact_phrase (form : φ) (parts : List (Ast φ)) :
    redact (.phrase form parts) = .phrase form (parts.map redact) := by
  simp only [redact, visit, visitAll_eq_map]
  rfl

/-- The visitor does not matter, as long as it goes from the leaves up. -/
theorem BottomUp.visit_hideValue {visit : (Ast φ → Ast φ) → Ast φ → Ast φ} (h : BottomUp visit)
    (t : Ast φ) : visit hideValue t = t.redact := by
  induction t with
  | value v => exact h.value hideValue v
  | signed s t ih => rw [h.signed, ih, redact_signed]
  | phrase form parts ih =>
    have hparts : parts.map (visit hideValue) = parts.map redact := List.map_congr_left ih
    rw [redact_phrase, ← hparts]
    exact (h.phrase hideValue form parts).elim id id

/-! ## Normal forms -/

theorem PartOf.trans {t u v : Ast φ} (h : PartOf t u) (h' : PartOf u v) : PartOf t v := by
  induction h' with
  | self => exact h
  | signed _ ih => exact .signed ih
  | phrase hmem _ ih => exact .phrase hmem ih

theorem Redacted.of_partOf {t u : Ast φ} (h : u.Redacted) (ht : PartOf t u) : t.Redacted where
  values v hv := h.values v (hv.trans ht)
  signs s hs := h.signs s (hs.trans ht)

theorem Redacted.signed {t : Ast φ} (h : t.Redacted) (hne : t ≠ .value .placeholder) (s : Sign) :
    Redacted (.signed s t) where
  values v hv := by
    cases hv with
    | signed hv => exact h.values v hv
  signs s' hs := by
    cases hs with
    | self => exact hne rfl
    | signed hs => exact h.signs s' hs

theorem Redacted.phrase {parts : List (Ast φ)} (h : ∀ t ∈ parts, t.Redacted) (form : φ) :
    Redacted (.phrase form parts) where
  values v hv := by
    cases hv with
    | phrase hmem hv => exact (h _ hmem).values v hv
  signs s hs := by
    cases hs with
    | phrase hmem hs => exact (h _ hmem).signs s hs

theorem redacted_value {v : Value} (h : v = .null ∨ v = .placeholder) :
    Redacted (.value v : Ast φ) where
  values w hw := by
    cases hw with
    | self => exact h
  signs s hs := by cases hs

theorem redacted_redact (t : Ast φ) : t.redact.Redacted := by
  induction t with
  | value v =>
    cases v with
    | null => exact redacted_value (.inl rfl)
    | placeholder => exact redacted_value (.inr rfl)
    | literal text => exact redacted_value (.inr rfl)
  | signed s t ih =>
    rw [redact_signed]
    by_cases ht : t.redact = .value .placeholder
    · rw [ht]
      exact redacted_value (.inr rfl)
    · rw [hideValue_signed ht]
      exact ih.signed ht s
  | phrase form parts ih =>
    rw [redact_phrase]
    refine .phrase (fun t ht => ?_) form
    obtain ⟨u, hu, rfl⟩ := List.mem_map.1 ht
    exact ih u hu

theorem Redacted.redact_eq {t : Ast φ} (h : t.Redacted) : t.redact = t := by
  induction t with
  | value v =>
    rcases h.values v .self with rfl | rfl
    · rfl
    · rfl
  | signed s t ih =>
    have ht : t.Redacted := h.of_partOf (.signed .self)
    have hne : t ≠ .value .placeholder := by
      rintro rfl
      exact h.signs s .self
    rw [redact_signed, ih ht, hideValue_signed hne]
  | phrase form parts ih =>
    have hparts : parts.map redact = parts.map id :=
      List.map_congr_left fun t ht => ih t ht (h.of_partOf (.phrase ht .self))
    rw [redact_phrase, hparts, List.map_id]

/-! ## Trees that differ in values alone -/

theorem SignedValue.redact_eq {t : Ast φ} (h : t.SignedValue) : t.redact = .value .placeholder := by
  induction h with
  | value hv => exact hideValue_value hv
  | signed _ ih =>
    rw [redact_signed, ih]
    rfl

theorem SignedValue.of_alike_placeholder {t : Ast φ} (h : Alike t (.value .placeholder)) :
    t.SignedValue := by
  cases h with
  | values ht _ => exact ht

theorem alike_redact (t : Ast φ) : Alike t t.redact := by
  induction t with
  | value v =>
    by_cases hv : v = .null
    · subst hv
      exact .null
    · rw [SignedValue.redact_eq (.value hv)]
      exact .values (.value hv) (.value nofun)
  | signed s t ih =>
    rw [redact_signed]
    by_cases ht : t.redact = .value .placeholder
    · rw [ht] at ih ⊢
      exact .values (.signed (.of_alike_placeholder ih)) (.value nofun)
    · rw [hideValue_signed ht]
      exact .signed s ih
  | phrase form parts ih =>
    rw [redact_phrase]
    refine .phrase form ?_
    rw [List.forall₂_map_right_iff, List.forall₂_same]
    exact ih

theorem map_redact_eq {as bs : List (Ast φ)}
    (h : List.Forall₂ (fun a b => a.redact = b.redact) as bs) : as.map redact = bs.map redact := by
  rwa [← List.forall₂_eq_eq_eq, List.forall₂_map_left_iff, List.forall₂_map_right_iff]

theorem Alike.redact_eq {a b : Ast φ} (h : Alike a b) : a.redact = b.redact := by
  induction a generalizing b with
  | value v =>
    cases h with
    | values ha hb => rw [ha.redact_eq, hb.redact_eq]
    | null => rfl
  | signed s t ih =>
    cases h with
    | values ha hb => rw [ha.redact_eq, hb.redact_eq]
    | signed _ h => rw [redact_signed, ih h, redact_signed]
  | phrase form parts ih =>
    cases h with
    | values ha hb => rw [ha.redact_eq, hb.redact_eq]
    | phrase _ h =>
      have hboth := (List.forall₂_and_left _ _).2 ⟨fun a ha b hb => ih a ha (b := b) hb, h⟩
      rw [redact_phrase, redact_phrase, map_redact_eq (hboth.imp fun a b hab => hab.1 b hab.2)]

/-- **Redaction is complete and canonical.** The statements of a script that can be read come back with no
value but NULL and placeholders and no sign over a placeholder. Redacting them again changes nothing, they
differ from what was read in values and the signs over them alone, and every script whose statements differ
in no more than that comes back the same. -/
theorem redaction_canonical {visit : (Ast φ → Ast φ) → Ast φ → Ast φ} (hvisit : BottomUp visit)
    {read? : String → Option (List (Ast φ))} {script : String} {ts : List (Ast φ)}
    (hread : read? script = some ts) :
    ∃ rs, statementsBy read? visit script = .ok rs ∧ (∀ r ∈ rs, r.Redacted) ∧
      rs.map (visit hideValue) = rs ∧ List.Forall₂ Alike ts rs ∧
      ∀ other us, read? other = some us → List.Forall₂ Alike ts us →
        statementsBy read? visit other = .ok rs := by
  have hredact : visit hideValue = redact := funext hvisit.visit_hideValue
  refine ⟨ts.map redact, ?_, ?_, ?_, ?_, fun other us hother halike => ?_⟩
  · rw [statementsBy, hread, hredact]
  · intro r hr
    obtain ⟨t, -, rfl⟩ := List.mem_map.1 hr
    exact t.redacted_redact
  · rw [hredact, List.map_map]
    exact List.map_congr_left fun t _ => t.redacted_redact.redact_eq
  · rw [List.forall₂_map_right_iff, List.forall₂_same]
    exact fun t _ => t.alike_redact
  · rw [statementsBy, hother, hredact]
    exact congrArg Except.ok (map_redact_eq (halike.imp fun _ _ => Alike.redact_eq)).symm

theorem redaction_canonical_signed :
    let script := "SELECT + - - 5, -NULL, -(3)"
    let other := "SELECT 'x', -NULL, -(- ?)"
    ∃ rs, statements script = .ok rs ∧ statements other = .ok rs ∧ (∀ r ∈ rs, r.Redacted) ∧
      Tree.texts rs = ["SELECT ?, -NULL, -(?)"] := by
  intro script other
  let query (first last : Tree) : List Tree :=
    [.phrase .sequence [.phrase .sequence [.phrase (.clause "SELECT")
      [first, .signed .minus (.value .null), .signed .minus (.phrase .parentheses [last])]]]]
  let five : Tree := .value (.literal "5")
  have hscript : parse? script =
      some (query (.signed .plus (.signed .minus (.signed .minus five))) (.value (.literal "3"))) := by
    decide +kernel
  have hother : parse? other =
      some (query (.value (.literal "'x'")) (.signed .minus (.value .placeholder))) := by
    decide +kernel
  have hsame : ∀ {a b c d : Tree}, Alike a b → Alike c d →
      List.Forall₂ Alike (query a c) (query b d) := fun hab hcd =>
    .cons (.phrase _ (.cons (.phrase _ (.cons (.phrase _ (.cons hab (.cons (.signed _ .null)
      (.cons (.signed _ (.phrase _ (.cons hcd .nil))) .nil)))) .nil)) .nil)) .nil
  obtain ⟨rs, hrs, hredacted, -, -, hall⟩ := redaction_canonical bottomUp_visit hscript
  refine ⟨rs, hrs, hall other _ hother (hsame ?_ ?_), hredacted, ?_⟩
  · exact .values (.signed (.signed (.signed (.value nofun)))) (.value nofun)
  · exact .values (.value nofun) (.signed (.value nofun))
  · rw [statementsBy, hscript] at hrs
    obtain rfl := Except.ok.inj hrs
    decide +kernel

end SqlCanon.Query.Ast
