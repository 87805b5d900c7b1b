import Mathlib.Data.List.Forall2
import SqlCanon.Proofs.Truncation

/-!
# What an output depends on

An output shows the lexemes of its source that are no comments. Sources whose lexemes are shown alike have
one output, and with it one result, at every capacity.
-/

namespace SqlCanon

/-- The lexemes of a source that its output shows. -/
def visible (source : Bytes) : List Lexeme := (lexemes source).filter (·.kind != .comment)

theorem quoted_of_mem_lexemes {source : Bytes} :
    ∀ l ∈ lexemes source, l.isQuoted → l.kind = .keyword ∧ l.attrs = {} :=
  forall_lexemes (fun _ _ _ hf => Lexeme.of_isQuoted hf) source

theorem quoted_of_mem_visible {source : Bytes} :
    ∀ l ∈ visible source, l.isQuoted → l.kind = .keyword ∧ l.attrs = {} :=
  fun l hl => quoted_of_mem_lexemes l (List.mem_filter.1 hl).1

/-- The category of the last lexeme that is no comment, or `prev` if there is none. -/
def lastShown (prev : Option Category) : List Lexeme → Option Category
  | [] => prev
  | l :: ls => lastShown (if l.kind = .comment then prev else some l.toCategory) ls

namespace Rules

theorem textAfter_append (r : Rules) (prev : Option Category) (ls ms : List Lexeme) :
    r.textAfter prev (ls ++ ms) = r.textAfter prev ls ++ r.textAfter (lastShown prev ls) ms := by
  induction ls generalizing prev with
  | nil => rfl
  | cons l ls ih =>
    by_cases hc : l.kind = .comment
    · simp [hc, textAfter, lastShown, ih]
    · simp [hc, textAfter, lastShown, ih]

theorem textAfter_filter (r : Rules) (prev : Option Category) (ls : List Lexeme) :
    r.textAfter prev (ls.filter (·.kind != .comment)) = r.textAfter prev ls := by
  induction ls generalizing prev with
  | nil => rfl
  | cons l ls ih =>
    by_cases hc : l.kind = .comment
    · simp [hc, textAfter, ih]
    · simp [hc, textAfter, ih]

theorem text_eq_visible (r : Rules) (source : Bytes) :
    r.text source = r.textAfter none (visible source) := by
  rw [visible, textAfter_filter, text]

/-- Two lexemes of one category that the rules show alike, if they show them at all. -/
structure ShownAlike (r : Rules) (l m : Lexeme) : Prop where
  category : l.toCategory = m.toCategory
  shown : l.kind ≠ .comment → ∀ prev, r.shown prev l = r.shown prev m

theorem ShownAlike.refl (r : Rules) (l : Lexeme) : r.ShownAlike l l := ⟨rfl, fun _ _ => rfl⟩

theorem textAfter_congr {r : Rules} {ls ms : List Lexeme} (h : List.Forall₂ r.ShownAlike ls ms)
    (prev : Option Category) : r.textAfter prev ls = r.textAfter prev ms := by
  induction h generalizing prev with
  | nil => rfl
  | @cons l m ls ms hlm _ ih =>
    have hkind : l.kind = m.kind := congrArg Category.kind hlm.category
    rw [textAfter, textAfter, hkind]
    by_cases hc : m.kind = .comment
    · rw [if_pos hc, if_pos hc, ih]
    · rw [if_neg hc, if_neg hc, added, added, hlm.category, hlm.shown (hkind ▸ hc), ih]

end Rules

namespace Lexer

theorem map_lexeme_rest_bind (lx : Lexer) (source : Bytes) :
    (lx.bind source).rest.1.map (·.lexeme source) = lexemes source := by
  have hrest := rest_lexemes (lx.bind source)
  rwa [source_bind, bind_left_lexemes] at hrest

theorem normalize_congr {r : Rules} (hr : r.validate = .ok ()) {s t : Bytes} (h : r.text s = r.text t)
    (lx lx' : Lexer) (buffer : Bytes) : (lx.normalize r s buffer).1 = (lx'.normalize r t buffer).1 := by
  rw [normalize_eq r lx hr, normalize_eq r lx' hr, h]

end Lexer

end SqlCanon
