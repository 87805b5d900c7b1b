import SqlCanon.Proofs.Growth
import SqlCanon.Proofs.Reach

/-!
# The size of the output

No separator stands before the first lexeme, so the output is shorter than the bound of four or two bytes for
each byte of the source. A row of stars misses the bound by that one separator alone. A placeholder is no
longer than the literal it stands for.
-/

namespace SqlCanon

namespace Rules
variable (r : Rules)

theorem growth_cases : r.growth = 4 ∧ r.addBackticks = true ∨ r.growth = 2 ∧ r.addBackticks = false := by
  unfold growth
  cases r.addBackticks
  · exact .inr ⟨rfl, rfl⟩
  · exact .inl ⟨rfl, rfl⟩

theorem added_none (l : Lexeme) : r.added none l = (r.shown none l).flatten := by
  simp [added, separator, spaceBetween]

theorem length_added_none_lt {l : Lexeme} (hl : l.text ≠ []) :
    (r.added none l).length < r.growth * l.text.length := by
  have hpos := List.length_pos_iff.mpr hl
  have hshown := r.length_shown_le hl none
  rw [added_none]
  obtain ⟨h, -⟩ | ⟨h, -⟩ := r.growth_cases <;> rw [h] at hshown ⊢ <;> omega

theorem length_textAfter_none_lt {ls : List Lexeme} (hne : ls ≠ []) (hls : ∀ l ∈ ls, l.text ≠ []) :
    (r.textAfter none ls).length < r.growth * (ls.flatMap (·.text)).length := by
  induction ls with
  | nil => exact absurd rfl hne
  | cons l ls ih =>
    rw [List.forall_mem_cons] at hls
    rw [textAfter, List.flatMap_cons, List.length_append, Nat.mul_add]
    have hfirst := r.length_added_none_lt hls.1
    by_cases hc : l.kind = .comment
    · rw [if_pos hc]
      by_cases hrest : ls = []
      · subst hrest
        exact Nat.lt_of_le_of_lt (Nat.zero_le _) hfirst
      · exact Nat.lt_of_lt_of_le (ih hrest hls.2) (Nat.le_add_left _ _)
    · rw [if_neg hc, List.length_append]
      exact Nat.add_lt_add_of_lt_of_le hfirst (r.length_textAfter_le _ ls hls.2)

theorem length_text_lt {source : Bytes} (h : source ≠ []) :
    (r.text source).length < r.growth * source.length := by
  have hpos := List.length_pos_iff.mpr h
  have hlexemes := Nat.mul_le_mul_left r.growth (length_flatMap_lexemes_le source)
  by_cases hnil : lexemes source = []
  · obtain ⟨hg, -⟩ | ⟨hg, -⟩ := r.growth_cases <;> simp [text, hnil, textAfter, hg, hpos]
  · exact Nat.lt_of_lt_of_le (r.length_textAfter_none_lt hnil fun _ hl => text_ne_nil_of_mem hl) hlexemes

/-! ## The longest output -/

theorem lexemes_stars (n : Nat) : lexemes (List.replicate n Byte.star) =
    List.replicate n { kind := .star, text := [Byte.star] } := by
  induction n with
  | zero => rfl
  | succ n ih =>
    have hfront : Lexeme.front? Byte.star ([] ++ List.replicate n Byte.star) =
        some { kind := .star, text := [Byte.star] } := rfl
    rw [List.replicate_succ, List.replicate_succ, ← ih]
    exact lexemes_append_of_some rfl hfront

theorem length_shown_star (prev : Option Category) :
    (r.shown prev { kind := .star, text := [Byte.star] }).flatten.length + 1 = r.growth := by
  have htakes : takesBackticks prev { kind := .star } = true := rfl
  have hquoted : Lexeme.isQuoted { kind := .star, text := [Byte.star] } = false := rfl
  obtain ⟨hg, hadd⟩ | ⟨hg, hadd⟩ := r.growth_cases <;>
    simp [shown_flatten, parts, htakes, hquoted, hg, hadd]

theorem length_textAfter_stars (n : Nat) :
    (r.textAfter (some { kind := .star }) (List.replicate n { kind := .star, text := [Byte.star] })).length =
      r.growth * n := by
  induction n with
  | zero => rfl
  | succ n ih =>
    have hspace : r.separator (some { kind := .star }) { kind := .star } = [Byte.space] := by
      simp [separator, spaceBetween]
    have hshown := r.length_shown_star (some { kind := .star })
    rw [List.replicate_succ, textAfter, if_neg (by decide), List.length_append, ih, added, hspace,
      List.length_append, Nat.mul_succ]
    simp only [List.length_singleton]
    omega

/-- The bounds are the least there are. -/
theorem length_text_stars (n : Nat) :
    (r.text (List.replicate n Byte.star)).length = r.growth * n - 1 := by
  rw [text, lexemes_stars]
  cases n with
  | zero => rfl
  | succ n =>
    have hshown := r.length_shown_star none
    rw [List.replicate_succ, textAfter, if_neg (by decide), List.length_append, added_none,
      length_textAfter_stars, Nat.mul_succ]
    omega

/-! ## Placeholders -/

theorem length_shown_redacted_le {l : Lexeme} (hl : l.text ≠ []) (prev : Option Category) :
    (({ r with removeLiterals := true } : Rules).shown prev l).flatten.length ≤
      (({ r with removeLiterals := false } : Rules).shown prev l).flatten.length := by
  have hpos := List.length_pos_iff.mpr hl
  rw [shown_flatten, shown_flatten, List.length_map, List.length_map]
  by_cases hlit : l.kind = .literal
  · have htakes : takesBackticks prev l.toCategory = false := by
      simp [takesBackticks, Category.isIdentifier, hlit]
    simp [parts, hlit, htakes]
    omega
  · simp [parts, hlit]

theorem length_textAfter_redacted_le {ls : List Lexeme} (hls : ∀ l ∈ ls, l.text ≠ [])
    (prev : Option Category) :
    (({ r with removeLiterals := true } : Rules).textAfter prev ls).length ≤
      (({ r with removeLiterals := false } : Rules).textAfter prev ls).length := by
  induction ls generalizing prev with
  | nil => exact Nat.le_refl _
  | cons l ls ih =>
    rw [List.forall_mem_cons] at hls
    rw [textAfter, textAfter]
    by_cases hc : l.kind = .comment
    · rw [if_pos hc, if_pos hc]
      exact ih hls.2 prev
    · have hshown := r.length_shown_redacted_le hls.1 prev
      rw [if_neg hc, if_neg hc, added, added]
      simp only [List.length_append]
      exact Nat.add_le_add (Nat.add_le_add (Nat.le_refl _) hshown) (ih hls.2 _)

theorem length_text_redacted_le (source : Bytes) :
    (({ r with removeLiterals := true } : Rules).text source).length ≤
      (({ r with removeLiterals := false } : Rules).text source).length :=
  r.length_textAfter_redacted_le (fun _ hl => text_ne_nil_of_mem hl) none

end Rules

namespace Lexer

theorem written_redacted_le (lx lx' : Lexer) (r : Rules) (source buffer : Bytes) :
    (lx.normalize { r with removeLiterals := true } source buffer).1.written ≤
      (lx'.normalize { r with removeLiterals := false } source buffer).1.written := by
  cases hr : r.validate with
  | error fault =>
    have hinvalid : ({ r with removeLiterals := true } : Rules).validate = .error fault := hr
    rw [normalize_of_invalid hinvalid]
    exact Nat.zero_le _
  | ok =>
    have hredacted : ({ r with removeLiterals := true } : Rules).validate = .ok () := hr
    have hshown : ({ r with removeLiterals := false } : Rules).validate = .ok () := hr
    have hle := r.length_text_redacted_le source
    rw [normalize_eq _ lx hredacted, normalize_eq _ lx' hshown]
    dsimp only
    omega

/-- **The size of the output.** The output has fewer bytes than four for each byte of the source, and fewer
than two where no backticks are added, so a buffer of four bytes for each byte of the source takes all of it.
Placeholders never make the output longer, or a run write more. -/
theorem output_size (lx lx' : Lexer) (r : Rules) (source : Bytes) :
    (source ≠ [] →
      (r.text source).length ≤ 4 * source.length - 1 ∧
        (r.addBackticks = false → (r.text source).length ≤ 2 * source.length - 1) ∧
        (r.validate = .ok () → ∀ buffer, buffer.length = 4 * source.length →
          (lx.normalize r source buffer).1.result = .ok () ∧
            (lx.normalize r source buffer).1.output = r.text source)) ∧
      (({ r with removeLiterals := true } : Rules).text source).length ≤
        (({ r with removeLiterals := false } : Rules).text source).length ∧
      ∀ buffer, (lx.normalize { r with removeLiterals := true } source buffer).1.written ≤
        (lx'.normalize { r with removeLiterals := false } source buffer).1.written := by
  refine ⟨fun hsource => ?_, r.length_text_redacted_le source, lx.written_redacted_le lx' r source⟩
  have hlt := r.length_text_lt hsource
  have hfour : (r.text source).length ≤ 4 * source.length - 1 := by
    obtain ⟨hg, -⟩ | ⟨hg, -⟩ := r.growth_cases <;> rw [hg] at hlt <;> omega
  refine ⟨hfour, fun hadd => ?_, fun hr buffer hbuffer => ?_⟩
  · rw [Rules.growth, hadd, if_neg Bool.false_ne_true] at hlt
    omega
  · have hok : (lx.normalize r source buffer).1.result = .ok () := result_of_fits lx hr (by omega)
    exact ⟨hok, output_of_ok hr hok⟩

theorem output_size_stars :
    let r : Rules := { addBackticks := true }
    let source := Utf8.encode "**"
    source ≠ [] ∧ r.validate = .ok () ∧ (r.text source).length = 4 * source.length - 1 ∧
      (({} : Rules).text source).length ≤ 2 * source.length - 1 ∧
      (({} : Lexer).normalize r source (List.replicate 8 0)).1.output = Utf8.encode "`*` `*`" ∧
      (({} : Lexer).normalize r source (List.replicate 6 0)).1.result = .error (.bufferTooSmall 6 6) := by
  intro r source
  have hsource : source ≠ [] := by decide
  obtain ⟨hsize, -⟩ := output_size {} {} r source
  obtain ⟨-, -, hfits⟩ := hsize hsource
  obtain ⟨-, hbare, -⟩ := (output_size {} {} {} source).1 hsource
  refine ⟨hsource, rfl, r.length_text_stars 2, hbare rfl, (hfits rfl _ rfl).2.trans (by decide +kernel), ?_⟩
  have hlong : ¬ (r.text source).length ≤ 6 := by decide +kernel
  rw [normalize_eq r {} rfl]
  simp only [List.length_replicate, hlong, if_false]

end Lexer

end SqlCanon
