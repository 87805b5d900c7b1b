import SqlCanon.Proofs.Signed

/-!
# The letter case of keywords

Rules that differ in the letter case of keywords write as many bytes as each other, each for the same token.
Only the letters of keywords come out in another case.
-/

namespace SqlCanon

/-- What another letter case makes of a byte that is shown as written. -/
def Signed.inCase (c : KeywordCase) (s : Signed) : Signed :=
  { s with byte := if s.token.any (·.kind = .keyword) then c.fold s.byte else s.byte }

namespace Rules
variable (r : Rules) (c : KeywordCase)

def withCase (r : Rules) (c : KeywordCase) : Rules := { r with keywordCase := c }

theorem validate_withCase : (r.withCase c).validate = r.validate := rfl

theorem separator_withCase : (r.withCase c).separator = r.separator := rfl

theorem parts_withCase : (r.withCase c).parts = r.parts := rfl

theorem foldOf_withCase (k : Kind) :
    (r.withCase c).foldOf k = if k = .keyword then c.fold else id := rfl

theorem shown_withCase (prev : Option Category) (l : Lexeme) :
    ((r.withCase c).shown prev l).flatten =
      ((r.withCase .asWritten).shown prev l).flatten.map
        (if l.kind = .keyword then c.fold else id) := by
  have hplain : (r.withCase .asWritten).foldOf l.kind = id := by
    rw [foldOf_withCase]
    split <;> rfl
  rw [shown_flatten, shown_flatten, hplain, foldOf_withCase, parts_withCase, parts_withCase, List.map_id]

theorem signedAfter_withCase (prev : Option Category) (ps : List (Nat × Lexeme)) :
    (r.withCase c).signedAfter prev ps =
      ((r.withCase .asWritten).signedAfter prev ps).map (Signed.inCase c) := by
  induction ps generalizing prev with
  | nil => rfl
  | cons p ps ih =>
    obtain ⟨start, l⟩ := p
    by_cases hc : l.kind = .comment
    · simp [signedAfter, hc, ih]
    · simp only [signedAfter, hc, if_false, ih, shown_withCase r c, separator_withCase, List.map_append,
        List.map_map]
      by_cases hk : l.kind = .keyword
      · simp [Signed.inCase, Function.comp_def, hk]
      · simp [Signed.inCase, Function.comp_def, hk]

theorem signed_withCase (source : Bytes) :
    (r.withCase c).signed source = ((r.withCase .asWritten).signed source).map (Signed.inCase c) :=
  r.signedAfter_withCase c none _

theorem length_signed_withCase (source : Bytes) :
    ((r.withCase c).signed source).length = ((r.withCase .asWritten).signed source).length := by
  rw [r.signed_withCase c, List.length_map]

end Rules

namespace Lexer

/-- **Letter case of keywords.** Whatever the capacity, the rules write as many bytes in one letter case of
keywords as in another, with one result. Each byte shows the same token, if any. It is folded where that is a
keyword, and else it is the same. -/
theorem keyword_case_folds (lx lx' : Lexer) (r : Rules) (source buffer : Bytes)
    (hr : r.validate = .ok ()) (c : KeywordCase) :
    let plain := (lx.normalize (r.withCase .asWritten) source buffer).1
    let cased := (lx'.normalize (r.withCase c) source buffer).1
    cased.written = plain.written ∧ cased.result = plain.result ∧
      ∀ i < plain.written, ∃ b b' token,
        plain.output[i]? = some b ∧ ((r.withCase .asWritten).signed source)[i]? = some ⟨b, token⟩ ∧
          cased.output[i]? = some b' ∧ ((r.withCase c).signed source)[i]? = some ⟨b', token⟩ ∧
          b' = (if token.any (·.kind = .keyword) then c.fold b else b) ∧
          ∀ t, token = some t → t ∈ (lx.bind source).rest.1 := by
  intro plain cased
  have hplain : (r.withCase .asWritten).validate = .ok () := (r.validate_withCase _).trans hr
  have hcased : (r.withCase c).validate = .ok () := (r.validate_withCase c).trans hr
  have hwritten : cased.written = plain.written := by
    rw [written_normalize hcased, written_normalize hplain, r.length_signed_withCase]
  refine ⟨hwritten, ?_, fun i hi => ?_⟩
  · simp only [cased, plain, normalize_eq _ _ hcased, normalize_eq _ _ hplain, ← Rules.length_signed,
      r.length_signed_withCase c]
  · have hlt : i < ((r.withCase .asWritten).signed source).length := by
      have hle : plain.written = min buffer.length _ := written_normalize hplain lx source buffer
      omega
    obtain ⟨⟨b, token⟩, hs⟩ : ∃ s, ((r.withCase .asWritten).signed source)[i]? = some s :=
      ⟨_, List.getElem?_eq_getElem hlt⟩
    have hs' := congrArg (·[i]?) (r.signed_withCase c source)
    simp only [List.getElem?_map, hs, Option.map_some] at hs'
    refine ⟨b, (Signed.inCase c ⟨b, token⟩).byte, token, ?_, hs, ?_, hs', rfl, fun t ht => ?_⟩
    · rw [getElem?_output_normalize hplain lx source buffer hi, hs, Option.map_some]
    · rw [getElem?_output_normalize hcased lx' source buffer (hwritten ▸ hi), hs', Option.map_some]
    · rw [rest_bind]
      exact (r.withCase .asWritten).mem_tokens_of_signed source _ (List.mem_of_getElem? hs) t ht

theorem keyword_case_folds_cut :
    let source := Utf8.encode "Select 'Ab' Where"
    let buffer := List.replicate 14 0
    let plain := (({} : Lexer).normalize {} source buffer).1
    let cased := (({} : Lexer).normalize { keywordCase := .upper } source buffer).1
    ({} : Rules).validate = .ok () ∧ plain.output = Utf8.encode "Select 'Ab' Wh" ∧ cased.written = 14 ∧
      cased.result = .error (.bufferTooSmall 14 14) ∧ cased.output[9]? = some 0x62 ∧
      cased.output[13]? = some 0x48 := by
  intro source buffer plain cased
  obtain ⟨hwritten, hresult, hbytes⟩ := keyword_case_folds {} {} {} source buffer rfl .upper
  have houtput : plain.output = Utf8.encode "Select 'Ab' Wh" := by
    rw [show plain.output = _ from output_normalize {} {} rfl source buffer]
    decide +kernel
  have hlength : (({} : Rules).text source).length = 17 := by decide +kernel
  have hplain : plain.written = 14 ∧ plain.result = .error (.bufferTooSmall 14 14) := by
    rw [show plain = _ from normalize_eq {} {} rfl source buffer, hlength]
    exact ⟨rfl, rfl⟩
  have hliteral : (({} : Rules).signed source)[9]? =
      some ⟨0x62, some { kind := .literal, span := ⟨7, 11⟩ }⟩ := by decide +kernel
  have hword : (({} : Rules).signed source)[13]? =
      some ⟨0x68, some { kind := .keyword, attrs := { reserved := true }, span := ⟨12, 17⟩ }⟩ := by
    decide +kernel
  refine ⟨rfl, houtput, hwritten.trans hplain.1, hresult.trans hplain.2, ?_, ?_⟩
  · obtain ⟨b, b', token, -, hs, hb', -, hfold, -⟩ := hbytes 9 (hplain.1 ▸ by decide : 9 < plain.written)
    cases hliteral.symm.trans hs
    exact hb'.trans (congrArg some hfold)
  · obtain ⟨b, b', token, -, hs, hb', -, hfold, -⟩ := hbytes 13 (hplain.1 ▸ by decide : 13 < plain.written)
    cases hword.symm.trans hs
    exact hb'.trans (congrArg some hfold)

end Lexer

end SqlCanon
