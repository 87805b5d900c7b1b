import SqlCanon.Proofs.Readback
import SqlCanon.Proofs.StringValues

/-!
# Lexemes on their own

A lexeme cut out of its source reads as itself again, unless it is a number that a sign behind it made
stop at its exponent letter. On its own such a number is read as a number and a word.
-/

namespace SqlCanon
open Byte
open Piece (ComesOff)

theorem Lexer.tokenize_join (lx : Lexer) {ps : List Piece} (h : Piece.Loose ps) :
    (lx.bind (Piece.join ps)).tokenize.1 =
      ((Piece.place 0 ps).map fun p => Token.ofLexeme p.1 p.2) ++
        [Token.endOfInput (Piece.join ps).length] := by
  rw [tokenize_eq, source_bind, allTokens, tokens, Piece.cut_join_iff.2 h]

namespace Lexeme

/-! ## Lexemes that keep their ends -/

theorem comment?_alone {b : UInt8} {body rest : Bytes} (h : comment? b (body ++ rest) = some body) :
    comment? b (body ++ []) = some body := by
  have hline : Delimited.line (body ++ rest) = body → Delimited.line (body ++ []) = body := fun hline =>
    takeWhile_append_iff.2 ⟨(takeWhile_append_iff.1 hline).1, nofun⟩
  unfold comment? at h ⊢
  by_cases h₁ : b = hash
  · rw [if_pos h₁, Option.some.injEq] at h ⊢
    exact hline h
  rw [if_neg h₁] at h ⊢
  by_cases h₂ : b = minus ∧ (body ++ rest).head? = some minus ∧ (body ++ rest).tail.head?.all isBlank
  · rw [if_pos h₂, Option.some.injEq] at h
    obtain ⟨hb, hhead, hblank⟩ := h₂
    -- the second dash belongs to the line, and a blank behind it may do so or not
    have halone : (body ++ []).head? = some minus ∧ (body ++ []).tail.head?.all isBlank := by
      cases body with
      | nil =>
        obtain ⟨rest, rfl⟩ := List.head?_eq_some_iff.1 hhead
        simp +decide [Delimited.line] at h
      | cons c body =>
        refine ⟨hhead, ?_⟩
        cases body with
        | nil => rfl
        | cons d body => exact hblank
    rw [if_pos ⟨hb, halone⟩, hline h]
  rw [if_neg h₂] at h
  by_cases h₃ : b = slash ∧ (body ++ rest).head? = some star
  · rw [if_pos h₃, Option.some.injEq, opened_iff h₃.2] at h
    obtain ⟨inner, rfl, hblock⟩ := h
    have hminus : b ≠ minus := by rw [h₃.1]; decide
    have hhead : (star :: inner ++ []).head? = some star := rfl
    rw [if_neg fun hdash => hminus hdash.1, if_pos ⟨h₃.1, hhead⟩, Option.some.injEq, opened_iff hhead]
    exact ⟨inner, rfl, Delimited.block_replace (fun _ => rfl) hblock⟩
  · rw [if_neg h₃] at h
    cases h

theorem inCase_asWritten (l : Lexeme) : l.inCase .asWritten = l := by
  unfold inCase
  split
  · simp [KeywordCase.fold]
  · rfl

theorem comesOff_alone {l : Lexeme} {rest : Bytes} (h : ComesOff (.lexeme l) rest)
    (hended : l.isDangling = false) : ComesOff (.lexeme l) [] := by
  by_cases hcomment : l.kind = .comment
  · cases h with
    | lexeme htext hf =>
    cases front?_cases hf with
    | comment hblank hc =>
      obtain rfl := (List.cons.inj htext).2
      exact .lexeme rfl (FrontCase.front?_eq (.comment hblank (comment?_alone hc)))
    | _ => cases hcomment
  · have hends : l.EndsBefore [] := ⟨fun _ => rfl, fun _ => rfl, fun _ => nofun, hended⟩
    have hoff := hends.comesOff h hcomment (fun _ => rfl) .asWritten
    rwa [inCase_asWritten] at hoff

end Lexeme

/-! ## Numbers that stop at their exponent letter -/

namespace Number
variable {last : UInt8} {pointed : Bool} {rest : Bytes}

theorem digit_or_exponent_of_tail {body : Bytes} (h : tail last pointed (body ++ rest) = body) :
    ∀ b ∈ body.getLast?, isDigit b ∨ isExponent b := by
  induction body generalizing last pointed with
  | nil => nofun
  | cons c body ih =>
    rw [List.cons_append, tail] at h
    split at h
    next hc =>
      rw [List.cons.injEq] at h
      cases body with
      | nil =>
        intro b hb
        obtain rfl : c = b := Option.some.inj hb
        cases hexp : isExponent c with
        | true => exact .inr rfl
        | false => exact .inl (isDigit_of_tail_nil hc h.2 hexp)
      | cons d body => exact ih h.2
    next => cases h

theorem tail_of_exponent {front : Bytes} {e : UInt8} (he : isExponent e)
    (h : tail last pointed (front ++ e :: rest) = front ++ [e]) :
    tail last pointed (front ++ [e]) = front := by
  induction front generalizing last pointed with
  | nil =>
    have hno : continues last pointed e [] = false := by
      simp [continues, not_digit_of_exponent e he, digitNext, exponentNext]
    rw [List.nil_append, tail, hno]
    rfl
  | cons c front ih =>
    have hhead : (front ++ e :: rest).head? = (front ++ [e]).head? := by
      cases front <;> rfl
    rw [List.cons_append, List.cons_append, tail] at h
    rw [List.cons_append, tail, ← continues_congr fun _ => hhead]
    split at h
    next hc =>
      rw [List.cons.injEq] at h
      rw [if_pos hc, ih h.2]
    next => cases h

theorem stop_of_exponent {front : Bytes} {e : UInt8}
    (h : tail last pointed (front ++ e :: rest) = front ++ [e]) : ∃ p, tail e p rest = [] := by
  induction front generalizing last pointed with
  | nil =>
    rw [List.nil_append, tail] at h
    split at h
    · exact ⟨_, (List.cons.inj h).2⟩
    · cases h
  | cons c front ih =>
    rw [List.cons_append, List.cons_append, tail] at h
    split at h
    · exact ih (List.cons.inj h).2
    · cases h

theorem sign_of_exponent {e : UInt8} (he : isExponent e) (hnext : exponentNext rest)
    (hstop : tail e pointed rest = []) :
    ∃ sign more, rest = sign :: more ∧ (sign = minus ∨ sign = plus) ∧ digitNext more = false := by
  cases rest with
  | nil => cases hnext
  | cons c more =>
    have hno : continues e pointed c more = false := by
      rw [tail] at hstop
      split at hstop
      · cases hstop
      · next hc => exact Bool.eq_false_iff.2 hc
    simp only [continues, Bool.or_eq_false_iff] at hno
    obtain ⟨⟨⟨⟨hdigit, -⟩, hminus⟩, hplus⟩, -⟩ := hno
    have hsign : c = minus ∨ c = plus := by simpa [exponentNext, hdigit] using hnext
    refine ⟨c, more, rfl, hsign, ?_⟩
    rcases hsign with rfl | rfl
    · simpa using hminus
    · simpa [he] using hplus

end Number

namespace Lexeme
variable {l : Lexeme} {rest : Bytes}

theorem isDangling_eq_false_iff (h : ComesOff (.lexeme l) rest) (hnumber : l.isNumber) :
    l.isDangling = false ↔ l.text.getLast?.any isDigit := by
  obtain ⟨b, body, rfl, hfirst, -, htail⟩ := tail_of_isNumber h hnumber
  have hlast : ∃ c, (b :: body).getLast? = some c ∧ (isDigit c ∨ isExponent c) := by
    cases hbody : body.getLast? with
    | some c =>
      refine ⟨c, by rw [List.getLast?_cons, hbody]; rfl, ?_⟩
      exact Number.digit_or_exponent_of_tail htail c hbody
    | none =>
      obtain rfl := List.getLast?_eq_none_iff.1 hbody
      refine ⟨b, rfl, .inl (hfirst.resolve_right fun hsign => ?_)⟩
      exact Number.tail_ne_nil_of_digitNext hsign.2 htail
  obtain ⟨c, hc, hcases⟩ := hlast
  rw [isDangling, hnumber, Bool.true_and, hc, Option.any_some, Option.any_some]
  rcases hcases with hdigit | hexp
  · have hexp : isExponent c = false :=
      Bool.eq_false_iff.2 fun hexp => (Number.not_digit_of_exponent c hexp).1 hdigit
    simp [hdigit, hexp]
  · simp [hexp, (Number.not_digit_of_exponent c hexp).1]

theorem ofWord_exponent : ∀ e : UInt8, isExponent e →
    isPlain [e] ∧ ofWord [e] = { kind := .keyword, text := [e] } :=
  forall_of_digits (by decide +kernel)

/-- What the lexeme of such a number is read as on its own, and why it stopped where it did. -/
theorem loose_of_isDangling (h : ComesOff (.lexeme l) rest) (hdangling : l.isDangling) :
    ∃ front e sign more, l.text = front ++ [e] ∧ isExponent e ∧
      rest = sign :: more ∧ (sign = minus ∨ sign = plus) ∧ Number.digitNext more = false ∧
      Piece.Loose [.lexeme { kind := .literal, text := front },
        .lexeme { kind := .keyword, text := [e] }] := by
  obtain ⟨b, front, e, rfl, hexp, hfirst, hzero, htail⟩ := tail_of_isDangling h hdangling
  obtain ⟨p, hstop⟩ := Number.stop_of_exponent htail
  obtain ⟨sign, more, hrest, hsign, hmore⟩ :=
    Number.sign_of_exponent hexp (exponentNext_of_isDangling h hdangling) hstop
  have hhead : (front ++ e :: rest).head? = (front ++ [e]).head? := by
    cases front <;> rfl
  have hnumber : LiteralCase b front [e] := by
    refine .number ?_ (hhead ▸ hzero) (Number.tail_of_exponent hexp htail)
    rwa [Number.digitNext, ← hhead]
  obtain ⟨hplain, hword⟩ := ofWord_exponent e hexp
  refine ⟨b :: front, e, sign, more, rfl, hexp, hrest, hsign, hmore, .lexeme rfl hnumber.front?_eq, ?_,
    trivial⟩
  rw [← hword]
  exact comesOff_word hplain rfl

end Lexeme

/-! ## Tokens alone -/

namespace Lexer

theorem tokenize_lexeme (lx : Lexer) {l : Lexeme} (h : ComesOff (.lexeme l) []) :
    (lx.bind l.text).tokenize.1 =
      [{ l with span := ⟨0, l.text.length⟩ }, Token.endOfInput l.text.length] := by
  have hloose : Piece.Loose [.lexeme l] := ⟨h, trivial⟩
  have hjoin : Piece.join [.lexeme l] = l.text := List.flatMap_singleton ..
  have htokens := lx.tokenize_join hloose
  rw [hjoin] at htokens
  rw [htokens, Piece.place, Piece.place]
  simp [Token.ofLexeme]

theorem tokenize_of_isDangling (lx : Lexer) {l : Lexeme} {rest : Bytes}
    (h : ComesOff (.lexeme l) rest) (hdangling : l.isDangling) :
    ∃ front e sign more, l.text = front ++ [e] ∧ isExponent e ∧
      rest = sign :: more ∧ (sign = minus ∨ sign = plus) ∧ Number.digitNext more = false ∧
      (lx.bind l.text).tokenize.1 = [{ kind := .literal, span := ⟨0, front.length⟩ },
        { kind := .keyword, span := ⟨front.length, front.length + 1⟩ },
        Token.endOfInput (front.length + 1)] := by
  obtain ⟨front, e, sign, more, htext, hexp, hrest, hsign, hmore, hloose⟩ :=
    Lexeme.loose_of_isDangling h hdangling
  refine ⟨front, e, sign, more, htext, hexp, hrest, hsign, hmore, ?_⟩
  have hjoin : Piece.join [.lexeme { kind := .literal, text := front },
      .lexeme { kind := .keyword, text := [e] }] = l.text := by simp [Piece.join, Piece.text, htext]
  have htokens := lx.tokenize_join hloose
  rw [hjoin, htext] at htokens
  rw [htext, htokens]
  simp [Piece.place, Token.ofLexeme]

/-- **Lexemes are tokens of their own.** On its own the lexeme of a token is read as one token of that
category and no other, unless it is a number that ends in its exponent letter. All other numbers end in a
digit. A number ends in the letter where a sign without a digit stands behind it, and on its own it is
read as the number up to the letter and a word. -/
theorem tokens_alone (lx fresh : Lexer) (source : Bytes) (t : Token)
    (ht : t ∈ (lx.bind source).rest.1) :
    let l := t.lexeme source
    let alone := (fresh.bind l.text).tokenize.1
    (alone = [{ t with span := ⟨0, l.text.length⟩ }, Token.endOfInput l.text.length] ↔
        l.isDangling = false) ∧
      (l.isNumber → (l.isDangling = false ↔ l.text.getLast?.any isDigit)) ∧
      (l.isDangling → ∃ front e sign more, l.text = front ++ [e] ∧ isExponent e ∧
        source.drop t.span.stop = sign :: more ∧ (sign = minus ∨ sign = plus) ∧
        Number.digitNext more = false ∧
        alone = [{ kind := .literal, span := ⟨0, front.length⟩ },
          { kind := .keyword, span := ⟨front.length, front.length + 1⟩ },
          Token.endOfInput (front.length + 1)]) := by
  intro l alone
  obtain ⟨hoff, -⟩ := comesOff_of_mem_rest ht
  refine ⟨⟨fun halone => ?_, fun hended => tokenize_lexeme fresh (Lexeme.comesOff_alone hoff hended)⟩,
    Lexeme.isDangling_eq_false_iff hoff, tokenize_of_isDangling fresh hoff⟩
  -- two tokens cannot be three
  rw [Bool.eq_false_iff]
  intro hdangling
  obtain ⟨front, e, sign, more, -, -, -, -, -, hthree⟩ := tokenize_of_isDangling fresh hoff hdangling
  have hlength := congrArg List.length (halone.symm.trans hthree)
  simp at hlength

theorem tokens_alone_exponent :
    let source := Utf8.encode "1e-5 2E+x"
    let number : Token := { kind := .literal, span := ⟨0, 4⟩ }
    let cut : Token := { kind := .literal, span := ⟨5, 7⟩ }
    number ∈ (({} : Lexer).bind source).rest.1 ∧ cut ∈ (({} : Lexer).bind source).rest.1 ∧
      (({} : Lexer).bind (number.lexeme source).text).tokenize.1 = [number, Token.endOfInput 4] ∧
      (({} : Lexer).bind (cut.lexeme source).text).tokenize.1 ≠
        [{ cut with span := ⟨0, 2⟩ }, Token.endOfInput 2] := by
  intro source number cut
  have hmem : number ∈ (({} : Lexer).bind source).rest.1 ∧ cut ∈ (({} : Lexer).bind source).rest.1 := by
    rw [rest_bind]
    decide
  have hnumber := (tokens_alone {} {} source number hmem.1).1
  have hcut := (tokens_alone {} {} source cut hmem.2).1
  exact ⟨hmem.1, hmem.2, hnumber.2 (by decide), fun h => absurd (hcut.1 h) (by decide)⟩

theorem tokens_alone_splits :
    let source := Utf8.encode "1e+a"
    let t : Token := { kind := .literal, span := ⟨0, 2⟩ }
    let alone := (({} : Lexer).bind (t.lexeme source).text).tokenize.1
    t ∈ (({} : Lexer).bind source).rest.1 ∧ (t.lexeme source).text = Utf8.encode "1e" ∧
      alone = [{ kind := .literal, span := ⟨0, 1⟩ }, { kind := .keyword, span := ⟨1, 2⟩ },
        Token.endOfInput 2] ∧
      alone ≠ [t, Token.endOfInput 2] := by
  intro source t alone
  have htokens : alone = allTokens (t.lexeme source).text := by
    rw [← source_bind {} (t.lexeme source).text]
    exact tokenize_eq _
  rw [rest_bind, htokens]
  decide

end Lexer

end SqlCanon
