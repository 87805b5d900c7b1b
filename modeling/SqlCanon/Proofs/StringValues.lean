import SqlCanon.Proofs.Lookahead
import SqlCanon.Proofs.Output

/-!
# Values of strings

A closed string is read up to its closing quote whatever its body is, and the lexeme before it sees no
more of it than its opening quote. So another value in its place changes no other lexeme, and redacted
output does not tell the two values apart.
-/

namespace SqlCanon
open Byte
open Piece (ComesOff)

/-- What stands between the quotes of a closed string: bytes behind a backslash, doubled quotes and other
bytes. -/
inductive StringBody (q : UInt8) : Bytes → Prop
  | nil : StringBody q []
  | escaped {c body} : StringBody q body → StringBody q (backslash :: c :: body)
  | doubled {body} : StringBody q body → StringBody q (q :: q :: body)
  | plain {b body} : b ≠ backslash → b ≠ q → StringBody q body → StringBody q (b :: body)

theorem Delimited.string_body {q : UInt8} (hq : q ≠ backslash) {body : Bytes} (h : StringBody q body)
    (rest : Bytes) : string q (body ++ rest) = body ++ string q rest := by
  induction h with
  | nil => rfl
  | escaped _ ih => simp [string, ih]
  | doubled _ ih => simp [string_doubled hq, ih]
  | plain h₁ h₂ _ ih => rw [List.cons_append, string_cons_of_ne h₁ h₂, ih, List.cons_append]

namespace Lexeme

def ofString (q : UInt8) (body : Bytes) : Lexeme := { kind := .literal, text := q :: (body ++ [q]) }

variable {q : UInt8} (hq : q = quote ∨ q = doubleQuote)
include hq

theorem front?_quote (rest : Bytes) :
    front? q rest = some { kind := .literal, text := q :: Delimited.string q rest } := by
  rcases hq with rfl | rfl <;> rfl

theorem of_comesOff_quote {l : Lexeme} {rest : Bytes} (h : ComesOff (.lexeme l) rest)
    (hl : l.text.head? = some q) :
    l.toCategory = { kind := .literal } ∧ rest.head? ≠ some q := by
  have hback : q ≠ backslash := by rcases hq with rfl | rfl <;> decide
  cases h with
  | @lexeme _ b body _ htext hf =>
  rw [htext, List.head?_cons, Option.some.injEq] at hl
  subst hl
  rw [front?_quote hq, Option.some.injEq] at hf
  subst hf
  exact ⟨rfl, Delimited.head?_ne_of_string hback (List.cons.inj htext).2⟩

theorem comesOff_ofString {body rest : Bytes} (hbody : StringBody q body)
    (hrest : rest.head? ≠ some q) : ComesOff (.lexeme (ofString q body)) rest := by
  have hback : q ≠ backslash := by rcases hq with rfl | rfl <;> decide
  have hstring : Delimited.string q (body ++ [q] ++ rest) = body ++ [q] := by
    rw [List.append_assoc, Delimited.string_body hback hbody, List.singleton_append,
      Delimited.string_close hback hrest]
  refine .lexeme rfl ?_
  rw [front?_quote hq, hstring]
  rfl

end Lexeme

namespace Piece

theorem Loose.of_append {ps qs : List Piece} (h : Loose (ps ++ qs)) : Loose qs := by
  induction ps with
  | nil => exact h
  | cons p ps ih => exact ih h.2

theorem cut_replace_string {q : UInt8} (hq : q = quote ∨ q = doubleQuote) {source body : Bytes}
    {l : Lexeme} {front back : List Piece} (h : cut source = front ++ .lexeme l :: back)
    (hl : l.text.head? = some q) (hbody : StringBody q body) :
    cut (join (front ++ .lexeme (.ofString q body) :: back)) =
      front ++ .lexeme (.ofString q body) :: back := by
  have hloose := h ▸ loose_cut source
  obtain ⟨hoff, hback⟩ := hloose.of_append
  have hstring := Lexeme.comesOff_ofString hq hbody (Lexeme.of_comesOff_quote hq hoff hl).2
  have hsight : ∀ m : Lexeme, m.text.head? = some q → sight (join (.lexeme m :: back)) = [q] := by
    intro m hm
    obtain ⟨inner, hinner⟩ := List.head?_eq_some_iff.1 hm
    have hlead : leadsOn q = false := by rcases hq with rfl | rfl <;> rfl
    rw [join_cons, text, hinner, List.cons_append, sight_cons hlead]
  refine cut_join_iff.2 (loose_append_of_sight hloose ⟨hstring, hback⟩ ?_)
  rw [hsight l hl, hsight (.ofString q body) rfl]

theorem place_eq_append {offset start : Nat} {ps : List Piece} {l : Lexeme}
    {before behind : List (Nat × Lexeme)} (h : place offset ps = before ++ (start, l) :: behind) :
    ∃ front back, ps = front ++ .lexeme l :: back ∧ place offset front = before ∧
      start = offset + (join front).length := by
  induction ps generalizing offset before with
  | nil => simp [place] at h
  | cons p ps ih =>
    cases p with
    | gap b =>
      obtain ⟨front, back, rfl, hfront, hstart⟩ := ih h
      refine ⟨.gap b :: front, back, rfl, hfront, ?_⟩
      rw [join_cons, text, List.length_append, List.length_singleton, hstart, Nat.add_assoc]
    | lexeme m =>
      cases before with
      | nil =>
        obtain ⟨hfirst, -⟩ := List.cons.inj h
        cases hfirst
        exact ⟨[], ps, rfl, rfl, rfl⟩
      | cons p before =>
        obtain ⟨rfl, hmore⟩ := List.cons.inj h
        obtain ⟨front, back, rfl, hfront, hstart⟩ := ih hmore
        refine ⟨.lexeme m :: front, back, rfl, by rw [place, hfront], ?_⟩
        rw [join_cons, text, List.length_append, hstart, Nat.add_assoc]

end Piece

namespace Lexer

/-- A delivered token stands for a piece, and the tokens before and behind it for the lexemes before and
behind that piece. -/
theorem exists_piece_of_rest {lx : Lexer} {source : Bytes} {before behind : List Token} {t : Token}
    (h : (lx.bind source).rest.1 = before ++ t :: behind) :
    ∃ front back, Piece.cut source = front ++ .lexeme (t.lexeme source) :: back ∧
      front.filterMap Piece.lexeme? = before.map (·.lexeme source) ∧
      back.filterMap Piece.lexeme? = behind.map (·.lexeme source) ∧
      Piece.join front = source.take t.span.start ∧ Piece.join back = source.drop t.span.stop := by
  have hlexemes := lx.map_lexeme_rest_bind source
  rw [h, List.map_append, List.map_cons] at hlexemes
  rw [rest_eq, left_bind, List.map_eq_append_iff] at h
  obtain ⟨placed, more, hplace, hbefore, hmore⟩ := h
  obtain ⟨⟨start, l⟩, last, rfl, ht, -⟩ := List.map_eq_cons_iff.1 hmore
  obtain ⟨front, back, hcut, hfront, hstart⟩ := Piece.place_eq_append hplace
  rw [Nat.zero_add] at hstart
  have hlength : (before.map (·.lexeme source)).length = (front.filterMap Piece.lexeme?).length := by
    rw [← Piece.place_map_snd 0 front, hfront, ← hbefore, List.length_map, List.length_map,
      List.length_map]
  rw [lexemes, hcut, List.filterMap_append] at hlexemes
  obtain ⟨hleft, hright⟩ := List.append_inj hlexemes hlength
  obtain ⟨hl, hbehind⟩ := List.cons.inj hright
  have hspan : t.span = ⟨(Piece.join front).length, (Piece.join front).length + l.text.length⟩ := by
    rw [← ht, Token.span_ofLexeme, hstart]
  obtain ⟨htake, -, hdrop⟩ := Piece.around hcut
  rw [hspan]
  exact ⟨front, back, hl ▸ hcut, hleft.symm, hbehind.symm, htake.symm, hdrop.symm⟩

theorem comesOff_of_mem_rest {lx : Lexer} {source : Bytes} {t : Token}
    (ht : t ∈ (lx.bind source).rest.1) :
    ComesOff (.lexeme (t.lexeme source)) (source.drop t.span.stop) ∧
      source.drop t.span.start = (t.lexeme source).text ++ source.drop t.span.stop := by
  obtain ⟨before, behind, hrest⟩ := List.append_of_mem ht
  obtain ⟨front, back, hcut, -, -, htake, hdrop⟩ := exists_piece_of_rest hrest
  have hoff := (hcut ▸ Piece.loose_cut source).of_append.1
  have hsource := Piece.eq_join_append hcut
  rw [htake, hdrop, Piece.text] at hsource
  have hsplit : source.take t.span.start ++ source.drop t.span.start =
      source.take t.span.start ++ ((t.lexeme source).text ++ source.drop t.span.stop) := by
    rw [List.take_append_drop, ← hsource]
  rw [hdrop] at hoff
  exact ⟨hoff, List.append_cancel_left hsplit⟩

end Lexer

theorem Rules.shownAlike_literal {r : Rules} (hlit : r.removeLiterals = true) {l m : Lexeme}
    (hl : l.toCategory = { kind := .literal }) (hm : m.toCategory = { kind := .literal }) :
    r.ShownAlike l m where
  category := hl.trans hm.symm
  shown _ prev := by
    have hkind : l.kind = .literal ∧ m.kind = .literal := by rw [hl, hm]; exact ⟨rfl, rfl⟩
    simp [shown, parts, hlit, hkind]

/-- **String values are unseen.** Another closed string with the same quote in the place of a string token
leaves the category and the lexeme of every other token as they were. Under rules that remove literals
it leaves the outcome of a run as it was, at every capacity. -/
theorem Lexer.string_value_unseen (lx fresh : Lexer) (source : Bytes) (before behind : List Token)
    (t : Token) (htokens : (lx.bind source).rest.1 = before ++ t :: behind) (q : UInt8)
    (hq : q = quote ∨ q = doubleQuote) (ht : (t.lexeme source).text.head? = some q) (body : Bytes)
    (hbody : StringBody q body) :
    let source' :=
      source.take t.span.start ++ (Lexeme.ofString q body).text ++ source.drop t.span.stop
    (fresh.bind source').rest.1.map (·.lexeme source') =
        before.map (·.lexeme source) ++ .ofString q body :: behind.map (·.lexeme source) ∧
      ∀ r : Rules, r.validate = .ok () → r.removeLiterals = true → ∀ buffer,
        (fresh.normalize r source' buffer).1 = (lx.normalize r source buffer).1 := by
  intro source'
  obtain ⟨front, back, hcut, hbefore, hbehind, htake, hdrop⟩ := exists_piece_of_rest htokens
  have hsource : source' = Piece.join (front ++ .lexeme (.ofString q body) :: back) := by
    rw [Piece.join_append, Piece.join_cons, htake, hdrop, ← List.append_assoc]
    rfl
  have hold : lexemes source = before.map (·.lexeme source) ++ t.lexeme source ::
      behind.map (·.lexeme source) := by
    rw [lexemes, hcut, List.filterMap_append, hbefore, ← hbehind]
    rfl
  have hnew : lexemes source' = before.map (·.lexeme source) ++ .ofString q body ::
      behind.map (·.lexeme source) := by
    rw [lexemes, hsource, Piece.cut_replace_string hq hcut ht hbody, List.filterMap_append, hbefore,
      ← hbehind]
    rfl
  refine ⟨(fresh.map_lexeme_rest_bind source').trans hnew, fun r hr hlit buffer => ?_⟩
  have hliteral : (t.lexeme source).toCategory = { kind := .literal } :=
    (Lexeme.of_comesOff_quote hq (hcut ▸ Piece.loose_cut source).of_append.1 ht).1
  refine normalize_congr hr (Rules.textAfter_congr ?_ none) fresh lx buffer
  rw [hnew, hold]
  have hsame : ∀ ls : List Lexeme, List.Forall₂ r.ShownAlike ls ls := fun ls =>
    List.forall₂_same.2 fun l _ => .refl r l
  exact List.rel_append (hsame _) (.cons (Rules.shownAlike_literal hlit rfl hliteral) (hsame _))

theorem Lexer.string_value_unseen_comment :
    let source := Utf8.encode "f('it') < b"
    let masked := Utf8.encode "f('''\\' -- ') < b"
    (({} : Lexer).bind masked).rest.1.map (·.lexeme masked) =
        ((({} : Lexer).bind source).rest.1.map (·.lexeme source)).set 2
          (.ofString quote (Utf8.encode "''\\' -- ")) ∧
      ∀ buffer, (({} : Lexer).normalize { removeLiterals := true } masked buffer).1 =
        (({} : Lexer).normalize { removeLiterals := true } source buffer).1 := by
  intro source masked
  let word (start : Nat) : Token := { kind := .keyword, span := ⟨start, start + 1⟩ }
  have htokens : (({} : Lexer).bind source).rest.1 =
      [word 0, { kind := .openParen, span := ⟨1, 2⟩ }] ++ { kind := .literal, span := ⟨2, 6⟩ } ::
        [{ kind := .closeParen, span := ⟨6, 7⟩ }, { kind := .operator, span := ⟨8, 9⟩ }, word 10] := by
    rw [rest_bind]
    decide
  have hbody : StringBody quote (Utf8.encode "''\\' -- ") :=
    .doubled <| .escaped <| .plain (by decide) (by decide) <| .plain (by decide) (by decide) <|
      .plain (by decide) (by decide) <| .plain (by decide) (by decide) .nil
  obtain ⟨hlexemes, houtcome⟩ := string_value_unseen {} {} source _ _ _ htokens quote (.inl rfl)
    (by decide) _ hbody
  refine ⟨?_, houtcome { removeLiterals := true } rfl rfl⟩
  rw [htokens]
  exact hlexemes

end SqlCanon
