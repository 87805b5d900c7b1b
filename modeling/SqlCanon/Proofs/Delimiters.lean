import SqlCanon.Proofs.Filler
import SqlCanon.Proofs.StringValues

/-!
# Where delimited lexemes end

Strings, names in backticks, quoted blobs and comments have grammars of their own, each of which says what
may stand between the opening mark and the end. The readers stop at the end that the grammar gives, and
where it gives none they take the rest of the source.
-/

namespace SqlCanon
open Byte

inductive NameBody : Bytes → Prop
  | nil : NameBody []
  | doubled {body} : NameBody body → NameBody (backtick :: backtick :: body)
  | plain {b body} : b ≠ backtick → NameBody body → NameBody (b :: body)

theorem Delimited.name_body {body : Bytes} (h : NameBody body) (rest : Bytes) :
    name (body ++ rest) = body ++ name rest := by
  induction h with
  | nil => rfl
  | doubled _ ih => simp [name_doubled, ih]
  | plain hb _ ih => rw [List.cons_append, name_cons_of_ne hb, ih, List.cons_append]

/-! ## The ends -/

/-- A place at which a delimited text may end: `body` has been read since the opening mark, and `more`
is what follows. -/
def EndRule := (body more : Bytes) → Prop

namespace EndRule

def string (q : UInt8) : EndRule := fun body more =>
  ∃ inner, body = inner ++ [q] ∧ StringBody q inner ∧ more.head? ≠ some q

def name : EndRule := fun body more =>
  ∃ inner, body = inner ++ [backtick] ∧ NameBody inner ∧ more.head? ≠ some backtick

def through (q : UInt8) : EndRule := fun body _ => ∃ inner, body = inner ++ [q] ∧ q ∉ inner

def block : EndRule := fun body _ =>
  ∃ inner, body = inner ++ [star, slash] ∧ ¬ [star, slash] <:+: inner

def line : EndRule := fun body more => newline ∉ body ∧ more.head? = some newline

end EndRule

/-- `taken` is what `whole` holds up to the end that the rule gives. Where it gives none, that is all. -/
structure RunsTo (ends : EndRule) (whole taken : Bytes) : Prop where
  closed : ∀ body more, whole = body ++ more → ends body more → taken = body
  unclosed : (¬ ∃ body more, whole = body ++ more ∧ ends body more) → taken = whole

def StopsAt (ends : EndRule) (whole taken : Bytes) : Prop :=
  taken = whole ∨ ∃ more, whole = taken ++ more ∧ ends taken more

section
variable {ends : EndRule}

theorem StopsAt.append {whole taken : Bytes} (h : StopsAt ends whole taken) (item : Bytes)
    (hitem : ∀ body more, ends body more → ends (item ++ body) more) :
    StopsAt ends (item ++ whole) (item ++ taken) := by
  rcases h with rfl | ⟨more, rfl, hmore⟩
  · exact .inl rfl
  · exact .inr ⟨more, (List.append_assoc ..).symm, hitem taken more hmore⟩

/-- A reader that stops at ends only, and at each of them, runs to the one end there is. -/
theorem RunsTo.of_reader {read : Bytes → Bytes} (hstops : ∀ bs, StopsAt ends bs (read bs))
    (hends : ∀ body more, ends body more → read (body ++ more) = body) (bs : Bytes) :
    RunsTo ends bs (read bs) where
  closed := by
    rintro body more rfl h
    exact hends body more h
  unclosed hnone := by
    rcases hstops bs with h | ⟨more, hbs, hmore⟩
    · exact h
    · exact absurd ⟨read bs, more, hbs, hmore⟩ hnone

end

/-! ## The readers -/

namespace Delimited

theorem string_stopsAt (q : UInt8) (bs : Bytes) :
    StopsAt (EndRule.string q) bs (string q bs) := by
  fun_induction string q bs with
  | case1 => exact .inl rfl
  | case2 => exact .inl rfl
  | case3 c rest ih =>
    refine ih.append [backslash, c] ?_
    rintro body more ⟨inner, rfl, hinner, hmore⟩
    exact ⟨backslash :: c :: inner, rfl, hinner.escaped, hmore⟩
  | case4 => exact .inl rfl
  | case5 rest _ ih =>
    refine ih.append [q, q] ?_
    rintro body more ⟨inner, rfl, hinner, hmore⟩
    exact ⟨q :: q :: inner, rfl, hinner.doubled, hmore⟩
  | case6 c rest hc =>
    refine .inr ⟨c :: rest, rfl, [], rfl, .nil, ?_⟩
    simpa using hc
  | case7 b rest hb hq ih =>
    refine ih.append [b] ?_
    rintro body more ⟨inner, rfl, hinner, hmore⟩
    exact ⟨b :: inner, rfl, hinner.plain hb hq, hmore⟩

theorem runsTo_string {q : UInt8} (hq : q ≠ backslash) (bs : Bytes) :
    RunsTo (EndRule.string q) bs (string q bs) := by
  refine .of_reader (string_stopsAt q) ?_ bs
  rintro body more ⟨inner, rfl, hinner, hmore⟩
  rw [List.append_assoc, string_body hq hinner, List.singleton_append, string_close hq hmore]

theorem name_cases (bs : Bytes) :
    (∃ more, bs = name bs ++ more ∧ EndRule.name (name bs) more) ∨ name bs = bs ∧ NameBody bs := by
  fun_induction name bs with
  | case1 => exact .inr ⟨rfl, .nil⟩
  | case2 => exact .inl ⟨[], rfl, [], rfl, .nil, by simp⟩
  | case3 rest ih =>
    rcases ih with ⟨more, hrest, inner, hname, hinner, hmore⟩ | ⟨hname, hrest⟩
    · refine .inl ⟨more, by rw [List.cons_append, List.cons_append, ← hrest], ?_⟩
      exact ⟨backtick :: backtick :: inner, by rw [hname]; rfl, hinner.doubled, hmore⟩
    · exact .inr ⟨by rw [hname], hrest.doubled⟩
  | case4 c rest hc =>
    refine .inl ⟨c :: rest, rfl, [], rfl, .nil, ?_⟩
    simpa using hc
  | case5 b rest hb ih =>
    rcases ih with ⟨more, hrest, inner, hname, hinner, hmore⟩ | ⟨hname, hrest⟩
    · refine .inl ⟨more, by rw [List.cons_append, ← hrest], ?_⟩
      exact ⟨b :: inner, by rw [hname]; rfl, hinner.plain hb, hmore⟩
    · exact .inr ⟨by rw [hname], hrest.plain hb⟩

theorem name_stopsAt (bs : Bytes) : StopsAt EndRule.name bs (name bs) :=
  (name_cases bs).symm.imp_left And.left

theorem runsTo_name (bs : Bytes) : RunsTo EndRule.name bs (name bs) := by
  refine .of_reader name_stopsAt ?_ bs
  rintro body more ⟨inner, rfl, hinner, hmore⟩
  rw [List.append_assoc, name_body hinner, List.singleton_append, name_close hmore]

theorem through_stopsAt (q : UInt8) (bs : Bytes) :
    StopsAt (EndRule.through q) bs (through q bs) := by
  fun_induction through q bs with
  | case1 => exact .inl rfl
  | case2 rest => exact .inr ⟨rest, rfl, [], rfl, List.not_mem_nil⟩
  | case3 b rest hb ih =>
    refine ih.append [b] ?_
    rintro body more ⟨inner, rfl, hinner⟩
    exact ⟨b :: inner, rfl, List.not_mem_cons_of_ne_of_not_mem (Ne.symm hb) hinner⟩

theorem through_close {q : UInt8} {inner : Bytes} (h : q ∉ inner) (rest : Bytes) :
    through q (inner ++ q :: rest) = inner ++ [q] := by
  induction inner with
  | nil => simp [through]
  | cons b inner ih =>
    rw [List.mem_cons, not_or] at h
    rw [List.cons_append, through, if_neg (Ne.symm h.1), ih h.2, List.cons_append]

theorem runsTo_through (q : UInt8) (bs : Bytes) : RunsTo (EndRule.through q) bs (through q bs) := by
  refine .of_reader (through_stopsAt q) ?_ bs
  rintro body more ⟨inner, rfl, hinner⟩
  rw [List.append_assoc, List.singleton_append, through_close hinner]

theorem block_stopsAt (bs : Bytes) : StopsAt EndRule.block bs (block bs) := by
  fun_induction block bs with
  | case1 => exact .inl rfl
  | case2 b rest h =>
    obtain ⟨rest, rfl⟩ := List.head?_eq_some_iff.1 h.2
    obtain rfl := h.1
    exact .inr ⟨rest, rfl, [], rfl, by simp⟩
  | case3 b rest h ih =>
    -- an end is carried over the byte `b`, unless that makes an end with the byte behind it
    rcases ih with heq | ⟨more, hrest, inner, htaken, hinner⟩
    · exact .inl (congrArg (b :: ·) heq)
    · refine .inr ⟨more, congrArg (b :: ·) hrest, b :: inner, congrArg (b :: ·) htaken, ?_⟩
      rw [List.infix_cons_iff, not_or]
      refine ⟨fun hprefix => h ?_, hinner⟩
      obtain ⟨hb, hslash⟩ := List.cons_prefix_cons.1 hprefix
      obtain ⟨tail, rfl⟩ := hslash
      refine ⟨hb.symm, ?_⟩
      rw [hrest, htaken]
      rfl

theorem runsTo_block (bs : Bytes) : RunsTo EndRule.block bs (block bs) := by
  refine .of_reader block_stopsAt ?_ bs
  rintro body more ⟨inner, rfl, hinner⟩
  rw [List.append_assoc]
  exact block_close hinner more

theorem not_newline_iff {b : UInt8} : (b != newline) = true ↔ newline ≠ b := by
  rw [bne_iff_ne, ne_comm]

theorem line_stopsAt (bs : Bytes) : StopsAt EndRule.line bs (line bs) := by
  have hsplit : line bs ++ bs.dropWhile (· != newline) = bs := List.takeWhile_append_dropWhile
  have htaken : (line bs ++ bs.dropWhile (· != newline)).takeWhile (· != newline) = line bs := by
    rw [hsplit]
    rfl
  obtain ⟨hall, hnext⟩ := takeWhile_append_iff.1 htaken
  generalize bs.dropWhile (· != newline) = more at hsplit hnext
  cases more with
  | nil => exact .inl ((List.append_nil _).symm.trans hsplit)
  | cons c more =>
    refine .inr ⟨c :: more, hsplit.symm, fun hmem => ?_, ?_⟩
    · exact not_newline_iff.1 (hall newline hmem) rfl
    · simpa using hnext c rfl

theorem runsTo_line (bs : Bytes) : RunsTo EndRule.line bs (line bs) := by
  refine .of_reader line_stopsAt ?_ bs
  rintro body more ⟨hbody, hmore⟩
  refine takeWhile_append_iff.2 ⟨fun b hb => ?_, fun c hc => ?_⟩
  · exact not_newline_iff.2 (ne_of_mem_of_not_mem hb hbody).symm
  · rw [hmore] at hc
    cases hc
    rfl

end Delimited

/-! ## The lexemes -/

/-- The marks that open a delimited lexeme in front of `rest`, its kind, and the rule for its end. -/
inductive Opens : (mark rest : Bytes) → Kind → EndRule → Prop
  | string {q rest} : q = quote ∨ q = doubleQuote → Opens [q] rest .literal (.string q)
  | name {rest} : Opens [backtick] rest .keyword .name
  | blob {b rest} : Lexeme.isBase b → Opens [b, quote] rest .literal (.through quote)
  | block {rest} : Opens [slash, star] rest .comment .block
  | hash {rest} : Opens [hash] rest .comment .line
  | dashes {rest} : rest.head?.all isBlank → Opens [minus, minus] rest .comment .line

theorem Opens.front?_eq {mark rest more : Bytes} {b : UInt8} {kind : Kind} {ends : EndRule}
    (h : Opens mark rest kind ends) (hmark : mark ++ rest = b :: more) :
    ∃ body, Lexeme.front? b more = some { kind, text := mark ++ body } ∧ RunsTo ends rest body := by
  cases h with
  | @string q _ hq =>
    obtain ⟨rfl, rfl⟩ := List.cons.inj hmark
    have hback : q ≠ backslash := by rcases hq with rfl | rfl <;> decide
    exact ⟨_, Lexeme.front?_quote hq rest, Delimited.runsTo_string hback rest⟩
  | name =>
    obtain ⟨rfl, rfl⟩ := List.cons.inj hmark
    exact ⟨_, Lexeme.front?_backtick rest, Delimited.runsTo_name rest⟩
  | @blob b _ hb =>
    obtain ⟨rfl, rfl⟩ := List.cons.inj hmark
    obtain ⟨tail, htail⟩ := Delimited.through_isPrefix quote rest
    have hcase : Lexeme.LiteralCase b (quote :: Delimited.through quote rest) tail :=
      .quoted hb rfl (by rw [htail])
    have hf := hcase.front?_eq
    rw [List.cons_append, htail] at hf
    exact ⟨_, hf, Delimited.runsTo_through quote rest⟩
  | block =>
    obtain ⟨rfl, rfl⟩ := List.cons.inj hmark
    refine ⟨_, Lexeme.FrontCase.front?_eq (.comment rfl ?_), Delimited.runsTo_block rest⟩
    simp +decide [Lexeme.comment?]
  | hash =>
    obtain ⟨rfl, rfl⟩ := List.cons.inj hmark
    exact ⟨_, Lexeme.FrontCase.front?_eq (.comment rfl rfl), Delimited.runsTo_line rest⟩
  | dashes hblank =>
    obtain ⟨rfl, rfl⟩ := List.cons.inj hmark
    refine ⟨_, Lexeme.FrontCase.front?_eq (.comment rfl ?_), Delimited.runsTo_line rest⟩
    simp +decide [Lexeme.comment?, hblank, Delimited.line]

/-- **Delimited lexemes end where their grammars say.** Where a token starts with one of the marks it is of
the kind that goes with the mark, and it runs up to the end that the rule for the mark gives. Where there is
no such end it takes the rest of the source. -/
theorem Lexer.delimited_runs_to_end (lx : Lexer) (hnext : lx.next.1.kind ≠ .endOfInput)
    {mark rest : Bytes} {kind : Kind} {ends : EndRule} (hopens : Opens mark rest kind ends)
    (hstart : lx.source.drop lx.next.1.span.start = mark ++ rest) :
    ∃ body, lx.next.1.lexeme lx.source = { kind, text := mark ++ body } ∧
      lx.next.1.span.stop = lx.next.1.span.start + (mark ++ body).length ∧
      RunsTo ends rest body := by
  obtain ⟨b, more, l, hfront, hf, htoken, hlexeme⟩ := front?_of_next hnext
  obtain ⟨body, hbody, hruns⟩ := hopens.front?_eq (hstart.symm.trans hfront)
  obtain rfl := Option.some.inj (hf.symm.trans hbody)
  refine ⟨body, hlexeme, ?_, hruns⟩
  rw [htoken]
  rfl

theorem Lexer.delimited_runs_to_end_escaped :
    let source := Utf8.encode "a '\\'''' b'"
    let lx := (forSource source).next.2
    lx.next.1.kind ≠ .endOfInput ∧
      lx.next.1.lexeme source = { kind := .literal, text := Utf8.encode "'\\''''" } := by
  intro source lx
  have hnext : lx.next.1.kind ≠ .endOfInput := by decide
  have hstart : lx.source.drop lx.next.1.span.start =
      [quote] ++ (Utf8.encode "\\''''" ++ Utf8.encode " b'") := by decide
  obtain ⟨body, hlexeme, -, hruns⟩ :=
    delimited_runs_to_end lx hnext (.string (.inl rfl)) hstart
  have hbody : StringBody quote (Utf8.encode "\\'''") := .escaped (.doubled .nil)
  rw [hruns.closed _ _ rfl ⟨_, rfl, hbody, by decide⟩] at hlexeme
  exact ⟨hnext, hlexeme⟩

end SqlCanon
