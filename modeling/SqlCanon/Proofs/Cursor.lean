import SqlCanon.Lexer

/-!
# Scanning with a cursor

The readers once more, as movements of a cursor over a source that is never cut. A step past the end
and a slice that does not fit are failures here. No reader fails, and the cursor stops where the
lexeme taken by `Lexeme.front?` ends.
-/

namespace SqlCanon.Cursor
open Byte

inductive Escape where
  | step (cursor count : Nat)
  | slice (span : Span)
deriving DecidableEq, Repr

inductive Move (σ : Type) where
  /-- Steps over `count` bytes and ends. -/
  | stop (count : Nat)
  /-- Steps over the byte and `extra` more, and goes on. -/
  | go (extra : Nat) (state : σ)

section
variable (source : Bytes)

def step (cursor count : Nat) : Except Escape Nat :=
  if cursor + count ≤ source.length then .ok (cursor + count) else .error (.step cursor count)

def slice (span : Span) : Except Escape Bytes :=
  if span.fits source.length then .ok (span.slice source) else .error (.slice span)

def loop {σ : Type} (look : σ → UInt8 → Option UInt8 → Move σ) (s : σ) (cursor : Nat) :
    Except Escape Nat :=
  match source[cursor]? with
  | none => .ok cursor
  | some b =>
    match look s b source[cursor + 1]? with
    | .stop count => step source cursor count
    | .go extra s =>
      match _ : step source cursor (1 + extra) with
      | .ok next => loop look s next
      | .error e => .error e
termination_by source.length - cursor
decreasing_by
  next hs =>
  simp only [step] at hs
  split at hs
  · cases hs; omega
  · cases hs

end

/-! ## Loops and the readers on lists -/

section
variable {σ : Type} {look : σ → UInt8 → Option UInt8 → Move σ} {f : σ → Bytes → Bytes}

/-- Where a loop goes by `look`, `f` takes the bytes it steps over, and there are that many. -/
structure Traces (look : σ → UInt8 → Option UInt8 → Move σ) (f : σ → Bytes → Bytes) : Prop where
  nil : ∀ s, f s [] = []
  cons : ∀ s b rest,
    match look s b rest.head? with
    | .stop count => count ≤ rest.length + 1 ∧ f s (b :: rest) = (b :: rest).take count
    | .go extra s' =>
      extra ≤ rest.length ∧ f s (b :: rest) = b :: rest.take extra ++ f s' (rest.drop extra)

theorem drop_eq_cons {source : Bytes} {cursor : Nat} {b : UInt8} (h : source[cursor]? = some b) :
    source.drop cursor = b :: source.drop (cursor + 1) := by
  obtain ⟨hlt, rfl⟩ := List.getElem?_eq_some_iff.1 h
  exact List.drop_eq_getElem_cons hlt

namespace Traces
variable {source : Bytes} {cursor : Nat} {b : UInt8} {s : σ}

theorem of_stop (hf : Traces look f) (hb : source[cursor]? = some b) {count : Nat}
    (hl : look s b source[cursor + 1]? = .stop count) :
    cursor + count ≤ source.length ∧ (f s (source.drop cursor)).length = count := by
  have hlt := (List.getElem?_eq_some_iff.1 hb).1
  have ht := hf.cons s b (source.drop (cursor + 1))
  rw [List.head?_drop, hl, List.length_drop] at ht
  obtain ⟨hle, htext⟩ := ht
  refine ⟨by omega, ?_⟩
  rw [drop_eq_cons hb, htext, List.length_take, List.length_cons, List.length_drop]
  omega

theorem of_go (hf : Traces look f) (hb : source[cursor]? = some b) {extra : Nat} {s' : σ}
    (hl : look s b source[cursor + 1]? = .go extra s') :
    cursor + (1 + extra) ≤ source.length ∧
      (f s (source.drop cursor)).length =
        1 + extra + (f s' (source.drop (cursor + (1 + extra)))).length := by
  have hlt := (List.getElem?_eq_some_iff.1 hb).1
  have ht := hf.cons s b (source.drop (cursor + 1))
  rw [List.head?_drop, hl, List.length_drop] at ht
  obtain ⟨hle, htext⟩ := ht
  refine ⟨by omega, ?_⟩
  rw [drop_eq_cons hb, htext, List.drop_drop, Nat.add_assoc cursor 1 extra, List.length_append,
    List.length_cons, List.length_take, List.length_drop]
  omega

end Traces

theorem loop_eq (hf : Traces look f) (source : Bytes) (s : σ) (cursor : Nat)
    (hc : cursor ≤ source.length) :
    loop source look s cursor = .ok (cursor + (f s (source.drop cursor)).length) := by
  fun_induction loop source look s cursor with
  | case1 s cursor hb =>
    rw [List.drop_of_length_le (List.getElem?_eq_none_iff.1 hb), hf.nil]
    rfl
  | case2 s cursor b hb count hl =>
    obtain ⟨hle, hlen⟩ := hf.of_stop hb hl
    rw [hlen, step, if_pos hle]
  | case3 s cursor b hb extra s' hl next hs ih =>
    obtain ⟨hle, hlen⟩ := hf.of_go hb hl
    rw [step, if_pos hle] at hs
    cases hs
    rw [ih hle, hlen, Nat.add_assoc cursor]
  | case4 s cursor b hb extra s' hl e hs =>
    rw [step, if_pos (hf.of_go hb hl).1] at hs
    cases hs

end

/-! ## The looks of the readers -/

def during (p : UInt8 → Bool) (_ : Unit) (b : UInt8) (_ : Option UInt8) : Move Unit :=
  if p b then .go 0 () else .stop 0

def behind (q : UInt8) (_ : Unit) (b : UInt8) (_ : Option UInt8) : Move Unit :=
  if b = q then .stop 1 else .go 0 ()

def inBlock (_ : Unit) (b : UInt8) (next : Option UInt8) : Move Unit :=
  if b = star ∧ next = some slash then .stop 2 else .go 0 ()

def inName (_ : Unit) (b : UInt8) (next : Option UInt8) : Move Unit :=
  if b = backtick then if next = some backtick then .go 1 () else .stop 1 else .go 0 ()

/-- The state is whether the byte before was a backslash that takes this one with it. -/
def inString (q : UInt8) (escaped : Bool) (b : UInt8) (next : Option UInt8) : Move Bool :=
  if b = backslash then .go 0 (!escaped)
  else if b = q ∧ escaped = false then if next = some q then .go 1 false else .stop 1
  else .go 0 false

/-- The state is the byte before and whether there has been a point. -/
def inNumber (s : UInt8 × Bool) (b : UInt8) (next : Option UInt8) : Move (UInt8 × Bool) :=
  if Number.continues s.1 s.2 b next.toList then .go 0 (b, s.2 || b == dot) else .stop 0

theorem traces_during (p : UInt8 → Bool) : Traces (during p) fun _ => List.takeWhile p where
  nil _ := rfl
  cons _ b rest := by
    by_cases hb : p b <;> simp [during, hb]

theorem traces_behind (q : UInt8) : Traces (behind q) fun _ => Delimited.through q where
  nil _ := rfl
  cons _ b rest := by
    by_cases hb : b = q <;> simp [behind, Delimited.through, hb]

theorem traces_inBlock : Traces inBlock fun _ => Delimited.block where
  nil _ := rfl
  cons _ b rest := by
    by_cases hb : b = star ∧ rest.head? = some slash
    · cases rest <;> simp_all [inBlock, Delimited.block]
    · simp [inBlock, Delimited.block, hb]

theorem traces_inName : Traces inName fun _ => Delimited.name where
  nil _ := rfl
  cons _ b rest := by
    by_cases hb : b = backtick
    · subst hb
      by_cases hr : rest.head? = some backtick
      · obtain ⟨rest, rfl⟩ := List.head?_eq_some_iff.1 hr
        simp [inName, Delimited.name_doubled]
      · simp [inName, hr, Delimited.name_close hr]
    · simp [inName, hb, Delimited.name_cons_of_ne hb]

def stringRest (q : UInt8) (escaped : Bool) (bs : Bytes) : Bytes :=
  if escaped then bs.take 1 ++ Delimited.string q (bs.drop 1) else Delimited.string q bs

theorem traces_inString (q : UInt8) : Traces (inString q) (stringRest q) where
  nil escaped := by simp [stringRest, Delimited.string]
  cons escaped b rest := by
    by_cases hb : b = backslash
    · cases rest <;> cases escaped <;> simp [inString, stringRest, Delimited.string, hb]
    · cases escaped with
      | true => simp [inString, stringRest, hb]
      | false =>
        by_cases hq : b = q
        · subst hq
          by_cases hr : rest.head? = some b
          · obtain ⟨rest, rfl⟩ := List.head?_eq_some_iff.1 hr
            simp [inString, stringRest, hb, Delimited.string_doubled hb]
          · simp [inString, stringRest, hb, hr, Delimited.string_close hb hr]
        · simp [inString, stringRest, hb, hq, Delimited.string_cons_of_ne hb hq]

theorem continues_head? (last : UInt8) (pointed : Bool) (b : UInt8) (rest : Bytes) :
    Number.continues last pointed b rest.head?.toList = Number.continues last pointed b rest := by
  cases rest <;> rfl

theorem traces_inNumber : Traces inNumber fun s => Number.tail s.1 s.2 where
  nil _ := rfl
  cons s b rest := by
    rw [inNumber, continues_head?, Number.tail]
    by_cases hb : Number.continues s.1 s.2 b rest <;> simp [hb]

/-! ## The scanner -/

section
variable (source : Bytes)

def comment (b : UInt8) (cursor : Nat) : Except Escape (Option Nat) :=
  if b = hash then some <$> loop source (during (· != newline)) () cursor
  else if b = minus ∧ source[cursor]? = some minus ∧ source[cursor + 1]?.all isBlank then
    some <$> loop source (during (· != newline)) () cursor
  else if b = slash ∧ source[cursor]? = some star then do
    some <$> loop source inBlock () (← step source cursor 1)
  else .ok none

def literal (b : UInt8) (cursor : Nat) : Except Escape (Option Nat) :=
  let next := source[cursor]?
  if b = quote ∨ b = doubleQuote then some <$> loop source (inString b) false cursor
  else if (toLower b = 0x62 ∨ toLower b = 0x78) ∧ next = some quote then do
    some <$> loop source (behind quote) () (← step source cursor 1)
  else if b = zero ∧ next.any (fun c => toLower c == 0x62 || toLower c == 0x78) then do
    some <$> loop source (during Lexeme.isBlobPart) () (← step source cursor 1)
  else if isDigit b ∨ ((b = minus ∨ b = plus ∨ b = dot) ∧ next.any isDigit) then
    some <$> loop source inNumber (b, b == dot) cursor
  else .ok none

/-- Steps on while the bytes from `start` spell the start of an operator. `best` is where they last
spelled a whole one. -/
def operatorLoop (start : Nat) (best : Option Nat) (cursor : Nat) : Except Escape (Option Nat) :=
  if cursor < source.length then
    match slice source ⟨start, cursor + 1⟩ with
    | .ok longer =>
      if Operator.startsOperator longer then
        operatorLoop start (if Operator.isOperator longer then some (cursor + 1) else best)
          (cursor + 1)
      else .ok best
    | .error e => .error e
  else .ok best
termination_by source.length - cursor

def operator (start cursor : Nat) : Except Escape (Option Nat) := do
  let read ← slice source ⟨start, cursor⟩
  if Operator.startsOperator read then
    operatorLoop source start (if Operator.isOperator read then some cursor else none) cursor
  else return none

/-- The token that starts at `start`, if one does, and the cursor after it. A word is looked up by its place,
which may change the state `s`. -/
def tokenBy {σ : Type} (lookUp : Span → Except Escape (Attrs × σ)) (s : σ) (start : Nat) :
    Except Escape ((Option Token × Nat) × σ) := do
  let some b := source[start]? | return ((none, start), s)
  let cursor ← step source start 1
  let upTo (stop : Nat) (kind : Kind) : (Option Token × Nat) × σ :=
    ((some { kind, span := ⟨start, stop⟩ }, stop), s)
  if b = star then return upTo cursor .star
  else if b = comma then return upTo cursor .comma
  else if b = openParen then return upTo cursor .openParen
  else if b = closeParen then return upTo cursor .closeParen
  else if isBlank b then return ((none, cursor), s)
  else if let some stop ← comment source b cursor then return upTo stop .comment
  else if let some stop ← literal source b cursor then return upTo stop .literal
  else if b = dot then return upTo cursor .dot
  else if b = backtick then return upTo (← loop source inName () cursor) .keyword
  else if isWordStart b then
    let stop ← loop source (during isWordPart) () cursor
    let (attrs, s) ← lookUp ⟨start, stop⟩
    return ((some { kind := .keyword, attrs, span := ⟨start, stop⟩ }, stop), s)
  else if let some stop ← operator source start cursor then return upTo stop .operator
  else return ((none, start + 1), s)

def attrsAt (word : Span) : Except Escape (Attrs × Unit) := do
  return (Reserved.attrs (← slice source word), ())

def token (start : Nat) : Except Escape (Option Token × Nat) :=
  Prod.fst <$> tokenBy source (attrsAt source) () start

/-- The look-up gives the attributes of a word, and `keep` is what the state becomes. -/
def Finds {σ : Type} (lookUp : Span → Except Escape (Attrs × σ)) (keep : Bytes → σ) : Prop :=
  ∀ start word, slice source ⟨start, start + word.length⟩ = .ok word →
    lookUp ⟨start, start + word.length⟩ = .ok (Reserved.attrs word, keep word)

variable {source : Bytes} {cursor : Nat}

theorem step_of_le {count : Nat} (h : cursor + count ≤ source.length) :
    step source cursor count = .ok (cursor + count) :=
  if_pos h

theorem slice_of_le {start stop : Nat} (h₁ : start ≤ stop) (h₂ : stop ≤ source.length) :
    slice source ⟨start, stop⟩ = .ok ((source.drop start).take (stop - start)) := by
  rw [slice, if_pos (Span.fits_of_le h₁ h₂), Span.slice_of_le h₁ h₂]

theorem lt_of_head? {c : UInt8} (h : (source.drop cursor).head? = some c) :
    cursor < source.length := by
  rw [List.head?_drop] at h
  exact (List.getElem?_eq_some_iff.1 h).1

theorem step_loop_eq {σ : Type} {look : σ → UInt8 → Option UInt8 → Move σ} {f : σ → Bytes → Bytes}
    (hf : Traces look f) (s : σ) {c : UInt8} (h : (source.drop cursor).head? = some c) :
    (do some <$> loop source look s (← step source cursor 1)) =
      .ok (some (cursor +
        ((source.drop cursor).take 1 ++ f s ((source.drop cursor).drop 1)).length)) := by
  have hlt := lt_of_head? h
  rw [step_of_le hlt]
  simp only [bind, Except.bind]
  rw [loop_eq hf source s _ hlt, List.drop_drop, List.length_append, List.length_take,
    List.length_drop, Nat.min_eq_left (by omega), ← Nat.add_assoc]
  rfl

theorem comment_eq (b : UInt8) (hc : cursor ≤ source.length) :
    comment source b cursor =
      .ok ((Lexeme.comment? b (source.drop cursor)).map (cursor + ·.length)) := by
  have hline := loop_eq (traces_during (· != newline)) source () cursor hc
  unfold comment Lexeme.comment?
  rw [← List.head?_drop, ← List.head?_drop, ← List.tail_drop]
  split
  · rw [hline]; rfl
  split
  · rw [hline]; rfl
  split
  · next h => exact step_loop_eq traces_inBlock () h.2
  · rfl

theorem literal_eq (b : UInt8) (hc : cursor ≤ source.length) :
    literal source b cursor =
      .ok ((Lexeme.literal? b (source.drop cursor)).map (cursor + ·.length)) := by
  unfold literal Lexeme.literal? Number.digitNext
  simp only [← List.head?_drop]
  split
  · rw [loop_eq (traces_inString b) source false cursor hc]; rfl
  split
  · next h => exact step_loop_eq (traces_behind quote) () h.2
  split
  · next h =>
    obtain ⟨c, hn, -⟩ := (Option.any_eq_true _ _).1 h.2
    exact step_loop_eq (traces_during _) () hn
  split
  · rw [loop_eq traces_inNumber source (b, b == dot) cursor hc]; rfl
  · rfl

theorem take_drop_succ {start : Nat} {b : UInt8} (hs : start ≤ cursor)
    (hb : source[cursor]? = some b) :
    (source.drop start).take (cursor + 1 - start) =
      (source.drop start).take (cursor - start) ++ [b] := by
  have hn : cursor + 1 - start = cursor - start + 1 := by omega
  have hi : (source.drop start)[cursor - start]? = some b := by
    rw [List.getElem?_drop, Nat.add_sub_cancel' hs, hb]
  rw [hn, List.take_add_one, hi]
  rfl

/-- The loop over the source and the one over the bytes read so far keep the same best spelling. -/
theorem operatorLoop_eq {start : Nat} {last : Option Nat} (best : Option Bytes)
    (hlast : last = best.map (start + ·.length)) (hs : start ≤ cursor) (hc : cursor ≤ source.length) :
    operatorLoop source start last cursor =
      .ok ((Operator.extend ((source.drop start).take (cursor - start)) best
        (source.drop cursor)).map (start + ·.length)) := by
  fun_induction operatorLoop source start last cursor generalizing best with
  | case1 last cursor hlt longer hl ho ih =>
    have hb := List.getElem?_eq_getElem hlt
    have hread := take_drop_succ hs hb
    rw [slice_of_le (by omega) hlt] at hl
    cases hl
    simp only [dite_eq_ite] at ih
    rw [drop_eq_cons hb, Operator.extend, ← hread, if_pos ho]
    refine ih _ ?_ (by omega) hlt
    split
    · simp only [Option.map_some, List.length_take, List.length_drop, Option.some.injEq]
      omega
    · exact hlast
  | case2 last cursor hlt longer hl ho =>
    have hb := List.getElem?_eq_getElem hlt
    have hread := take_drop_succ hs hb
    rw [slice_of_le (by omega) hlt] at hl
    cases hl
    rw [drop_eq_cons hb, Operator.extend, ← hread, if_neg ho, hlast]
  | case3 last cursor hlt e hl =>
    rw [slice_of_le (by omega) hlt] at hl
    cases hl
  | case4 last cursor hlt =>
    have hd : source.drop cursor = [] := List.drop_of_length_le (by omega)
    rw [hd, Operator.extend, hlast]

theorem operator_eq {start : Nat} {b : UInt8} (hb : source[start]? = some b) :
    operator source start (start + 1) =
      .ok ((Operator.front? (source.drop start)).map (start + ·.length)) := by
  have hlt := (List.getElem?_eq_some_iff.1 hb).1
  have hone : (source.drop start).take (start + 1 - start) = [b] := by
    rw [drop_eq_cons hb, Nat.add_sub_cancel_left]
    rfl
  unfold operator Operator.front?
  rw [slice_of_le (by omega) hlt, hone, drop_eq_cons hb, Operator.extend]
  simp only [bind, Except.bind, List.nil_append]
  split
  · rw [operatorLoop_eq (if Operator.isOperator [b] then some [b] else none)
      (by split <;> rfl) (Nat.le_succ start) hlt, hone]
  · rfl

theorem slice_word {start : Nat} {b : UInt8} (hb : source[start]? = some b) :
    let word := b :: (source.drop (start + 1)).takeWhile isWordPart
    slice source ⟨start, start + word.length⟩ = .ok word := by
  intro word
  have hp : word <+: source.drop start := by
    rw [drop_eq_cons hb]
    exact List.cons_prefix_cons.2 ⟨rfl, List.takeWhile_prefix _⟩
  have hlt := (List.getElem?_eq_some_iff.1 hb).1
  have hle := hp.length_le
  rw [List.length_drop] at hle
  rw [slice_of_le (by omega) (by omega), Nat.add_sub_cancel_left, ← List.prefix_iff_eq_take.1 hp]

/-- The scanner never leaves its source, and it stops behind the lexeme at the front of what is left. -/
theorem tokenBy_eq {σ : Type} {lookUp : Span → Except Escape (Attrs × σ)} {keep : Bytes → σ}
    (hfinds : Finds source lookUp keep) (s : σ) {start : Nat} {b : UInt8} (hb : source[start]? = some b) :
    tokenBy source lookUp s start =
      .ok (match Lexeme.front? b (source.drop (start + 1)) with
        | some l => ((some (Token.ofLexeme start l), start + l.text.length),
            if l.isBareWord then keep l.text else s)
        | none => ((none, start + 1), s)) := by
  have hlt : start + 1 ≤ source.length := (List.getElem?_eq_some_iff.1 hb).1
  unfold tokenBy Lexeme.front?
  simp only [hb, step_of_le hlt, bind, Except.bind, comment_eq b hlt, literal_eq b hlt,
    operator_eq hb]
  split
  · rfl
  split
  · rfl
  split
  · rfl
  split
  · rfl
  split
  · rfl
  cases Lexeme.comment? b (source.drop (start + 1)) with
  | some body => simp [Token.ofLexeme, Lexeme.isBareWord, pure, Except.pure]; omega
  | none =>
  cases Lexeme.literal? b (source.drop (start + 1)) with
  | some body => simp [Token.ofLexeme, Lexeme.isBareWord, pure, Except.pure]; omega
  | none =>
  simp only [Option.map_none]
  split
  · rfl
  split
  · next htick =>
    rw [loop_eq traces_inName source () _ hlt]
    simp [Token.ofLexeme, Lexeme.isBareWord, htick, pure, Except.pure]; omega
  split
  · next htick hword =>
    have hstop : start + 1 + ((source.drop (start + 1)).takeWhile isWordPart).length =
        start + (b :: (source.drop (start + 1)).takeWhile isWordPart).length := by
      rw [List.length_cons]
      omega
    rw [loop_eq (traces_during isWordPart) source () _ hlt]
    simp only [hstop, hfinds _ _ (slice_word hb)]
    simp [Token.ofLexeme, Lexeme.ofWord, Lexeme.isBareWord, htick, pure, Except.pure]
  · rw [← drop_eq_cons hb]
    cases Operator.front? (source.drop start) <;> rfl

theorem finds_attrsAt : Finds source (attrsAt source) fun _ => () := by
  intro start word hslice
  rw [attrsAt, hslice]
  rfl

theorem token_eq {start : Nat} {b : UInt8} (hb : source[start]? = some b) :
    token source start =
      .ok (match Lexeme.front? b (source.drop (start + 1)) with
        | some l => (some (Token.ofLexeme start l), start + l.text.length)
        | none => (none, start + 1)) := by
  rw [token, tokenBy_eq finds_attrsAt () hb]
  cases Lexeme.front? b (source.drop (start + 1)) <;> rfl

theorem token_progress {start stop : Nat} {t : Option Token} (hlt : start < source.length)
    (h : token source start = .ok (t, stop)) : start < stop ∧ stop ≤ source.length := by
  rw [token_eq (List.getElem?_eq_getElem hlt)] at h
  split at h
  · next l hf =>
    obtain ⟨body, hl, hp⟩ := Lexeme.front?_text hf
    have hle := hp.length_le
    rw [List.length_drop] at hle
    cases h
    rw [hl, List.length_cons]
    omega
  · cases h
    omega

end

def next (source : Bytes) (cursor : Nat) : Except Escape (Token × Nat) :=
  if cursor < source.length then
    match _ : token source cursor with
    | .ok (some t, stop) => .ok (t, stop)
    | .ok (none, stop) => next source stop
    | .error e => .error e
  else .ok (Token.endOfInput source.length, cursor)
termination_by source.length - cursor
decreasing_by
  have := token_progress ‹_› ‹_›
  omega

theorem next_eq_seek (source : Bytes) (cursor : Nat) :
    next source cursor =
      .ok (match Lexer.seek cursor (source.drop cursor) with
        | some (start, l) => (Token.ofLexeme start l, start + l.text.length)
        | none => (Token.endOfInput source.length, max cursor source.length)) := by
  fun_induction next source cursor with
  | case1 cursor hlt t stop ht =>
    have hb := List.getElem?_eq_getElem hlt
    rw [token_eq hb] at ht
    rw [drop_eq_cons hb, Lexer.seek]
    cases hf : Lexeme.front? source[cursor] (source.drop (cursor + 1)) with
    | some l => rw [hf] at ht; cases ht; rfl
    | none => rw [hf] at ht; cases ht
  | case2 cursor hlt stop ht ih =>
    have hb := List.getElem?_eq_getElem hlt
    rw [token_eq hb] at ht
    rw [drop_eq_cons hb, Lexer.seek]
    cases hf : Lexeme.front? source[cursor] (source.drop (cursor + 1)) with
    | some l => rw [hf] at ht; cases ht
    | none =>
      rw [hf] at ht
      cases ht
      have hmax : max (cursor + 1) source.length = max cursor source.length := by omega
      rw [ih, hmax]
  | case3 cursor hlt e ht =>
    rw [token_eq (List.getElem?_eq_getElem hlt)] at ht
    cases ht
  | case4 cursor hlt =>
    rw [List.drop_of_length_le (by omega), Lexer.seek, Nat.max_eq_left (by omega)]

/-- **Scanning with a cursor.** The scanner that fails when it leaves its source never fails, and it
gives the token and the cursor that the lexer gives. -/
theorem next_eq (lx : Lexer) :
    next lx.source lx.cursor = .ok (lx.next.1, lx.next.2.cursor) := by
  rw [next_eq_seek, Lexer.next]
  cases Lexer.seek lx.cursor (lx.source.drop lx.cursor) <;> rfl

end SqlCanon.Cursor
