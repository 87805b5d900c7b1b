import SqlCanon.Proofs.Arena
import SqlCanon.Proofs.Retries
import SqlCanon.Session

/-!
# The history of a lexer

A session is watched: beside its lexer stand the tokens delivered since a source was bound or the cursor
moved back. After any steps these are what a new lexer delivers for the same source, and what comes next is
the rest of that.
-/

namespace SqlCanon

namespace Lexer
variable {lx : Lexer} {n : Nat}

theorem take_of_left_nil (h : lx.left = []) : lx.take (n + 1) = ([], lx.next.2) := by
  rw [take, next_of_left_nil h]
  rfl

theorem take_of_left_cons {start : Nat} {l : Lexeme} {ps : List (Nat × Lexeme)}
    (h : lx.left = (start, l) :: ps) :
    lx.take (n + 1) = (Token.ofLexeme start l :: (lx.next.2.take n).1, (lx.next.2.take n).2) := by
  have hk : (Token.ofLexeme start l).kind ≠ .endOfInput := (h ▸ lx.standing_left).2.2.1
  rw [take, next_of_left_cons h]
  exact if_neg hk

end Lexer

/-- A lexer with the tokens delivered since its source was bound or its cursor moved back. -/
structure Watched where
  lexer : Lexer := {}
  delivered : List Token := []

namespace Watched

def tokensOf : Reply → List Token
  | .tokens ts => ts
  | _ => []

/-- The tokens that a run of `normalize` into a buffer of that size takes for itself. -/
def takenBy (lx : Lexer) (r : Rules) (source : Bytes) (size : Nat) : List Token :=
  (lx.bind source).nextMany (r.looks size none (lexemes source)) |>.1

def perform (w : Watched) (step : Step) : Watched :=
  let (reply, lexer) := w.lexer.perform step
  let delivered :=
    match step with
    | .next _ | .take _ => w.delivered ++ tokensOf reply
    | .tokenize => tokensOf reply
    | .clone _ | .peek => w.delivered
    | .normalize r source buffer =>
      match r.validate with
      | .ok () => takenBy w.lexer r source buffer.length
      | .error _ => w.delivered
    | .normalizeText r source initial =>
      match r.validate with
      | .ok () =>
        let first := max (max initial source.length) 1
        takenBy w.lexer r source
          (Lexer.lastTry (r.text source).length first (Nat.le_max_right _ _))
      | .error _ => w.delivered
    | .new | .withCapacity _ | .forSource _ | .bind _ | .reset | .recycle => []
  { lexer, delivered }

def run (steps : List Step) : Watched := steps.foldl perform {}

theorem lexer_run (steps : List Step) : (run steps).lexer = ({} : Lexer).after steps := by
  suffices h : ∀ w : Watched, (steps.foldl perform w).lexer = w.lexer.after steps from h {}
  induction steps with
  | nil => exact fun _ => rfl
  | cons step steps ih => exact fun w => ih (w.perform step)

/-! ## What has been delivered -/

/-- The first `k` tokens of the source and `j` times the end of input have been delivered. -/
structure Stands (w : Watched) (k j : Nat) : Prop where
  delivered : w.delivered = (tokens w.lexer.source).take k ++
    List.replicate j (Token.endOfInput w.lexer.source.length)
  ended : 0 < j → (tokens w.lexer.source).length ≤ k
  left : w.lexer.left = (Piece.place 0 (Piece.cut w.lexer.source)).drop k

def Faithful (w : Watched) : Prop := ∃ k j, Stands w k j

section
variable {lx lx' : Lexer} {ts : List Token}

theorem faithful_start (h : lx.cursor = 0) : Faithful ⟨lx, []⟩ :=
  ⟨0, 0, rfl, fun h => absurd h (Nat.lt_irrefl 0), Lexer.left_of_cursor_zero h⟩

theorem Faithful.congr (h : Faithful ⟨lx, ts⟩) (hs : lx'.source = lx.source)
    (hc : lx'.cursor = lx.cursor) : Faithful ⟨lx', ts⟩ := by
  obtain ⟨k, j, hdelivered, hended, hleft⟩ := h
  dsimp only at hdelivered hended hleft
  rw [← hs] at hdelivered hended hleft
  refine ⟨k, j, hdelivered, hended, ?_⟩
  dsimp only
  rw [← hleft, Lexer.left, Lexer.left, hs, hc]

theorem length_tokens (source : Bytes) :
    (tokens source).length = (Piece.place 0 (Piece.cut source)).length := by
  simp [tokens]

theorem Stands.length_le {k j : Nat} (h : Stands ⟨lx, ts⟩ k j) (hnil : lx.left = []) :
    (tokens lx.source).length ≤ k := by
  have hleft := h.left
  dsimp only at hleft
  rw [hnil, eq_comm, List.drop_eq_nil_iff] at hleft
  rwa [length_tokens]

theorem Stands.no_end {k j : Nat} {p : Nat × Lexeme} {ps : List (Nat × Lexeme)}
    (h : Stands ⟨lx, ts⟩ k j) (hl : lx.left = p :: ps) : j = 0 := by
  rcases Nat.eq_zero_or_pos j with hj | hj
  · exact hj
  · have hleft := h.left
    have hlong := h.ended hj
    dsimp only at hleft hlong
    rw [length_tokens] at hlong
    rw [List.drop_of_length_le hlong, hl] at hleft
    cases hleft

theorem take_tokens_succ {source : Bytes} {k start : Nat} {l : Lexeme} {ps : List (Nat × Lexeme)}
    (h : (Piece.place 0 (Piece.cut source)).drop k = (start, l) :: ps) :
    (tokens source).take (k + 1) = (tokens source).take k ++ [Token.ofLexeme start l] := by
  have hget : (Piece.place 0 (Piece.cut source))[k]? = some (start, l) := by
    rw [← List.head?_drop, h]
    rfl
  simp [List.take_add_one, tokens, hget]

theorem Faithful.next (h : Faithful ⟨lx, ts⟩) : Faithful ⟨lx.next.2, ts ++ [lx.next.1]⟩ := by
  obtain ⟨k, j, hstands⟩ := h
  have hsource := lx.source_next
  have hnext := lx.left_next
  have hdelivered := hstands.delivered
  have hleft := hstands.left
  dsimp only at hdelivered hleft
  cases hl : lx.left with
  | nil =>
    refine ⟨k, j + 1, ?_, fun _ => hsource ▸ hstands.length_le hl, ?_⟩
    · dsimp only
      rw [hsource, hdelivered, Lexer.next_of_left_nil hl, List.append_assoc, List.replicate_succ']
    · dsimp only
      rw [hnext, hsource, ← hleft, hl, List.tail_nil]
  | cons p ps =>
    obtain rfl := hstands.no_end hl
    rw [hl] at hleft
    refine ⟨k + 1, 0, ?_, fun h => absurd h (Nat.lt_irrefl 0), ?_⟩
    · dsimp only
      rw [hsource, hdelivered, Lexer.next_of_left_cons hl, take_tokens_succ hleft.symm]
      simp
    · dsimp only
      rw [hnext, hsource, ← List.tail_drop, ← hleft, hl]

theorem Faithful.next_unseen (h : Faithful ⟨lx, ts⟩) (hl : lx.left = []) :
    Faithful ⟨lx.next.2, ts⟩ := by
  obtain ⟨k, j, hdelivered, hended, hleft⟩ := h
  have hsource := lx.source_next
  dsimp only at hdelivered hended hleft
  rw [← hsource] at hdelivered hended hleft
  refine ⟨k, j, hdelivered, hended, ?_⟩
  dsimp only
  rw [lx.left_next, ← hleft, hl, List.tail_nil]

theorem Faithful.nextMany (h : Faithful ⟨lx, ts⟩) (n : Nat) :
    Faithful ⟨(lx.nextMany n).2, ts ++ (lx.nextMany n).1⟩ := by
  induction n generalizing lx ts with
  | zero => simpa [Lexer.nextMany] using h
  | succ n ih => simpa [Lexer.nextMany] using ih h.next

theorem Faithful.take (h : Faithful ⟨lx, ts⟩) (n : Nat) :
    Faithful ⟨(lx.take n).2, ts ++ (lx.take n).1⟩ := by
  induction n generalizing lx ts with
  | zero => simpa [Lexer.take] using h
  | succ n ih =>
    cases hl : lx.left with
    | nil =>
      have hnext := h.next_unseen hl
      rw [Lexer.take_of_left_nil hl]
      simpa using hnext
    | cons p ps =>
      have hnext := ih h.next
      rw [Lexer.take_of_left_cons hl]
      rw [Lexer.next_of_left_cons hl] at hnext ⊢
      simpa using hnext

theorem Faithful.rest (h : Faithful ⟨lx, ts⟩) :
    Faithful ⟨lx.rest.2, ts ++ lx.rest.1 ++ [Token.endOfInput lx.source.length]⟩ := by
  induction hl : lx.left generalizing lx ts with
  | nil =>
    have hnext := h.next
    rw [Lexer.rest_of_left_nil hl]
    rw [Lexer.next_of_left_nil hl] at hnext ⊢
    simpa using hnext
  | cons p ps ih =>
    have hnext := ih h.next (Lexer.left_next_of_left_cons hl)
    rw [Lexer.rest_of_left_cons hl]
    rw [lx.source_next, Lexer.next_of_left_cons hl] at hnext
    rw [Lexer.next_of_left_cons hl]
    simpa using hnext

end

theorem length_lexemes (source : Bytes) : (lexemes source).length = (tokens source).length := by
  rw [lexemes, ← Piece.place_map_snd 0, List.length_map, length_tokens]

theorem takenBy_eq (lx : Lexer) (r : Rules) (source : Bytes) (size : Nat) :
    takenBy lx r source size =
      (tokens source).take (r.looks size none (lexemes source)) ++
        List.replicate (r.looks size none (lexemes source) - (tokens source).length)
          (Token.endOfInput source.length) := by
  rw [takenBy, Lexer.nextMany_eq, Lexer.left_bind, Lexer.source_bind, length_tokens, tokens,
    List.map_take]

theorem takenBy_of_fits (lx : Lexer) {r : Rules} {source : Bytes} {size : Nat}
    (h : (r.text source).length ≤ size) : takenBy lx r source size = allTokens source := by
  rw [takenBy_eq, Rules.looks_of_fits h, length_lexemes, List.take_of_length_le (Nat.le_succ _),
    Nat.add_sub_cancel_left, allTokens]
  rfl

theorem takenBy_of_short (lx : Lexer) {r : Rules} {source : Bytes} {size : Nat}
    (h : size < (r.text source).length) :
    ∃ n < (tokens source).length, takenBy lx r source size = (tokens source).take (n + 1) ∧
      (r.textAfter none ((lexemes source).take n)).length ≤ size ∧
      size < (r.textAfter none ((lexemes source).take (n + 1))).length := by
  obtain ⟨n, hn, hlooks, hroom, hshort⟩ := Rules.looks_of_short h
  rw [length_lexemes] at hn
  refine ⟨n, hn, ?_, hroom, hshort⟩
  rw [takenBy_eq, hlooks, Nat.sub_eq_zero_of_le hn]
  exact List.append_nil _

theorem faithful_takenBy (lx : Lexer) (r : Rules) (source : Bytes) (size : Nat) {after : Lexer}
    (hs : after.source = ((lx.bind source).nextMany (r.looks size none (lexemes source))).2.source)
    (hc : after.cursor = ((lx.bind source).nextMany (r.looks size none (lexemes source))).2.cursor) :
    Faithful ⟨after, takenBy lx r source size⟩ := by
  have hstart : Faithful ⟨lx.bind source, []⟩ := faithful_start (Lexer.cursor_bind lx source)
  exact (hstart.nextMany _).congr hs hc

theorem faithful_perform {w : Watched} (h : Faithful w) (step : Step) : Faithful (w.perform step) := by
  obtain ⟨lx, ts⟩ := w
  cases step with
  | new => exact faithful_start rfl
  | withCapacity capacity => exact faithful_start rfl
  | forSource source => exact faithful_start (Lexer.cursor_bind _ source)
  | bind source => exact faithful_start (Lexer.cursor_bind lx source)
  | reset => exact faithful_start rfl
  | recycle => exact faithful_start rfl
  | next count => exact h.nextMany count
  | take count => exact h.take count
  | tokenize =>
    have hstart : Faithful ⟨lx.reset, []⟩ := faithful_start rfl
    have hrest := hstart.rest
    rw [List.nil_append, ← Lexer.source_rest] at hrest
    exact hrest
  | clone arena => exact h.congr rfl rfl
  | peek => exact h
  | normalize r source buffer =>
    cases hr : r.validate with
    | error fault =>
      simp only [perform, Lexer.perform, hr, Lexer.normalize_of_invalid hr]
      exact h.congr rfl rfl
    | ok =>
      simp only [perform, Lexer.perform, hr, Lexer.normalize_lexer r hr]
      exact faithful_takenBy lx r source buffer.length rfl rfl
  | normalizeText r source initial =>
    cases hr : r.validate with
    | error fault =>
      simp only [perform, Lexer.perform, hr, Lexer.normalizeText, Lexer.grow_of_invalid hr]
      exact h.congr rfl rfl
    | ok =>
      simp only [perform, Lexer.perform, hr, Lexer.normalizeText, Lexer.grow_eq_tries hr rfl]
      exact faithful_takenBy lx r source _ rfl rfl

theorem faithful_run (steps : List Step) : Faithful (run steps) := by
  suffices h : ∀ w, Faithful w → Faithful (steps.foldl perform w) from
    h {} (faithful_start rfl)
  induction steps with
  | nil => exact fun _ hw => hw
  | cons step steps ih => exact fun w hw => ih _ (faithful_perform hw step)

end Watched

namespace Lexer

theorem rest_forSource (source : Bytes) : (forSource source).rest.1 = tokens source := rest_bind _ source

theorem normalize_fresh (lx fresh : Lexer) (r : Rules) (source buffer : Bytes) :
    (lx.normalize r source buffer).1 = (fresh.normalize r source buffer).1 := by
  cases hr : r.validate with
  | error fault => rw [normalize_of_invalid hr, normalize_of_invalid hr]
  | ok => rw [normalize_eq r lx hr, normalize_eq r fresh hr]

theorem normalizeText_fresh (lx fresh : Lexer) (r : Rules) (source : Bytes) (initial : Nat) :
    (lx.normalizeText r source initial).1 = (fresh.normalizeText r source initial).1 := by
  unfold normalizeText
  cases hr : r.validate with
  | error fault => rw [grow_of_invalid hr, grow_of_invalid hr]
  | ok => rw [grow_eq_tries hr rfl, grow_eq_tries hr rfl]

/-- **History is unobservable.** After any session the tokens delivered since its source was bound or its
cursor moved back are the first ones of a new lexer for that source, followed by the end of input alone,
and the tokens to come are the others. Among the delivered are those that a run took for itself, up to the
first without room. Reading all tokens and writing an output answer as for a new lexer. Rules that do not
go together leave lexer and buffer as they were. Neither the place where the last token started nor what
the arena holds has a say in the next token. -/
theorem history_unobservable (steps : List Step) :
    let w := Watched.run steps
    let lx := w.lexer
    let fresh := forSource lx.source
    lx = ({} : Lexer).after steps ∧
      (∃ k j, w.delivered = fresh.rest.1.take k ++
          List.replicate j (Token.endOfInput lx.source.length) ∧
        (0 < j → fresh.rest.1.length ≤ k) ∧ lx.rest.1 = fresh.rest.1.drop k) ∧
      (∀ r source size,
        let taken := Watched.takenBy lx r source size
        ((r.text source).length ≤ size → taken = allTokens source) ∧
        (size < (r.text source).length → ∃ n < (tokens source).length,
          taken = (tokens source).take (n + 1) ∧
            (r.textAfter none ((lexemes source).take n)).length ≤ size ∧
            size < (r.textAfter none ((lexemes source).take (n + 1))).length)) ∧
      lx.tokenize.1 = fresh.rest.1 ++ [Token.endOfInput lx.source.length] ∧
      (∀ r source buffer, (lx.normalize r source buffer).1 =
        ((forSource source).normalize r source buffer).1) ∧
      (∀ r source initial, (lx.normalizeText r source initial).1 =
        ((forSource source).normalizeText r source initial).1) ∧
      (∀ r fault, r.validate = .error fault → ∀ source buffer,
        let (o, after) := lx.normalize r source buffer
        o.written = 0 ∧ o.buffer = buffer ∧ o.result = .error fault ∧
          after.source = lx.source ∧ after.cursor = lx.cursor ∧ after.arena = lx.arena) ∧
      ∀ start held, ∃ start' held', Machine.next ⟨lx, start, held⟩ =
        .ok (lx.next.1, ⟨lx.next.2, start', held'⟩) := by
  intro w lx fresh
  have hfresh : fresh.rest.1 = tokens lx.source := rest_forSource lx.source
  obtain ⟨k, j, hdelivered, hended, hleft⟩ := Watched.faithful_run steps
  rw [hfresh]
  refine ⟨Watched.lexer_run steps, ⟨k, j, hdelivered, hended, ?_⟩, ?_, tokenize_eq lx, ?_, ?_, ?_, ?_⟩
  · rw [rest_eq, tokens, ← List.map_drop]
    exact congrArg _ hleft
  · exact fun r source size => ⟨Watched.takenBy_of_fits lx, Watched.takenBy_of_short lx⟩
  · exact fun r source buffer => normalize_fresh _ _ r source buffer
  · exact fun r source initial => normalizeText_fresh _ _ r source initial
  · intro r fault hr source buffer
    rw [normalize_of_invalid hr]
    exact ⟨rfl, rfl, rfl, rfl, rfl, rfl⟩
  · exact fun start held => Machine.next_eq ⟨lx, start, held⟩

theorem history_unobservable_truncated :
    let source := Utf8.encode "ab c d"
    let w := Watched.run [.withCapacity 3, .bind [0x78], .normalize {} source [0, 0, 0], .clone 0, .next 1]
    w.delivered = tokens source ∧ w.lexer.source = source ∧ w.lexer.rest.1 = [] := by
  intro source w
  have hw : w.delivered = tokens source ∧ w.lexer.source = source := by
    simp only [w, Watched.run, List.foldl, Watched.perform, perform, normalize_lexer {} rfl]
    decide +kernel
  obtain ⟨hdelivered, hsource⟩ := hw
  obtain ⟨-, ⟨k, j, htokens, hended, hrest⟩, -⟩ := history_unobservable
    [.withCapacity 3, .bind [0x78], .normalize {} source [0, 0, 0], .clone 0, .next 1]
  change w.delivered = _ at htokens
  change w.lexer.rest.1 = _ at hrest
  rw [show (Watched.run _).lexer.source = source from hsource, rest_forSource] at htokens hended hrest
  have hlength := congrArg List.length (hdelivered.symm.trans htokens)
  rw [List.length_append, List.length_take, List.length_replicate] at hlength
  refine ⟨hdelivered, hsource, ?_⟩
  rw [hrest, List.drop_eq_nil_iff]
  omega

end Lexer

end SqlCanon
