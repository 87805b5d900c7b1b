import SqlCanon.Proofs.Truncation

/-!
# How far a run reads

A run takes tokens up to the first that has no room, or up to the end of input. Its lexer stands behind the
last of them, with the arena that it had, and a new entry in its log where the buffer was too small.
-/

namespace SqlCanon

/-- The number of tokens that a run takes when `room` bytes are free, the end of input or the token
without room among them. -/
def Rules.looks (r : Rules) : (room : Nat) → (prev : Option Category) → List Lexeme → Nat
  | _, _, [] => 1
  | room, prev, l :: ls =>
    if l.kind = .comment then looks r room prev ls + 1
    else
      let need := (r.added prev l).length
      if need ≤ room then looks r (room - need) (some l.toCategory) ls + 1 else 1

theorem Rules.isConfiguration_of_validate {r : Rules} {fault : Fault}
    (hr : r.validate = .error fault) : fault.isConfiguration := by
  unfold Rules.validate at hr
  split at hr
  · cases hr
    rfl
  split at hr
  · cases hr
    rfl
  · cases hr

section
variable {r : Rules}

theorem Rules.looks_of_fits {room : Nat} {prev : Option Category} {ls : List Lexeme}
    (h : (r.textAfter prev ls).length ≤ room) : r.looks room prev ls = ls.length + 1 := by
  induction ls generalizing room prev with
  | nil => rfl
  | cons l ls ih =>
    by_cases hc : l.kind = .comment
    · simp only [textAfter, looks, hc, if_true] at h ⊢
      rw [ih h, List.length_cons]
    · simp only [textAfter, looks, hc, if_false, List.length_append] at h ⊢
      rw [if_pos (by omega), ih (by omega), List.length_cons]

theorem Rules.looks_of_short {room : Nat} {prev : Option Category} {ls : List Lexeme}
    (h : room < (r.textAfter prev ls).length) :
    ∃ n < ls.length, r.looks room prev ls = n + 1 ∧ (r.textAfter prev (ls.take n)).length ≤ room ∧
      room < (r.textAfter prev (ls.take (n + 1))).length := by
  induction ls generalizing room prev with
  | nil => exact absurd h (Nat.not_lt_zero _)
  | cons l ls ih =>
    by_cases hc : l.kind = .comment
    · simp only [textAfter, hc, if_true] at h
      obtain ⟨n, hn, hlooks, hroom, hshort⟩ := ih h
      refine ⟨n + 1, Nat.succ_lt_succ hn, ?_, ?_, ?_⟩
      · rw [looks, if_pos hc, hlooks]
      · simpa [textAfter, hc] using hroom
      · simpa [textAfter, hc] using hshort
    simp only [textAfter, hc, if_false, List.length_append] at h
    by_cases hfits : (r.added prev l).length ≤ room
    · have hrest : room - (r.added prev l).length <
          (r.textAfter (some l.toCategory) ls).length := by omega
      obtain ⟨n, hn, hlooks, hroom, hshort⟩ := ih hrest
      refine ⟨n + 1, Nat.succ_lt_succ hn, ?_, ?_, ?_⟩
      · simp only [looks, hc, if_false, hfits, if_true, hlooks]
      · simp only [List.take_succ_cons, textAfter, hc, if_false, List.length_append]
        omega
      · rw [List.take_succ_cons, textAfter, if_neg hc, List.length_append]
        omega
    · refine ⟨0, Nat.succ_pos _, ?_, Nat.zero_le _, ?_⟩
      · simp only [looks, hc, if_false, hfits]
      · simp only [List.take_succ_cons, textAfter, hc, if_false, List.length_append]
        omega

end

namespace Lexer

theorem nextMany_eq (lx : Lexer) (n : Nat) :
    (nextMany n lx).1 = (lx.left.take n).map (fun p => Token.ofLexeme p.1 p.2) ++
      List.replicate (n - lx.left.length) (Token.endOfInput lx.source.length) := by
  induction n generalizing lx with
  | zero => simp [nextMany]
  | succ n ih =>
    simp only [nextMany, ih lx.next.2, source_next, left_next]
    cases hl : lx.left with
    | nil => simp [next_of_left_nil hl, List.replicate_succ]
    | cons p ps => simp [next_of_left_cons hl]

/-! ## Logs and arenas -/

theorem next_log (lx : Lexer) (entries : List Event) :
    next { lx with log := entries } = (lx.next.1, { lx.next.2 with log := entries }) := by
  simp only [next]
  split <;> rfl

theorem nextMany_log (lx : Lexer) (entries : List Event) (n : Nat) :
    nextMany n { lx with log := entries } =
      ((nextMany n lx).1, { (nextMany n lx).2 with log := entries }) := by
  induction n generalizing lx with
  | zero => rfl
  | succ n ih => simp only [nextMany, next_log, ih]

theorem log_nextMany (lx : Lexer) (n : Nat) : (nextMany n lx).2.log = lx.log :=
  congrArg (·.2.log) (nextMany_log lx lx.log n)

def Roomy (lx : Lexer) : Prop := lx.source.length ≤ lx.arena ∧ 0 < lx.arena

theorem roomy_bind (lx : Lexer) (source : Bytes) : Roomy (lx.bind source) := by
  rw [Roomy, source_bind]
  simp only [bind, minimumArena]
  split <;> dsimp only at * <;> omega

theorem arena_next {lx : Lexer} (h : lx.source.length ≤ lx.arena) : lx.next.2.arena = lx.arena := by
  cases hl : lx.left with
  | nil => rw [next_of_left_nil hl]
  | cons p ps =>
    obtain ⟨-, hlt, hend⟩ := (hl ▸ lx.standing_left).bounds
    rw [next_of_left_cons hl]
    unfold arenaAfter
    split
    · dsimp only
      omega
    · rfl

theorem arena_nextMany {lx : Lexer} (h : lx.source.length ≤ lx.arena) (n : Nat) :
    (nextMany n lx).2.arena = lx.arena := by
  induction n generalizing lx with
  | zero => rfl
  | succ n ih =>
    have hnext : lx.next.2.source.length ≤ lx.next.2.arena := by rwa [arena_next h, source_next]
    exact (ih hnext).trans (arena_next h)

theorem bind_of_roomy {lx : Lexer} {source : Bytes} (h₁ : source.length ≤ lx.arena)
    (h₂ : 0 < lx.arena) : lx.bind source = { lx with source, cursor := 0 } := by
  simp only [bind]
  rw [if_neg (by omega)]

/-! ## The lexer after a run -/

section
variable (r : Rules)

theorem fill_lexer (prev : Option Category) (buf : Buffer) (lx : Lexer) :
    (lx.fill r prev buf).lexer =
      (nextMany (r.looks buf.room.length prev (lx.left.map Prod.snd)) lx).2 := by
  induction h : lx.left generalizing lx prev buf with
  | nil =>
    rw [fill_of_left_nil r prev buf h]
    rfl
  | cons p ps ih =>
    have htail := left_next_of_left_cons h
    simp only [List.map_cons, Rules.looks]
    by_cases hc : p.2.kind = .comment
    · rw [if_pos hc, fill_of_comment r prev buf h hc, ih _ _ _ htail]
      rfl
    · rw [if_neg hc, fill_of_lexeme r prev buf h hc, Buffer.put_eq]
      by_cases hfits : (r.added prev p.2).length ≤ buf.room.length
      · simp only [hfits, decide_true, if_true]
        rw [ih _ _ _ htail, List.length_drop]
        rfl
      · simp only [hfits, decide_false, if_false]
        rfl

/-- What a run writes into the log besides the growth of the arena. -/
def tooSmall (need capacity : Nat) : List Event :=
  if need ≤ capacity then [] else [.outputTruncated capacity capacity]

theorem normalize_lexer (hr : r.validate = .ok ()) (lx : Lexer) (source buffer : Bytes) :
    (lx.normalize r source buffer).2 =
      { (nextMany (r.looks buffer.length none (lexemes source)) (lx.bind source)).2 with
        log := (lx.bind source).log ++ tooSmall (r.text source).length buffer.length } := by
  have hf := fill_eq r none (Buffer.ofBytes buffer) (lx.bind source)
  have hl := fill_lexer r none (Buffer.ofBytes buffer) (lx.bind source)
  rw [bind_left_lexemes, ← Rules.text, Buffer.put_eq] at hf
  rw [bind_left_lexemes] at hl
  have hlog := log_nextMany (lx.bind source) (r.looks buffer.length none (lexemes source))
  simp only [Prod.mk.injEq] at hf
  obtain ⟨hb, hc⟩ := hf
  simp only [normalize, hr, reset_bind, hb, hc, hl, tooSmall]
  by_cases hle : (r.text source).length ≤ buffer.length
  · simp [hle, Buffer.ofBytes, ← hlog]
  · have hwritten : min buffer.length (r.text source).length = buffer.length := by omega
    simp [hle, Buffer.ofBytes, Buffer.written, record, hwritten, hlog]

end

theorem normalize_of_invalid {r : Rules} {fault : Fault} (hr : r.validate = .error fault) (lx : Lexer)
    (source buffer : Bytes) :
    lx.normalize r source buffer =
      (⟨buffer, 0, .error fault⟩, lx.record (.rulesRejected fault)) := by
  simp only [normalize, hr]

end Lexer

end SqlCanon
