import SqlCanon.Proofs.History
import SqlCanon.Proofs.Shape

/-!
# The capacity of the arena

Whatever a step does to a lexer is a row of moves. After each of them the arena is at least as long as the
source, so every word has room in it. Binding a source is the only move that changes it, and makes it
larger if anything.
-/

namespace SqlCanon

namespace Lexer

/-! ## Moves -/

inductive Move where
  | bind (source : Bytes)
  | reset
  | recycle
  | read
  | note (entry : Event)
deriving DecidableEq, Repr

def move (lx : Lexer) : Move → Lexer
  | .bind source => lx.bind source
  | .reset => lx.reset
  | .recycle => lx.recycle
  | .read => lx.next.2
  | .note entry => lx.record entry

def walk (lx : Lexer) (moves : List Move) : Lexer := moves.foldl move lx

def copied? (lx : Lexer) : Move → Option Bytes
  | .read => lx.bareWord?
  | .bind _ | .reset | .recycle | .note _ => none

def runMoves (r : Rules) (source : Bytes) (size : Nat) : List Move :=
  match r.validate with
  | .error fault => [.note (.rulesRejected fault)]
  | .ok () =>
    .bind source :: .reset :: List.replicate (r.looks size none (lexemes source)) .read ++
      (tooSmall (r.text source).length size).map .note

def growMoves (r : Rules) (source : Bytes) (capacity : Nat) (pos : 0 < capacity) : List Move :=
  if r.validate.isOk ∧ capacity < (r.text source).length ∧ capacity < maximumBuffer then
    runMoves r source capacity ++ .note (.retrying (capacity * 2)) ::
      growMoves r source (min (capacity * 2) maximumBuffer) (doubled_pos pos)
  else runMoves r source capacity
termination_by maximumBuffer - capacity

theorem first_pos (initial : Nat) (source : Bytes) : 0 < max (max initial source.length) 1 :=
  Nat.le_max_right _ _

def movesOf (lx : Lexer) : Step → List Move
  | .bind source => [.bind source]
  | .reset => [.reset]
  | .recycle => [.recycle]
  | .next count => List.replicate count .read
  | .take count => List.replicate (min count (lx.left.length + 1)) .read
  | .tokenize => .reset :: List.replicate (lx.reset.left.length + 1) .read
  | .normalize r source buffer => runMoves r source buffer.length
  | .normalizeText r source initial =>
    growMoves r source (max (max initial source.length) 1) (first_pos initial source)
  | .new | .withCapacity _ | .forSource _ | .clone _ | .peek => []

def sessionMoves : Lexer → List Step → List Move
  | _, [] => []
  | lx, step :: steps => lx.movesOf step ++ sessionMoves (lx.perform step).2 steps

end Lexer

/-- A step that goes on with its lexer neither makes a new one nor clones it. -/
def Step.goesOn : Step → Bool
  | .new | .withCapacity _ | .forSource _ | .clone _ | .peek => false
  | .bind _ | .reset | .recycle | .next _ | .take _ | .tokenize | .normalize .. | .normalizeText .. =>
    true

namespace Lexer

/-! ## Steps as rows of moves -/

theorem walk_append (lx : Lexer) (ms ns : List Move) : lx.walk (ms ++ ns) = (lx.walk ms).walk ns :=
  List.foldl_append

theorem walk_read (lx : Lexer) (n : Nat) :
    lx.walk (List.replicate n .read) = (nextMany n lx).2 := by
  induction n generalizing lx with
  | zero => rfl
  | succ n ih => exact ih lx.next.2

theorem walk_note (lx : Lexer) (entries : List Event) :
    lx.walk (entries.map .note) = { lx with log := lx.log ++ entries } := by
  induction entries generalizing lx with
  | nil => simp [walk]
  | cons entry entries ih =>
    refine (ih (lx.record entry)).trans ?_
    simp [record]

theorem take_eq_nextMany (lx : Lexer) (n : Nat) :
    (lx.take n).2 = (nextMany (min n (lx.left.length + 1)) lx).2 := by
  induction n generalizing lx with
  | zero => rw [Nat.zero_min]; rfl
  | succ n ih =>
    cases h : lx.left with
    | nil =>
      rw [take_of_left_nil h]
      simp [nextMany]
    | cons p ps =>
      have htail := left_next_of_left_cons h
      rw [take_of_left_cons h, ih, htail, List.length_cons, Nat.add_min_add_right]
      rfl

theorem rest_eq_nextMany (lx : Lexer) :
    lx.rest.2 = (nextMany (lx.left.length + 1) lx).2 := by
  induction h : lx.left generalizing lx with
  | nil =>
    rw [rest_of_left_nil h]
    rfl
  | cons p ps ih =>
    have htail := left_next_of_left_cons h
    rw [rest_of_left_cons h, ih _ htail]
    rfl

theorem normalize_eq_walk (lx : Lexer) (r : Rules) (source buffer : Bytes) :
    (lx.normalize r source buffer).2 = lx.walk (runMoves r source buffer.length) := by
  unfold runMoves
  cases hr : r.validate with
  | error fault =>
    rw [normalize_of_invalid hr]
    rfl
  | ok =>
    let reads := r.looks buffer.length none (lexemes source)
    have hread : lx.walk (.bind source :: .reset :: List.replicate reads .read) =
        (nextMany reads (lx.bind source)).2 := by
      rw [← walk_read]
      exact congrArg (walk · _) (reset_bind source)
    rw [walk_append, hread, walk_note, log_nextMany, normalize_lexer r hr]

theorem grow_eq_walk (lx : Lexer) (r : Rules) (source : Bytes) (capacity : Nat) (pos : 0 < capacity) :
    (lx.grow r source capacity pos).2 = lx.walk (growMoves r source capacity pos) := by
  have hrun : ∀ lx : Lexer, ∀ capacity, (lx.normalize r source (List.replicate capacity 0)).2 =
      lx.walk (runMoves r source capacity) := fun lx capacity => by
    rw [normalize_eq_walk, List.length_replicate]
  cases hr : r.validate with
  | error fault =>
    rw [grow_of_invalid hr, growMoves, if_neg (by simp [hr, Except.isOk, Except.toBool]), runMoves, hr]
    rfl
  | ok =>
    fun_induction growMoves r source capacity pos generalizing lx with
    | case1 capacity pos h ih =>
      rw [grow_of_short hr lx pos h.2.1 h.2.2, hrun, walk_append]
      exact ih _
    | case2 capacity pos h =>
      rw [grow_of_done hr lx pos (by simp [hr, Except.isOk, Except.toBool] at h; omega), hrun]

theorem perform_eq_walk (lx : Lexer) {step : Step} (h : step.goesOn) :
    (lx.perform step).2 = lx.walk (lx.movesOf step) := by
  cases step with
  | new => cases h
  | withCapacity capacity => cases h
  | forSource source => cases h
  | clone arena => cases h
  | peek => cases h
  | bind source => rfl
  | reset => rfl
  | recycle => rfl
  | next count => exact (lx.walk_read count).symm
  | take count => exact (lx.take_eq_nextMany count).trans (lx.walk_read _).symm
  | tokenize => exact (lx.reset.rest_eq_nextMany).trans (lx.reset.walk_read _).symm
  | normalize r source buffer => exact lx.normalize_eq_walk r source buffer
  | normalizeText r source initial => exact lx.grow_eq_walk r source _ _

theorem after_eq_walk (lx : Lexer) {steps : List Step} (h : ∀ step ∈ steps, step.goesOn) :
    lx.after steps = lx.walk (lx.sessionMoves steps) := by
  induction steps generalizing lx with
  | nil => rfl
  | cons step steps ih =>
    rw [List.forall_mem_cons] at h
    rw [sessionMoves, walk_append, ← perform_eq_walk lx h.1]
    exact ih _ h.2

/-! ## What moves keep -/

theorem arena_bind (lx : Lexer) (source : Bytes) :
    (lx.bind source).arena =
      if lx.arena < source.length ∨ lx.arena = 0 then max source.length minimumArena else lx.arena := by
  simp only [bind]
  split <;> rfl

theorem arena_le_bind (lx : Lexer) (source : Bytes) : lx.arena ≤ (lx.bind source).arena := by
  rw [arena_bind]
  split <;> omega

theorem length_le_of_copied? {lx : Lexer} {m : Move} {word : Bytes} (h : lx.copied? m = some word) :
    word.length ≤ lx.source.length := by
  cases m with
  | read => exact length_le_of_bareWord? h
  | bind source => cases h
  | reset => cases h
  | recycle => cases h
  | note entry => cases h

/-- A lexer that nothing has been done with. -/
inductive Fresh : Lexer → Prop
  | new : Fresh {}
  | withCapacity (capacity : Nat) : Fresh (withCapacity capacity)
  | forSource (source : Bytes) : Fresh (forSource source)

variable {lx : Lexer}

theorem Fresh.length_le (h : Fresh lx) : lx.source.length ≤ lx.arena := by
  cases h with
  | new => exact Nat.le_refl 0
  | withCapacity capacity => exact Nat.zero_le capacity
  | forSource source => exact (roomy_bind {} source).1

/-- One move: the source has room before and after it, and the arena is as it was unless a source is
bound. -/
theorem move_capacity (h : lx.source.length ≤ lx.arena) (m : Move) :
    (lx.move m).source.length ≤ (lx.move m).arena ∧ lx.arena ≤ (lx.move m).arena ∧
      ((∀ source, m ≠ .bind source) → (lx.move m).arena = lx.arena) := by
  cases m with
  | bind source =>
    exact ⟨(roomy_bind lx source).1, arena_le_bind lx source, fun hm => absurd rfl (hm source)⟩
  | reset => exact ⟨h, Nat.le_refl _, fun _ => rfl⟩
  | recycle => exact ⟨Nat.zero_le _, Nat.le_refl _, fun _ => rfl⟩
  | read =>
    have harena : (lx.move .read).arena = lx.arena := arena_next h
    have hsource : (lx.move .read).source = lx.source := lx.source_next
    rw [harena, hsource]
    exact ⟨h, Nat.le_refl _, fun _ => rfl⟩
  | note entry => exact ⟨h, Nat.le_refl _, fun _ => rfl⟩

theorem walk_capacity (h : lx.source.length ≤ lx.arena) (moves : List Move) :
    (lx.walk moves).source.length ≤ (lx.walk moves).arena ∧ lx.arena ≤ (lx.walk moves).arena := by
  induction moves generalizing lx with
  | nil => exact ⟨h, Nat.le_refl _⟩
  | cons m moves ih =>
    obtain ⟨hroom, hle, -⟩ := move_capacity h m
    obtain ⟨hroom', hle'⟩ := ih hroom
    exact ⟨hroom', Nat.le_trans hle hle'⟩

end Lexer

/-! ## Fingerprinters -/

namespace Fingerprinter
open Lexer

def longest (statements : List String) : Nat :=
  (statements.map fun s => (Utf8.encode s).length).foldr max 0

theorem arena_fingerprint {f : Fingerprinter} (hf : f.rules.validate = .ok ()) (s : String) :
    (f.fingerprint s).2.lexer.arena = (f.lexer.bind (Utf8.encode s)).arena := by
  have hbind : (f.lexer.recycle.bind (Utf8.encode s)).arena =
      (f.lexer.bind (Utf8.encode s)).arena := by
    rw [arena_bind, arena_bind]
    rfl
  have hroomy := roomy_bind f.lexer.recycle (Utf8.encode s)
  simp only [fingerprint, normalizeText, grow_eq_tries hf rfl]
  exact (arena_nextMany hroomy.1 _).trans hbind

theorem arena_feed {f : Fingerprinter} (hf : f.rules.validate = .ok ())
    (hmin : minimumArena ≤ f.lexer.arena) (statements : List String) :
    (f.feed statements).lexer.arena = max f.lexer.arena (longest statements) := by
  induction statements generalizing f with
  | nil => exact (Nat.max_zero _).symm
  | cons s ss ih =>
    have harena := arena_fingerprint hf s
    rw [arena_bind] at harena
    have hpos : 0 < minimumArena := by decide
    have hgrown : (f.fingerprint s).2.lexer.arena = max f.lexer.arena (Utf8.encode s).length := by
      rw [harena]
      split <;> omega
    have hrest := ih (f := (f.fingerprint s).2) hf (by omega)
    rw [hgrown, Nat.max_assoc] at hrest
    exact hrest

theorem arena_feed_new {f : Fingerprinter} (hf : f.rules.validate = .ok ()) (hnew : f.lexer = {})
    {statements : List String} (hne : statements ≠ []) :
    (f.feed statements).lexer.arena = max minimumArena (longest statements) := by
  obtain ⟨s, ss, rfl⟩ := List.exists_cons_of_ne_nil hne
  have harena := arena_fingerprint hf s
  rw [arena_bind, hnew, if_pos (.inr rfl)] at harena
  have hrest := arena_feed (f := (f.fingerprint s).2) hf (by rw [harena]; exact Nat.le_max_right _ _) ss
  rw [harena, Nat.max_comm _ minimumArena, Nat.max_assoc] at hrest
  exact hrest

end Fingerprinter

namespace Lexer

/-- **Capacity of the arena.** A session is the row of its moves. Whatever row of moves a lexer has made,
the bound source has room in the arena, which is at least as large as it was at any time before. A word that
a move copies into it has room there, and only binding a source changes it. After statements have been fed
to a new fingerprinter it is as large as the longest of them, and no smaller than a first arena. -/
theorem arena_capacity {start : Lexer} (hstart : Fresh start) {steps : List Step}
    (hsteps : ∀ step ∈ steps, step.goesOn) :
    start.after steps = start.walk (start.sessionMoves steps) ∧
      (∀ before between,
        let earlier := start.walk before
        let later := start.walk (before ++ between)
        later.source.length ≤ later.arena ∧ earlier.arena ≤ later.arena) ∧
      (∀ before m,
        let lx := start.walk before
        (∀ word, lx.copied? m = some word → word.length ≤ lx.arena) ∧
          ((∀ source, m ≠ .bind source) → (lx.move m).arena = lx.arena)) ∧
      (∀ lx begun held, ∃ begun', Machine.next ⟨lx, begun, held⟩ = .ok (lx.next.1,
        ⟨lx.move .read, begun', ((lx.copied? .read).map (·.map Byte.toUpper)).getD held⟩)) ∧
      ∀ f : Fingerprinter, f.rules.validate = .ok () → f.lexer = {} →
        ∀ statements, statements ≠ [] →
          (f.feed statements).lexer.arena = max minimumArena (Fingerprinter.longest statements) := by
  have hroom : ∀ before, (start.walk before).source.length ≤ (start.walk before).arena :=
    fun before => (walk_capacity hstart.length_le before).1
  refine ⟨after_eq_walk start hsteps, ?_, ?_, ?_, ?_⟩
  · intro before between earlier later
    have hlater : later = earlier.walk between := walk_append start before between
    rw [hlater]
    exact walk_capacity (hroom before) between
  · intro before m lx
    refine ⟨fun word hword => ?_, (move_capacity (hroom before) m).2.2⟩
    exact Nat.le_trans (length_le_of_copied? hword) (hroom before)
  · exact fun lx begun held => Machine.next_held ⟨lx, begun, held⟩
  · exact fun f hf hnew statements hne => Fingerprinter.arena_feed_new hf hnew hne

theorem arena_capacity_small :
    let start := withCapacity 2
    let steps : List Step :=
      [.bind (Utf8.encode "if x"), .next 1, .recycle, .normalize {} (Utf8.encode "ab") [0], .reset]
    let moves : List Move :=
      [.bind (Utf8.encode "if x"), .read, .recycle, .bind (Utf8.encode "ab"), .reset, .read,
        .note (.outputTruncated 1 1), .reset]
    Fresh start ∧ (∀ step ∈ steps, step.goesOn) ∧ start.sessionMoves steps = moves ∧
      start.after steps = start.walk moves ∧
      (start.walk (moves.take 1)).copied? .read = some (Utf8.encode "if") ∧
      (start.walk (moves.take 1)).arena ≤ (start.after steps).arena ∧
      (Fingerprinter.feed {} ["a", "bb"]).lexer.arena = 1024 := by
  intro start steps moves
  have hfresh : Fresh start := .withCapacity 2
  have hsteps : ∀ step ∈ steps, step.goesOn := by decide
  have hmoves : start.sessionMoves steps = moves := by decide +kernel
  obtain ⟨hafter, harena, -, -, hfeed⟩ := arena_capacity hfresh hsteps
  rw [hmoves] at hafter
  refine ⟨hfresh, hsteps, hmoves, hafter, by decide +kernel, ?_, ?_⟩
  · rw [hafter]
    exact (harena (moves.take 1) (moves.drop 1)).2
  · exact hfeed {} rfl rfl ["a", "bb"] (by decide)

end Lexer

end SqlCanon
