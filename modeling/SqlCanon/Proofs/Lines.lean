import Mathlib.Data.List.TakeWhile
import SqlCanon.Command.Run
import SqlCanon.Proofs.Characters
import SqlCanon.Proofs.History

/-!
# Statements line by line

A command hands its lexer on from each line of the input to the next, and a normalization its buffer too.
Neither shows: a line is answered as if it were the only one, up to the first line that fails.
-/

namespace SqlCanon

/-! ## The lines of the input -/

namespace Input
open Byte Utf8

theorem linesAfter_append (read front back : Bytes) :
    linesAfter read (front ++ newline :: back) =
      linesAfter read (front ++ [newline]) ++ lines back := by
  induction front generalizing read with
  | nil => rfl
  | cons b front ih =>
    simp only [List.cons_append, linesAfter, ih]
    split <;> rfl

theorem statements_append {front : Bytes} (h : front.getLast? = some newline) (back : Bytes) :
    statements (front ++ back) = statements front ++ statements back := by
  obtain ⟨front, rfl⟩ := List.getLast?_eq_some_iff.1 h
  rw [statements, List.append_assoc, lines, List.singleton_append, linesAfter_append,
    List.map_append, List.filter_append]
  rfl

theorem linesAfter_eq_splitOn (read input : Bytes) :
    let parts := (input.splitOn newline).modifyHead (read.reverse ++ ·)
    linesAfter read input =
      parts.dropLast.map dropReturn ++ (parts.getLast?.filter (· ≠ [])).toList := by
  induction input generalizing read with
  | nil => by_cases h : read = [] <;> simp [linesAfter, Option.filter, h]
  | cons b rest ih =>
    obtain ⟨part, parts, hparts⟩ := List.exists_cons_of_ne_nil (List.splitOn_ne_nil newline rest)
    by_cases hb : b = newline
    · simp [linesAfter, List.splitOn_cons_eq_if_modifyHead, hb, ih [], hparts]
    · simp [linesAfter, List.splitOn_cons_eq_if_modifyHead, hb, ih (b :: read), hparts]

theorem lines_eq_splitOn (input : Bytes) :
    let parts := input.splitOn newline
    lines input = parts.dropLast.map dropReturn ++ (parts.getLast?.filter (· ≠ [])).toList := by
  obtain ⟨part, parts, hparts⟩ := List.exists_cons_of_ne_nil (List.splitOn_ne_nil newline input)
  simpa [lines, hparts] using linesAfter_eq_splitOn [] input

theorem isText_around {b : UInt8} (hb : b < 0x80) {front back : Bytes}
    (h : IsText (front ++ b :: back)) : IsText front ∧ IsText back := by
  obtain ⟨hfront, hback⟩ := h.split (.inr (by simpa using hb))
  exact ⟨hfront, (IsText.split hback (seam_of_byte hb back)).2⟩

theorem isText_dropReturn {line : Bytes} (h : IsText line) : IsText (dropReturn line) := by
  unfold dropReturn
  split
  next hlast =>
    obtain ⟨front, rfl⟩ := List.getLast?_eq_some_iff.1 hlast
    rw [List.dropLast_concat]
    exact (isText_around (by decide) h).1
  next => exact h

theorem isText_of_mem_linesAfter {read input : Bytes} (h : IsText (read.reverse ++ input)) :
    ∀ line ∈ linesAfter read input, IsText line := by
  -- a text may be cut at a newline and at a carriage return, for both are ASCII
  induction input generalizing read with
  | nil =>
    intro line hline
    rw [linesAfter] at hline
    split at hline
    · cases hline
    · obtain rfl := List.mem_singleton.1 hline
      rwa [List.append_nil] at h
  | cons b rest ih =>
    rw [linesAfter]
    split
    next hb =>
      obtain ⟨hline, hrest⟩ := isText_around (by rw [hb]; decide) h
      exact List.forall_mem_cons.2 ⟨isText_dropReturn hline, ih hrest⟩
    next => exact ih (by simpa using h)

theorem statements_of_isText {input : Bytes} (h : IsText input) :
    ∃ texts : List String, texts.map encode = lines input ∧
      statements input = (texts.filter (!Blank.isBlankText ·)).map some := by
  have hlines : ∀ line ∈ lines input, IsText line := isText_of_mem_linesAfter h
  refine ⟨(lines input).map lossy, ?_, ?_⟩
  · rw [List.map_map]
    exact (List.map_congr_left fun line hline => (hlines line hline).lossy_eq.2).trans (List.map_id _)
  · rw [statements, List.map_congr_left fun line hline => (hlines line hline).lossy_eq.1,
      List.filter_map, List.filter_map, List.map_map]
    rfl

end Input

/-! ## One ending after another -/

namespace Ending

def followedBy (first second : Ending) : Ending :=
  match first.failure with
  | none => { second with printed := first.printed ++ second.printed }
  | some _ => first

def all (endings : List Ending) : Ending := endings.foldr followedBy {}

theorem followedBy_of_failure {first : Ending} {f : Failure} (h : first.failure = some f)
    (second : Ending) : first.followedBy second = first := by
  simp only [followedBy, h]

theorem followedBy_assoc (a b c : Ending) :
    (a.followedBy b).followedBy c = a.followedBy (b.followedBy c) := by
  cases ha : a.failure with
  | some f => simp only [followedBy_of_failure ha]
  | none =>
    cases hb : b.failure with
    | some f => simp only [followedBy, ha, hb]
    | none => simp only [followedBy, ha, hb, List.append_assoc]

theorem all_append (as bs : List Ending) : all (as ++ bs) = (all as).followedBy (all bs) := by
  induction as with
  | nil => rfl
  | cons a as ih =>
    rw [List.cons_append, all, List.foldr_cons, ← all, ih, ← followedBy_assoc]
    rfl

end Ending

namespace Run

/-! ## Steps without a memory -/

/-- In all usual states, the one at the start among them, a statement gets the same answer, and a usual
state comes after it. -/
structure Forgetful {σ : Type} (step : σ → String → Except Failure (Bytes × σ)) (start : σ)
    (usual : σ → Prop) : Prop where
  usual_start : usual start
  answer : ∀ state, usual state → ∀ statement, ∃ after, usual after ∧
    step state statement = (step start statement).map fun result => (result.1, after)

section
variable {σ : Type} {step : σ → String → Except Failure (Bytes × σ)} {start : σ} {usual : σ → Prop}

theorem Forgetful.each_cons (h : Forgetful step start usual) {state : σ} (hstate : usual state)
    (statement : Option String) (more : List (Option String)) :
    ∃ after, usual after ∧ each step state (statement :: more) =
      (each step start [statement]).followedBy (each step after more) := by
  cases statement with
  | none => exact ⟨start, h.usual_start, rfl⟩
  | some statement =>
    obtain ⟨after, hafter, hanswer⟩ := h.answer state hstate statement
    refine ⟨after, hafter, ?_⟩
    cases hs : step start statement <;> simp [each, hanswer, hs, Except.map, Ending.followedBy]

theorem Forgetful.each_eq (h : Forgetful step start usual) (statements : List (Option String)) :
    each step start statements =
      Ending.all (statements.map fun statement => each step start [statement]) := by
  suffices hall : ∀ state, usual state → each step state statements =
      Ending.all (statements.map fun statement => each step start [statement]) from
    hall start h.usual_start
  induction statements with
  | nil => exact fun _ _ => rfl
  | cons statement more ih =>
    intro state hstate
    obtain ⟨after, hafter, hcons⟩ := h.each_cons hstate statement more
    rw [hcons, ih after hafter]
    rfl

theorem Forgetful.each_append (h : Forgetful step start usual) (front back : List (Option String)) :
    each step start (front ++ back) = (each step start front).followedBy (each step start back) := by
  rw [h.each_eq, List.map_append, Ending.all_append, ← h.each_eq, ← h.each_eq]

end

/-! ## Normalizations -/

/-- What is printed for a statement: the front of its output that fits. -/
def printedLine (r : Rules) (size : Nat) (statement : String) : Bytes :=
  (r.text (Utf8.encode statement)).take size ++ [Byte.newline]

def fits (r : Rules) (size : Nat) (statement : String) : Bool :=
  (r.text (Utf8.encode statement)).length ≤ size

def passes (r : Rules) (strict : Bool) (size : Nat) (statement : String) : Bool :=
  !strict || fits r size statement

section
variable {r : Rules} (hr : r.validate = .ok ())
include hr

theorem normalizeLine_eq (strict : Bool) (w : Workspace) (statement : String) :
    ∃ after, after.buffer.length = w.buffer.length ∧ normalizeLine r strict w statement =
      if passes r strict w.buffer.length statement then
        .ok (printedLine r w.buffer.length statement, after)
      else .error (.fault (.bufferTooSmall w.buffer.length w.buffer.length)) := by
  have hbuffer := Lexer.length_buffer_normalize r w.lexer.recycle hr (Utf8.encode statement) w.buffer
  have houtput := Lexer.output_normalize r w.lexer.recycle hr (Utf8.encode statement) w.buffer
  have hresult := congrArg (·.result)
    (Lexer.normalize_eq r w.lexer.recycle hr (Utf8.encode statement) w.buffer)
  dsimp only at hresult
  unfold normalizeLine
  generalize w.lexer.recycle.normalize r (Utf8.encode statement) w.buffer = run at hbuffer houtput hresult ⊢
  refine ⟨⟨run.2.recycle, run.1.buffer⟩, hbuffer, ?_⟩
  simp only [printedLine, passes, fits, houtput, hresult]
  by_cases hfits : (r.text (Utf8.encode statement)).length ≤ w.buffer.length
  · simp [hfits]
  · cases strict <;> simp [hfits, Fault.isBufferTooSmall]

theorem forgetful_normalizeLine (strict : Bool) (w : Workspace) :
    Forgetful (normalizeLine r strict) w (·.buffer.length = w.buffer.length) where
  usual_start := rfl
  answer := by
    intro state hstate statement
    obtain ⟨after, hafter, hstep⟩ := normalizeLine_eq hr strict state statement
    obtain ⟨_, -, hstart⟩ := normalizeLine_eq hr strict w statement
    refine ⟨after, hafter.trans hstate, ?_⟩
    rw [hstep, hstart, hstate]
    split <;> rfl

theorem each_normalizeLine (strict : Bool) (w : Workspace) (statements : List String) :
    each (normalizeLine r strict) w (statements.map some) =
      { printed := (statements.takeWhile (passes r strict w.buffer.length)).flatMap
          (printedLine r w.buffer.length)
        failure :=
          if statements.all (passes r strict w.buffer.length) then none
          else some (.fault (.bufferTooSmall w.buffer.length w.buffer.length)) } := by
  rw [(forgetful_normalizeLine hr strict w).each_eq]
  induction statements with
  | nil => rfl
  | cons statement more ih =>
    obtain ⟨after, -, hstep⟩ := normalizeLine_eq hr strict w statement
    rw [List.map_cons, List.map_cons, Ending.all, List.foldr_cons, ← Ending.all, ih]
    cases h : passes r strict w.buffer.length statement <;>
      simp [each, hstep, h, Ending.followedBy]

end

/-! ## Fingerprints and tokens -/

theorem fingerprint_again {f g : Fingerprinter} (hrules : g.rules = f.rules)
    (hsize : g.bufferSize = f.bufferSize) (statement : String) :
    ∃ after : Fingerprinter, (after.rules = f.rules ∧ after.bufferSize = f.bufferSize) ∧
      g.fingerprint statement = ((f.fingerprint statement).1, after) := by
  refine ⟨(g.fingerprint statement).2, ⟨hrules, hsize⟩, Prod.ext ?_ rfl⟩
  simp only [Fingerprinter.fingerprint, hrules, hsize]
  exact Lexer.normalizeText_fresh _ _ _ _ _

theorem forgetful_fingerprintLine (f : Fingerprinter) :
    Forgetful fingerprintLine f fun g => g.rules = f.rules ∧ g.bufferSize = f.bufferSize where
  usual_start := ⟨rfl, rfl⟩
  answer := by
    rintro g ⟨hrules, hsize⟩ statement
    obtain ⟨after, hafter, hstep⟩ := fingerprint_again hrules hsize statement
    refine ⟨after, hafter, ?_⟩
    simp only [fingerprintLine, hstep]
    rcases f.fingerprint statement with ⟨_ | _, _⟩ <;> rfl

theorem forgetful_grammarLine : Forgetful grammarLine () fun _ => True where
  usual_start := trivial
  answer := by
    intro _ _ statement
    refine ⟨(), trivial, ?_⟩
    cases h : grammarLine () statement <;> rfl

theorem forgetful_tokensLine (lexer : Lexer) : Forgetful tokensLine lexer fun _ => True where
  usual_start := trivial
  answer := by
    intro state _ statement
    refine ⟨(state.recycle.bind (Utf8.encode statement)).rest.2.recycle, trivial, ?_⟩
    simp only [tokensLine, Lexer.rest_bind, Lexer.source_rest, Lexer.source_bind]
    rfl

/-! ## Whole commands -/

theorem command_append {c : Command} (hc : c.readsInput) (settings : Settings) (s : Surroundings)
    {front : Bytes} (h : front.getLast? = some Byte.newline) (back : Bytes) :
    command c settings { s with input := front ++ back } =
      (command c settings { s with input := front }).followedBy
        (command c settings { s with input := back }) := by
  have hstatements := Input.statements_append h back
  match c, hc with
  | .normalize none overrides bufferSize strict, _ =>
    simp only [command, normalize, statements, hstatements]
    -- bad rules and an empty buffer fail before the first line, whatever the input
    split
    · rfl
    next hr =>
      split
      · rfl
      · exact (forgetful_normalizeLine hr strict _).each_append _ _
  | .fingerprint none true, _ =>
    simp only [command, statements, hstatements]
    exact forgetful_grammarLine.each_append _ _
  | .fingerprint none false, _ =>
    simp only [command, statements, hstatements]
    exact (forgetful_fingerprintLine _).each_append _ _
  | .tokens none, _ =>
    simp only [command, statements, hstatements]
    exact (forgetful_tokensLine {}).each_append _ _

theorem invocation_append (i : Invocation) (hi : i.command.readsInput) (s : Surroundings)
    {front : Bytes} (h : front.getLast? = some Byte.newline) (back : Bytes) :
    invocation i { s with input := front ++ back } =
      (invocation i { s with input := front }).followedBy
        (invocation i { s with input := back }) := by
  have hsettings : ∀ input, loadSettings i { s with input } = loadSettings i s := fun _ => rfl
  simp only [invocation, hsettings]
  cases loadSettings i s with
  | error f => rfl
  | ok settings => exact command_append hi settings s h back

/-- **Lines are independent.** A normalization of a text goes through the lines of its input that are not
blank and prints for each the front of its full output that fits into the buffer, whatever the lines
before it left in lexer and buffer. It fails just when it is strict and a line does not fit, and prints
the lines before that one. The input of a command may be cut behind any newline: the second part is
answered as if it stood alone, and not at all after a failure in the first. -/
theorem lines_independent (i : Invocation) (s : Surroundings) :
    (∀ overrides bufferSize strict settings,
      i.command = .normalize none overrides bufferSize strict →
      loadSettings i s = .ok settings →
      let r := overrides.apply settings.rules
      let size := (bufferSize.getD settings.bufferSize).toNat
      let parts := s.input.splitOn Byte.newline
      r.validate = .ok () → 0 < size → Utf8.IsText s.input →
      ∃ lines : List String,
        lines.map Utf8.encode =
          parts.dropLast.map Input.dropReturn ++ (parts.getLast?.filter (· ≠ [])).toList ∧
        let statements := lines.filter (!Blank.isBlankText ·)
        invocation i s =
          if strict then
            { printed := (statements.takeWhile (fits r size)).flatMap (printedLine r size)
              failure :=
                if statements.all (fits r size) then none
                else some (.fault (.bufferTooSmall size size)) }
          else { printed := statements.flatMap (printedLine r size), failure := none }) ∧
    (i.command.readsInput → ∀ front back, front.getLast? = some Byte.newline →
      invocation i { s with input := front ++ back } =
        (invocation i { s with input := front }).followedBy
          (invocation i { s with input := back })) := by
  refine ⟨?_, fun hi front back h => invocation_append i hi s h back⟩
  intro overrides bufferSize strict settings hcommand hsettings r size parts hr hsize hinput
  obtain ⟨lines, hlines, hstatements⟩ := Input.statements_of_isText hinput
  refine ⟨lines, hlines.trans (Input.lines_eq_splitOn s.input), ?_⟩
  have hrun := each_normalizeLine hr strict ⟨{}, List.replicate size 0⟩
    (lines.filter (!Blank.isBlankText ·))
  rw [List.length_replicate] at hrun
  have hnormalize : invocation i s = each (normalizeLine r strict) ⟨{}, List.replicate size 0⟩
      ((lines.filter (!Blank.isBlankText ·)).map some) := by
    simp only [invocation, hsettings, hcommand, command, normalize, statements, hstatements]
    rw [show (overrides.apply settings.rules).validate = .ok () from hr]
    exact if_neg (Nat.ne_of_gt hsize)
  simp only [hnormalize, hrun]
  cases strict with
  | false =>
    have hpasses : passes r false size = fun _ => true := rfl
    simp [hpasses, List.takeWhile_eq_self_iff.2]
  | true => rfl

theorem lines_independent_strict :
    let i : Invocation := { command := .normalize none {} (some 4) true }
    let front := Utf8.encode "a1\r\n\t\nselect b\n"
    let back := Utf8.encode "c\n"
    let s : Surroundings := { input := front ++ back }
    loadSettings i s = .ok {} ∧ Utf8.IsText s.input ∧ i.command.readsInput ∧
      front.getLast? = some Byte.newline ∧
      invocation i s =
        { printed := Utf8.encode "a1\n", failure := some (.fault (.bufferTooSmall 4 4)) } ∧
      invocation i s = (invocation i { input := front }).followedBy (invocation i { input := back }) := by
  intro i front back s
  have hsettings : loadSettings i s = .ok {} := rfl
  have htext : Utf8.IsText s.input := ⟨_, (Utf8.encode_append _ _).symm⟩
  have hfront : front.getLast? = some Byte.newline := by decide +kernel
  obtain ⟨hlines, happend⟩ := lines_independent i s
  refine ⟨hsettings, htext, rfl, hfront, ?_, happend rfl front back hfront⟩
  obtain ⟨lines, hlines, hrun⟩ := hlines {} (some 4) true {} rfl hsettings rfl (by decide) htext
  obtain rfl : lines = ["a1", "\t", "select b", "c"] := by
    refine (List.map_inj_right fun _ _ => Utf8.encode_injective).1 (hlines.trans ?_)
    decide +kernel
  rw [hrun]
  decide +kernel

end Run

end SqlCanon
