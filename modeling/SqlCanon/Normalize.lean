import SqlCanon.Buffer
import SqlCanon.Lexer
import SqlCanon.Rules
import SqlCanon.Text.Utf8

/-!
# Normalization

A source is shown anew from its lexemes, under given rules. `Rules.text` is the whole output. A run
on a lexer writes it into a buffer and, where that is too small, leaves the part that fits.
-/

namespace SqlCanon

namespace Rules
variable (r : Rules)

/-- The whole output for a row of lexemes that follows `prev`. -/
def textAfter : (prev : Option Category) → List Lexeme → Bytes
  | _, [] => []
  | prev, l :: ls =>
    if l.kind = .comment then textAfter prev ls
    else r.added prev l ++ textAfter (some l.toCategory) ls

def text (source : Bytes) : Bytes := r.textAfter none (lexemes source)

end Rules

structure Progress where
  buffer : Buffer
  /-- The lexer after the last token that was looked at. -/
  lexer : Lexer
  complete : Bool

/-- Fills a buffer with the output for the tokens that are left, up to the first byte without room.
Parts go in as they are written, and the letter case of a word changes in the buffer. -/
def Lexer.fill (lx : Lexer) (r : Rules) (prev : Option Category) (buf : Buffer) : Progress :=
  match _ : lx.next with
  | (t, after) =>
    if t.kind = .endOfInput then ⟨buf, after, true⟩
    else if t.kind = .comment then after.fill r prev buf
    else match buf.put (r.separator prev t.toCategory) with
      | (buf, false) => ⟨buf, after, false⟩
      | (buf, true) =>
        match buf.putAll (r.parts prev (t.lexeme lx.source)) with
        | (shown, false) => ⟨shown.mapFrom buf.written (r.foldOf t.kind), after, false⟩
        | (shown, true) =>
          after.fill r (some t.toCategory) (shown.mapFrom buf.written (r.foldOf t.kind))
termination_by lx.source.length - lx.cursor
decreasing_by
  all_goals
    next hn hk _ =>
    have hp := Lexer.next_progress lx (by rwa [hn])
    simp only [hn] at hp
    rw [hp.1]
    omega

/-- What a run leaves: the whole buffer, the number of bytes written to its front, and whether they
are all there was to write. -/
structure Outcome where
  buffer : Bytes
  written : Nat
  result : Except Fault Unit

namespace Outcome
variable (o : Outcome)

def output : Bytes := o.buffer.take o.written

def isOk : Bool := o.result matches .ok _

def isTruncated : Bool := o.result matches .error (.bufferTooSmall ..)

end Outcome

namespace Lexer

/-- Binds a source and writes its output into a buffer. Rules that do not go together leave the
lexer and the buffer alone. -/
def normalize (lx : Lexer) (r : Rules) (source buffer : Bytes) : Outcome × Lexer :=
  match r.validate with
  | .error fault => (⟨buffer, 0, .error fault⟩, lx.record (.rulesRejected fault))
  | .ok () =>
    let done := (lx.bind source).reset.fill r none (Buffer.ofBytes buffer)
    let written := done.buffer.written
    if done.complete then (⟨done.buffer.toBytes, written, .ok ()⟩, done.lexer)
    else
      (⟨done.buffer.toBytes, written, .error (.bufferTooSmall written buffer.length)⟩,
        done.lexer.record (.outputTruncated written buffer.length))

/-- The size in bytes beyond which no larger buffer is tried. -/
def maximumBuffer : Nat := 64 * 1024 * 1024

/-- Tries buffers of doubled size until the output fits. -/
def grow (lx : Lexer) (r : Rules) (source : Bytes) (capacity : Nat) (pos : 0 < capacity) :
    Except Fault String × Lexer :=
  let (o, lx) := lx.normalize r source (List.replicate capacity 0)
  match o.result with
  | .ok () => (.ok (Utf8.lossy o.output), lx)
  | .error fault =>
    if h : fault.isBufferTooSmall ∧ capacity < maximumBuffer then
      (lx.record (.retrying (capacity * 2))).grow r source (min (capacity * 2) maximumBuffer)
        (by have : 0 < maximumBuffer := by decide
            omega)
    else (.error fault, lx)
termination_by maximumBuffer - capacity
decreasing_by omega

def normalizeText (lx : Lexer) (r : Rules) (source : Bytes) (initial : Nat) :
    Except Fault String × Lexer :=
  lx.grow r source (max (max initial source.length) 1) (by omega)

end Lexer

end SqlCanon
