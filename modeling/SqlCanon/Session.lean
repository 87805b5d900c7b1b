import SqlCanon.Normalize

/-!
# Sessions

A session is a row of steps on one lexer. `Lexer.perform` says what a step answers and what lexer it
leaves.
-/

namespace SqlCanon

inductive Step where
  | new
  | withCapacity (capacity : Nat)
  | forSource (source : Bytes)
  | bind (source : Bytes)
  | reset
  | recycle
  | next (count : Nat)
  | take (count : Nat)
  | tokenize
  /-- Goes on with a clone, whose arena has the capacity that it was given. -/
  | clone (arena : Nat)
  | peek
  | normalize (rules : Rules) (source buffer : Bytes)
  | normalizeText (rules : Rules) (source : Bytes) (initial : Nat)
deriving DecidableEq, Repr

inductive Reply where
  | done
  | tokens (tokens : List Token)
  /-- A token, and the cursor of the copy after it. -/
  | peeked (token : Token) (cursor : Nat)
  | outcome (outcome : Outcome)
  | text (result : Except Fault String)

namespace Lexer

def perform (lx : Lexer) : Step → Reply × Lexer
  | .new => (.done, {})
  | .withCapacity capacity => (.done, withCapacity capacity)
  | .forSource source => (.done, forSource source)
  | .bind source => (.done, lx.bind source)
  | .reset => (.done, lx.reset)
  | .recycle => (.done, lx.recycle)
  | .next count =>
    let (ts, lx) := lx.nextMany count
    (.tokens ts, lx)
  | .take count =>
    let (ts, lx) := lx.take count
    (.tokens ts, lx)
  | .tokenize =>
    let (ts, lx) := lx.tokenize
    (.tokens ts, lx)
  | .clone arena => (.done, { lx with arena })
  | .peek =>
    let (t, copy) := lx.next
    (.peeked t copy.cursor, lx)
  | .normalize rules source buffer =>
    let (o, lx) := lx.normalize rules source buffer
    (.outcome o, lx)
  | .normalizeText rules source initial =>
    let (result, lx) := lx.normalizeText rules source initial
    (.text result, lx)

def after (lx : Lexer) (steps : List Step) : Lexer :=
  steps.foldl (fun lx step => (lx.perform step).2) lx

end Lexer

end SqlCanon
