import SqlCanon.Normalize

/-!
# Fingerprints

Two statements that differ in their literals, letter case, blanks, comments and backticks only get
one fingerprint, which is their output under the canonical rules. A fingerprinter keeps one lexer
for all statements it is fed.
-/

namespace SqlCanon

def Rules.canonical : Rules :=
  { keywordCase := .lower, removeLiterals := true, stripBackticks := true }

structure Fingerprinter where
  rules : Rules := Rules.canonical
  lexer : Lexer := {}
  /-- The size of the first buffer tried. -/
  bufferSize : Nat := 4096

namespace Fingerprinter

def withRules (r : Rules) : Except Fault Fingerprinter := do
  r.validate
  return { rules := r }

def withBufferSize (f : Fingerprinter) (size : Nat) : Fingerprinter :=
  { f with bufferSize := max size 1 }

def fingerprint (f : Fingerprinter) (statement : String) : Except Fault String × Fingerprinter :=
  let (result, lexer) := f.lexer.recycle.normalizeText f.rules (Utf8.encode statement) f.bufferSize
  (result, { f with lexer := lexer.recycle })

end Fingerprinter

end SqlCanon
