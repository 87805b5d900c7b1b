import SqlCanon.Query.Tree

/-!
# Redaction

A redacted tree shows no value but NULL. A sign goes away with the value it stands over, and is kept
over NULL and over anything else, parentheses included.
-/

namespace SqlCanon.Query.Ast
variable {φ : Type}

/-- What becomes of an expression when those inside it have been redacted. -/
def hideValue : Ast φ → Ast φ
  | value .null => value .null
  | value _ => value .placeholder
  | signed _ (value .placeholder) => value .placeholder
  | t => t

mutual

/-- Passes everything in a tree through `f`, children before parents. -/
def visit (f : Ast φ → Ast φ) : Ast φ → Ast φ
  | value v => f (value v)
  | signed s operand => f (signed s (visit f operand))
  | phrase form parts => f (phrase form (visitAll f parts))

def visitAll (f : Ast φ → Ast φ) : List (Ast φ) → List (Ast φ)
  | [] => []
  | t :: ts => visit f t :: visitAll f ts

end

/-- Redacts from the leaves up, so that a chain of signs over one value goes away as a whole. -/
def redact : Ast φ → Ast φ := visit hideValue

end SqlCanon.Query.Ast
