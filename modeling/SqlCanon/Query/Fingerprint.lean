import SqlCanon.Fault
import SqlCanon.Query.Redact
import SqlCanon.Query.Statement

/-!
# Fingerprints by grammar

The statements of a script are read as trees, redacted and shown anew.
-/

namespace SqlCanon.Query

/-- The statements of a script as redacted trees. The grammar is given by `read?`, and the way through its
trees by `visit`. -/
def statementsBy {φ : Type} (read? : String → Option (List (Ast φ)))
    (visit : (Ast φ → Ast φ) → Ast φ → Ast φ) (script : String) : Except Fault (List (Ast φ)) :=
  match read? script with
  | some ts => .ok (ts.map (visit Ast.hideValue))
  | none => .error (.malformedQuery "the script lies outside the grammar")

def statements (script : String) : Except Fault (List Tree) := statementsBy parse? Ast.visit script

def fingerprint (script : String) : Except Fault String :=
  (statements script).map fun ts => "; ".intercalate (Tree.texts ts)

end SqlCanon.Query
