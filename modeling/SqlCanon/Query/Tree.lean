/-!
# Query trees

A query is a tree of values, signed terms and phrases. The form of a phrase says which words stand
around its parts, so that `Tree.text` shows the whole tree.
-/

namespace SqlCanon.Query

inductive Value where
  | null
  | placeholder
  | literal (text : String)
deriving DecidableEq, Repr

def Value.text : Value → String
  | .null => "NULL"
  | .placeholder => "?"
  | .literal text => text

inductive Sign where
  | minus | plus
deriving DecidableEq, Repr

def Sign.text : Sign → String
  | .minus => "-"
  | .plus => "+"

/-- The words before, between and after the parts of a phrase. -/
structure Frame where
  opening : String := ""
  separator : String := ""
  closing : String := ""
deriving DecidableEq, Repr

inductive Form where
  /-- A name, a star or another text without parts. -/
  | leaf (text : String)
  | parentheses
  | operation (operator : String)
  | negation
  | exists
  | isNull (negated : Bool)
  | membership (negated : Bool)
  | range (negated : Bool)
  | bounds
  | likeness (negated : Bool)
  | case | branch | otherwise
  | call (name : String) (distinct : Bool)
  | labelled (name : String)
  | assignment (name : String)
  /-- A list element with its direction, if one is written. -/
  | direction (word : Option String)
  | clause (keyword : String)
  /-- Parts that follow one another, such as the clauses of a statement. -/
  | sequence
  | union (all : Bool)
deriving DecidableEq, Repr

namespace Form

def negatable (negated : Bool) (words : String) : String :=
  if negated then "NOT " ++ words else words

def frame : Form → Frame
  | leaf text => { opening := text }
  | parentheses => { opening := "(", separator := ", ", closing := ")" }
  | operation operator => { separator := " " ++ operator ++ " " }
  | negation => { opening := "NOT " }
  | .exists => { opening := "EXISTS " }
  | isNull negated => { closing := " IS " ++ negatable negated "NULL" }
  | membership negated => { separator := " " ++ negatable negated "IN " }
  | range negated => { separator := " " ++ negatable negated "BETWEEN " }
  | bounds => { separator := " AND " }
  | likeness negated => { separator := " " ++ negatable negated "LIKE " }
  | case => { opening := "CASE ", separator := " ", closing := " END" }
  | branch => { opening := "WHEN ", separator := " THEN " }
  | otherwise => { opening := "ELSE " }
  | call name distinct =>
    { opening := name ++ "(" ++ (if distinct then "DISTINCT " else ""), separator := ", ",
      closing := ")" }
  | labelled name => { closing := " AS " ++ name }
  | assignment name => { opening := name ++ " = " }
  | direction word => { closing := (word.map (" " ++ ·)).getD "" }
  | clause keyword => { opening := keyword ++ " ", separator := ", " }
  | sequence => { separator := " " }
  | union all => { separator := if all then " UNION ALL " else " UNION " }

end Form

/-- A tree of values, signed terms and phrases, whatever the forms `φ` of its phrases are. -/
inductive Ast (φ : Type) where
  | value (v : Value)
  | signed (sign : Sign) (operand : Ast φ)
  | phrase (form : φ) (parts : List (Ast φ))
deriving Repr

section
variable {φ : Type} [DecidableEq φ]

mutual

def Ast.decEq : (t u : Ast φ) → Decidable (t = u)
  | .value v, .value w => decidable_of_iff (v = w) (by rw [Ast.value.injEq])
  | .signed s t, .signed r u =>
    have := Ast.decEq t u
    decidable_of_iff (s = r ∧ t = u) (by rw [Ast.signed.injEq])
  | .phrase form ts, .phrase other us =>
    have := Ast.decEqAll ts us
    decidable_of_iff (form = other ∧ ts = us) (by rw [Ast.phrase.injEq])
  | .value _, .signed .. | .value _, .phrase .. | .signed .., .value _ | .signed .., .phrase ..
  | .phrase .., .value _ | .phrase .., .signed .. => .isFalse nofun

def Ast.decEqAll : (ts us : List (Ast φ)) → Decidable (ts = us)
  | [], [] => .isTrue rfl
  | t :: ts, u :: us =>
    have := Ast.decEq t u
    have := Ast.decEqAll ts us
    decidable_of_iff (t = u ∧ ts = us) (by rw [List.cons.injEq])
  | [], _ :: _ | _ :: _, [] => .isFalse nofun

end

instance : DecidableEq (Ast φ) := Ast.decEq

end

/-- Induction on trees, where a phrase comes after all its parts. -/
@[elab_as_elim, induction_eliminator]
theorem Ast.induction {φ : Type} {motive : Ast φ → Prop} (value : ∀ v, motive (.value v))
    (signed : ∀ s t, motive t → motive (.signed s t))
    (phrase : ∀ form parts, (∀ t ∈ parts, motive t) → motive (.phrase form parts)) :
    ∀ t, motive t
  | .value v => value v
  | .signed s t => signed s t (Ast.induction value signed phrase t)
  | .phrase form parts => phrase form parts fun t _ => Ast.induction value signed phrase t

abbrev Tree := Ast Form

def Ast.leaf (text : String) : Tree := .phrase (.leaf text) []

namespace Tree

mutual

def text : Tree → String
  | .value v => v.text
  | .signed sign operand => sign.text ++ text operand
  | .phrase form parts =>
    form.frame.opening ++ form.frame.separator.intercalate (texts parts) ++ form.frame.closing

def texts : List Tree → List String
  | [] => []
  | t :: ts => text t :: texts ts

end

end Tree

end SqlCanon.Query
