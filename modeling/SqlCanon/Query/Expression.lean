import SqlCanon.Query.Reader
import SqlCanon.Query.Tree

/-!
# Expressions

An expression is an operand with tails: an operator and its right operand, or a test. A tail goes on
with everything before it as far as it binds more tightly than what it stands in. So a test may be
followed by an operator that binds more tightly than the test, which then takes the test as its left
operand.
-/

namespace SqlCanon.Query

open Reader TokenReader

/-! ## How tightly tails bind -/

namespace Binding

def loosest : Nat := 0
def disjunction : Nat := 1
def conjunction : Nat := 2
def negation : Nat := 3
def nullity : Nat := 4
def likeness : Nat := 5
/-- Membership and ranges bind like comparisons. -/
def comparison : Nat := 6
def sum : Nat := 7
def product : Nat := 8

end Binding

/-- The readers for what is nested one level deeper. An expression is read as far as its tails bind
more tightly than the given binding. -/
structure Nested where
  expr : (binding : Nat) → TokenReader Tree
  query : TokenReader Tree

/-- A tail whose first words have been read. Its rest turns what stands before it into a larger
tree. -/
structure Tail where
  binding : Nat
  rest : TokenReader (Tree → Tree)

namespace Nested
variable (inner : Nested)

def anyExpr : TokenReader Tree := inner.expr Binding.loosest

/-- What stands between parentheses: a query, or expressions. -/
def elements : TokenReader (List Tree) := do
  if ← isAhead (anyKeyword ["SELECT", "WITH"]) then return [← inner.query]
  else commaList inner.anyExpr

def group : TokenReader Tree := do
  return .phrase .parentheses (← parenthesized inner.elements)

def subquery : TokenReader Tree := do
  return .phrase .parentheses [← parenthesized inner.query]

/-! ## Operands -/

def value : TokenReader Value :=
  next fun
    | .literal text => some (if text = "?" then .placeholder else .literal text)
    | .word w =>
      if UpperCase.text w = "NULL" then some .null
      else if ["TRUE", "FALSE"].contains (UpperCase.text w) then some (.literal w)
      else none
    | _ => none

/-- All columns, of one table if a name stands before. -/
def wildcard : TokenReader Tree :=
  (do mark "*"; return .leaf "*")
    <|> (do
      let first ← ident
      let more ← repeated do
        mark "."
        if ← isNext (mark "*") then return none else some <$> ident
      return .leaf (".".intercalate (first :: more) ++ ".*"))

def arguments : TokenReader (Bool × List Tree) := do
  if ← isNext (mark ")") then return (false, [])
  else
    refuse ["ALL"]
    let distinct ← isNext (keyword "DISTINCT")
    let as ← commaList (wildcard <|> inner.anyExpr)
    mark ")"
    return (distinct, as)

def nameOrCall : TokenReader Tree := do
  refuse ["EXISTS", "INTERVAL", "TRIM"]
  let n ← name
  if ← isNext (mark "(") then
    let (distinct, as) ← inner.arguments
    refuse ["IGNORE", "OVER", "RESPECT"]
    return .phrase (.call n distinct) as
  else return .leaf n

/-- A decimal number that is no value of its own and is kept as it is written. -/
def scale : TokenReader Tree :=
  next fun
    | .literal text =>
      match text.toList with
      | c :: rest =>
        if (Decimal.isDigit c || c = '.') && rest.head? ≠ some 'x' then some (.leaf text) else none
      | [] => none
    | _ => none

/-- A call whose function is the given keyword, which is shown in upper case. -/
def keywordCall (word : String) (arguments : TokenReader (List Tree)) : TokenReader Tree := do
  keyword word
  return .phrase (.call word false) (← parenthesized arguments)

def rounding : TokenReader (List Tree) := do
  let a ← inner.anyExpr
  let digits ← after? (mark ",") scale
  return a :: digits.toList

def substring : TokenReader (List Tree) := do
  let a ← inner.anyExpr
  let start ← after? (mark ",") inner.anyExpr
  let length ← after? (mark ",") inner.anyExpr
  return a :: start.toList ++ length.toList

def position : TokenReader (List Tree) := do
  let part ← inner.expr Binding.comparison
  keyword "IN"
  return [.phrase (.operation "IN") [part, ← inner.anyExpr]]

def trimmed : TokenReader (List Tree) := do
  refuse ["BOTH", "LEADING", "TRAILING"]
  return [← inner.anyExpr]

def keywordCalls : TokenReader Tree :=
  keywordCall "CEIL" inner.rounding
    <|> keywordCall "FLOOR" inner.rounding
    <|> keywordCall "SUBSTRING" inner.substring
    <|> keywordCall "POSITION" inner.position
    <|> keywordCall "TRIM" inner.trimmed

def branch : TokenReader Tree := do
  let condition ← inner.anyExpr
  keyword "THEN"
  return .phrase .branch [condition, ← inner.anyExpr]

def otherwise : TokenReader Tree := do return .phrase .otherwise [← inner.anyExpr]

def case : TokenReader Tree := do
  keyword "CASE"
  let subject ← if ← isAhead (keyword "WHEN") then pure none else some <$> inner.anyExpr
  keyword "WHEN"
  let branches ← sepBy inner.branch (keyword "WHEN")
  let other ← after? (keyword "ELSE") inner.otherwise
  keyword "END"
  return .phrase .case (subject.toList ++ branches ++ other.toList)

def existence : TokenReader Tree := do
  keyword "EXISTS"
  return .phrase .exists [← inner.subquery]

/-- A negated existence is an operand by itself. Any other negation goes on through comparisons. -/
def negation : TokenReader Tree := do
  keyword "NOT"
  if ← isAhead (keyword "EXISTS") then return .phrase .negation [← inner.existence]
  else return .phrase .negation [← inner.expr Binding.negation]

def sign : TokenReader Sign :=
  (do mark "-"; return .minus) <|> (do mark "+"; return .plus)

def signedOperand : TokenReader Tree := do
  return .signed (← sign) (← inner.expr Binding.product)

/-- A keyword with which nothing else can be read is a name. -/
def operand : TokenReader Tree :=
  (Ast.value <$> value)
    <|> inner.signedOperand
    <|> inner.group
    <|> inner.case
    <|> inner.existence
    <|> inner.negation
    <|> inner.keywordCalls
    <|> inner.nameOrCall

/-! ## Tails -/

/-- The operators that are marks, each with its spelling as shown and with its binding. -/
def operators : List (String × String × Nat) :=
  [("=", "=", Binding.comparison), ("<=>", "<=>", Binding.comparison),
   ("<>", "<>", Binding.comparison), ("!=", "<>", Binding.comparison),
   ("<", "<", Binding.comparison), (">", ">", Binding.comparison),
   ("<=", "<=", Binding.comparison), (">=", ">=", Binding.comparison),
   ("+", "+", Binding.sum), ("-", "-", Binding.sum),
   ("*", "*", Binding.product), ("/", "/", Binding.product), ("%", "%", Binding.product)]

def operation (shown : String) (binding : Nat) : Tail where
  binding := binding
  rest := do
    refuse ["ALL", "ANY", "SOME"]
    let b ← inner.expr binding
    return fun a => .phrase (.operation shown) [a, b]

def operatorTail : TokenReader Tail :=
  next fun
    | .mark m => (operators.lookup m).map fun (shown, binding) => inner.operation shown binding
    | _ => none

def nullity : Tail where
  binding := Binding.nullity
  rest := do
    let negated ← isNext (keyword "NOT")
    keyword "NULL"
    return fun a => .phrase (.isNull negated) [a]

def membership (negated : Bool) : Tail where
  binding := Binding.comparison
  rest := do
    let set ← inner.group
    return fun a => .phrase (.membership negated) [a, set]

def range (negated : Bool) : Tail where
  binding := Binding.comparison
  rest := do
    let low ← inner.expr Binding.comparison
    keyword "AND"
    let high ← inner.expr Binding.comparison
    return fun a => .phrase (.range negated) [a, .phrase .bounds [low, high]]

def likeness (negated : Bool) : Tail where
  binding := Binding.likeness
  rest := do
    refuse ["ANY"]
    let pattern ← inner.expr Binding.likeness
    refuse ["ESCAPE"]
    return fun a => .phrase (.likeness negated) [a, pattern]

def tail : TokenReader Tail :=
  inner.operatorTail
    <|> (do keyword "OR"; return inner.operation "OR" Binding.disjunction)
    <|> (do keyword "AND"; return inner.operation "AND" Binding.conjunction)
    <|> (do keyword "IS"; return nullity)
    <|> (do
      let negated ← isNext (keyword "NOT")
      (do keyword "IN"; return inner.membership negated)
        <|> (do keyword "BETWEEN"; return inner.range negated)
        <|> (do keyword "LIKE"; return inner.likeness negated))

def tailAbove (binding : Nat) : TokenReader (Option (Tree → Tree)) := fun ts =>
  match inner.tail ts with
  | some (t, rest) =>
    if binding < t.binding then (some <$> t.rest : TokenReader (Option (Tree → Tree))) rest
    else some (none, ts)
  | none => some (none, ts)

def expression (binding : Nat) : TokenReader Tree := do
  let first ← inner.operand
  let tails ← repeated (inner.tailAbove binding)
  return tails.foldl (fun t apply => apply t) first

end Nested

end SqlCanon.Query
