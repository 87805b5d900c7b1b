import SqlCanon.Query.Expression

/-!
# Queries and statements

The grammar of SELECT, VALUES, INSERT, UPDATE and DELETE, and of scripts of such statements. Each
statement nests expressions and queries up to a fixed depth.
-/

namespace SqlCanon.Query

open Reader TokenReader

namespace Nested
variable (inner : Nested)

/-! ## Tables -/

def aliased (notAliases : List String) (t : Tree) : TokenReader Tree := do
  match ← aliasName? notAliases with
  | some a => return .phrase (.labelled a) [t]
  | none => return t

def tableName : TokenReader Tree := do
  refuse ["LATERAL", "TABLE"]
  return .leaf (← name)

def table : TokenReader Tree := do
  let t ← if ← isAhead (mark "(") then inner.subquery else tableName
  aliased notTableAliases t

def outerJoin (side : String) : TokenReader String := do
  keyword side
  let _ ← isNext (keyword "OUTER")
  keyword "JOIN"
  return side ++ " JOIN"

def conditionalJoin : TokenReader String :=
  (do let _ ← isNext (keyword "INNER"); keyword "JOIN"; return "JOIN")
    <|> outerJoin "LEFT" <|> outerJoin "RIGHT" <|> outerJoin "FULL"

def crossJoin : TokenReader Unit := do
  keyword "CROSS"
  keyword "JOIN"

/-- The columns after USING, without a space before the parenthesis. -/
def usingColumns : TokenReader Tree := do
  let columns ← parenthesized (commaList ident)
  return .phrase (.call "USING" false) (columns.map .leaf)

def joinCondition : TokenReader (List Tree) := do
  if ← isNext (keyword "ON") then return [.phrase (.clause "ON") [← inner.anyExpr]]
  else return (← after? (keyword "USING") usingColumns).toList

/-- The next join, if there is one. A cross join has no condition. -/
def join? : TokenReader (Option Tree) := do
  if ← isNext crossJoin then return some (.phrase (.clause "CROSS JOIN") [← inner.table])
  else match ← option conditionalJoin with
    | some shown =>
      let t ← inner.table
      return some (.phrase (.clause shown) [.phrase .sequence (t :: (← inner.joinCondition))])
    | none => return none

def joinedTables : TokenReader Tree := do
  let first ← inner.table
  let joins ← repeated inner.join?
  return .phrase .sequence (first :: joins)

/-! ## Queries -/

/-- A column by the name `from` needs backticks, or it would read as the keyword. -/
def column : TokenReader Tree := do
  let t ← inner.anyExpr
  match t with
  | .phrase (.leaf text) [] => if text.toUpper = "FROM" then failure
  | _ => pure ()
  aliased notColumnAliases t

def item : TokenReader Tree := wildcard <|> inner.column

def clause? (words : List String) (elements : TokenReader (List Tree)) : TokenReader (List Tree) := do
  let clause ← after? (words.forM keyword) elements
  return (clause.map (Ast.phrase (.clause (" ".intercalate words)))).toList

def condition? (word : String) : TokenReader (List Tree) :=
  clause? [word] (do return [← inner.anyExpr])

def select : TokenReader Tree := do
  keyword "SELECT"
  refuse ["ALL"]
  let distinct ← isNext (keyword "DISTINCT")
  refuse ["ON", "TOP"]
  let items ← commaList inner.item
  let source ← clause? ["FROM"] (commaList inner.joinedTables)
  let condition ← inner.condition? "WHERE"
  let groups ← clause? ["GROUP", "BY"] (do refuse ["ALL"]; commaList inner.anyExpr)
  let groupCondition ← inner.condition? "HAVING"
  return .phrase .sequence
    (.phrase (.clause (if distinct then "SELECT DISTINCT" else "SELECT")) items ::
      source ++ condition ++ groups ++ groupCondition)

def row : TokenReader Tree := do
  return .phrase .parentheses (← parenthesized (commaList inner.anyExpr))

def values : TokenReader Tree := do
  keyword "VALUES"
  return .phrase (.clause "VALUES") (← commaList inner.row)

def queryTerm : TokenReader Tree := inner.select <|> inner.values <|> inner.subquery

def unionTerm? : TokenReader (Option (Tree → Tree)) :=
  after? (keyword "UNION") do
    let all ← isNext (keyword "ALL")
    let b ← inner.queryTerm
    return fun a => .phrase (.union all) [a, b]

def ordering : TokenReader Tree := do
  let t ← inner.anyExpr
  let word ← option
    ((do keyword "ASC"; return "ASC") <|> (do keyword "DESC"; return "DESC"))
  return .phrase (.direction word) [t]

/-- The clauses after LIMIT. The offset may stand first, before a comma, and is shown last. -/
def limits : TokenReader (List Tree) := do
  refuse ["ALL"]
  let first ← inner.anyExpr
  let clauses := fun (count offset : Tree) =>
    [Ast.phrase (.clause "LIMIT") [count], .phrase (.clause "OFFSET") [offset]]
  if ← isNext (keyword "OFFSET") then return clauses first (← inner.anyExpr)
  else if ← isNext (mark ",") then return clauses (← inner.anyExpr) first
  else return [.phrase (.clause "LIMIT") [first]]

def fullQuery : TokenReader Tree := do
  let first ← inner.queryTerm
  let terms ← repeated inner.unionTerm?
  let order ← clause? ["ORDER", "BY"] (commaList inner.ordering)
  let limits ← after? (keyword "LIMIT") inner.limits
  return .phrase .sequence
    (terms.foldl (fun t apply => apply t) first :: order ++ limits.getD [])

/-! ## Statements -/

/-- The columns of an insertion, unless the parenthesis opens a query. -/
def insertColumns? : TokenReader (List Tree) := do
  if ← isAhead (do mark "("; keyword "SELECT") then return []
  else
    let columns ← after? (mark "(") (commaList ident <* mark ")")
    return columns.toList.map fun cs => .phrase .parentheses (cs.map .leaf)

def insert : TokenReader Tree := do
  keyword "INSERT"
  keyword "INTO"
  refuse ["DIRECTORY", "LOCAL", "TABLE"]
  let target ← name
  let columns ← insertColumns?
  let source ← inner.query
  return .phrase (.clause "INSERT INTO") [.phrase .sequence (.leaf target :: columns ++ [source])]

def assignment : TokenReader Tree := do
  let column ← name
  mark "="
  return .phrase (.assignment column) [← inner.anyExpr]

def update : TokenReader Tree := do
  keyword "UPDATE"
  let target ← inner.joinedTables
  keyword "SET"
  let assignments ← commaList inner.assignment
  let condition ← inner.condition? "WHERE"
  return .phrase .sequence
    (.phrase (.clause "UPDATE") [target] :: .phrase (.clause "SET") assignments :: condition)

def delete : TokenReader Tree := do
  keyword "DELETE"
  keyword "FROM"
  let target ← commaList inner.joinedTables
  let condition ← inner.condition? "WHERE"
  return .phrase .sequence (.phrase (.clause "DELETE FROM") target :: condition)

def statement : TokenReader Tree := inner.insert <|> inner.update <|> inner.delete <|> inner.query

end Nested

/-- The readers for what may nest up to `depth` levels. Every expression and every query is a level. -/
def nested : (depth : Nat) → Nested
  | 0 => ⟨fun _ => failure, failure⟩
  | depth + 1 =>
    let inner := nested depth
    ⟨inner.expression, inner.fullQuery⟩

def maximumDepth : Nat := 49

def skipRest : TokenReader Unit := fun _ => some ((), [])

/-- The next statement of a script, after any semicolons. It goes up to a semicolon, to the end, or
to END, after which nothing is read. -/
def statement? : TokenReader (Option Tree) := do
  let _ ← repeated (after? (mark ";") (pure ()))
  if ← isAtEnd then return none
  else
    let t ← (nested maximumDepth).statement
    if ← isNext (keyword "END") then skipRest
    else if ← isAtEnd then pure ()
    else if ← isAhead (mark ";") then pure ()
    else failure
    return some t

def parse? (text : String) : Option (List Tree) := do
  let ts ← Token.read? text
  whole? (repeated statement?) ts

end SqlCanon.Query
