import SqlCanon.Query.Token
import SqlCanon.Reader
import SqlCanon.Text.UpperCase

/-!
# Readers of query tokens

A word is a keyword by its upper case. Where a name is expected, keywords are names as well.
-/

namespace SqlCanon.Query

abbrev TokenReader := Reader Token

namespace TokenReader
variable {α : Type}

def mark (text : String) : TokenReader Unit :=
  Reader.next fun t => if t = .mark text then some () else none

def keyword (word : String) : TokenReader Unit :=
  Reader.next fun
    | .word w => if UpperCase.text w = word then some () else none
    | _ => none

def anyKeyword (words : List String) : TokenReader Unit :=
  Reader.next fun
    | .word w => if words.contains (UpperCase.text w) then some () else none
    | _ => none

def refuse (words : List String) : TokenReader Unit := do
  if ← Reader.isAhead (anyKeyword words) then failure

def ident : TokenReader String :=
  Reader.next fun
    | .word w => some w
    | .quoted q => some q
    | _ => none

def name : TokenReader String := do
  let parts ← Reader.sepBy ident (mark ".")
  return ".".intercalate parts

def commaList (r : TokenReader α) : TokenReader (List α) := Reader.sepBy r (mark ",")

def parenthesized (r : TokenReader α) : TokenReader α := do
  mark "("
  let a ← r
  mark ")"
  return a

/-- The keywords that do not name a column unless AS stands before, because they go on with the
query or with the expression. -/
def notColumnAliases : List String :=
  ["ANALYZE", "CLUSTER", "COLLATE", "DISTRIBUTE", "DIV", "END", "EXCEPT", "EXPLAIN", "FETCH", "FROM",
   "GROUP", "HAVING", "ILIKE", "INTERSECT", "INTO", "LATERAL", "LIMIT", "OFFSET", "OPERATOR", "ORDER",
   "REGEXP", "RETURNING", "RLIKE", "SELECT", "SIMILAR", "SORT", "TOP", "UNION", "VIEW", "WHERE",
   "WITH", "XOR"]

def notTableAliases : List String :=
  ["ANALYZE", "CLUSTER", "CONNECT", "CROSS", "DISTRIBUTE", "END", "EXCEPT", "EXPLAIN", "FETCH", "FOR",
   "FORMAT", "FULL", "GLOBAL", "GROUP", "HAVING", "INNER", "INTERSECT", "JOIN", "LATERAL", "LEFT",
   "LIMIT", "MATCH_RECOGNIZE", "NATURAL", "OFFSET", "ON", "ORDER", "OUTER", "PARTITION", "PIVOT",
   "PREWHERE", "QUALIFY", "RIGHT", "SELECT", "SET", "SETTINGS", "SORT", "START", "TOP", "UNION",
   "UNPIVOT", "USING", "VIEW", "WHERE", "WINDOW", "WITH"]

/-- An alias, before which AS may be left out if it is none of the given keywords. -/
def aliasName? (notAliases : List String) : TokenReader (Option String) := do
  if ← Reader.isNext (keyword "AS") then some <$> ident
  else Reader.option do
    refuse notAliases
    ident

end TokenReader

end SqlCanon.Query
