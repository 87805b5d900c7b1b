/-!
# Values and tables

A document is a table of values by key. A table remembers how it came about, because that decides
whether a later line may still add to it.
-/

namespace SqlCanon.Toml

inductive TableKind where
  /-- A table that only stands on the way to another one's header. -/
  | implicit
  | header
  /-- A table that stands on the way to the last key of an entry. -/
  | dotted
  | inline
deriving DecidableEq, Repr

inductive Value where
  | string (s : String)
  | integer (n : Int)
  | boolean (b : Bool)
  | table (kind : TableKind) (entries : List (String × Value))
deriving Repr

abbrev Entries := List (String × Value)

namespace Entries

def replace (es : Entries) (key : String) (v : Value) : Entries :=
  es.map fun e => if e.1 = key then (key, v) else e

/-- Adds an entry whose key may be dotted. Keys are not given twice, and a table with a header or
in braces is not added to. -/
def insert : (path : List String) → Value → Entries → Option Entries
  | [], _, _ => none
  | [key], v, es => if (es.lookup key).isSome then none else some (es ++ [(key, v)])
  | key :: path, v, es =>
    match es.lookup key with
    | none => (insert path v []).map fun sub => es ++ [(key, .table .dotted sub)]
    | some (.table kind sub) =>
      if kind = .dotted ∨ kind = .implicit then
        (insert path v sub).map fun sub => es.replace key (.table kind sub)
      else none
    | some _ => none

/-- Adds an entry below the table that the last header has opened. -/
def insertBelow : (header path : List String) → Value → Entries → Option Entries
  | [], path, v, es => insert path v es
  | key :: header, path, v, es =>
    match es.lookup key with
    | some (.table kind sub) =>
      (insertBelow header path v sub).map fun sub => es.replace key (.table kind sub)
    | _ => none

/-- Opens the table of a header, which must not have been opened before. -/
def openTable : (header : List String) → Entries → Option Entries
  | [], _ => none
  | [key], es =>
    match es.lookup key with
    | none => some (es ++ [(key, .table .header [])])
    | some (.table .implicit sub) => some (es.replace key (.table .header sub))
    | some _ => none
  | key :: header, es =>
    match es.lookup key with
    | none => (openTable header []).map fun sub => es ++ [(key, .table .implicit sub)]
    | some (.table kind sub) =>
      if kind = .inline then none
      else (openTable header sub).map fun sub => es.replace key (.table kind sub)
    | some _ => none

end Entries

end SqlCanon.Toml
