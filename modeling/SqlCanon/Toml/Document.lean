import SqlCanon.Toml.Line

/-!
# Documents

A document is read line by line. A line ends at a newline, with or without a carriage return.
-/

namespace SqlCanon.Toml

structure Document where
  root : Entries := []
  header : List String := []

namespace Document

def add (d : Document) : Line → Option Document
  | .blank => some d
  | .header path => (d.root.openTable path).map fun root => ⟨root, path⟩
  | .entry path v => (d.root.insertBelow d.header path v).map fun root => { d with root }

def dropReturn (line : List Char) : List Char :=
  if line.getLast? = some '\r' then line.dropLast else line

/-- The lines of a text, where `line` has been read of the first one. -/
def linesAfter (line : List Char) : List Char → List (List Char)
  | [] => [line]
  | c :: cs => if c = '\n' then dropReturn line :: linesAfter [] cs else linesAfter (line ++ [c]) cs

def lines (text : List Char) : List (List Char) := linesAfter [] text

def read? (text : String) : Option Entries := do
  let ls ← (lines text.toList).mapM Line.read?
  let d ← ls.foldlM add {}
  return d.root

end Document

end SqlCanon.Toml
