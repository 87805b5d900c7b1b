import SqlCanon.Text.Hexadecimal

/-!
# Written forms

The texts of strings, headers and entries as they are saved.
-/

namespace SqlCanon.Toml.Written

def escaped (c : Char) : List Char :=
  if c = '"' then ['\\', '"']
  else if c = '\\' then ['\\', '\\']
  else if c.toNat < 0x20 ∨ c.toNat = 0x7f then ['\\', 'u', '0', '0'] ++ Hexadecimal.pair c.toNat
  else [c]

def isControl (c : Char) : Bool := c.toNat < 0x20 || c.toNat = 0x7f

/-- A string stands in double quotes, or in single quotes if that spares escapes. -/
def string (s : String) : String :=
  let cs := s.toList
  if cs.any (fun c => c = '"' || c = '\\') && !cs.any (fun c => c = '\'' || isControl c) then
    "'" ++ s ++ "'"
  else "\"" ++ String.ofList (cs.flatMap escaped) ++ "\""

def boolean (b : Bool) : String := if b then "true" else "false"

def header (name : String) : String := "[" ++ name ++ "]"

def entry (key value : String) : String := key ++ " = " ++ value

end SqlCanon.Toml.Written
