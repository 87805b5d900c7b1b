/-!
# Upper case

The upper case of letters, as far as it consists of ASCII letters. Every other character stays as it
is, so that two texts of which one is ASCII have the same upper case here exactly if Unicode gives
them the same one.
-/

namespace SqlCanon.UpperCase

def letters (c : Char) : List Char :=
  match c with
  | 'ß' => ['S', 'S']
  | 'ı' => ['I']
  | 'ſ' => ['S']
  | 'ﬀ' => ['F', 'F']
  | 'ﬁ' => ['F', 'I']
  | 'ﬂ' => ['F', 'L']
  | 'ﬃ' => ['F', 'F', 'I']
  | 'ﬄ' => ['F', 'F', 'L']
  | 'ﬅ' => ['S', 'T']
  | 'ﬆ' => ['S', 'T']
  | c => [c.toUpper]

def text (s : String) : String := String.ofList (s.toList.flatMap letters)

end SqlCanon.UpperCase
