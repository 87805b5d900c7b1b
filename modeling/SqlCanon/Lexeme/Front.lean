import SqlCanon.Lexeme.Delimited
import SqlCanon.Lexeme.Number
import SqlCanon.Lexeme.Operator
import SqlCanon.Lexeme.Reserved

/-!
# The lexeme at the front of a source

`Lexeme.front? b rest` is the lexeme that starts with the byte `b` when `rest` follows it. There is
none where `b` is blank or starts nothing.
-/

namespace SqlCanon.Lexeme
open Byte

/-- The bytes after `b` if `b` opens a comment. Two minus signs need a blank or the end after them. -/
def comment? (b : UInt8) (rest : Bytes) : Option Bytes :=
  if b = hash then some (Delimited.line rest)
  else if b = minus ∧ rest.head? = some minus ∧ rest.tail.head?.all isBlank then
    some (Delimited.line rest)
  else if b = slash ∧ rest.head? = some star then
    some (rest.take 1 ++ Delimited.block (rest.drop 1))
  else none

/-- The digits of a `0x` or `0b` literal are not checked, so it goes on to the next delimiter. -/
def isBlobPart (b : UInt8) : Bool := !isBlank b && b != openParen && b != closeParen && b != comma

/-- The bytes after `b` if `b` opens a string, a bit or hexadecimal literal, or a number. -/
def literal? (b : UInt8) (rest : Bytes) : Option Bytes :=
  if b = quote ∨ b = doubleQuote then some (Delimited.string b rest)
  else if (toLower b = 0x62 ∨ toLower b = 0x78) ∧ rest.head? = some quote then
    some (rest.take 1 ++ Delimited.through quote (rest.drop 1))
  else if b = zero ∧ rest.head?.any (fun c => toLower c == 0x62 || toLower c == 0x78) then
    some (rest.take 1 ++ (rest.drop 1).takeWhile isBlobPart)
  else if isDigit b ∨ ((b = minus ∨ b = plus ∨ b = dot) ∧ Number.digitNext rest) then
    some (Number.tail b (b == dot) rest)
  else none

def ofWord (word : Bytes) : Lexeme :=
  { kind := .keyword, attrs := Reserved.attrs word, text := word }

def front? (b : UInt8) (rest : Bytes) : Option Lexeme :=
  if b = star then some { kind := .star, text := [b] }
  else if b = comma then some { kind := .comma, text := [b] }
  else if b = openParen then some { kind := .openParen, text := [b] }
  else if b = closeParen then some { kind := .closeParen, text := [b] }
  else if isBlank b then none
  else if let some body := comment? b rest then some { kind := .comment, text := b :: body }
  else if let some body := literal? b rest then some { kind := .literal, text := b :: body }
  else if b = dot then some { kind := .dot, text := [b] }
  else if b = backtick then some { kind := .keyword, text := b :: Delimited.name rest }
  else if isWordStart b then some (ofWord (b :: rest.takeWhile isWordPart))
  else (Operator.front? (b :: rest)).map fun text => { kind := .operator, text := text }

theorem comment?_isPrefix {b : UInt8} {rest body : Bytes} (h : comment? b rest = some body) :
    body <+: rest := by
  unfold comment? at h
  split at h
  · cases h; exact Delimited.line_isPrefix _
  split at h
  · cases h; exact Delimited.line_isPrefix _
  split at h
  · cases h
    conv => rhs; rw [← List.take_append_drop 1 rest]
    exact (List.prefix_append_right_inj _).2 (Delimited.block_isPrefix _)
  · cases h

theorem literal?_isPrefix {b : UInt8} {rest body : Bytes} (h : literal? b rest = some body) :
    body <+: rest := by
  unfold literal? at h
  split at h
  · cases h; exact Delimited.string_isPrefix _ _
  split at h
  · cases h
    conv => rhs; rw [← List.take_append_drop 1 rest]
    exact (List.prefix_append_right_inj _).2 (Delimited.through_isPrefix _ _)
  split at h
  · cases h
    conv => rhs; rw [← List.take_append_drop 1 rest]
    exact (List.prefix_append_right_inj _).2 <| List.takeWhile_prefix _
  split at h
  · cases h; exact Number.tail_isPrefix _ _ _
  · cases h

/-- How `front?` comes to its answer, with what it ruled out before. -/
inductive FrontCase (b : UInt8) (rest : Bytes) : Option Lexeme → Prop
  | star : b = star → FrontCase b rest (some { kind := .star, text := [b] })
  | comma : b = comma → FrontCase b rest (some { kind := .comma, text := [b] })
  | openParen : b = openParen → FrontCase b rest (some { kind := .openParen, text := [b] })
  | closeParen : b = closeParen → FrontCase b rest (some { kind := .closeParen, text := [b] })
  | blank : isBlank b → FrontCase b rest none
  | comment {body} : isBlank b = false → comment? b rest = some body →
      FrontCase b rest (some { kind := .comment, text := b :: body })
  | literal {body} : isBlank b = false → comment? b rest = none → literal? b rest = some body →
      FrontCase b rest (some { kind := .literal, text := b :: body })
  | dot : b = dot → literal? b rest = none → FrontCase b rest (some { kind := .dot, text := [b] })
  | name : b = backtick →
      FrontCase b rest (some { kind := .keyword, text := b :: Delimited.name rest })
  | word : isWordStart b → literal? b rest = none →
      FrontCase b rest (some (ofWord (b :: rest.takeWhile isWordPart)))
  | operator {op} : b ∉ [star, comma, openParen, closeParen, dot, backtick] →
      isWordStart b = false → comment? b rest = none → literal? b rest = none →
      Operator.front? (b :: rest) = some op →
      FrontCase b rest (some { kind := .operator, text := op })
  | nothing : b ∉ [star, comma, openParen, closeParen, dot, backtick] →
      isWordStart b = false → comment? b rest = none → literal? b rest = none →
      Operator.front? (b :: rest) = none → FrontCase b rest none

theorem frontCase (b : UInt8) (rest : Bytes) : FrontCase b rest (front? b rest) := by
  unfold front?
  by_cases hstar : b = star
  · rw [if_pos hstar]; exact .star hstar
  by_cases hcomma : b = comma
  · rw [if_neg hstar, if_pos hcomma]; exact .comma hcomma
  by_cases hopen : b = openParen
  · rw [if_neg hstar, if_neg hcomma, if_pos hopen]; exact .openParen hopen
  by_cases hclose : b = closeParen
  · rw [if_neg hstar, if_neg hcomma, if_neg hopen, if_pos hclose]; exact .closeParen hclose
  rw [if_neg hstar, if_neg hcomma, if_neg hopen, if_neg hclose]
  by_cases hblank : isBlank b
  · rw [if_pos hblank]; exact .blank hblank
  rw [if_neg hblank]
  rw [Bool.not_eq_true] at hblank
  cases hc : comment? b rest with
  | some body => exact .comment hblank hc
  | none =>
  cases hl : literal? b rest with
  | some body => exact .literal hblank hc hl
  | none =>
  by_cases hdot : b = dot
  · rw [if_pos hdot]; exact .dot hdot hl
  by_cases htick : b = backtick
  · rw [if_neg hdot, if_pos htick]; exact .name htick
  by_cases hword : isWordStart b
  · rw [if_neg hdot, if_neg htick, if_pos hword]; exact .word hword hl
  rw [if_neg hdot, if_neg htick, if_neg hword]
  rw [Bool.not_eq_true] at hword
  have hb : b ∉ [star, comma, openParen, closeParen, dot, backtick] := by
    simp [hstar, hcomma, hopen, hclose, hdot, htick]
  cases hop : Operator.front? (b :: rest) with
  | some op => exact .operator hb hword hc hl hop
  | none => exact .nothing hb hword hc hl hop

theorem front?_cases {b : UInt8} {rest : Bytes} {answer : Option Lexeme}
    (h : front? b rest = answer) : FrontCase b rest answer :=
  h ▸ frontCase b rest

theorem front?_text {b : UInt8} {rest : Bytes} {l : Lexeme} (h : front? b rest = some l) :
    ∃ body, l.text = b :: body ∧ body <+: rest := by
  cases front?_cases h with
  | comment _ hc => exact ⟨_, rfl, comment?_isPrefix hc⟩
  | literal _ _ hl => exact ⟨_, rfl, literal?_isPrefix hl⟩
  | name _ => exact ⟨_, rfl, Delimited.name_isPrefix _⟩
  | word _ _ => exact ⟨_, rfl, List.takeWhile_prefix _⟩
  | operator _ _ _ _ hop =>
    obtain ⟨hp, hne⟩ := Operator.front?_isPrefix hop
    obtain ⟨c, body, rfl⟩ := List.exists_cons_of_ne_nil hne
    rw [List.cons_prefix_cons] at hp
    exact ⟨body, by rw [hp.1], hp.2⟩
  | _ => exact ⟨[], rfl, List.nil_prefix⟩

end SqlCanon.Lexeme
