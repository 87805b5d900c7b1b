import SqlCanon.Text.Utf8

/-!
# Operators

An operator is read as far as the bytes go on spelling the start of some operator, and then cut
back to the last point where they spelled a whole one. `:` starts an operator and is none itself.
-/

namespace SqlCanon.Operator

def spellings : List String :=
  [">", ">=", "<", "<=", "<>", "<=>", "=", "!", "!=", "&", "|", "^", "~", ">>", "<<", "&&", "||",
   "%", "+", "-", "*", "/", "->", "->>", ":="]

def all : List Bytes := spellings.map Utf8.encode

def isOperator (bs : Bytes) : Bool := all.contains bs

/-- Nothing is read for the empty start. -/
def startsOperator (bs : Bytes) : Bool := !bs.isEmpty && all.any (bs.isPrefixOf ·)

/-- Goes on reading after `read`, where `best` is the longest operator read so far. -/
def extend (read : Bytes) (best : Option Bytes) : Bytes → Option Bytes
  | [] => best
  | b :: rest =>
    let longer := read ++ [b]
    if startsOperator longer then
      extend longer (if isOperator longer then some longer else best) rest
    else best

def front? (bs : Bytes) : Option Bytes := extend [] none bs

theorem extend_isPrefix {read : Bytes} {best : Option Bytes} {bs op : Bytes}
    (hbest : ∀ b, best = some b → b <+: read ∧ b ≠ []) (h : extend read best bs = some op) :
    op <+: read ++ bs ∧ op ≠ [] := by
  fun_induction extend read best bs with
  | case1 read best => simpa using hbest op h
  | case2 read best b rest longer hs ih =>
    have := ih (by
      intro c hc
      split at hc
      · cases hc; simp [longer]
      · exact ⟨(hbest c hc).1.trans (List.prefix_append _ _), (hbest c hc).2⟩) h
    simpa [longer] using this
  | case3 read best b rest longer hs =>
    exact ⟨(hbest op h).1.trans (List.prefix_append _ _), (hbest op h).2⟩

theorem front?_isPrefix {bs op : Bytes} (h : front? bs = some op) : op <+: bs ∧ op ≠ [] := by
  have h' : extend [] none bs = some op := h
  simpa using extend_isPrefix (by simp) h'

end SqlCanon.Operator
