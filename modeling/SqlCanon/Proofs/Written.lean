import Mathlib.Data.List.TakeWhile
import SqlCanon.Toml.Line
import SqlCanon.Toml.Written

/-!
# Reading what has been written

Strings, numbers, truth values, entries and headers in their written forms are read back. The text of a
string has no say in it: a character that would end the string or the line is written with an escape.
-/

namespace SqlCanon

namespace Reader
variable {σ α β : Type} {r s : Reader σ α} {xs rest : List σ} {a : α}

theorem bind_of_some {f : α → Reader σ β} (h : r xs = some (a, rest)) : (r >>= f) xs = f a rest := by
  simp [bind, StateT.bind, h]

theorem bind_of_none {f : α → Reader σ β} (h : r xs = none) : (r >>= f) xs = none := by
  simp [bind, StateT.bind, h]

theorem map_of_some {f : α → β} (h : r xs = some (a, rest)) : (f <$> r) xs = some (f a, rest) := by
  simp [Functor.map, StateT.map, h]

theorem map_of_none {f : α → β} (h : r xs = none) : (f <$> r) xs = none := by
  simp [Functor.map, StateT.map, h]

theorem orElse_of_some (h : r xs = some (a, rest)) : (r <|> s) xs = some (a, rest) := by
  simp [HOrElse.hOrElse, OrElse.orElse, Alternative.orElse, StateT.orElse, h]

theorem orElse_of_none (h : r xs = none) : (r <|> s) xs = s xs := by
  simp [HOrElse.hOrElse, OrElse.orElse, Alternative.orElse, StateT.orElse, h]

theorem takeWhile_of_append {p : σ → Bool} {front : List σ} (hfront : ∀ x ∈ front, p x)
    (hrest : ∀ x ∈ rest.head?, p x = false) :
    takeWhile p (front ++ rest) = some (front, rest) := by
  have htake : rest.takeWhile p = [] := by
    cases rest with
    | nil => rfl
    | cons x rest => simp [hrest x rfl]
  have hdrop : rest.dropWhile p = rest := by
    cases rest with
    | nil => rfl
    | cons x rest => simp [hrest x rfl]
  rw [takeWhile, List.takeWhile_append_of_pos hfront, List.dropWhile_append_of_pos hfront, htake,
    hdrop, List.append_nil]

theorem sepBy_single {separator : Reader σ Unit} (h : r xs = some (a, rest))
    (hend : separator rest = none) : sepBy r separator xs = some ([a], rest) := by
  have hnext : isNext separator rest = some (false, rest) :=
    map_of_some (a := none) (by simp [option, hend])
  have hafter : after? separator r rest = some (none, rest) := bind_of_some hnext
  have hstop : repeated (after? separator r) rest = some ([], rest) := by
    rw [repeated]
    simp [hafter]
  exact (bind_of_some h).trans (bind_of_some hstop)

end Reader

namespace Toml.Line
open Reader Written
variable {rest : List Char}

theorem spaces_of_append {front : List Char} (hfront : ∀ c ∈ front, isSpace c)
    (hrest : ∀ c ∈ rest.head?, isSpace c = false) : spaces (front ++ rest) = some ((), rest) :=
  bind_of_some (takeWhile_of_append hfront hrest)

theorem spaces_of_head (hrest : ∀ c ∈ rest.head?, isSpace c = false) : spaces rest = some ((), rest) :=
  spaces_of_append (List.forall_mem_nil _) hrest

theorem char_cons (c : Char) (rest : List Char) : char c (c :: rest) = some ((), rest) := by
  simp [char, next]

theorem char_of_head {c : Char} {xs : List Char} (h : ∀ d ∈ xs.head?, d ≠ c) : char c xs = none := by
  cases xs with
  | nil => rfl
  | cons d xs => simp [char, next, h d rfl]

theorem forall_of_all {p : Char → Bool} {b : Bool} {cs : List Char} (h : cs.all (p · == b)) :
    ∀ c ∈ cs, p c = b := by
  simpa using h

/-! ## Strings -/

theorem unicode?_pair : ∀ n < 0x80,
    unicode? (['0', '0'] ++ Hexadecimal.pair n) = some (Char.ofNat n) := by
  decide +kernel

theorem basicBody_plain {c : Char} (hquote : c ≠ '"') (hslash : c ≠ '\\') (hplain : isPlain c)
    (rest : List Char) :
    basicBody (c :: rest) = (basicBody rest).map fun p => (c :: p.1, p.2) := by
  cases hrest : basicBody rest <;> simp [basicBody, hslash, hplain, hrest]

theorem basicBody_unicode {a b c d x : Char} (h : unicode? [a, b, c, d] = some x) (rest : List Char) :
    basicBody ('\\' :: 'u' :: a :: b :: c :: d :: rest) =
      (basicBody rest).map fun p => (x :: p.1, p.2) := by
  cases hrest : basicBody rest <;> simp [basicBody, h, hrest]

theorem basicBody_escaped (c : Char) (rest : List Char) :
    basicBody (escaped c ++ rest) = (basicBody rest).map fun p => (c :: p.1, p.2) := by
  unfold escaped
  split
  · next h =>
    subst h
    cases hrest : basicBody rest <;> simp [basicBody, shortEscape?, hrest]
  split
  · next h =>
    subst h
    cases hrest : basicBody rest <;> simp [basicBody, shortEscape?, hrest]
  split
  · next h =>
    have hc := unicode?_pair c.toNat (by omega)
    rw [Char.ofNat_toNat] at hc
    exact basicBody_unicode hc rest
  · next hquote hslash h =>
    exact basicBody_plain hquote hslash (by simp [isPlain]; omega) rest

theorem basicBody_written (cs rest : List Char) :
    basicBody (cs.flatMap escaped ++ '"' :: rest) = some (cs, rest) := by
  induction cs with
  | nil => rfl
  | cons c cs ih =>
    rw [List.flatMap_cons, List.append_assoc, basicBody_escaped, ih]
    rfl

theorem basicString_written (cs rest : List Char) :
    basicString ('"' :: (cs.flatMap escaped ++ '"' :: rest)) = some (String.ofList cs, rest) := by
  unfold basicString
  rw [bind_of_some (char_cons _ _), bind_of_some (basicBody_written cs rest)]
  rfl

theorem literalString_written {cs : List Char} (hcs : ∀ c ∈ cs, isPlain c ∧ c ≠ '\'')
    (rest : List Char) :
    literalString ('\'' :: (cs ++ '\'' :: rest)) = some (String.ofList cs, rest) := by
  have hbody : takeWhile (fun c => isPlain c && c ≠ '\'') (cs ++ '\'' :: rest) =
      some (cs, '\'' :: rest) := takeWhile_of_append (by simpa using hcs) (by simp)
  unfold literalString
  rw [bind_of_some (char_cons _ _), bind_of_some hbody, bind_of_some (char_cons _ _)]
  rfl

theorem isPlain_of_not_isControl {c : Char} (h : isControl c = false) : isPlain c := by
  simp only [isControl, Bool.or_eq_false_iff, decide_eq_false_iff_not] at h
  simp only [isPlain, Bool.or_eq_true, decide_eq_true_eq]
  exact .inl (by simp; omega)

theorem string_cases (s : String) :
    ((Written.string s).toList = '\'' :: (s.toList ++ ['\'']) ∧
        ∀ c ∈ s.toList, c ≠ '\'' ∧ isControl c = false) ∨
      (Written.string s).toList = '"' :: (s.toList.flatMap escaped ++ ['"']) := by
  simp only [Written.string]
  split
  · next h =>
    rw [Bool.and_eq_true, Bool.not_eq_true', List.any_eq_false] at h
    refine .inl ⟨by simp, fun c hc => ?_⟩
    simpa using h.2 c hc
  · exact .inr (by simp)

theorem string_written (s : String) (rest : List Char) :
    (basicString <|> literalString) ((Written.string s).toList ++ rest) = some (s, rest) := by
  rcases string_cases s with ⟨htext, hcs⟩ | htext
  · have hplain : ∀ c ∈ s.toList, isPlain c ∧ c ≠ '\'' := fun c hc =>
      ⟨isPlain_of_not_isControl (hcs c hc).2, (hcs c hc).1⟩
    have hread := literalString_written hplain rest
    have hbasic : basicString ('\'' :: (s.toList ++ '\'' :: rest)) = none :=
      bind_of_none (char_of_head (by simp))
    rw [String.ofList_toList] at hread
    rw [htext, List.cons_append, List.append_assoc]
    exact (orElse_of_none hbasic).trans hread
  · have hread := basicString_written s.toList rest
    rw [String.ofList_toList] at hread
    rw [htext, List.cons_append, List.append_assoc]
    exact orElse_of_some hread

/-! ## Scalars -/

theorem scalar_string (s : String) : scalar (Written.string s).toList = some (.string s, []) := by
  have hread := string_written s []
  rw [List.append_nil] at hread
  exact orElse_of_some (map_of_some hread)

theorem bareWord_append {isPart : Char → Bool} {word : List Char} (hne : word ≠ [])
    (hword : ∀ c ∈ word, isPart c) (hrest : ∀ c ∈ rest.head?, isPart c = false) :
    bareWord isPart (word ++ rest) = some (word, rest) := by
  unfold bareWord
  rw [bind_of_some (takeWhile_of_append hword hrest)]
  simp [hne]
  rfl

theorem char_of_isKeyPart {xs : List Char} (h : ∀ d ∈ xs.head?, isKeyPart d) {q : Char}
    (hq : isKeyPart q = false) : char q xs = none := by
  refine char_of_head fun d hd => ?_
  rintro rfl
  exact Bool.false_ne_true (hq.symm.trans (h d hd))

theorem scalar_word {word : List Char} {v : Value} (hne : word ≠ [])
    (hword : ∀ c ∈ word, isKeyPart c) (hv : wordValue? word = some v) :
    scalar word = some (v, []) := by
  have hhead : ∀ d ∈ word.head?, isKeyPart d := fun d hd => hword d (List.mem_of_mem_head? hd)
  have hbasic : basicString word = none := bind_of_none (char_of_isKeyPart hhead (by decide))
  have hliteral : literalString word = none := bind_of_none (char_of_isKeyPart hhead (by decide))
  have hread : bareWord (fun c => isKeyPart c || c = '+' || c = '.') (word ++ []) = some (word, []) :=
    bareWord_append hne (by simp +contextual [hword]) (by simp)
  rw [List.append_nil] at hread
  refine (orElse_of_none (map_of_none ((orElse_of_none hbasic).trans hliteral))).trans
    ((bind_of_some hread).trans ?_)
  rw [hv]
  rfl

theorem scalar_boolean (b : Bool) :
    scalar (Written.boolean b).toList = some (.boolean b, []) := by
  cases b with
  | false => exact scalar_word (by decide) (forall_of_all (by decide)) rfl
  | true => exact scalar_word (by decide) (forall_of_all (by decide)) rfl

/-! ## Numbers -/

theorem isDigit_of_mem {n : Nat} {c : Char} (h : c ∈ Nat.toDigits 10 n) : Decimal.isDigit c :=
  Nat.isDigit_of_mem_toDigits (by decide) (by decide) h

theorem digitsFrom_eq (cs : List Char) (n : Nat) :
    Decimal.digitsFrom n cs = Nat.ofDigitChars 10 cs n := by
  induction cs generalizing n with
  | nil => rfl
  | cons c cs ih => exact ih _

theorem ungroup_digits {ds : List Char} (h : ∀ d ∈ ds, Decimal.isDigit d) :
    ungroup true ds = some ds := by
  induction ds with
  | nil => rfl
  | cons d ds ih =>
    rw [List.forall_mem_cons] at h
    simp [ungroup, h.1, ih h.2]

theorem head?_toDigits {n : Nat} (hn : 0 < n) : (Nat.toDigits 10 n).head? ≠ some '0' := by
  induction n using Nat.strongRecOn with
  | _ n ih =>
    rw [Nat.toDigits_eq_if (by decide)]
    split
    · next hlt =>
      have hdigit : ∀ n < 10, 0 < n → Nat.digitChar n ≠ '0' := by decide
      simpa using hdigit n hlt hn
    · next hge =>
      have hhead := ih (n / 10) (by omega) (by omega)
      obtain ⟨d, ds, hcons⟩ := List.exists_cons_of_ne_nil (Nat.toDigits_ne_nil (n := n / 10) (b := 10))
      rwa [hcons] at hhead ⊢

theorem natural?_toDigits (n : Nat) : natural? (Nat.toDigits 10 n) = some n := by
  have hdigits : ∀ d ∈ Nat.toDigits 10 n, Decimal.isDigit d := fun d hd => isDigit_of_mem hd
  have hungroup : ungroup false (Nat.toDigits 10 n) = some (Nat.toDigits 10 n) := by
    obtain ⟨d, ds, hcons⟩ := List.exists_cons_of_ne_nil (Nat.toDigits_ne_nil (n := n) (b := 10))
    rw [hcons, List.forall_mem_cons] at hdigits
    simp [hcons, ungroup, hdigits.1, ungroup_digits hdigits.2]
  have hvalue : Decimal.ofDigits? (Nat.toDigits 10 n) = some n := by
    rw [Decimal.ofDigits?, digitsFrom_eq, Nat.ofDigitChars_toDigits (by decide) (by decide)]
    simpa using hdigits
  have hzero : (Nat.toDigits 10 n).head? = some '0' → (Nat.toDigits 10 n).length = 1 := by
    rcases Nat.eq_zero_or_pos n with rfl | hn
    · exact fun _ => rfl
    · exact fun h => absurd h (head?_toDigits hn)
  simpa [natural?, hungroup, hvalue] using hzero

theorem wordValue?_of_digit {c : Char} {cs : List Char} {n : Nat} (hc : Decimal.isDigit c)
    (hn : natural? (c :: cs) = some n) : wordValue? (c :: cs) = some (.integer n) := by
  have hne : ∀ d : Char, Decimal.isDigit d = false → c ≠ d := by
    rintro d hd rfl
    exact Bool.false_ne_true (hd.symm.trans hc)
  have hsign : integer? (c :: cs) = (natural? (c :: cs)).map Int.ofNat := by
    simp [integer?, hne '+' (by decide), hne '-' (by decide)]
  rw [wordValue?, if_neg (by simp [hne 't' (by decide)]), if_neg (by simp [hne 'f' (by decide)]),
    hsign, hn]
  rfl

theorem toList_number (n : Nat) : (toString n).toList = Nat.toDigits 10 n := Nat.toList_repr

theorem isKeyPart_of_mem_number {n : Nat} {c : Char} (h : c ∈ (toString n).toList) : isKeyPart c := by
  rw [toList_number] at h
  have hdigit : c.isDigit := isDigit_of_mem h
  simp [isKeyPart, Char.isAlphanum, hdigit]

theorem scalar_number (n : Nat) : scalar (toString n).toList = some (.integer n, []) := by
  refine scalar_word ?_ (fun c hc => isKeyPart_of_mem_number hc) ?_ <;> rw [toList_number]
  · exact Nat.toDigits_ne_nil
  obtain ⟨d, ds, hcons⟩ := List.exists_cons_of_ne_nil (Nat.toDigits_ne_nil (n := n) (b := 10))
  have hn := natural?_toDigits n
  have hd : Decimal.isDigit d := isDigit_of_mem (hcons ▸ List.mem_cons_self)
  rw [hcons] at hn ⊢
  exact wordValue?_of_digit hd hn

/-! ## No control characters -/

theorem pair_printable : ∀ n, ∀ c ∈ Hexadecimal.pair n, isControl c = false := by
  have hdigit : ∀ d < 16, isControl (Nat.digitChar d) = false := by decide
  intro n c hc
  simp only [Hexadecimal.pair, List.mem_cons, List.not_mem_nil, or_false] at hc
  rcases hc with rfl | rfl <;> exact hdigit _ (by omega)

theorem escaped_printable (c : Char) : ∀ d ∈ escaped c, isControl d = false := by
  unfold escaped
  split
  · exact forall_of_all (by decide)
  split
  · exact forall_of_all (by decide)
  split
  · exact List.forall_mem_append.2 ⟨forall_of_all (by decide), pair_printable _⟩
  · next h =>
    simp only [List.mem_singleton, forall_eq]
    simpa [isControl] using h

theorem string_printable (s : String) : ∀ c ∈ (Written.string s).toList, isControl c = false := by
  have hquoted : ∀ {q : Char} {cs : List Char}, isControl q = false →
      (∀ c ∈ cs, isControl c = false) → ∀ c ∈ q :: (cs ++ [q]), isControl c = false :=
    fun hq hcs => List.forall_mem_cons.2
      ⟨hq, List.forall_mem_append.2 ⟨hcs, List.forall_mem_singleton.2 hq⟩⟩
  rcases string_cases s with ⟨htext, hcs⟩ | htext <;> rw [htext]
  · exact hquoted (by decide) fun c hc => (hcs c hc).2
  · refine hquoted (by decide) fun c hc => ?_
    obtain ⟨d, -, hd⟩ := List.mem_flatMap.1 hc
    exact escaped_printable d c hd

theorem isKeyPart_printable {c : Char} (h : isKeyPart c) : isControl c = false := by
  have hascii : ∀ n < 0x80, isControl (Char.ofNat n) → isKeyPart (Char.ofNat n) = false := by decide
  cases hc : isControl c with
  | false => rfl
  | true =>
    have hlt : c.toNat < 0x80 := by
      simp only [isControl, Bool.or_eq_true, decide_eq_true_eq] at hc
      omega
    have hno := hascii c.toNat hlt
    rw [Char.ofNat_toNat] at hno
    exact absurd h (Bool.eq_false_iff.1 (hno hc))

/-! ## Lines -/

/-- A key that needs no quotes. -/
def IsBare (key : String) : Prop := key.toList ≠ [] ∧ key.toList.all isKeyPart

instance (key : String) : Decidable (IsBare key) := inferInstanceAs (Decidable (_ ∧ _))

theorem mark_of_append {c : Char} {front back : List Char} (hc : isSpace c = false)
    (hfront : ∀ d ∈ front, isSpace d) (hback : ∀ d ∈ back, isSpace d)
    (hrest : ∀ d ∈ rest.head?, isSpace d = false) :
    mark c (front ++ c :: (back ++ rest)) = some ((), rest) := by
  unfold mark
  rw [bind_of_some (spaces_of_append hfront (by simpa using hc)), bind_of_some (char_cons _ _),
    spaces_of_append hback hrest]

theorem mark_of_other {c d : Char} {front : List Char} (hd : isSpace d = false) (hne : d ≠ c)
    (hfront : ∀ d ∈ front, isSpace d) (rest : List Char) : mark c (front ++ d :: rest) = none := by
  unfold mark
  rw [bind_of_some (spaces_of_append hfront (by simpa using hd)),
    bind_of_none (char_of_head (by simpa using hne))]

theorem IsBare.all {key : String} (hkey : IsBare key) : ∀ c ∈ key.toList, isKeyPart c :=
  List.all_eq_true.1 hkey.2

theorem IsBare.head {key : String} (hkey : IsBare key) (rest : List Char) :
    ∀ c ∈ (key.toList ++ rest).head?, isKeyPart c := by
  have hall := hkey.all
  obtain ⟨c, cs, hcons⟩ := List.exists_cons_of_ne_nil hkey.1
  rw [hcons] at hall ⊢
  simpa using hall c List.mem_cons_self

theorem path_bare {key : String} (hkey : IsBare key) (hrest : ∀ c ∈ rest.head?, isKeyPart c = false)
    (hdot : mark '.' rest = none) : path (key.toList ++ rest) = some ([key], rest) := by
  have hbasic : basicString (key.toList ++ rest) = none :=
    bind_of_none (char_of_isKeyPart (hkey.head rest) (by decide))
  have hliteral : literalString (key.toList ++ rest) = none :=
    bind_of_none (char_of_isKeyPart (hkey.head rest) (by decide))
  have hread := map_of_some (f := String.ofList) (bareWord_append hkey.1 hkey.all hrest)
  rw [String.ofList_toList] at hread
  exact sepBy_single ((orElse_of_none hbasic).trans ((orElse_of_none hliteral).trans hread)) hdot

theorem read?_of_content {cs : List Char} {line : Line} (hhead : ∀ c ∈ cs.head?, isSpace c = false)
    (h : content cs.length cs = some (line, [])) : read? cs = some line := by
  unfold read? whole?
  rw [bind_of_some (spaces_of_head hhead), bind_of_some h]
  rfl

theorem isSpace_of_isKeyPart {c : Char} (h : isKeyPart c) : isSpace c = false := by
  have hspace : c ≠ ' ' := by rintro rfl; exact absurd h (by decide)
  have htab : c ≠ '\t' := by rintro rfl; exact absurd h (by decide)
  simp [isSpace, hspace, htab]

theorem keyValue_entry {key : String} (hkey : IsBare key) {text : List Char} {v : Value}
    (htext : ∀ c ∈ text.head?, isSpace c = false) {reader : CharReader Value}
    (hv : reader text = some (v, [])) :
    keyValue reader (key.toList ++ ([' '] ++ '=' :: ([' '] ++ text))) = some (([key], v), []) := by
  have hdot : mark '.' ([' '] ++ '=' :: ([' '] ++ text)) = none :=
    mark_of_other (by decide) (by decide) (List.forall_mem_singleton.2 rfl) _
  have hpath := path_bare hkey (by simp; decide) hdot
  have hequals : mark '=' ([' '] ++ '=' :: ([' '] ++ text)) = some ((), text) :=
    mark_of_append (by decide) (List.forall_mem_singleton.2 rfl) (List.forall_mem_singleton.2 rfl) htext
  exact (bind_of_some hpath).trans ((bind_of_some hequals).trans (bind_of_some hv))

theorem read?_entry {key text : String} {v : Value} (hkey : IsBare key)
    (htext : ∀ c ∈ text.toList.head?, isSpace c = false)
    (hv : scalar text.toList = some (v, [])) :
    read? (Written.entry key text).toList = some (.entry [key] v) := by
  have hline : (Written.entry key text).toList =
      key.toList ++ ([' '] ++ '=' :: ([' '] ++ text.toList)) := by
    simp [Written.entry]
  rw [hline]
  have hhead := hkey.head ([' '] ++ '=' :: ([' '] ++ text.toList))
  refine read?_of_content (fun c hc => isSpace_of_isKeyPart (hhead c hc)) ?_
  obtain ⟨n, hn⟩ : ∃ n, (key.toList ++ ([' '] ++ '=' :: ([' '] ++ text.toList))).length = n + 1 :=
    Nat.exists_eq_succ_of_ne_zero (by simp)
  have hvalue : value (n + 1) text.toList = some (v, []) := orElse_of_some hv
  rw [hn]
  exact (orElse_of_none (bind_of_none (char_of_isKeyPart hhead (by decide)))).trans
    (orElse_of_some (bind_of_some (keyValue_entry hkey htext hvalue)))

theorem read?_header {name : String} (hname : IsBare name) :
    read? (Written.header name).toList = some (.header [name]) := by
  have hline : (Written.header name).toList = '[' :: (name.toList ++ [']']) := by
    simp [Written.header]
  have hspaces : spaces (name.toList ++ [']']) = some ((), name.toList ++ [']']) :=
    spaces_of_head fun c hc => isSpace_of_isKeyPart (hname.head _ c hc)
  have hdot : mark '.' ([] ++ [']']) = none :=
    mark_of_other (by decide) (by decide) (List.forall_mem_nil _) []
  have hpath : path (name.toList ++ [']']) = some ([name], [']']) :=
    path_bare hname (by simp; decide) hdot
  have hclose : spaces [']'] = some ((), [']']) := spaces_of_head (by simp; decide)
  rw [hline]
  refine read?_of_content (by simp; decide) (orElse_of_some ?_)
  rw [bind_of_some (char_cons _ _), bind_of_some hspaces, bind_of_some hpath, bind_of_some hclose,
    bind_of_some (char_cons _ _)]
  rfl

theorem read?_nil : read? [] = some .blank := rfl

end Toml.Line

end SqlCanon
