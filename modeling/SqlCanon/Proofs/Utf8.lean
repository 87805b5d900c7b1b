import SqlCanon.Text.Utf8

/-!
# Text as bytes

Decoding undoes encoding. A row of bytes that is the encoding of a text may be cut behind or before
a byte of ASCII, and both parts are encodings again.
-/

namespace SqlCanon.Utf8

theorem encode_eq (s : String) : encode s = s.toList.flatMap String.utf8EncodeChar := by
  conv => lhs; rw [← String.ofList_toList (s := s)]
  exact List.toList_data_toByteArray

/-! ## Decoding one character -/

theorem beq_eq_decide (b c : UInt8) : (b == c) = decide (b.toNat = c.toNat) := by
  rw [Bool.eq_iff_iff]
  simp [UInt8.toNat_inj]

section
variable {b : UInt8} {n : Nat}

theorem lead?_two (hb : b.toNat = n + 192) (h₁ : 2 ≤ n) (h₂ : n < 32) :
    lead? b = some ⟨1, 0x80, 0xbf, n⟩ := by
  simp [lead?, UInt8.le_iff_toNat_le, hb]
  omega

theorem lead?_three (hb : b.toNat = n + 224) (hn : n < 16) :
    lead? b = some ⟨2, if n = 0 then 0xa0 else 0x80, if n = 13 then 0x9f else 0xbf, n⟩ := by
  simp only [lead?, UInt8.le_iff_toNat_le, beq_eq_decide, hb]
  by_cases h0 : n = 0
  · subst h0; rfl
  by_cases h13 : n = 13
  · subst h13; rfl
  simp [h0, h13]
  omega

theorem lead?_four (hb : b.toNat = n + 240) (hn : n < 5) :
    lead? b = some ⟨3, if n = 0 then 0x90 else 0x80, if n = 4 then 0x8f else 0xbf, n⟩ := by
  simp only [lead?, UInt8.le_iff_toNat_le, beq_eq_decide, hb]
  by_cases h0 : n = 0
  · subst h0; rfl
  by_cases h4 : n = 4
  · subst h4; rfl
  simp [h0, h4]
  omega

end

section
variable {b : UInt8} (rest : Bytes)

theorem decodeFrom_ascii (hb : b.toNat < 0x80) :
    decodeFrom none (b :: rest) = some (Char.ofNat b.toNat) :: decodeFrom none rest := by
  have hlt : b < 0x80 := UInt8.lt_iff_toNat_lt.2 hb
  simp [decodeFrom, start, hlt]

theorem decodeFrom_lead {p : Pending} (hb : 0x80 ≤ b.toNat) (hp : lead? b = some p) :
    decodeFrom none (b :: rest) = decodeFrom (some p) rest := by
  have hle : ¬ b < 0x80 := UInt8.not_lt.2 (UInt8.le_iff_toNat_le.2 hb)
  simp [decodeFrom, start, hp, hle]

def trail (n : Nat) : UInt8 := .ofNat (n % 64 + 128)

theorem toNat_ofNat_add {m k : Nat} (h : m + k < 256) : (UInt8.ofNat (m + k)).toNat = m + k := by
  rw [UInt8.toNat_ofNat', Nat.mod_eq_of_lt h]

theorem toNat_trail (n : Nat) : (trail n).toNat = n % 64 + 128 := toNat_ofNat_add (by omega)

variable {low high : UInt8} {value n : Nat} (h₁ : low.toNat ≤ n % 64 + 128)
  (h₂ : n % 64 + 128 ≤ high.toNat)
include h₁ h₂

theorem trail_in_range : low ≤ trail n ∧ trail n ≤ high := by
  rw [UInt8.le_iff_toNat_le, UInt8.le_iff_toNat_le, toNat_trail]
  exact ⟨h₁, h₂⟩

theorem decodeFrom_last :
    decodeFrom (some ⟨1, low, high, value⟩) (trail n :: rest) =
      some (Char.ofNat (value * 64 + n % 64)) :: decodeFrom none rest := by
  have hn : (n % 64 + 128) % 64 = n % 64 := by omega
  simp only [decodeFrom, trail_in_range h₁ h₂, toNat_trail, hn, decide_true, Bool.and_self,
    if_true, Nat.le_refl]

theorem decodeFrom_more {owed : Nat} :
    decodeFrom (some ⟨owed + 2, low, high, value⟩) (trail n :: rest) =
      decodeFrom (some ⟨owed + 1, 0x80, 0xbf, value * 64 + n % 64⟩) rest := by
  have hn : (n % 64 + 128) % 64 = n % 64 := by omega
  have howed : ¬ owed + 2 ≤ 1 := by omega
  simp only [decodeFrom, trail_in_range h₁ h₂, toNat_trail, hn, howed, decide_true, Bool.and_self,
    if_true, if_false]
  rfl

end

section
variable {v : Nat} (rest : Bytes)

theorem decodeFrom_two (h₁ : 0x80 ≤ v) (h₂ : v < 0x800) :
    decodeFrom none (.ofNat (v / 64 % 32 + 192) :: trail v :: rest) =
      some (Char.ofNat v) :: decodeFrom none rest := by
  have hb : (UInt8.ofNat (v / 64 % 32 + 192)).toNat = v / 64 + 192 := by
    rw [toNat_ofNat_add (by omega)]
    omega
  have hv : v / 64 * 64 + v % 64 = v := by omega
  rw [decodeFrom_lead _ (by omega) (lead?_two hb (by omega) (by omega)),
    decodeFrom_last _ (show 128 ≤ _ by omega) (show _ ≤ 191 by omega), hv]

theorem decodeFrom_three (h₁ : 0x800 ≤ v) (h₂ : v < 0x10000) (h₃ : v < 0xd800 ∨ 0xdfff < v) :
    decodeFrom none (.ofNat (v / 4096 % 16 + 224) :: trail (v / 64) :: trail v :: rest) =
      some (Char.ofNat v) :: decodeFrom none rest := by
  have hb : (UInt8.ofNat (v / 4096 % 16 + 224)).toNat = v / 4096 + 224 := by
    rw [toNat_ofNat_add (by omega)]
    omega
  have hlow : (if v / 4096 = 0 then 0xa0 else 0x80 : UInt8).toNat ≤ v / 64 % 64 + 128 := by
    split
    · show 160 ≤ _; omega
    · show 128 ≤ _; omega
  have hhigh : v / 64 % 64 + 128 ≤ (if v / 4096 = 13 then 0x9f else 0xbf : UInt8).toNat := by
    split
    · show _ ≤ 159; omega
    · show _ ≤ 191; omega
  have hv : (v / 4096 * 64 + v / 64 % 64) * 64 + v % 64 = v := by omega
  rw [decodeFrom_lead _ (by omega) (lead?_three hb (by omega)), decodeFrom_more _ hlow hhigh,
    decodeFrom_last _ (show 128 ≤ _ by omega) (show _ ≤ 191 by omega), hv]

theorem decodeFrom_four (h₁ : 0x10000 ≤ v) (h₂ : v < 0x110000) :
    decodeFrom none
        (.ofNat (v / 262144 % 8 + 240) :: trail (v / 4096) :: trail (v / 64) :: trail v :: rest) =
      some (Char.ofNat v) :: decodeFrom none rest := by
  have hb : (UInt8.ofNat (v / 262144 % 8 + 240)).toNat = v / 262144 + 240 := by
    rw [toNat_ofNat_add (by omega)]
    omega
  have hlow : (if v / 262144 = 0 then 0x90 else 0x80 : UInt8).toNat ≤ v / 4096 % 64 + 128 := by
    split
    · show 144 ≤ _; omega
    · show 128 ≤ _; omega
  have hhigh : v / 4096 % 64 + 128 ≤ (if v / 262144 = 4 then 0x8f else 0xbf : UInt8).toNat := by
    split
    · show _ ≤ 143; omega
    · show _ ≤ 191; omega
  have hv : ((v / 262144 * 64 + v / 4096 % 64) * 64 + v / 64 % 64) * 64 + v % 64 = v := by omega
  rw [decodeFrom_lead _ (by omega) (lead?_four hb (by omega)), decodeFrom_more _ hlow hhigh,
    decodeFrom_more _ (show 128 ≤ _ by omega) (show _ ≤ 191 by omega),
    decodeFrom_last _ (show 128 ≤ _ by omega) (show _ ≤ 191 by omega), hv]

end

theorem decodeFrom_encodeChar (c : Char) (rest : Bytes) :
    decodeFrom none (String.utf8EncodeChar c ++ rest) = some c :: decodeFrom none rest := by
  have hv : c.val.toNat < 0xd800 ∨ 0xdfff < c.val.toNat ∧ c.val.toNat < 0x110000 := c.valid
  have hc : Char.ofNat c.val.toNat = c := Char.ofNat_toNat c
  rw [String.utf8EncodeChar.eq_1]
  generalize c.val.toNat = v at hv hc ⊢
  subst hc
  by_cases h₁ : v ≤ 127
  · have hb : (UInt8.ofNat v).toNat = v := by
      rw [UInt8.toNat_ofNat', Nat.mod_eq_of_lt (by omega)]
    rw [if_pos h₁, List.singleton_append, decodeFrom_ascii _ (by omega), hb]
  rw [if_neg h₁]
  by_cases h₂ : v ≤ 2047
  · rw [if_pos h₂]
    exact decodeFrom_two rest (by omega) (by omega)
  rw [if_neg h₂]
  by_cases h₃ : v ≤ 65535
  · rw [if_pos h₃]
    exact decodeFrom_three rest (by omega) (by omega) (by omega)
  · rw [if_neg h₃]
    exact decodeFrom_four rest (by omega) (by omega)

/-! ## Whole texts -/

theorem decode_encode (s : String) : decode (encode s) = s.toList.map some := by
  rw [encode_eq, decode]
  induction s.toList with
  | nil => rfl
  | cons c cs ih => rw [List.flatMap_cons, decodeFrom_encodeChar, ih, List.map_cons]

theorem text?_encode (s : String) : text? (encode s) = some s := by
  simp [text?, decode_encode, List.filterMap_map]

theorem lossy_encode (s : String) : lossy (encode s) = s := by
  simp [lossy, decode_encode, Function.comp_def]

theorem encode_injective {s t : String} (h : encode s = encode t) : s = t := by
  rw [← lossy_encode s, h, lossy_encode]

theorem encode_append (s t : String) : encode (s ++ t) = encode s ++ encode t := by
  rw [encode_eq, encode_eq, encode_eq, String.toList_append, List.flatMap_append]

def IsText (bs : Bytes) : Prop := ∃ s : String, bs = encode s

theorem isText_iff {bs : Bytes} :
    IsText bs ↔ ∃ cs : List Char, bs = cs.flatMap String.utf8EncodeChar := by
  constructor
  · rintro ⟨s, rfl⟩
    exact ⟨s.toList, encode_eq s⟩
  · rintro ⟨cs, rfl⟩
    exact ⟨String.ofList cs, by rw [encode_eq, String.toList_ofList]⟩

theorem IsText.lossy_eq {bs : Bytes} (h : IsText bs) :
    text? bs = some (lossy bs) ∧ encode (lossy bs) = bs := by
  obtain ⟨s, rfl⟩ := h
  rw [text?_encode, lossy_encode]
  exact ⟨rfl, rfl⟩

theorem isText_nil : IsText [] := ⟨"", rfl⟩

theorem IsText.append {as bs : Bytes} (ha : IsText as) (hb : IsText bs) : IsText (as ++ bs) := by
  obtain ⟨s, rfl⟩ := ha
  obtain ⟨t, rfl⟩ := hb
  exact ⟨s ++ t, (encode_append s t).symm⟩

theorem isText_flatten {parts : List Bytes} (h : ∀ p ∈ parts, IsText p) : IsText parts.flatten := by
  induction parts with
  | nil => exact isText_nil
  | cons p ps ih =>
    exact (h p List.mem_cons_self).append (ih fun q hq => h q (List.mem_cons_of_mem _ hq))

/-! ## Cutting a text -/

/-- A place between two bytes of which one is ASCII. -/
def Seam (front back : Bytes) : Prop :=
  (∀ b ∈ front.getLast?, b < 0x80) ∨ (∀ b ∈ back.head?, b < 0x80)

theorem encodeChar_cases (c : Char) :
    (∃ b, b < 0x80 ∧ String.utf8EncodeChar c = [b]) ∨
      ∀ b ∈ String.utf8EncodeChar c, 0x80 ≤ b := by
  rw [String.utf8EncodeChar.eq_1]
  generalize c.val.toNat = v
  by_cases h₁ : v ≤ 127
  · rw [if_pos h₁]
    refine .inl ⟨_, ?_, rfl⟩
    rw [UInt8.lt_iff_toNat_lt, UInt8.toNat_ofNat', Nat.mod_eq_of_lt (by omega)]
    exact Nat.lt_succ_of_le h₁
  · have hadd : ∀ {m k : Nat}, 128 ≤ k → m + k < 256 → 0x80 ≤ UInt8.ofNat (m + k) := by
      intro m k hk hlt
      rw [UInt8.le_iff_toNat_le, toNat_ofNat_add hlt]
      exact Nat.le_add_left_of_le hk
    right
    rw [if_neg h₁]
    split
    · simp only [List.forall_mem_cons]
      exact ⟨hadd (by omega) (by omega), hadd (by omega) (by omega), by simp⟩
    split
    · simp only [List.forall_mem_cons]
      exact ⟨hadd (by omega) (by omega), hadd (by omega) (by omega), hadd (by omega) (by omega),
        by simp⟩
    · simp only [List.forall_mem_cons]
      exact ⟨hadd (by omega) (by omega), hadd (by omega) (by omega), hadd (by omega) (by omega),
        hadd (by omega) (by omega), by simp⟩

theorem isText_singleton {b : UInt8} (hb : b < 0x80) : IsText [b] := by
  have hlt : b.toNat < 128 := UInt8.lt_iff_toNat_lt.1 hb
  have hval : b.toUInt32.toNat = b.toNat := UInt8.toNat_toUInt32 b
  have hvalid : b.toUInt32.isValidChar := .inl (by omega)
  refine isText_iff.2 ⟨[⟨b.toUInt32, hvalid⟩], ?_⟩
  rw [List.flatMap_singleton, String.utf8EncodeChar.eq_1, hval, if_pos (by omega),
    UInt8.ofNat_toNat]

theorem not_seam_of_encodeChar {c : Char} {front back rest : Bytes}
    (hc : String.utf8EncodeChar c = front ++ back) (hf : front ≠ []) (hb : back ≠ []) :
    ¬ Seam front (back ++ rest) := by
  rcases encodeChar_cases c with ⟨b, -, hone⟩ | hall
  · rw [hone] at hc
    have hlen := congrArg List.length hc
    have h₁ := List.length_pos_iff.2 hf
    have h₂ := List.length_pos_iff.2 hb
    rw [List.length_append, List.length_singleton] at hlen
    omega
  · rw [hc] at hall
    rintro (h | h)
    · have hlast := List.getLast?_eq_some_getLast hf
      exact UInt8.not_lt.2 (hall _ (List.mem_append_left _ (List.getLast_mem hf))) (h _ hlast)
    · obtain ⟨b, back, rfl⟩ := List.exists_cons_of_ne_nil hb
      exact UInt8.not_lt.2 (hall b (by simp)) (h b rfl)

theorem IsText.split {front back : Bytes} (h : IsText (front ++ back)) (hseam : Seam front back) :
    IsText front ∧ IsText back := by
  obtain ⟨cs, hcs⟩ := isText_iff.1 h
  induction cs generalizing front with
  | nil =>
    obtain ⟨rfl, rfl⟩ := List.append_eq_nil_iff.1 hcs
    exact ⟨isText_nil, isText_nil⟩
  | cons c cs ih =>
    rw [List.flatMap_cons] at hcs
    have hchar : IsText (String.utf8EncodeChar c) := isText_iff.2 ⟨[c], by simp⟩
    have hrest : IsText (cs.flatMap String.utf8EncodeChar) := isText_iff.2 ⟨cs, rfl⟩
    rcases List.append_eq_append_iff.1 hcs with ⟨mid, hc, rfl⟩ | ⟨front', rfl, hback⟩
    · by_cases hfront : front = []
      · subst hfront
        exact ⟨isText_nil, h⟩
      by_cases hmid : mid = []
      · subst hmid
        rw [List.append_nil] at hc
        exact ⟨hc ▸ hchar, hrest⟩
      · exact absurd hseam (not_seam_of_encodeChar hc hfront hmid)
    · have hseam' : Seam front' back := by
        rcases hseam with h | h
        · left
          intro b hb
          exact h b (by rw [List.getLast?_append, hb]; rfl)
        · exact .inr h
      obtain ⟨h₁, h₂⟩ := ih (hback ▸ hrest) hseam' hback.symm
      exact ⟨hchar.append h₁, h₂⟩

/-- A place in a text at which a character starts or the text ends. -/
def IsBoundary (s : String) (p : Nat) : Prop :=
  ∃ front back : String, s = front ++ back ∧ (encode front).length = p

theorem isBoundary_of_split {s : String} {front back : Bytes} (h : encode s = front ++ back)
    (hf : IsText front) (hb : IsText back) : IsBoundary s front.length := by
  obtain ⟨t, rfl⟩ := hf
  obtain ⟨u, rfl⟩ := hb
  exact ⟨t, u, encode_injective (by rw [h, encode_append]), rfl⟩

/-! ## Changing bytes of ASCII -/

/-- A change of letter case and the like: bytes of ASCII go to bytes of ASCII, and all others stay. -/
structure FixesHigh (f : UInt8 → UInt8) : Prop where
  low : ∀ b, b < 0x80 → f b < 0x80
  high : ∀ b, 0x80 ≤ b → f b = b

theorem IsText.map {f : UInt8 → UInt8} (hf : FixesHigh f) {bs : Bytes} (h : IsText bs) :
    IsText (bs.map f) := by
  obtain ⟨cs, rfl⟩ := isText_iff.1 h
  induction cs with
  | nil => exact isText_nil
  | cons c cs ih =>
    rw [List.flatMap_cons, List.map_append]
    refine IsText.append ?_ (ih (isText_iff.2 ⟨cs, rfl⟩))
    rcases encodeChar_cases c with ⟨b, hb, hone⟩ | hall
    · rw [hone]
      exact isText_singleton (hf.low b hb)
    · rw [List.map_congr_left fun b hb => hf.high b (hall b hb), List.map_id']
      exact isText_iff.2 ⟨[c], by simp⟩

end SqlCanon.Utf8
