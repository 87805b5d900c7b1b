import SqlCanon.Proofs.Utf8
import SqlCanon.Proofs.Written
import SqlCanon.Settings.File

/-!
# Settings files

A document with fields in front and one table of fields is read back from its lines. Settings are such a
document, so a file that settings have been saved to gives the same settings.
-/

namespace SqlCanon

namespace Toml
open Written Line

/-! ## Fields -/

inductive Scalar where
  | string (s : String)
  | number (n : Nat)
  | boolean (b : Bool)

namespace Scalar

def text : Scalar → String
  | string s => Written.string s
  | number n => toString n
  | boolean b => Written.boolean b

def value : Scalar → Value
  | string s => .string s
  | number n => .integer n
  | boolean b => .boolean b

theorem scalar_text (x : Scalar) : scalar x.text.toList = some (x.value, []) := by
  cases x with
  | string s => exact scalar_string s
  | number n => exact scalar_number n
  | boolean b => exact scalar_boolean b

theorem text_printable (x : Scalar) : ∀ c ∈ x.text.toList, isControl c = false := by
  cases x with
  | string s => exact string_printable s
  | number n => exact fun c hc => isKeyPart_printable (isKeyPart_of_mem_number hc)
  | boolean b => cases b <;> exact forall_of_all (by decide)

theorem isSpace_head_text (x : Scalar) : ∀ c ∈ x.text.toList.head?, isSpace c = false := by
  intro c hc
  cases x with
  | string s =>
    rcases string_cases s with ⟨htext, -⟩ | htext <;> rw [text, htext] at hc <;> cases hc <;> rfl
  | number n => exact isSpace_of_isKeyPart (isKeyPart_of_mem_number (List.mem_of_mem_head? hc))
  | boolean b => cases b <;> cases hc <;> rfl

end Scalar

def Entries.given (es : Entries) : List Line := es.map fun e => .entry [e.1] e.2

abbrev Fields := List (String × Scalar)

namespace Fields

def keys (fields : Fields) : List String := fields.map Prod.fst

def lines (fields : Fields) : List String := fields.map fun f => Written.entry f.1 f.2.text

def entries (fields : Fields) : Entries := fields.map fun f => (f.1, f.2.value)

theorem keys_entries (fields : Fields) : fields.entries.map Prod.fst = fields.keys := by
  simp [entries, keys]

variable {fields : Fields} (hbare : ∀ key ∈ fields.keys, IsBare key)
include hbare

theorem read?_lines :
    (fields.lines.map String.toList).map Line.read? = fields.entries.given.map some := by
  simp only [lines, entries, Entries.given, List.map_map]
  refine List.map_congr_left fun f hf => ?_
  exact read?_entry (hbare f.1 (List.mem_map_of_mem hf)) f.2.isSpace_head_text f.2.scalar_text

theorem lines_printable : ∀ l ∈ fields.lines, ∀ c ∈ l.toList, isControl c = false := by
  refine List.forall_mem_map.2 fun f hf => ?_
  have hkey : ∀ c ∈ f.1.toList, isControl c = false := fun c hc =>
    isKeyPart_printable ((hbare f.1 (List.mem_map_of_mem hf)).all c hc)
  have hequals : ∀ c ∈ " = ".toList, isControl c = false := forall_of_all (by decide)
  simp only [Written.entry, String.toList_append]
  exact List.forall_mem_append.2 ⟨List.forall_mem_append.2 ⟨hkey, hequals⟩, f.2.text_printable⟩

end Fields

/-! ## Adding entries -/

namespace Entries
variable {es : Entries} {name : String}

theorem lookup_of_not_mem {key : String} (h : key ∉ es.map Prod.fst) : es.lookup key = none := by
  rw [List.lookup_eq_none_iff]
  intro e he
  rw [bne_iff_ne]
  rintro rfl
  exact h (List.mem_map_of_mem he)

theorem insertBelow_last (h : es.lookup name = none) (kind : TableKind) (path : List String) (v : Value)
    (sub : Entries) :
    insertBelow [name] path v (es ++ [(name, .table kind sub)]) =
      (insert path v sub).map fun sub => es ++ [(name, .table kind sub)] := by
  have hlookup : (es ++ [(name, Value.table kind sub)]).lookup name = some (.table kind sub) := by
    simp [List.lookup_append, h]
  have hreplace : ∀ v, Entries.replace (es ++ [(name, Value.table kind sub)]) name v =
      es ++ [(name, v)] := by
    intro v
    rw [List.lookup_eq_none_iff] at h
    have hkeep : ∀ e ∈ es, (if e.1 = name then (name, v) else e) = e := fun e he => by
      have hne := h e he
      simp only [bne_iff_ne] at hne
      exact if_neg hne.symm
    simp [replace, List.map_congr_left hkeep]
  simp only [insertBelow, hlookup, hreplace]

end Entries

namespace Document

/-- New keys go behind those that stand where the last header leads. -/
theorem add_entries {header : List String} (within : Entries → Entries)
    (hopen : ∀ es path v, Entries.insertBelow header path v (within es) =
      (Entries.insert path v es).map within)
    (front back : Entries) (hkeys : ((front ++ back).map Prod.fst).Nodup) :
    back.given.foldlM add ⟨within front, header⟩ =
      some ⟨within (front ++ back), header⟩ := by
  induction back generalizing front with
  | nil => simp [Entries.given]
  | cons e back ih =>
    have hfresh : front.lookup e.1 = none := by
      refine Entries.lookup_of_not_mem fun hmem => ?_
      rw [List.map_append, List.nodup_append] at hkeys
      exact hkeys.2.2 _ hmem _ List.mem_cons_self rfl
    have hinsert : Entries.insert [e.1] e.2 front = some (front ++ [e]) := by
      simp [Entries.insert, hfresh]
    have hadd : add ⟨within front, header⟩ (.entry [e.1] e.2) =
        some ⟨within (front ++ [e]), header⟩ := by
      simp [add, hopen, hinsert]
    have hrest := ih (front ++ [e]) (by simpa using hkeys)
    rw [Entries.given, List.map_cons, List.foldlM_cons, hadd]
    simpa [Entries.given] using hrest

theorem linesAfter_append (read front back : List Char) (h : '\n' ∉ front) :
    linesAfter read (front ++ back) = linesAfter (read ++ front) back := by
  induction front generalizing read with
  | nil => simp
  | cons c front ih =>
    rw [List.mem_cons, not_or] at h
    rw [List.cons_append, linesAfter, if_neg (Ne.symm h.1), ih _ h.2]
    simp

theorem lines_joined {ls : List (List Char)} (h : ∀ l ∈ ls, ∀ c ∈ l, isControl c = false) :
    lines (ls.flatMap (· ++ ['\n'])) = ls ++ [[]] := by
  induction ls with
  | nil => rfl
  | cons l ls ih =>
    rw [List.forall_mem_cons] at h
    have hnewline : '\n' ∉ l := fun hmem => absurd (h.1 _ hmem) (by decide)
    have hreturn : dropReturn l = l := by
      refine if_neg fun hlast => ?_
      exact absurd (h.1 _ (List.mem_of_getLast? hlast)) (by decide)
    rw [List.flatMap_cons, List.append_assoc, lines, linesAfter_append _ _ _ hnewline, List.nil_append,
      List.singleton_append, linesAfter, if_pos rfl, hreturn]
    exact congrArg _ (ih h.2)

theorem mapM_of_map {α β : Type} {f : α → Option β} {xs : List α} {ys : List β}
    (h : xs.map f = ys.map some) : xs.mapM f = some ys := by
  induction xs generalizing ys with
  | nil =>
    cases ys with
    | nil => rfl
    | cons y ys => cases h
  | cons x xs ih =>
    cases ys with
    | nil => cases h
    | cons y ys =>
      obtain ⟨hx, hxs⟩ := List.cons.inj h
      simp [List.mapM_cons, hx, ih hxs]

@[simp] theorem add_blank (d : Document) : d.add .blank = some d := rfl

def linesOf (front : Fields) (name : String) (sub : Fields) : List String :=
  front.lines ++ "" :: Written.header name :: sub.lines

section
variable {front sub : Fields} {name : String} (hfront : ∀ key ∈ front.keys, IsBare key)
  (hname : IsBare name) (hsub : ∀ key ∈ sub.keys, IsBare key)
include hfront hname hsub

theorem linesOf_printable : ∀ l ∈ linesOf front name sub, ∀ c ∈ l.toList, isControl c = false := by
  have hheader : ∀ c ∈ (Written.header name).toList, isControl c = false := by
    have hword : ∀ c ∈ name.toList, isControl c = false :=
      fun c hc => isKeyPart_printable (hname.all c hc)
    have hopen : ∀ c ∈ "[".toList, isControl c = false := forall_of_all (by decide)
    have hclose : ∀ c ∈ "]".toList, isControl c = false := forall_of_all (by decide)
    simp only [Written.header, String.toList_append]
    exact List.forall_mem_append.2 ⟨List.forall_mem_append.2 ⟨hopen, hword⟩, hclose⟩
  refine List.forall_mem_append.2 ⟨Fields.lines_printable hfront, List.forall_mem_cons.2 ⟨?_, ?_⟩⟩
  · exact List.forall_mem_nil _
  · exact List.forall_mem_cons.2 ⟨hheader, Fields.lines_printable hsub⟩

theorem read?_linesOf (hkeys : (front.keys ++ [name]).Nodup) (hsubkeys : sub.keys.Nodup) :
    read? (String.join ((linesOf front name sub).map (· ++ "\n"))) =
      some (front.entries ++ [(name, .table .header sub.entries)]) := by
  have hlines : lines (String.join ((linesOf front name sub).map (· ++ "\n"))).toList =
      (linesOf front name sub).map String.toList ++ [[]] := by
    rw [← lines_joined (List.forall_mem_map.2 (linesOf_printable hfront hname hsub)),
      String.toList_join]
    simp [List.flatMap_map]
  have hread : ((linesOf front name sub).map String.toList ++ [[]]).mapM Line.read? =
      some (front.entries.given ++ .blank :: .header [name] :: (sub.entries.given ++ [.blank])) := by
    refine mapM_of_map ?_
    simp only [linesOf, List.map_append, List.map_cons, List.map_nil, Fields.read?_lines hfront,
      Fields.read?_lines hsub, read?_header hname, String.toList_empty, read?_nil]
    simp
  have hnew := List.nodup_append.1 hkeys
  have hlookup : front.entries.lookup name = none := by
    refine Entries.lookup_of_not_mem fun hmem => ?_
    exact hnew.2.2 name (front.keys_entries ▸ hmem) name (List.mem_singleton_self name) rfl
  have hroot : front.entries.given.foldlM add {} = some ⟨front.entries, []⟩ :=
    add_entries id (fun es path v => by simp [Entries.insertBelow]) [] _
      (by simpa [Fields.keys_entries] using hnew.1)
  have hopen : add ⟨front.entries, []⟩ (.header [name]) =
      some ⟨front.entries ++ [(name, .table .header [])], [name]⟩ := by
    simp [add, Entries.openTable, hlookup]
  have htable := add_entries (fun es => front.entries ++ [(name, .table .header es)])
    (fun es path v => Entries.insertBelow_last hlookup .header path v es) [] sub.entries
    (by simpa [Fields.keys_entries] using hsubkeys)
  rw [List.nil_append] at htable
  rw [read?, hlines, hread]
  simp [List.foldlM_append, hroot, add_blank, hopen, htable]

end

end Document

end Toml

namespace Settings
open Toml

def fields (s : Settings) : Fields :=
  [("log_level", .string s.logLevel), ("initial_buffer_size", .number s.bufferSize.toNat)]

def ruleFields (r : Rules) : Fields :=
  [("keyword_case", .string r.keywordCase.name), ("remove_literals", .boolean r.removeLiterals),
   ("put_backtick_on_keywords", .boolean r.addBackticks),
   ("remove_backtick_on_keywords", .boolean r.stripBackticks),
   ("put_space_before_open_paren", .boolean r.spaceBeforeParen)]

theorem lines_eq (s : Settings) :
    s.lines = Document.linesOf s.fields "normalizer" (ruleFields s.rules) := rfl

def entries (s : Settings) : Entries :=
  s.fields.entries ++ [("normalizer", .table .header (ruleFields s.rules).entries)]

theorem read?_toText (s : Settings) : Document.read? s.toText = some s.entries := by
  have hkeys : s.fields.keys = ["log_level", "initial_buffer_size"] := rfl
  have hsubkeys : (ruleFields s.rules).keys = ["keyword_case", "remove_literals",
      "put_backtick_on_keywords", "remove_backtick_on_keywords", "put_space_before_open_paren"] := rfl
  rw [toText, lines_eq]
  refine Document.read?_linesOf ?_ (by decide) ?_ ?_ ?_
  · rw [hkeys]
    decide
  · rw [hsubkeys]
    decide
  · rw [hkeys]
    decide
  · rw [hsubkeys]
    decide

theorem ofEntries?_entries (s : Settings) : ofEntries? s.entries = some s := by
  have hword : Decimal.word? s.bufferSize.toNat = some s.bufferSize := by
    rw [Decimal.word?, dif_pos s.bufferSize.toNat_lt]
    simp
  have hcase : KeywordCase.ofName? s.rules.keywordCase.name = some s.rules.keywordCase := by
    cases s.rules.keywordCase <;> decide
  simp [ofEntries?, entries, fields, ruleFields, Fields.entries, Scalar.value, fieldOf, rulesOf?,
    List.lookup_cons, stringOf?, wordOf?, caseOf?, booleanOf?, hword, hcase]

end Settings

/-! ## Saving and loading -/

inductive Toml.Value.Covered : Value → Prop where
  | string (s : String) : Covered (.string s)
  | number {n : Nat} (h : n < UInt64.size) : Covered (.integer n)
  | boolean (b : Bool) : Covered (.boolean b)
  | table (kind : TableKind) {es : Entries} (h : ∀ e ∈ es, Covered e.2) : Covered (.table kind es)

namespace Settings
open Toml

/-- What saving and loading use of a library for documents. -/
structure Library where
  print? : Settings → Option String
  read? : String → Option Entries

/-- A text without control characters in which no single quote stands beside a character that would be
escaped in double quotes. -/
def IsPlain (text : String) : Prop :=
  text.toList.all (!Written.isControl ·) ∧
    ¬ ('\'' ∈ text.toList ∧ ('"' ∈ text.toList ∨ '\\' ∈ text.toList))

instance (text : String) : Decidable (IsPlain text) := inferInstanceAs (Decidable (_ ∧ _))

/-- The library has the layout and the quoting of `toText`, and gives a document with covered values the
meaning that `Document.read?` gives it. -/
structure Library.Keeps (lib : Library) : Prop where
  print? : ∀ s : Settings, IsPlain s.logLevel → lib.print? s = some s.toText
  read? : ∀ text es, Document.read? text = some es → (∀ e ∈ es, e.2.Covered) →
    lib.read? text = some es

theorem covered_entries (s : Settings) : ∀ e ∈ s.entries, e.2.Covered := by
  have hrules : ∀ e ∈ (ruleFields s.rules).entries, e.2.Covered := by
    simp only [ruleFields, Fields.entries, List.map_cons, List.map_nil, List.forall_mem_cons]
    exact ⟨.string _, .boolean _, .boolean _, .boolean _, .boolean _, List.forall_mem_nil _⟩
  refine List.forall_mem_append.2 ⟨?_, List.forall_mem_singleton.2 (.table _ hrules)⟩
  simp only [fields, Fields.entries, List.map_cons, List.map_nil, List.forall_mem_cons]
  exact ⟨.string _, .number s.bufferSize.toNat_lt, List.forall_mem_nil _⟩

theorem load_of_read? {read? : String → Option Entries} {text : String} {s : Settings}
    (h : read? text = some s.entries) : load read? (Utf8.encode text) = .ok s := by
  simp [load, Utf8.text?_encode, ofText?, h, ofEntries?_entries]

/-- **Saved settings load.** The text of any settings, valid or not, is read back as these settings. So is
what any library writes that keeps to the layout and to the meaning of documents. -/
theorem load_saved (s : Settings) :
    ofBytes (Utf8.encode s.toText) = .ok s ∧
      ∀ lib : Library, lib.Keeps → IsPlain s.logLevel →
        ∃ text, lib.print? s = some text ∧ load lib.read? (Utf8.encode text) = .ok s := by
  refine ⟨load_of_read? s.read?_toText, fun lib hlib hs => ⟨s.toText, hlib.print? s hs, ?_⟩⟩
  exact load_of_read? (hlib.read? _ _ s.read?_toText s.covered_entries)

theorem load_saved_quoted :
    let s : Settings :=
      { logLevel := "\"a\\b\"", bufferSize := 18446744073709551615
        rules := { keywordCase := .upper, addBackticks := true, stripBackticks := true } }
    let lib : Library := ⟨fun s => some s.toText, Document.read?⟩
    lib.Keeps ∧ IsPlain s.logLevel ∧ s.rules.validate ≠ .ok () ∧
      s.toText = "log_level = '\"a\\b\"'\ninitial_buffer_size = 18446744073709551615\n\n" ++
        "[normalizer]\nkeyword_case = \"upper\"\nremove_literals = false\n" ++
        "put_backtick_on_keywords = true\nremove_backtick_on_keywords = true\n" ++
        "put_space_before_open_paren = false\n" ∧
      ∃ text, lib.print? s = some text ∧ load lib.read? (Utf8.encode text) = .ok s := by
  intro s lib
  have hlib : lib.Keeps := ⟨fun _ _ => rfl, fun _ _ h _ => h⟩
  have hplain : IsPlain s.logLevel := by decide
  exact ⟨hlib, hplain, by decide, by decide +kernel, (load_saved s).2 lib hlib hplain⟩

end Settings

end SqlCanon
