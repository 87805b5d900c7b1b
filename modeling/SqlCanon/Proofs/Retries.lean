import Mathlib.Data.Nat.Find
import SqlCanon.Proofs.Growth
import SqlCanon.Proofs.Reach

/-!
# Retries with larger buffers

A run that asks for a text tries buffers of doubled size. The sizes that it tries depend on the length of
the output and on the first size alone. For a source that is not too long there are two retries at most.
-/

namespace SqlCanon.Lexer

theorem doubled_pos {capacity : Nat} (pos : 0 < capacity) :
    0 < min (capacity * 2) maximumBuffer := by
  have hmax : 0 < maximumBuffer := by decide
  omega

def tries (need capacity : Nat) (pos : 0 < capacity) : List Nat :=
  if need ≤ capacity ∨ maximumBuffer ≤ capacity then [capacity]
  else capacity :: tries need (min (capacity * 2) maximumBuffer) (doubled_pos pos)
termination_by maximumBuffer - capacity

def triesLog (need : Nat) : List Nat → List Event
  | [] => []
  | [size] => tooSmall need size
  | size :: sizes => tooSmall need size ++ .retrying (size * 2) :: triesLog need sizes

theorem tries_ne_nil (need capacity : Nat) (pos : 0 < capacity) : tries need capacity pos ≠ [] := by
  unfold tries
  split <;> simp

def lastTry (need capacity : Nat) (pos : 0 < capacity) : Nat :=
  (tries need capacity pos).getLast (tries_ne_nil need capacity pos)

section
variable {need capacity : Nat} (pos : 0 < capacity)

theorem tries_of_done (h : need ≤ capacity ∨ maximumBuffer ≤ capacity) :
    tries need capacity pos = [capacity] := by
  rw [tries, if_pos h]

theorem tries_of_short (h₁ : capacity < need) (h₂ : capacity < maximumBuffer) :
    tries need capacity pos =
      capacity :: tries need (min (capacity * 2) maximumBuffer) (doubled_pos pos) := by
  rw [tries, if_neg (by omega)]

theorem lastTry_of_done (h : need ≤ capacity ∨ maximumBuffer ≤ capacity) :
    lastTry need capacity pos = capacity := by
  simp [lastTry, tries_of_done pos h]

theorem lastTry_of_short (h₁ : capacity < need) (h₂ : capacity < maximumBuffer) :
    lastTry need capacity pos =
      lastTry need (min (capacity * 2) maximumBuffer) (doubled_pos pos) := by
  simp [lastTry, tries_of_short pos h₁ h₂, List.getLast_cons (tries_ne_nil _ _ _)]

theorem triesLog_of_short (h₁ : capacity < need) (h₂ : capacity < maximumBuffer) :
    triesLog need (tries need capacity pos) =
      .outputTruncated capacity capacity :: .retrying (capacity * 2) ::
        triesLog need (tries need (min (capacity * 2) maximumBuffer) (doubled_pos pos)) := by
  have hne := tries_ne_nil need (min (capacity * 2) maximumBuffer) (doubled_pos pos)
  rw [tries_of_short pos h₁ h₂]
  generalize tries need (min (capacity * 2) maximumBuffer) (doubled_pos pos) = sizes at hne
  obtain ⟨size, sizes, rfl⟩ := List.exists_cons_of_ne_nil hne
  simp [triesLog, tooSmall, Nat.not_le.2 h₁]

/-- As long as the largest buffer holds the output, the sizes double up to the first that holds it. -/
theorem triesLog_eq {k : Nat} (hmax : need ≤ maximumBuffer) (hk : need ≤ capacity * 2 ^ k)
    (hleast : ∀ j < k, capacity * 2 ^ j < need) :
    triesLog need (tries need capacity pos) = (List.range k).flatMap fun j =>
      [.outputTruncated (capacity * 2 ^ j) (capacity * 2 ^ j), .retrying (capacity * 2 ^ (j + 1))] := by
  induction k generalizing capacity with
  | zero =>
    have hfits : need ≤ capacity := by simpa using hk
    simp [tries_of_done pos (.inl hfits), triesLog, tooSmall, hfits]
  | succ k ih =>
    have hshort : capacity < need := by simpa using hleast 0 (Nat.succ_pos k)
    have hdouble : ∀ j, capacity * 2 * 2 ^ j = capacity * 2 ^ (j + 1) := fun j => by
      rw [Nat.pow_succ, Nat.mul_comm (2 ^ j), Nat.mul_assoc]
    rw [triesLog_of_short pos hshort (by omega)]
    rcases Nat.lt_or_ge maximumBuffer (capacity * 2) with h | h
    · -- a size that the limit cuts down is the last one
      obtain rfl : k = 0 := by
        rcases Nat.eq_zero_or_pos k with h₀ | h₀
        · exact h₀
        · have h₁ := hleast 1 (by omega)
          omega
      simp only [Nat.min_eq_right (Nat.le_of_lt h)]
      simp [tries_of_done, hmax, triesLog, tooSmall]
    · have hpos : 0 < capacity * 2 := by omega
      have hrest := ih hpos (by rwa [hdouble]) fun j hj => by
        rw [hdouble]
        exact hleast _ (Nat.succ_lt_succ hj)
      simp only [Nat.min_eq_left h, hrest, hdouble, List.range_succ_eq_map, List.flatMap_cons,
        List.flatMap_map]
      simp

theorem le_lastTry (hmax : need ≤ maximumBuffer) : need ≤ lastTry need capacity pos := by
  induction h : maximumBuffer - capacity using Nat.strongRecOn generalizing capacity with
  | _ n ih =>
    by_cases hdone : need ≤ capacity ∨ maximumBuffer ≤ capacity
    · rw [lastTry_of_done pos hdone]
      omega
    · rw [not_or, Nat.not_le, Nat.not_le] at hdone
      rw [lastTry_of_short pos hdone.1 hdone.2]
      exact ih _ (by omega) (doubled_pos pos) rfl

end

/-! ## The run that tries them -/

theorem bind_eq (lx : Lexer) (source : Bytes) :
    lx.bind source = ⟨source, 0, (lx.bind source).arena, (lx.bind source).log⟩ := by
  simp only [bind]
  split <;> rfl

theorem bind_after_run (lx : Lexer) (source : Bytes) (n : Nat) (entries : List Event) :
    bind { (nextMany n (lx.bind source)).2 with log := entries } source =
      { lx.bind source with log := entries } := by
  have hroomy := roomy_bind lx source
  have harena := arena_nextMany hroomy.1 n
  rw [Roomy, source_bind] at hroomy
  rw [bind_of_roomy (by rw [harena]; exact hroomy.1) (by rw [harena]; exact hroomy.2), harena,
    bind_eq lx source]

section
variable {r : Rules} (hr : r.validate = .ok ()) {source : Bytes} {capacity : Nat}
include hr

theorem grow_of_short (lx : Lexer) (pos : 0 < capacity) (hneed : capacity < (r.text source).length)
    (hmax : capacity < maximumBuffer) :
    lx.grow r source capacity pos =
      ((lx.normalize r source (List.replicate capacity 0)).2.record (.retrying (capacity * 2))).grow
        r source (min (capacity * 2) maximumBuffer) (doubled_pos pos) := by
  have hresult : (lx.normalize r source (List.replicate capacity 0)).1.result =
      .error (.bufferTooSmall capacity capacity) := by
    rw [normalize_eq r lx hr, List.length_replicate]
    exact if_neg (Nat.not_le.2 hneed)
  rw [grow]
  simp only [hresult]
  exact dif_pos ⟨rfl, hmax⟩

theorem grow_of_done (lx : Lexer) (pos : 0 < capacity)
    (h : (r.text source).length ≤ capacity ∨ maximumBuffer ≤ capacity) :
    lx.grow r source capacity pos =
      (if (r.text source).length ≤ capacity then .ok (Utf8.lossy (r.text source))
        else .error (.bufferTooSmall capacity capacity),
        (lx.normalize r source (List.replicate capacity 0)).2) := by
  have hresult : (lx.normalize r source (List.replicate capacity 0)).1.result =
      if (r.text source).length ≤ capacity then .ok ()
      else .error (.bufferTooSmall capacity capacity) := by
    rw [normalize_eq r lx hr, List.length_replicate]
  rw [grow]
  by_cases hle : (r.text source).length ≤ capacity
  · rw [if_pos hle] at hresult
    simp only [hresult, hle, if_true, output_of_ok hr hresult]
  · rw [if_neg hle] at hresult
    simp only [hresult, hle, if_false]
    exact dif_neg (by omega)

/-- The result of a run depends on its source and on the first size alone, and its lexer stands behind
the tokens that the last try took. -/
theorem grow_eq_tries {need : Nat} (hneed : (r.text source).length = need)
    (lx : Lexer) (pos : 0 < capacity) :
    lx.grow r source capacity pos =
      (if need ≤ lastTry need capacity pos then .ok (Utf8.lossy (r.text source))
        else .error (.bufferTooSmall (lastTry need capacity pos) (lastTry need capacity pos)),
        { (nextMany (r.looks (lastTry need capacity pos) none (lexemes source)) (lx.bind source)).2 with
          log := (lx.bind source).log ++ triesLog need (tries need capacity pos) }) := by
  subst hneed
  induction h : maximumBuffer - capacity using Nat.strongRecOn generalizing lx capacity with
  | _ n ih =>
    have hlexer := normalize_lexer r hr lx source (List.replicate capacity 0)
    rw [List.length_replicate] at hlexer
    by_cases hdone : (r.text source).length ≤ capacity ∨ maximumBuffer ≤ capacity
    · rw [grow_of_done hr lx pos hdone, hlexer, lastTry_of_done pos hdone, tries_of_done pos hdone]
      rfl
    · -- the next run finds the lexer as this one did, but for the log
      rw [not_or, Nat.not_le, Nat.not_le] at hdone
      obtain ⟨hlt, hmax⟩ := hdone
      have hbind := bind_after_run lx source (r.looks capacity none (lexemes source))
        ((lx.bind source).log ++ tooSmall (r.text source).length capacity ++ [.retrying (capacity * 2)])
      rw [grow_of_short hr lx pos hlt hmax, hlexer, ih _ (by omega) _ (doubled_pos pos) rfl, record,
        hbind, nextMany_log, triesLog_of_short pos hlt hmax, lastTry_of_short pos hlt hmax]
      simp [tooSmall, Nat.not_le.2 hlt]

end

theorem exists_least_doubling {need capacity m : Nat} (h : need ≤ capacity * 2 ^ m) :
    ∃ k ≤ m, need ≤ capacity * 2 ^ k ∧ ∀ j < k, capacity * 2 ^ j < need := by
  have hex : ∃ k, need ≤ capacity * 2 ^ k := ⟨m, h⟩
  refine ⟨Nat.find hex, Nat.find_min' hex h, Nat.find_spec hex, fun j hj => ?_⟩
  exact Nat.not_le.1 (Nat.find_min hex hj)

theorem retries_le {need capacity k m : Nat} (hleast : ∀ j < k, capacity * 2 ^ j < need)
    (h : need ≤ capacity * 2 ^ m) : k ≤ m := by
  rcases Nat.lt_or_ge m k with hlt | hle
  · exact absurd h (Nat.not_le.2 (hleast m hlt))
  · exact hle

theorem grow_of_invalid {r : Rules} {fault : Fault} (hr : r.validate = .error fault) (lx : Lexer)
    (source : Bytes) (capacity : Nat) (pos : 0 < capacity) :
    lx.grow r source capacity pos = (.error fault, lx.record (.rulesRejected fault)) := by
  have hsmall : ¬ (fault.isBufferTooSmall ∧ capacity < maximumBuffer) := by
    have hconfig := Rules.isConfiguration_of_validate hr
    cases fault <;> simp_all [Fault.isConfiguration, Fault.isBufferTooSmall]
  rw [grow, normalize_of_invalid hr]
  exact dif_neg hsmall

/-- **Retries.** Rules that do not go together fail at once. Under all others the text of a source that is
not too long comes back whole, after just as many doublings of the first size as it takes to hold it. These
are two at most, and without added backticks one. -/
theorem normalizeText_retries (lx : Lexer) (r : Rules) (source : Bytes) (initial : Nat) :
    (∀ fault, r.validate = .error fault → fault.isConfiguration ∧
      lx.normalizeText r source initial = (.error fault, lx.record (.rulesRejected fault))) ∧
    (r.validate = .ok () → 4 * source.length ≤ maximumBuffer →
      let full := r.textAfter none ((lx.bind source).rest.1.map (·.lexeme source))
      let first := max (max initial source.length) 1
      (∀ buffer, full.length ≤ buffer.length → (lx.normalize r source buffer).1.output = full) ∧
        (lx.normalizeText r source initial).1 = .ok (Utf8.lossy full) ∧
        ∃ k ≤ 2, full.length ≤ first * 2 ^ k ∧ (∀ j < k, first * 2 ^ j < full.length) ∧
          (r.addBackticks = false → k ≤ 1) ∧
          (lx.normalizeText r source initial).2.log = (lx.bind source).log ++
            (List.range k).flatMap fun j =>
              [.outputTruncated (first * 2 ^ j) (first * 2 ^ j), .retrying (first * 2 ^ (j + 1))]) := by
  refine ⟨fun fault hr => ⟨Rules.isConfiguration_of_validate hr, grow_of_invalid hr _ _ _ _⟩, ?_⟩
  intro hr hlength full first
  have hfull : full = r.text source := textAfter_rest_bind r lx source
  have hfirst : source.length ≤ first := by omega
  have hpos : 0 < first := by omega
  have hmax : (r.text source).length ≤ maximumBuffer := by
    have hbound := r.length_text_le_doubled source (Nat.le_refl _) r.growth_le_four
    omega
  obtain ⟨k, hk, hfits, hleast⟩ :=
    exists_least_doubling (r.length_text_le_doubled source hfirst r.growth_le_four)
  have hrun : lx.normalizeText r source initial = _ := grow_eq_tries hr rfl lx hpos
  rw [hrun, hfull]
  refine ⟨fun buffer hb => output_of_ok hr (result_of_fits lx hr hb), ?_, k, hk, hfits, hleast, ?_, ?_⟩
  · rw [if_pos (le_lastTry hpos hmax)]
  · intro hadd
    have hgrowth : r.growth ≤ 2 ^ 1 := by simp [Rules.growth, hadd]
    exact retries_le hleast (r.length_text_le_doubled source hfirst hgrowth)
  · rw [triesLog_eq hpos hmax hfits hleast]

theorem normalizeText_retries_twice :
    let r : Rules := { addBackticks := true }
    let source := Utf8.encode "a.b"
    r.validate = .ok () ∧ 4 * source.length ≤ maximumBuffer ∧
      (({} : Lexer).normalizeText r source 0).1 = .ok "`a`.`b`" ∧
      (({} : Lexer).normalizeText r source 0).2.log =
        [.arenaGrown 0 1024, .outputTruncated 3 3, .retrying 6, .outputTruncated 6 6, .retrying 12] := by
  intro r source
  have hlength : 4 * source.length ≤ maximumBuffer := by decide +kernel
  have htext : r.textAfter none ((({} : Lexer).bind source).rest.1.map (·.lexeme source)) =
      Utf8.encode "`a`.`b`" := by
    rw [textAfter_rest_bind]
    decide +kernel
  obtain ⟨-, hvalid⟩ := normalizeText_retries {} r source 0
  obtain ⟨-, hresult, k, hk, hfits, -, -, hlog⟩ := hvalid rfl hlength
  have hneed : 7 ≤ 3 * 2 ^ k := by rwa [htext] at hfits
  obtain rfl : k = 2 := by
    have hcases : k = 0 ∨ k = 1 ∨ k = 2 := by omega
    rcases hcases with rfl | rfl | rfl
    · simp at hneed
    · simp at hneed
    · rfl
  refine ⟨rfl, hlength, ?_, hlog.trans (by decide +kernel)⟩
  rw [hresult, htext]
  decide +kernel

end SqlCanon.Lexer
