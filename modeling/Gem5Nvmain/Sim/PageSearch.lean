import Gem5Nvmain.Sim.PageRuns

/- The search of the page allocator finds every run, if the request fits the memory.

  A place that is stepped over has a busy page among the first `n` from it, so the runs that start behind it and not
  behind the busy page have the same busy page: none is missed on the way. The search that starts at 0 is never cut
  short. A request that is larger than the memory is cut off at the end of its look-ahead only by a busy page. -/
namespace Gem5.Sim
open Lib System

/-- The pages `first .. first + n - 1` are in the array and free. -/
def FreeRun (valid : List Bool) (first n : Nat) : Prop := ∀ j, first ≤ j → j < first + n → valid[j]? = some false

section Search
variable {valid : List Bool} {npages loc i left last : Nat}

theorem FreeRun.fits {first n : Nat} (h : FreeRun valid first n) (hn : 1 ≤ n) : first + n ≤ valid.length := by
  have hlast := h (first + n - 1) (by omega) (by omega)
  have hlt := lt_of_getElem? hlast
  omega

theorem lookAhead_busy (h : lookAhead valid loc left i = some (false, last)) :
    i < last ∧ last ≤ i + left ∧ valid[loc + last]? = some true := by
  induction left generalizing i with
  | zero => cases h
  | succ left ih =>
    unfold lookAhead at h
    split at h
    · cases h
    · rename_i hbusy
      cases h
      exact ⟨by omega, by omega, hbusy⟩
    · obtain ⟨hlo, hhi, hbusy⟩ := ih h
      exact ⟨by omega, by omega, hbusy⟩

theorem lookAhead_none (h : lookAhead valid loc left i = none) :
    valid.length ≤ loc + i + left ∧ ∀ j, loc + i < j → j < valid.length → valid[j]? = some false := by
  induction left generalizing i with
  | zero => cases h
  | succ left ih =>
    unfold lookAhead at h
    split at h
    · rename_i hend
      have hlen := List.getElem?_eq_none_iff.mp hend
      exact ⟨by omega, fun j hlo hhi => by omega⟩
    · cases h
    · rename_i hfree
      obtain ⟨hlen, hrest⟩ := ih h
      refine ⟨by omega, fun j hlo hhi => ?_⟩
      by_cases hj : j = loc + (i + 1)
      · rw [hj]
        exact hfree
      · apply hrest j _ hhi
        omega

/-- One place of the search: a run starts there, or one of its pages is busy and the search goes on behind it. -/
theorem search_at (fuel : Nat) (isFirst : Bool) (hn : 1 ≤ npages) (hfits : loc + npages ≤ valid.length) :
    (FreeRun valid loc npages ∧ search valid npages (fuel + 1) loc isFirst = .found loc (npages - 1)) ∨
    ∃ i, i < npages ∧ valid[loc + i]? = some true ∧ search valid npages (fuel + 1) loc isFirst =
      if loc + (i + 1) + npages > valid.length then if isFirst then search valid npages fuel 0 false else .full 0
      else search valid npages fuel (loc + (i + 1)) isFirst := by
  have hlt : loc < valid.length := by omega
  have hget : valid[loc]? = some valid[loc] := List.getElem?_eq_getElem hlt
  rw [search, if_pos hlt, hget]
  cases hbusy : valid[loc] with
  | true =>
    rw [hbusy] at hget
    exact .inr ⟨0, by omega, hget, rfl⟩
  | false =>
    rw [hbusy] at hget
    cases hla : lookAhead valid loc (npages - 1) 0 with
    | none =>
      obtain ⟨hlen, -⟩ := lookAhead_none hla
      omega
    | some res =>
      obtain ⟨found, last⟩ := res
      cases found with
      | true =>
        obtain ⟨hlast, hfree⟩ := lookAhead_free hla
        have hlast' : last = npages - 1 := by omega
        subst hlast'
        refine .inl ⟨fun j hlo hhi => ?_, rfl⟩
        by_cases hj : j = loc
        · rw [hj]
          exact hget
        · have hnext := hfree (j - loc) (by omega) (by omega)
          rwa [show loc + (j - loc) = j by omega] at hnext
      | false =>
        obtain ⟨-, hhi, hbusy'⟩ := lookAhead_busy hla
        exact .inr ⟨last, by omega, hbusy', rfl⟩

variable {l : Nat}

theorem no_run_over (hbusy : valid[loc + i]? = some true) (hlo : l ≤ loc + i) (hhi : loc + i < l + npages) :
    ¬ FreeRun valid l npages := by
  intro hrun
  have hfree := hrun (loc + i) hlo hhi
  rw [hbusy] at hfree
  cases hfree

/-- What a search may end with. -/
def Finds (valid : List Bool) (npages : Nat) (res : Search) : Prop :=
  (∃ l, FreeRun valid l npages ∧ res = .found l (npages - 1)) ∨ ((∀ l, ¬ FreeRun valid l npages) ∧ res = .full 0)

variable {fuel : Nat}

/-- The last pass: no run starts before `loc`. -/
theorem search_last (hn : 1 ≤ npages) (hfits : loc + npages ≤ valid.length)
    (hfuel : valid.length < loc + fuel) (hbefore : ∀ l, l < loc → ¬ FreeRun valid l npages) :
    Finds valid npages (search valid npages fuel loc false) := by
  induction fuel generalizing loc with
  | zero => omega
  | succ fuel ih =>
    rcases search_at fuel false hn hfits with ⟨hrun, heq⟩ | ⟨i, hi, hbusy, heq⟩
    · exact .inl ⟨loc, hrun, heq⟩
    · have hpast : ∀ l, l < loc + (i + 1) → ¬ FreeRun valid l npages := by
        intro l hl
        by_cases hlt : l < loc
        · exact hbefore l hlt
        · apply no_run_over hbusy <;> omega
      rw [heq]
      split
      · -- what is left behind the busy page is too short
        refine .inr ⟨fun l hrun => ?_, rfl⟩
        have hend := hrun.fits hn
        exact hpast l (by omega) hrun
      · apply ih
        · omega
        · omega
        · exact hpast

theorem search_first (hn : 1 ≤ npages) (hfits : loc + npages ≤ valid.length)
    (hfuel : 2 * valid.length + 1 < loc + fuel) : Finds valid npages (search valid npages fuel loc true) := by
  induction fuel generalizing loc with
  | zero => omega
  | succ fuel ih =>
    rcases search_at fuel true hn hfits with ⟨hrun, heq⟩ | ⟨i, hi, hbusy, heq⟩
    · exact .inl ⟨loc, hrun, heq⟩
    · rw [heq]
      split
      · apply search_last hn
        · omega
        · omega
        · omega
      · apply ih
        · omega
        · omega

theorem alloc_fst (a : PageArea) (n : Nat) : (a.alloc n).1 = search a.valid n (2 * a.valid.length + 2)
      (if a.location + n > a.valid.length then 0 else a.location) (decide (a.location + n ≤ a.valid.length)) := by
  have hstart : (if decide (a.location + n > a.valid.length) = true then 0 else a.location) =
      if a.location + n > a.valid.length then 0 else a.location := by
    simp only [decide_eq_true_eq]
  have hfirst : (!decide (a.location + n > a.valid.length)) = decide (a.location + n ≤ a.valid.length) := by
    simp only [← decide_not, Nat.not_lt]
  unfold PageArea.alloc
  dsimp only
  rw [hstart, hfirst]
  split
  · rfl
  · rfl
  · rfl

variable {a : PageArea}

theorem alloc_snd_of_full {n : Nat} (h : (a.alloc n).1 = .full l) :
    a.alloc n = (.full l, { a with location := l }) := by
  unfold PageArea.alloc at h ⊢
  dsimp only at h ⊢
  split at h
  · rename_i heq
    rw [heq] at h
    cases h
  · rename_i heq
    rw [heq] at h
    cases h
    rw [heq]
  · rename_i hnot
    exact absurd h (hnot l)

theorem alloc_finds {n : Nat} (hn : 1 ≤ n) (hfits : n ≤ a.valid.length) : Finds a.valid n (a.alloc n).1 := by
  rw [alloc_fst]
  by_cases hwraps : a.location + n > a.valid.length
  · rw [if_pos hwraps, decide_eq_false (by omega)]
    apply search_last hn
    · omega
    · omega
    · omega
  · rw [if_neg hwraps, decide_eq_true (by omega)]
    apply search_first hn
    · omega
    · omega

/-- No index leaves the array for a request that fits it, nor if some page is busy. -/
def PageArea.InBounds (a : PageArea) (n : Nat) : Prop := n ≤ a.valid.length ∨ a.valid = [] ∨ true ∈ a.valid

/-- A request larger than the array is looked for at page 0 only. -/
theorem search_oversized (hover : valid.length < npages) (hne : valid ≠ []) :
    search valid npages (fuel + 1) 0 false = if true ∈ valid then .full 0 else .outOfRange := by
  have hpos : 0 < valid.length := List.length_pos_iff.mpr hne
  have hget : valid[0]? = some valid[0] := List.getElem?_eq_getElem hpos
  rw [search, if_pos hpos, hget]
  cases hbusy : valid[0] with
  | true =>
    have hmem : true ∈ valid := hbusy ▸ List.getElem_mem hpos
    simp only [if_true]
    rw [if_pos (by omega), if_neg Bool.false_ne_true, if_pos hmem]
  | false =>
    simp only [Bool.false_eq_true, if_false]
    cases hla : lookAhead valid 0 (npages - 1) 0 with
    | none =>
      obtain ⟨-, hfree⟩ := lookAhead_none hla
      have hmem : true ∉ valid := by
        intro hmem
        obtain ⟨j, hj, htrue⟩ := List.mem_iff_getElem.mp hmem
        by_cases hzero : j = 0
        · subst hzero
          rw [hbusy] at htrue
          cases htrue
        · have hfalse := hfree j (by omega) hj
          rw [List.getElem?_eq_getElem hj, htrue] at hfalse
          cases hfalse
      rw [if_neg hmem]
    | some res =>
      obtain ⟨found, last⟩ := res
      cases found with
      | true =>
        -- the look-ahead cannot have passed the end
        obtain ⟨hlast, hfree⟩ := lookAhead_free hla
        have hend := lt_of_getElem? (hfree last (by omega) (Nat.le_refl _))
        omega
      | false =>
        obtain ⟨-, -, hbusy'⟩ := lookAhead_busy hla
        have hmem := List.mem_of_getElem? hbusy'
        dsimp only
        rw [if_pos (by omega), if_pos hmem]

theorem alloc_oversized {n : Nat} (hover : a.valid.length < n) :
    (a.alloc n).1 = if a.valid = [] ∨ true ∈ a.valid then .full 0 else .outOfRange := by
  rw [alloc_fst, if_pos (by omega), decide_eq_false (by omega)]
  by_cases hnil : a.valid = []
  · rw [if_pos (.inl hnil), hnil]
    rfl
  · rw [search_oversized hover hnil]
    simp only [hnil, false_or]

theorem alloc_outOfRange_iff {n : Nat} (hn : 1 ≤ n) : (a.alloc n).1 ≠ .outOfRange ↔ a.InBounds n := by
  by_cases hfits : n ≤ a.valid.length
  · refine iff_of_true ?_ (.inl hfits)
    rcases alloc_finds hn hfits with ⟨l, -, heq⟩ | ⟨-, heq⟩
    · rw [heq]
      exact nofun
    · rw [heq]
      exact nofun
  · rw [alloc_oversized (Nat.lt_of_not_le hfits)]
    by_cases hin : a.valid = [] ∨ true ∈ a.valid
    · rw [if_pos hin]
      exact iff_of_true nofun (.inr hin)
    · rw [if_neg hin]
      refine iff_of_false (fun h => h rfl) ?_
      rintro (h | h)
      · exact hfits h
      · exact hin h

end Search

/-! ## The two allocators -/

section Allocators
variable {s : System} {n : Nat}

def outOfPcm : Stop := .fatal "Out of pcm memory, please increase size of pcm memory."

variable {l : Nat}

theorem allocTextPhysPages_of_full (h : (s.pcm.alloc n).1 = .full l) : s.allocTextPhysPages n = .error outOfPcm := by
  unfold allocTextPhysPages
  rw [alloc_snd_of_full h]
  rfl

theorem allocTextPhysPages_of_found {i : Nat} (hn : 1 ≤ n) (h : (s.pcm.alloc n).1 = .found l i) :
    ∃ s', s.allocTextPhysPages n = .ok (s', s.mem.pcmAddr l) := by
  have hal : s.pcm.alloc n = (.found l i, (s.pcm.alloc n).2) := Prod.ext h rfl
  obtain ⟨-, hloc⟩ := alloc_found hn hal
  unfold allocTextPhysPages
  rw [hal]
  dsimp only
  rw [hloc]
  exact ⟨_, rfl⟩

theorem allocPhysPages_of_full (h : (s.dram.alloc n).1 = .full l) :
    s.allocPhysPages n = allocTextPhysPages { s with dram := { s.dram with location := l } } n := by
  conv_lhs => unfold allocPhysPages
  rw [alloc_snd_of_full h]

theorem allocPhysPages_of_found {i : Nat} (hn : 1 ≤ n) (h : (s.dram.alloc n).1 = .found l i) :
    ∃ s', s.allocPhysPages n = .ok (s', s.mem.dramAddr l) := by
  have hal : s.dram.alloc n = (.found l i, (s.dram.alloc n).2) := Prod.ext h rfl
  obtain ⟨-, hloc⟩ := alloc_found hn hal
  unfold allocPhysPages
  rw [hal]
  dsimp only
  rw [hloc]
  exact ⟨_, rfl⟩

/-- A request that fits the memory gets a run of free pages if there is one; only if there is none, `allocPhysPages`
  turns to PCM, and `allocTextPhysPages` stops. -/
theorem search_is_complete (hn : 1 ≤ n) : (n ≤ s.dram.valid.length →
      ((s.dram.alloc n).1 = .full 0 ↔ ∀ first, ¬ FreeRun s.dram.valid first n) ∧
      ((s.dram.alloc n).1 = .full 0 →
        s.allocPhysPages n = allocTextPhysPages { s with dram := { s.dram with location := 0 } } n) ∧
      ((s.dram.alloc n).1 ≠ .full 0 →
        ∃ first s', FreeRun s.dram.valid first n ∧ s.allocPhysPages n = .ok (s', s.mem.dramAddr first))) ∧
    (n ≤ s.pcm.valid.length →
      (s.allocTextPhysPages n = .error outOfPcm ↔ ∀ first, ¬ FreeRun s.pcm.valid first n) ∧
      (s.allocTextPhysPages n ≠ .error outOfPcm →
        ∃ first s', FreeRun s.pcm.valid first n ∧ s.allocTextPhysPages n = .ok (s', s.mem.pcmAddr first))) := by
  constructor
  · intro hfits
    refine ⟨?_, allocPhysPages_of_full, ?_⟩
    · rcases alloc_finds hn hfits with ⟨l, hrun, heq⟩ | ⟨hnone, heq⟩
      · rw [heq]
        exact iff_of_false nofun fun h => h l hrun
      · exact iff_of_true heq hnone
    · intro hfull
      rcases alloc_finds hn hfits with ⟨l, hrun, heq⟩ | ⟨-, heq⟩
      · obtain ⟨s', hs⟩ := allocPhysPages_of_found hn heq
        exact ⟨l, s', hrun, hs⟩
      · exact absurd heq hfull
  · intro hfits
    rcases alloc_finds hn hfits with ⟨l, hrun, heq⟩ | ⟨hnone, heq⟩
    · obtain ⟨s', hs⟩ := allocTextPhysPages_of_found hn heq
      rw [hs]
      exact ⟨iff_of_false nofun fun h => h l hrun, fun _ => ⟨l, s', hrun, rfl⟩⟩
    · have hs := allocTextPhysPages_of_full heq
      exact ⟨iff_of_true hs hnone, absurd hs⟩

/-- A memory of two DRAM pages and one PCM page gives a request of two pages. -/
theorem search_is_complete_two_pages :
    (allocPhysPages ⟨⟨4096, 8192, 12⟩, ⟨[false, false], 1⟩, ⟨[true], 0⟩, 0, 1⟩ 2 ≠ .error outOfPcm) ∧
    allocTextPhysPages ⟨⟨4096, 8192, 12⟩, ⟨[false, false], 1⟩, ⟨[true], 0⟩, 0, 1⟩ 1 = .error outOfPcm := by
  have hdram := (search_is_complete (s := ⟨⟨4096, 8192, 12⟩, ⟨[false, false], 1⟩, ⟨[true], 0⟩, 0, 1⟩) (n := 2) (by decide)).1
    (by decide)
  have hpcm := (search_is_complete (s := ⟨⟨4096, 8192, 12⟩, ⟨[false, false], 1⟩, ⟨[true], 0⟩, 0, 1⟩) (n := 1) (by decide)).2
    (by decide)
  constructor
  · obtain ⟨first, s', -, hs⟩ := hdram.2.2 (by decide)
    rw [hs]
    exact nofun
  · apply hpcm.1.mpr
    intro first hrun
    have hfree := hrun first (Nat.le_refl _) (by omega)
    cases first with
    | zero => cases hfree
    | succ first => cases hfree

/-- The indices stay in the arrays, and an oversized request ends in the fallback or in `fatal`, exactly when the
  request fits, the memory has no pages or some page of it is busy. -/
theorem indices_in_bounds_iff (hn : 1 ≤ n) : ((s.dram.alloc n).1 ≠ .outOfRange ↔ s.dram.InBounds n) ∧
    (s.allocTextPhysPages n ≠ .error .outOfRange ↔ s.pcm.InBounds n) ∧ (s.allocPhysPages n ≠ .error .outOfRange ↔
      s.dram.InBounds n ∧ ((∃ first, FreeRun s.dram.valid first n) ∨ s.pcm.InBounds n)) ∧
    (s.dram.valid.length < n → s.dram.InBounds n →
      s.allocPhysPages n = allocTextPhysPages { s with dram := { s.dram with location := 0 } } n) ∧
    (s.pcm.valid.length < n → s.pcm.InBounds n → s.allocTextPhysPages n = .error outOfPcm) := by
  have hfull : ∀ {a : PageArea}, a.valid.length < n → a.InBounds n → (a.alloc n).1 = .full 0 := by
    intro a hover hin
    rw [alloc_oversized hover, if_pos]
    exact hin.resolve_left (Nat.not_le_of_lt hover)
  have htext : ∀ s : System, s.allocTextPhysPages n ≠ .error .outOfRange ↔ s.pcm.InBounds n := by
    intro s
    rw [← alloc_outOfRange_iff hn]
    cases hres : s.pcm.alloc n with
    | mk res a =>
      unfold allocTextPhysPages
      rw [hres]
      cases res with
      | found l i => exact iff_of_true nofun nofun
      | full l => exact iff_of_true nofun nofun
      | outOfRange => exact iff_of_false (fun h => h rfl) fun h => h rfl
      | outOfFuel => exact iff_of_true nofun nofun
  -- no run in DRAM: the call is the one of PCM
  have hphys : (s.dram.alloc n).1 = .full 0 → s.dram.InBounds n → (∀ first, ¬ FreeRun s.dram.valid first n) →
      (s.allocPhysPages n ≠ .error .outOfRange ↔
        s.dram.InBounds n ∧ ((∃ first, FreeRun s.dram.valid first n) ∨ s.pcm.InBounds n)) := by
    intro hres hin hnone
    rw [allocPhysPages_of_full hres, htext]
    constructor
    · exact fun h => ⟨hin, .inr h⟩
    · rintro ⟨-, ⟨first, hrun⟩ | h⟩
      · exact absurd hrun (hnone first)
      · exact h
  refine ⟨alloc_outOfRange_iff hn, htext s, ?_, fun hover hin => ?_, fun hover hin => ?_⟩
  · by_cases hfits : n ≤ s.dram.valid.length
    · rcases alloc_finds hn hfits with ⟨l, hrun, heq⟩ | ⟨hnone, heq⟩
      · obtain ⟨s', hs⟩ := allocPhysPages_of_found hn heq
        rw [hs]
        exact iff_of_true nofun ⟨.inl hfits, .inl ⟨l, hrun⟩⟩
      · exact hphys heq (.inl hfits) hnone
    · have hover := Nat.lt_of_not_le hfits
      by_cases hin : s.dram.InBounds n
      · apply hphys (hfull hover hin) hin
        intro first hrun
        have hend := hrun.fits hn
        omega
      · refine iff_of_false (fun h => h ?_) fun h => hin h.1
        have hres := mt (alloc_outOfRange_iff hn).mp hin
        rw [Decidable.not_not] at hres
        have hal : s.dram.alloc n = (.outOfRange, (s.dram.alloc n).2) := Prod.ext hres rfl
        unfold allocPhysPages
        rw [hal]
  · exact allocPhysPages_of_full (hfull hover hin)
  · exact allocTextPhysPages_of_full (hfull hover hin)

theorem indices_in_bounds_iff_one_busy :
    allocPhysPages ⟨⟨4096, 4096, 12⟩, ⟨[true], 0⟩, ⟨[true], 0⟩, 1, 1⟩ 2 ≠ .error .outOfRange := by
  have hin := indices_in_bounds_iff (s := ⟨⟨4096, 4096, 12⟩, ⟨[true], 0⟩, ⟨[true], 0⟩, 1, 1⟩) (n := 2) (by decide)
  exact hin.2.2.1.mpr ⟨.inr (.inr List.mem_cons_self), .inr (.inr (.inr List.mem_cons_self))⟩

/-- Fresh memories, and a request of one page more than there are. -/
theorem fresh_memory_is_left : ∃ s, init ⟨8192, 4096, 12⟩ = .ok s ∧ s.allocPhysPages 2 = .error .outOfRange ∧
      s.allocTextPhysPages 3 = .error .outOfRange := ⟨_, rfl, rfl, rfl⟩

end Allocators

end Gem5.Sim
