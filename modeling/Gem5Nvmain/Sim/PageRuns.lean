import Gem5Nvmain.Sim.System
import Mathlib.Data.List.Nodup

/- Runs of the page allocator: no page is handed out twice.

  A run starts in `System.init` and is made of `allocPhysPages`, `allocTextPhysPages` and `clearPhysPages` calls that
  return (`PageStep`). The history of a run gives the ranges that were returned, each without the pages cleared since
  (`liveRanges`). `PageInv` ties them to the page arrays: every live page has its `valid` bit set, so a new run of
  free pages meets none of them. -/
namespace Gem5.Sim
open Lib List Nat

/-- `valid` becomes `valid'` by turning the free pages `first .. first + n - 1` into allocated ones; every other page
  keeps its bit. -/
def FlipsRun (valid valid' : List Bool) (first n : Nat) : Prop :=
  valid'.length = valid.length ∧
  ∀ j, if first ≤ j ∧ j < first + n then valid[j]? = some false ∧ valid'[j]? = some true
    else valid'[j]? = valid[j]?

/-! ## The search loop -/

variable {valid : List Bool} {loc : Nat}

theorem lookAhead_free : ∀ {left i last : Nat}, lookAhead valid loc left i = some (true, last) →
    last = i + left ∧ ∀ j, i < j → j ≤ last → valid[loc + j]? = some false := by
  intro left
  induction left with
  | zero =>
    intro i last h
    simp only [lookAhead, Option.some.injEq, Prod.mk.injEq, true_and] at h
    subst h
    exact ⟨rfl, fun j h₁ h₂ => absurd h₁ (by omega)⟩
  | succ left ih =>
    intro i last h
    simp only [lookAhead] at h
    split at h
    · cases h
    · cases h
    · rename_i hfree
      obtain ⟨hlast, hrest⟩ := ih h
      refine ⟨by omega, fun j h₁ h₂ => ?_⟩
      by_cases hj : j = i + 1
      · rw [hj]; exact hfree
      · exact hrest j (by omega) h₂

theorem search_free {npages : Nat} : ∀ {fuel loc : Nat} {first : Bool} {l i : Nat},
    search valid npages fuel loc first = .found l i →
    i = npages - 1 ∧ ∀ j, l ≤ j → j ≤ l + i → valid[j]? = some false := by
  intro fuel
  induction fuel with
  | zero => intro loc first l i h; simp [search] at h
  | succ fuel ih =>
    intro loc first l i h
    simp only [search] at h
    split at h
    · split at h
      · cases h
      · rename_i busy hbusy
        split at h
        · cases h
        · -- a run of free pages starts at `loc`
          rename_i last hla
          cases h
          cases busy with
          | true => simp at hla
          | false =>
            obtain ⟨hlast, hrest⟩ := lookAhead_free (by simpa using hla)
            refine ⟨by omega, fun j h₁ h₂ => ?_⟩
            by_cases hj : j = loc
            · rw [hj]; exact hbusy
            · have := hrest (j - loc) (by omega) (by omega)
              rwa [show loc + (j - loc) = j by omega] at this
        · split at h
          · split at h
            · exact ih h
            · cases h
          · exact ih h
    · cases h

/-! ## Taking a run of pages -/

theorem markRun_length (valid : List Bool) (loc n : Nat) : (markRun valid loc n).length = valid.length := by
  induction n generalizing valid loc with
  | zero => rfl
  | succ n ih => simp [markRun, ih]

theorem markRun_get (valid : List Bool) (loc n j : Nat) : (markRun valid loc n)[j]? =
      if loc ≤ j ∧ j < loc + n then valid[j]?.map (fun _ => true) else valid[j]? := by
  induction n generalizing valid loc with
  | zero => rw [if_neg (by omega)]; rfl
  | succ n ih =>
    simp only [markRun, ih, getElem?_set]
    by_cases hj : j = loc
    · subst hj
      by_cases hlt : j < valid.length
      · simp [hlt]
      · simp [hlt]
    · have hj' : ¬loc = j := fun h => hj h.symm
      simp only [hj', if_false]
      by_cases hin : loc + 1 ≤ j ∧ j < loc + 1 + n
      · rw [if_pos hin, if_pos (by omega)]
      · rw [if_neg hin, if_neg (by omega)]

variable {n : Nat}

theorem markRun_flips (hfree : ∀ j, loc ≤ j → j < loc + n → valid[j]? = some false) :
    FlipsRun valid (markRun valid loc n) loc n := by
  refine ⟨markRun_length _ _ _, fun j => ?_⟩
  rw [markRun_get]
  by_cases hin : loc ≤ j ∧ j < loc + n
  · have := hfree j hin.1 hin.2
    simp [hin, this]
  · simp [hin]

theorem markRun_count (hfree : ∀ j, loc ≤ j → j < loc + n → valid[j]? = some false) :
    (markRun valid loc n).count true = valid.count true + n := by
  induction n generalizing valid loc with
  | zero => rfl
  | succ n ih =>
    have hloc := hfree loc (Nat.le_refl _) (by omega)
    obtain ⟨hlt, hval⟩ := List.getElem?_eq_some_iff.mp hloc
    simp only [markRun]
    rw [ih, count_set (h := hlt)]
    · simp [hval]; omega
    · intro j h₁ h₂
      rw [getElem?_set_ne (by omega)]
      exact hfree j (by omega) (by omega)

variable {valid' : List Bool} {first : Nat}

theorem FlipsRun.eq_markRun (h : FlipsRun valid valid' first n) : valid' = markRun valid first n := by
  apply ext_getElem?
  intro j
  have hj := h.2 j
  rw [markRun_get]
  split at hj
  · rename_i hin
    rw [if_pos hin, hj.1, hj.2]; rfl
  · rename_i hin
    rw [if_neg hin, hj]

variable {j : Nat}

section
variable (h : FlipsRun valid valid' first n)
include h

theorem FlipsRun.free (h₁ : first ≤ j) (h₂ : j < first + n) : valid[j]? = some false := by
  have hj := h.2 j
  rw [if_pos ⟨h₁, h₂⟩] at hj
  exact hj.1

theorem FlipsRun.taken (h₁ : first ≤ j) (h₂ : j < first + n) : valid'[j]? = some true := by
  have hj := h.2 j
  rw [if_pos ⟨h₁, h₂⟩] at hj
  exact hj.2

theorem FlipsRun.keeps (hj : valid[j]? = some true) : valid'[j]? = some true := by
  have hspec := h.2 j
  split at hspec
  · exact hspec.2
  · rw [hspec, hj]

theorem FlipsRun.count : valid'.count true = valid.count true + n := by
  rw [h.eq_markRun]
  exact markRun_count fun j h₁ h₂ => h.free h₁ h₂

end

variable {a a' : PageArea} {l i : Nat}

theorem alloc_found (hn : 1 ≤ n) (h : a.alloc n = (.found l i, a')) :
    FlipsRun a.valid a'.valid l n ∧ a'.location - n = l := by
  simp only [PageArea.alloc] at h
  split at h
  · rename_i l' i' hs
    obtain ⟨hi, hfree⟩ := search_free hs
    simp only [Prod.mk.injEq] at h
    obtain ⟨hres, rfl⟩ := h
    rw [hs] at hres
    cases hres
    refine ⟨?_, by simp only; omega⟩
    rw [show i + 1 = n by omega]
    exact markRun_flips fun j h₁ h₂ => hfree j h₁ (by omega)
  · simp only [Prod.mk.injEq] at h
    obtain ⟨hres, -⟩ := h
    rename_i hs
    rw [hs] at hres
    cases hres
  · rename_i hnot _
    simp only [Prod.mk.injEq] at h
    exact absurd h.1 (hnot l i)

theorem alloc_full (h : a.alloc n = (.full l, a')) : a'.valid = a.valid := by
  simp only [PageArea.alloc] at h
  split at h
  · rename_i hs
    simp only [Prod.mk.injEq] at h
    rw [hs] at h
    cases h.1
  · simp only [Prod.mk.injEq] at h
    rw [← h.2]
  · simp only [Prod.mk.injEq] at h
    rw [h.2]

/-! ## What one call does -/

/-- Address of DRAM page `i`. -/
def MemConfig.dramAddr (mem : MemConfig) (i : Nat) : Nat := mem.pcmSize + i <<< mem.pageShift

/-- Address of PCM page `i`. -/
def MemConfig.pcmAddr (mem : MemConfig) (i : Nat) : Nat := i <<< mem.pageShift

/-- The DRAM pages `first .. first + n - 1`, and no others, went from free to allocated. -/
structure TakesDram (s s' : System) (first n : Nat) : Prop where
  mem : s'.mem = s.mem
  flips : FlipsRun s.dram.valid s'.dram.valid first n
  other : s'.pcm.valid = s.pcm.valid
  dramPages : s'.dramPages = s.dramPages + n
  pcmPages : s'.pcmPages = s.pcmPages

/-- The PCM pages `first .. first + n - 1`, and no others, went from free to allocated. -/
structure TakesPcm (s s' : System) (first n : Nat) : Prop where
  mem : s'.mem = s.mem
  flips : FlipsRun s.pcm.valid s'.pcm.valid first n
  other : s'.dram.valid = s.dram.valid
  dramPages : s'.dramPages = s.dramPages
  pcmPages : s'.pcmPages = s.pcmPages + n

variable {s s' : System} {addr : Nat}

theorem allocTextPhysPages_takes (hn : 1 ≤ n) (h : s.allocTextPhysPages n = .ok (s', addr)) :
    ∃ first, addr = s.mem.pcmAddr first ∧ TakesPcm s s' first n := by
  simp only [System.allocTextPhysPages] at h
  split at h
  · rename_i l i a hal
    obtain ⟨hflips, hloc⟩ := alloc_found hn hal
    obtain ⟨rfl, rfl⟩ := h
    refine ⟨l, ?_, rfl, hflips, rfl, rfl, rfl⟩
    rw [hloc]; rfl
  · cases h
  · cases h
  · cases h

theorem allocPhysPages_takes (hn : 1 ≤ n) (h : s.allocPhysPages n = .ok (s', addr)) :
    (∃ first, addr = s.mem.dramAddr first ∧ TakesDram s s' first n) ∨
    (∃ first, addr = s.mem.pcmAddr first ∧ TakesPcm s s' first n) := by
  simp only [System.allocPhysPages] at h
  split at h
  · rename_i l i a hal
    obtain ⟨hflips, hloc⟩ := alloc_found hn hal
    obtain ⟨rfl, rfl⟩ := h
    refine .inl ⟨l, ?_, rfl, hflips, rfl, rfl, rfl⟩
    rw [hloc]; rfl
  · -- no run in DRAM: the cursor may have moved, the pages have not
    rename_i l a hal
    have hkeep := alloc_full hal
    obtain ⟨first, haddr, ht⟩ := allocTextPhysPages_takes hn h
    exact .inr ⟨first, haddr, ht.mem, ht.flips, ht.other.trans hkeep, ht.dramPages, ht.pcmPages⟩
  · cases h
  · cases h

variable {idx : Nat}

theorem clearPhysPages_clears (h : s.clearPhysPages true idx = .ok s') : idx < s.pcm.valid.length ∧ s' = { s with
      pcmPages := s.pcmPages - 1, pcm := { s.pcm with valid := s.pcm.valid.set idx false } } := by
  obtain ⟨_, _, h⟩ := of_bind h
  obtain ⟨b, hb, h⟩ := of_bind h
  rw [index_eq_ok] at hb
  cases h
  exact ⟨(List.getElem?_eq_some_iff.mp hb).1, rfl⟩

/-! ## Runs -/

/-- A call that returned: its arguments and the address it returned. -/
inductive PageEvent where
  | allocPhysPages (npages addr : Nat)
  | allocTextPhysPages (npages addr : Nat)
  | clearPhysPages (idx : Nat)
  deriving DecidableEq, Repr

/-- One call. `clearable s idx` says which PCM pages the caller may clear. -/
inductive PageStep (clearable : System → Nat → Prop) : System → PageEvent → System → Prop where
  | allocPhysPages {s s' : System} {n addr : Nat} (hn : 1 ≤ n) (hle : n ≤ s.dram.valid.length)
      (h : s.allocPhysPages n = .ok (s', addr)) : PageStep clearable s (.allocPhysPages n addr) s'
  | allocTextPhysPages {s s' : System} {n addr : Nat} (hn : 1 ≤ n) (hle : n ≤ s.pcm.valid.length)
      (h : s.allocTextPhysPages n = .ok (s', addr)) :
      PageStep clearable s (.allocTextPhysPages n addr) s'
  | clearPhysPages {s s' : System} {idx : Nat} (hc : clearable s idx)
      (h : s.clearPhysPages true idx = .ok s') : PageStep clearable s (.clearPhysPages idx) s'

/-- The page is allocated. -/
def allocatedPcm (s : System) (idx : Nat) : Prop := s.pcm.valid[idx]? = some true

/-- Addresses of the `n` pages from `addr` on. -/
def MemConfig.pagesAt (mem : MemConfig) (addr n : Nat) : List Nat :=
  (range n).map fun k => addr + k <<< mem.pageShift

/-- The pages a call returned. -/
def returnedPages (mem : MemConfig) : PageEvent → List Nat
  | .allocPhysPages n addr => mem.pagesAt addr n
  | .allocTextPhysPages n addr => mem.pagesAt addr n
  | .clearPhysPages _ => []

def liveStep (mem : MemConfig) (live : List (List Nat)) : PageEvent → List (List Nat)
  | .clearPhysPages idx => live.map fun r => r.filter (· != mem.pcmAddr idx)
  | e => live ++ [returnedPages mem e]

/-- The ranges returned in a history, each without the pages cleared since. -/
def liveRanges (mem : MemConfig) (h : List PageEvent) : List (List Nat) :=
  h.foldl (liveStep mem) []

/-- The page at `p` lies in the DRAM area. -/
def MemConfig.InDram (mem : MemConfig) (p : Nat) : Prop :=
  mem.pcmSize ≤ p ∧ p + mem.pageBytes ≤ mem.pcmSize + mem.dramSize

/-- The page at `p` lies in the PCM area. -/
def MemConfig.InPcm (mem : MemConfig) (p : Nat) : Prop := p + mem.pageBytes ≤ mem.pcmSize

/-- `p` is the address of an allocated page. -/
def AllocatedAt (s : System) (p : Nat) : Prop :=
  (∃ i, p = s.mem.dramAddr i ∧ s.dram.valid[i]? = some true) ∨
  (∃ i, p = s.mem.pcmAddr i ∧ s.pcm.valid[i]? = some true)

/-- Both arrays lie inside their memories. -/
structure FitsMem (s : System) : Prop where
  dram : s.dram.valid.length * s.mem.pageBytes ≤ s.mem.dramSize
  pcm : s.pcm.valid.length * s.mem.pageBytes ≤ s.mem.pcmSize

structure PageInv (mem : MemConfig) (h : List PageEvent) (s : System) : Prop where
  config : s.mem = mem
  fits : FitsMem s
  nodup : (liveRanges mem h).flatten.Nodup
  live : ∀ p ∈ (liveRanges mem h).flatten, AllocatedAt s p
  area : ∀ r ∈ liveRanges mem h, (∀ p ∈ r, mem.InDram p) ∨ (∀ p ∈ r, mem.InPcm p)
  dramPages : s.dramPages = s.dram.valid.count true
  pcmPages : s.pcmPages = s.pcm.valid.count true

theorem liveRanges_snoc (mem : MemConfig) (h : List PageEvent) (e : PageEvent) :
    liveRanges mem (h ++ [e]) = liveStep mem (liveRanges mem h) e := by
  simp [liveRanges]

variable {mem : MemConfig} {p : Nat}

theorem mem_pagesAt : p ∈ mem.pagesAt addr n ↔ ∃ k < n, p = addr + k <<< mem.pageShift := by
  simp only [MemConfig.pagesAt, mem_map, mem_range]
  exact ⟨fun ⟨k, hk, h⟩ => ⟨k, hk, h.symm⟩, fun ⟨k, hk, h⟩ => ⟨k, hk, h.symm⟩⟩

theorem pagesAt_nodup (mem : MemConfig) (addr n : Nat) : (mem.pagesAt addr n).Nodup := by
  refine List.Nodup.map ?_ nodup_range
  intro a b hab
  have hpos : 0 < 2 ^ mem.pageShift := Nat.two_pow_pos _
  simp only at hab
  exact eq_of_mul_eq_mul_right hpos (by omega)

theorem dramAddr_add (mem : MemConfig) (i k : Nat) : mem.dramAddr i + k <<< mem.pageShift = mem.dramAddr (i + k) := by
  simp only [MemConfig.dramAddr, Nat.shiftLeft_eq, Nat.add_mul]
  omega

theorem pcmAddr_add (mem : MemConfig) (i k : Nat) : mem.pcmAddr i + k <<< mem.pageShift = mem.pcmAddr (i + k) := by
  simp only [MemConfig.pcmAddr, Nat.shiftLeft_eq, Nat.add_mul]

theorem pcmAddr_inj (h : mem.pcmAddr i = mem.pcmAddr j) : i = j := by
  simp only [MemConfig.pcmAddr, shiftLeft_eq] at h
  exact Nat.eq_of_mul_eq_mul_right (Nat.two_pow_pos _) h

theorem dramAddr_inj (h : mem.dramAddr i = mem.dramAddr j) : i = j := by
  simp only [MemConfig.dramAddr, Nat.add_left_cancel_iff] at h
  exact pcmAddr_inj h

theorem inDram_of_lt (hf : FitsMem s) (hi : i < s.dram.valid.length) : s.mem.InDram (s.mem.dramAddr i) := by
  have h := mul_le_mul_right s.mem.pageBytes (succ_le_of_lt hi)
  have hd := hf.dram
  simp only [MemConfig.InDram, MemConfig.dramAddr, MemConfig.pageBytes,
    succ_mul] at *
  omega

theorem inPcm_of_lt (hf : FitsMem s) (hi : i < s.pcm.valid.length) : s.mem.InPcm (s.mem.pcmAddr i) := by
  have h := mul_le_mul_right s.mem.pageBytes (succ_le_of_lt hi)
  have hp := hf.pcm
  simp only [MemConfig.InPcm, MemConfig.pcmAddr, MemConfig.pageBytes,
    succ_mul] at *
  omega

theorem lt_of_getElem? {b : Bool} (h : valid[i]? = some b) : i < valid.length := (List.getElem?_eq_some_iff.mp h).1

theorem dramAddr_ne_pcmAddr (hf : FitsMem s) (hj : j < s.pcm.valid.length) : s.mem.dramAddr i ≠ s.mem.pcmAddr j := by
  have h := inPcm_of_lt hf hj
  have hpos : 0 < s.mem.pageBytes := Nat.two_pow_pos _
  intro heq
  have hge : s.mem.pcmSize ≤ s.mem.dramAddr i := le_add_right _ _
  simp only [MemConfig.InPcm] at h
  omega

theorem allocatedAt_dram (hf : FitsMem s) (h : AllocatedAt s (s.mem.dramAddr i)) : s.dram.valid[i]? = some true := by
  rcases h with ⟨j, hj, hv⟩ | ⟨j, hj, hv⟩
  · rw [dramAddr_inj hj]; exact hv
  · exact absurd hj (dramAddr_ne_pcmAddr hf (lt_of_getElem? hv))

theorem allocatedAt_pcm (hf : FitsMem s) (hi : i < s.pcm.valid.length)
    (h : AllocatedAt s (s.mem.pcmAddr i)) : s.pcm.valid[i]? = some true := by
  rcases h with ⟨j, hj, hv⟩ | ⟨j, hj, hv⟩
  · exact absurd hj.symm (dramAddr_ne_pcmAddr hf hi)
  · rw [pcmAddr_inj hj]; exact hv

/-! ## The invariant -/

theorem init_inv (h : System.init mem = .ok s) : PageInv mem [] s := by
  unfold System.init at h
  split at h
  · rename_i hpos
    cases h
    have fits : ∀ size, 0 < mem.numPages size → (mem.numPages size).toNat * mem.pageBytes ≤ size := by
      intro size hsize
      -- narrowing to 32 bits never makes the page count larger
      have hle : (mem.numPages size).toNat ≤ size >>> mem.pageShift := by
        have hmod := mod_le (size >>> mem.pageShift) (2 ^ 32)
        simp only [MemConfig.numPages, BitVec.toInt_eq_toNat_cond, BitVec.toNat_ofNat]
        split <;> omega
      calc (mem.numPages size).toNat * mem.pageBytes
          ≤ (size >>> mem.pageShift) * mem.pageBytes := mul_le_mul_right _ hle
        _ ≤ size := by
          rw [shiftRight_eq_div_pow]
          exact div_mul_le_self _ _
    refine ⟨rfl, ⟨?_, ?_⟩, by simp [liveRanges], by simp [liveRanges], by simp [liveRanges], ?_, ?_⟩
    · simpa using fits _ hpos.1
    · simpa using fits _ hpos.2
    · simp [count_replicate]
    · simp [count_replicate]
  · cases h

theorem AllocatedAt.takeDram (ht : TakesDram s s' first n) (h : AllocatedAt s p) : AllocatedAt s' p := by
  rcases h with ⟨i, rfl, hv⟩ | ⟨i, rfl, hv⟩
  · exact .inl ⟨i, by rw [ht.mem], ht.flips.keeps hv⟩
  · exact .inr ⟨i, by rw [ht.mem], by rw [ht.other]; exact hv⟩

theorem AllocatedAt.takePcm (ht : TakesPcm s s' first n) (h : AllocatedAt s p) : AllocatedAt s' p := by
  rcases h with ⟨i, rfl, hv⟩ | ⟨i, rfl, hv⟩
  · exact .inl ⟨i, by rw [ht.mem], by rw [ht.other]; exact hv⟩
  · exact .inr ⟨i, by rw [ht.mem], ht.flips.keeps hv⟩

theorem nodup_append_range {live : List (List Nat)}
    (hnd : live.flatten.Nodup) (hnew : ∀ p ∈ mem.pagesAt addr n, p ∉ live.flatten) :
    (live ++ [mem.pagesAt addr n]).flatten.Nodup := by
  rw [flatten_append, flatten_singleton, nodup_append]
  refine ⟨hnd, pagesAt_nodup _ _ _, fun a ha b hb hab => ?_⟩
  exact hnew b hb (hab ▸ ha)

variable {h : List PageEvent} {e : PageEvent}

theorem PageInv.takeDram (hi : PageInv mem h s) (ht : TakesDram s s' first n)
    (he : liveStep mem (liveRanges mem h) e = liveRanges mem h ++ [mem.pagesAt (mem.dramAddr first) n]) :
    PageInv mem (h ++ [e]) s' := by
  obtain ⟨rfl, hfits, hnd, hlive, harea, hd, hp⟩ := hi
  have hpage : ∀ p ∈ s.mem.pagesAt (s.mem.dramAddr first) n, ∃ j, p = s.mem.dramAddr j ∧
      s.dram.valid[j]? = some false ∧ s'.dram.valid[j]? = some true := by
    intro p hp
    obtain ⟨k, hk, rfl⟩ := mem_pagesAt.mp hp
    exact ⟨first + k, dramAddr_add _ _ _, ht.flips.free (by omega) (by omega),
      ht.flips.taken (by omega) (by omega)⟩
  have hlen := ht.flips.1
  refine ⟨ht.mem, ⟨?_, ?_⟩, ?_, ?_, ?_, ?_, ?_⟩
  · rw [hlen, ht.mem]; exact hfits.dram
  · rw [ht.other, ht.mem]; exact hfits.pcm
  · rw [liveRanges_snoc, he]
    refine nodup_append_range hnd fun p hmem hin => ?_
    obtain ⟨j, rfl, hfree, -⟩ := hpage p hmem
    rw [allocatedAt_dram hfits (hlive _ hin)] at hfree
    cases hfree
  · rw [liveRanges_snoc, he]
    intro p hmem
    rw [flatten_append, flatten_singleton, mem_append] at hmem
    rcases hmem with hold | hnew
    · exact (hlive p hold).takeDram ht
    · obtain ⟨j, rfl, -, htaken⟩ := hpage p hnew
      exact .inl ⟨j, by rw [ht.mem], htaken⟩
  · rw [liveRanges_snoc, he]
    intro r hr
    rcases mem_append.mp hr with hold | hnew
    · exact harea r hold
    · rw [mem_singleton.mp hnew]
      refine .inl fun p hmem => ?_
      obtain ⟨j, rfl, hfree, -⟩ := hpage p hmem
      exact inDram_of_lt hfits (lt_of_getElem? hfree)
  · rw [ht.dramPages, hd, ht.flips.count]; simp
  · rw [ht.pcmPages, ht.other]; exact hp

theorem PageInv.takePcm (hi : PageInv mem h s) (ht : TakesPcm s s' first n)
    (he : liveStep mem (liveRanges mem h) e = liveRanges mem h ++ [mem.pagesAt (mem.pcmAddr first) n]) :
    PageInv mem (h ++ [e]) s' := by
  obtain ⟨rfl, hfits, hnd, hlive, harea, hd, hp⟩ := hi
  have hpage : ∀ p ∈ s.mem.pagesAt (s.mem.pcmAddr first) n, ∃ j, p = s.mem.pcmAddr j ∧
      s.pcm.valid[j]? = some false ∧ s'.pcm.valid[j]? = some true := by
    intro p hp
    obtain ⟨k, hk, rfl⟩ := mem_pagesAt.mp hp
    exact ⟨first + k, pcmAddr_add _ _ _, ht.flips.free (by omega) (by omega),
      ht.flips.taken (by omega) (by omega)⟩
  have hlen := ht.flips.1
  refine ⟨ht.mem, ⟨?_, ?_⟩, ?_, ?_, ?_, ?_, ?_⟩
  · rw [ht.other, ht.mem]; exact hfits.dram
  · rw [hlen, ht.mem]; exact hfits.pcm
  · rw [liveRanges_snoc, he]
    refine nodup_append_range hnd fun p hmem hin => ?_
    obtain ⟨j, rfl, hfree, -⟩ := hpage p hmem
    rw [allocatedAt_pcm hfits (lt_of_getElem? hfree) (hlive _ hin)] at hfree
    cases hfree
  · rw [liveRanges_snoc, he]
    intro p hmem
    rw [flatten_append, flatten_singleton, mem_append] at hmem
    rcases hmem with hold | hnew
    · exact (hlive p hold).takePcm ht
    · obtain ⟨j, rfl, -, htaken⟩ := hpage p hnew
      exact .inr ⟨j, by rw [ht.mem], htaken⟩
  · rw [liveRanges_snoc, he]
    intro r hr
    rcases mem_append.mp hr with hold | hnew
    · exact harea r hold
    · rw [mem_singleton.mp hnew]
      refine .inr fun p hmem => ?_
      obtain ⟨j, rfl, hfree, -⟩ := hpage p hmem
      exact inPcm_of_lt hfits (lt_of_getElem? hfree)
  · rw [ht.dramPages, ht.other]; exact hd
  · rw [ht.pcmPages, hp, ht.flips.count]; simp

theorem PageInv.clear (hi : PageInv mem h s) (hv : allocatedPcm s idx) (hc : s.clearPhysPages true idx = .ok s') :
    PageInv mem (h ++ [.clearPhysPages idx]) s' := by
  obtain ⟨rfl, hfits, hnd, hlive, harea, hd, hp⟩ := hi
  obtain ⟨hlt, rfl⟩ := clearPhysPages_clears hc
  have hflat : (liveRanges s.mem (h ++ [.clearPhysPages idx])).flatten =
      (liveRanges s.mem h).flatten.filter (· != s.mem.pcmAddr idx) := by
    rw [liveRanges_snoc, filter_flatten]; rfl
  refine ⟨rfl, ⟨hfits.dram, by simpa using hfits.pcm⟩, ?_, ?_, ?_, hd, ?_⟩
  · rw [hflat]; exact hnd.filter _
  · rw [hflat]
    intro p hmem
    obtain ⟨hold, hne⟩ := mem_filter.mp hmem
    rcases hlive p hold with h | ⟨i, rfl, hvi⟩
    · exact .inl h
    · have hi : idx ≠ i := fun heq => by subst heq; simp at hne
      exact .inr ⟨i, rfl, by simpa [getElem?_set_ne hi] using hvi⟩
  · rw [liveRanges_snoc]
    intro r hr
    obtain ⟨r₀, hr₀, rfl⟩ := mem_map.mp hr
    have keep : ∀ p ∈ r₀.filter (· != s.mem.pcmAddr idx), p ∈ r₀ :=
      fun p hmem => (mem_filter.mp hmem).1
    exact (harea r₀ hr₀).imp (fun h p hm => h p (keep p hm)) (fun h p hm => h p (keep p hm))
  · obtain ⟨_, hval⟩ := List.getElem?_eq_some_iff.mp hv
    have hone : 1 ≤ s.pcm.valid.count true :=
      count_pos_iff.mpr (mem_of_getElem? hv)
    simp only [hp]
    rw [count_set (h := hlt)]
    simp [hval]
    omega

theorem step_inv (hi : PageInv mem h s) (hs : PageStep allocatedPcm s e s') : PageInv mem (h ++ [e]) s' := by
  have hm := hi.config
  cases hs with
  | allocPhysPages hn _ hc =>
    rcases allocPhysPages_takes hn hc with ⟨first, rfl, ht⟩ | ⟨first, rfl, ht⟩
    · exact hi.takeDram ht (by rw [← hm]; rfl)
    · exact hi.takePcm ht (by rw [← hm]; rfl)
  | allocTextPhysPages hn _ hc =>
    obtain ⟨first, rfl, ht⟩ := allocTextPhysPages_takes hn hc
    exact hi.takePcm ht (by rw [← hm]; rfl)
  | clearPhysPages hv hc => exact hi.clear hv hc

theorem run_inv {s₀ : System} (h0 : System.init mem = .ok s₀)
    (hr : Exec (PageStep allocatedPcm) s₀ h s) : PageInv mem h s :=
  hr.history_invariant (init_inv h0) fun _ _ _ _ hi hs => step_inv hi hs

/-! ## No page is handed out twice -/

/-- Two pages share no byte. -/
def MemConfig.Apart (mem : MemConfig) (p q : Nat) : Prop :=
  p + mem.pageBytes ≤ q ∨ q + mem.pageBytes ≤ p

end Gem5.Sim
