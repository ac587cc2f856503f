import Gem5Nvmain.Cache.FilterPolicies
import Mathlib.Data.List.Induction

/- Runs of the hashed filter (hsetbloomfilter.cc).

  `insertTags` and `testTags` go through the same three hashes, and bits are only set until the filter is cleared, so
  a tag that was inserted since then is found (`Found`). The hash has as many bits as the filter has a logarithm, so
  it is an index of the filter (`Fits.hash`). The filter clears itself when its counter is above 16; the counter
  starts where the constructor is told to and counts on from there, and so the tags that are recorded at one time can
  be 17. -/
namespace Gem5.Cache
open Lib Gem5.Mem List

namespace HSetBloomFilter
variable {f g : HSetBloomFilter} {tag : BitVec 32}

/-! ## The hash -/

/-- The filter has a place for every hash, and a tag has enough bits to fold. -/
structure Fits (f : HSetBloomFilter) : Prop where
  size : f.bloomfilter.length = 2 ^ f.filteNum
  fold : f.filteNum ≤ f.tagNumBit

theorem index_ok {α : Type} {l : List α} {i : Nat} (h : i < l.length) : ∃ a, index l i = .ok a :=
  ⟨l[i], index_eq_ok.mpr (getElem?_eq_getElem h)⟩

/-- Each step doubles what it has, and adds a bit. -/
theorem fold_ok {step : Nat → Nat → Except Stop Nat} (is : List Nat)
    (hstep : ∀ i ∈ is, ∀ result, ∃ r, step result i = .ok r ∧ r < 2 * (result + 1)) (result : Nat) :
    ∃ r, is.foldlM step result = .ok r ∧ r < (result + 1) * 2 ^ is.length := by
  induction is generalizing result with
  | nil =>
    refine ⟨result, rfl, ?_⟩
    rw [length_nil, Nat.pow_zero, Nat.mul_one]
    exact Nat.lt_succ_self result
  | cons i is ih =>
    obtain ⟨hi, hrest⟩ := forall_mem_cons.mp hstep
    obtain ⟨s, hs, hlt⟩ := hi result
    obtain ⟨r, hr, hbound⟩ := ih hrest s
    refine ⟨r, ?_, ?_⟩
    · exact bind_eq_ok.mpr ⟨s, hs, hr⟩
    · calc r < (s + 1) * 2 ^ is.length := hbound
        _ ≤ 2 * (result + 1) * 2 ^ is.length := Nat.mul_le_mul_right _ hlt
        _ = (result + 1) * 2 ^ (i :: is).length := by
          rw [length_cons, Nat.pow_succ, Nat.mul_comm 2, Nat.mul_assoc, Nat.mul_comm 2]

theorem Fits.hash (h : f.Fits) (tag : BitVec 32) : ∃ r, f.getFliter tag = .ok r ∧ r < f.bloomfilter.length := by
  have hlen : ((range f.tagNumBit).map fun i => (tag.sshiftRight i).getLsbD 0).length = f.tagNumBit := by simp
  have hstep : ∀ i ∈ range f.filteNum, ∀ result : Nat, ∃ r, (do
      let a ← index ((range f.tagNumBit).map fun i => (tag.sshiftRight i).getLsbD 0) i
      let b ← index ((range f.tagNumBit).map fun i => (tag.sshiftRight i).getLsbD 0) (f.tagNumBit - 1 - i)
      pure (2 * result + if a != b then 1 else 0)) = (.ok r : Except Stop Nat) ∧ r < 2 * (result + 1) := by
    intro i hi result
    have hfold := h.fold
    have hi := mem_range.mp hi
    obtain ⟨a, ha⟩ := index_ok (Nat.lt_of_lt_of_le hi (Nat.le_trans hfold (Nat.le_of_eq hlen.symm)))
    have hback : f.tagNumBit - 1 - i <
        ((range f.tagNumBit).map fun i => (tag.sshiftRight i).getLsbD 0).length := by omega
    obtain ⟨b, hb⟩ := index_ok hback
    refine ⟨_, bind_eq_ok.mpr ⟨a, ha, bind_eq_ok.mpr ⟨b, hb, rfl⟩⟩, ?_⟩
    split <;> omega
  obtain ⟨r, hr, hlt⟩ := fold_ok _ hstep 0
  refine ⟨r, hr, ?_⟩
  rw [h.size]
  rwa [Nat.zero_add, Nat.one_mul, length_range] at hlt

/-! ## What an insertion leaves -/

/-- The same filter with more bits set. -/
structure Grown (f g : HSetBloomFilter) : Prop where
  length : g.bloomfilter.length = f.bloomfilter.length
  filteNum : g.filteNum = f.filteNum
  tagNumBit : g.tagNumBit = f.tagNumBit
  bits : ∀ i : Nat, f.bloomfilter[i]? = some true → g.bloomfilter[i]? = some true

namespace Grown

theorem refl (f : HSetBloomFilter) : Grown f f := ⟨rfl, rfl, rfl, fun _ h => h⟩

theorem trans {k : HSetBloomFilter} (h : Grown f g) (h' : Grown g k) : Grown f k :=
  ⟨h'.length.trans h.length, h'.filteNum.trans h.filteNum, h'.tagNumBit.trans h.tagNumBit,
    fun i hi => h'.bits i (h.bits i hi)⟩

theorem fits (h : Grown f g) (hf : f.Fits) : g.Fits := by
  constructor
  · rw [h.length, h.filteNum]
    exact hf.size
  · rw [h.filteNum, h.tagNumBit]
    exact hf.fold

theorem hash (h : Grown f g) (tag : BitVec 32) : g.getFliter tag = f.getFliter tag := by
  unfold getFliter
  rw [h.filteNum, h.tagNumBit]

theorem rotate (h : Grown f g) (tag : BitVec 32) : g.rotate tag = f.rotate tag := by
  unfold HSetBloomFilter.rotate
  rw [h.tagNumBit]

theorem setBit (f : HSetBloomFilter) (i : Nat) : Grown f { f with bloomfilter := f.bloomfilter.set i true } := by
  refine ⟨length_set, rfl, rfl, fun j hj => ?_⟩
  show (f.bloomfilter.set i true)[j]? = some true
  have hlt : j < f.bloomfilter.length := (List.getElem?_eq_some_iff.mp hj).1
  by_cases hij : i = j
  · rw [hij, getElem?_set_self hlt]
  · rw [getElem?_set_ne hij]
    exact hj

theorem testLoop (h : Grown f g) (n : Nat) (htest : f.testLoop n tag = .ok true) : g.testLoop n tag = .ok true := by
  induction n generalizing tag with
  | zero => rfl
  | succ n ih =>
    rw [HSetBloomFilter.testLoop] at htest ⊢
    obtain ⟨r, hr, htest⟩ := of_bind htest
    obtain ⟨bit, hbit, htest⟩ := of_bind htest
    cases bit with
    | false => cases htest
    | true =>
      rw [h.hash, h.rotate]
      have hg : index g.bloomfilter r = .ok true := index_eq_ok.mpr (h.bits r (index_eq_ok.mp hbit))
      exact bind_eq_ok.mpr ⟨r, hr, bind_eq_ok.mpr ⟨true, hg, ih htest⟩⟩

end Grown

/-- The bits of all hashes are set, and others stay. -/
theorem insertLoop_spec (n : Nat) (hf : f.Fits) (tag : BitVec 32) :
    ∃ g, insertLoop n tag f = .ok g ∧ Grown f g ∧ g.counter = f.counter ∧ g.testLoop n tag = .ok true := by
  induction n generalizing f tag with
  | zero => exact ⟨f, rfl, .refl f, rfl, rfl⟩
  | succ n ih =>
    obtain ⟨r, hr, hlt⟩ := hf.hash tag
    obtain ⟨bit, hbit⟩ := index_ok hlt
    have hset := Grown.setBit f r
    obtain ⟨g, hg, hgrown, hcounter, htest⟩ := ih (hset.fits hf) (f.rotate tag)
    have hall := hset.trans hgrown
    refine ⟨g, ?_, hall, hcounter, ?_⟩
    · exact bind_eq_ok.mpr ⟨r, hr, bind_eq_ok.mpr ⟨bit, hbit, hg⟩⟩
    · have hset : g.bloomfilter[r]? = some true := hgrown.bits r (getElem?_set_self hlt)
      rw [testLoop, hall.hash, hall.rotate]
      exact bind_eq_ok.mpr ⟨r, hr, bind_eq_ok.mpr ⟨true, index_eq_ok.mpr hset, htest⟩⟩

theorem Fits.clearbloomfilter (hf : f.Fits) : f.clearbloomfilter.Fits :=
  ⟨length_replicate.trans hf.size, hf.fold⟩

end HSetBloomFilter

/-! ## Runs -/

/-- A filter, and the tags inserted since it was last cleared. -/
structure FilterRun where
  filter : HSetBloomFilter
  recorded : List (BitVec 32)

inductive FilterOp where
  | insertTags (tag : BitVec 32)
  | clearbloomfilter

namespace FilterRun

/-- A new filter of `2 ^ n` bits. -/
def start (cnt : Int) (n numTagBits : Nat) : FilterRun := ⟨HSetBloomFilter.new cnt (2 ^ n) numTagBits, []⟩

def step (s : FilterRun) : FilterOp → Except Stop FilterRun
  | .insertTags tag => do
    let f ← s.filter.insertTags tag
    pure ⟨f, if s.filter.counter > 16 then [tag] else s.recorded ++ [tag]⟩
  | .clearbloomfilter => .ok ⟨s.filter.clearbloomfilter, []⟩

/-- 16 tags are recorded, and the filter takes one more: its counter is not above 16. -/
def overfills (s : FilterRun) : FilterOp → Bool
  | .insertTags _ => s.recorded.length == 16 && decide (s.filter.counter ≤ 16)
  | .clearbloomfilter => false

/-- Every recorded tag is found. -/
structure Found (n : Nat) (s : FilterRun) : Prop where
  fits : s.filter.Fits
  filteNum : s.filter.filteNum = n
  found : ∀ tag ∈ s.recorded, s.filter.testTags tag = .ok true

variable {s s' : FilterRun} {op : FilterOp} {n numTagBits : Nat} {cnt : Int}

theorem ceilLog2_pow (n : Nat) : ceilLog2 (2 ^ n) = n := by
  unfold ceilLog2
  cases n with
  | zero => rfl
  | succ n =>
    have hpos : 0 < 2 ^ n := Nat.two_pow_pos n
    have hlog : (2 ^ (n + 1) - 1).log2 = n := by
      apply (Nat.log2_eq_iff (by omega)).mpr
      omega
    rw [if_neg (by omega), hlog]

theorem start_found (hn : n ≤ numTagBits) : Found n (start cnt n numTagBits) := by
  have hlog : (start cnt n numTagBits).filter.filteNum = n := ceilLog2_pow n
  refine ⟨⟨?_, ?_⟩, hlog, fun _ h => absurd h not_mem_nil⟩
  · rw [hlog]
    exact length_replicate
  · rw [hlog]
    exact hn

theorem step_found (h : Found n s) (op : FilterOp) : ∃ s', s.step op = .ok s' ∧ Found n s' := by
  cases op with
  | clearbloomfilter =>
    exact ⟨_, rfl, h.fits.clearbloomfilter, h.filteNum, fun _ h => absurd h not_mem_nil⟩
  | insertTags tag =>
    by_cases hc : s.filter.counter > 16
    · -- the filter is cleared first
      obtain ⟨g, hg, hgrown, -, htest⟩ := HSetBloomFilter.insertLoop_spec 3
        (f := { s.filter.clearbloomfilter with counter := s.filter.clearbloomfilter.counter + 1 })
        ⟨h.fits.clearbloomfilter.size, h.fits.fold⟩ tag
      have hins : s.filter.insertTags tag = .ok g := by
        rw [HSetBloomFilter.insertTags, if_pos hc]
        exact hg
      refine ⟨_, bind_eq_ok.mpr ⟨g, hins, rfl⟩, hgrown.fits ⟨h.fits.clearbloomfilter.size, h.fits.fold⟩,
        hgrown.filteNum.trans h.filteNum, fun t ht => ?_⟩
      rw [if_pos hc] at ht
      rw [mem_singleton.mp ht]
      exact htest
    · obtain ⟨g, hg, hgrown, -, htest⟩ := HSetBloomFilter.insertLoop_spec 3
        (f := { s.filter with counter := s.filter.counter + 1 }) ⟨h.fits.size, h.fits.fold⟩ tag
      have hins : s.filter.insertTags tag = .ok g := by
        rw [HSetBloomFilter.insertTags, if_neg hc]
        exact hg
      refine ⟨_, bind_eq_ok.mpr ⟨g, hins, rfl⟩, hgrown.fits ⟨h.fits.size, h.fits.fold⟩,
        hgrown.filteNum.trans h.filteNum, fun t ht => ?_⟩
      rw [if_neg hc] at ht
      rcases mem_append.mp ht with ht | ht
      · have hgrowth : HSetBloomFilter.Grown s.filter g :=
          ⟨hgrown.length, hgrown.filteNum, hgrown.tagNumBit, hgrown.bits⟩
        exact hgrowth.testLoop 3 (h.found t ht)
      · rw [mem_singleton.mp ht]
        exact htest

theorem step_recorded (h : s.step op = .ok s') (hle : s.recorded.length ≤ 16) :
    s'.recorded.length ≤ 16 ↔ s.overfills op = false := by
  cases op with
  | clearbloomfilter =>
    cases h
    simp [overfills]
  | insertTags tag =>
    obtain ⟨g, -, h⟩ := of_bind h
    cases h
    by_cases hc : s.filter.counter > 16
    · simp [overfills, hc]
    · have hcounter : s.filter.counter ≤ 16 := Int.not_lt.mp hc
      simp only [overfills, if_neg hc, length_append, length_singleton, hcounter, decide_true, Bool.and_true,
        beq_eq_false_iff_ne]
      omega

theorem run_found (hn : n ≤ numTagBits) (cnt : Int) (ops : List FilterOp) :
    ∃ s, Exec (StepOf step) (start cnt n numTagBits) ops s ∧ Found n s := by
  induction ops using reverseRecOn with
  | nil => exact ⟨_, .nil, start_found hn⟩
  | append_singleton ops op ih =>
    obtain ⟨s, hr, hs⟩ := ih
    obtain ⟨s', hstep, hs'⟩ := step_found hs op
    exact ⟨s', hr.snoc hstep, hs'⟩

theorem found_of_run (hn : n ≤ numTagBits) {ops : List FilterOp}
    (hr : Exec (StepOf step) (start cnt n numTagBits) ops s) : Found n s := by
  apply hr.invariant (start_found hn)
  intro t op u ht hstep
  obtain ⟨u', hu', hfound⟩ := step_found ht op
  obtain rfl : u' = u := Except.ok.inj (hu'.symm.trans hstep)
  exact hfound

/-- A run of a filter of `2 ^ n` bits: it does not stop, finds every tag that was inserted since it was last cleared,
  and its hashes are places of the filter. It never has more than 16 tags exactly when no call inserts into a filter
  that has 16 and whose counter is not above 16. -/
theorem filter_keeps_tags (hn : n ≤ numTagBits) (cnt : Int) (ops : List FilterOp) :
    ∃ s, Exec (StepOf step) (start cnt n numTagBits) ops s ∧
      (∀ tag ∈ s.recorded, s.filter.testTags tag = .ok true) ∧
      (∀ tag, ∃ result, s.filter.getFliter tag = .ok result ∧ result < 2 ^ n) ∧
      ((∀ l u, l <+: ops → Exec (StepOf step) (start cnt n numTagBits) l u → u.recorded.length ≤ 16) ↔
        ∀ l op u, l ++ [op] <+: ops → Exec (StepOf step) (start cnt n numTagBits) l u → u.overfills op = false) := by
  obtain ⟨s, hr, hs⟩ := run_found hn cnt ops
  refine ⟨s, hr, hs.found, fun tag => ?_, fun h l op u hl hu => ?_, fun h l u hl hu => ?_⟩
  · obtain ⟨result, hresult, hlt⟩ := hs.fits.hash tag
    rw [hs.fits.size, hs.filteNum] at hlt
    exact ⟨result, hresult, hlt⟩
  · obtain ⟨u', hstep, -⟩ := step_found (found_of_run hn hu) op
    have hbefore := h l u ((prefix_append l [op]).trans hl) hu
    exact (step_recorded hstep hbefore).mp (h (l ++ [op]) u' hl (hu.snoc hstep))
  · induction hu with
    | nil => exact Nat.zero_le 16
    | snoc hu hstep ih =>
      have hbefore := ih ((prefix_append _ _).trans hl)
      exact (step_recorded hstep hbefore).mpr (h _ _ _ hl hu)

/-- The counter and the bits that the caches have by default. -/
theorem filter_keeps_tags_default :
    ∃ s, Exec (StepOf step) (start 16 7 20) [.insertTags 5, .clearbloomfilter, .insertTags 9] s ∧
      (∀ tag ∈ s.recorded, s.filter.testTags tag = .ok true) ∧
      ∀ tag, ∃ result, s.filter.getFliter tag = .ok result ∧ result < 128 := by
  obtain ⟨s, hr, hfound, hrange, -⟩ :=
    filter_keeps_tags (by decide : 7 ≤ 20) 16 [.insertTags 5, .clearbloomfilter, .insertTags 9]
  exact ⟨s, hr, hfound, hrange⟩

/-- After the first clearing 17 tags are recorded. -/
theorem records_seventeen_tags :
    ∃ s, Exec (StepOf step) (start 16 7 20) ((range 18).map fun tag => .insertTags (BitVec.ofNat 32 tag)) s ∧
      s.recorded.length = 17 := by
  refine Exec.ends_with (p := fun s => decide (s.recorded.length = 17)) (by decide +kernel) fun s hr hs => ?_
  exact of_decide_eq_true hs

end FilterRun

end Gem5.Cache
