import Gem5Nvmain.Cache.BaseSetAssoc

/- The invariant of the tag store.

  `TagsInv p arr live extra t` says that every set holds its own blocks, that no two valid blocks of a set have the
  same tag and security state, and that the counters agree with the blocks. `arr` is the array that `blks` points at;
  `live` is the set and the memory of the temporary block while it is counted; `extra` is how much `tagsInUse` is
  ahead, while a block is being replaced. The counters of PCM and DRAM lines are 8 bits wide, so they agree modulo
  256.

  Every operation of the cache is a sequence of six changes, and each keeps the invariant: reordering (`reordered`), a
  change of a block that the tag store does not see (`setSame`), `retire` and `arrive` of a block, and counting and
  not counting the temporary block (`countTemp`, `uncountTemp`). -/
namespace Gem5.Cache
open Lib Gem5.Mem List Tags

/-! ## Addresses -/

namespace TagParams
variable (p : TagParams)

theorem numSets_pos : 0 < p.numSets := Nat.two_pow_pos _

theorem blkSize_pos : 0 < p.blkSize := Nat.two_pow_pos _

theorem extractSet_lt (addr : Nat) : p.extractSet addr < p.numSets := by
  rw [extractSet, numSets, Nat.and_two_pow_sub_one_eq_mod]
  exact Nat.mod_lt _ (Nat.two_pow_pos _)

variable {set : Nat}

theorem regenerateBlkAddr_eq (tag : Nat) (h : set < p.numSets) :
    p.regenerateBlkAddr tag set = (tag * p.numSets + set) * p.blkSize := by
  have hlt : set <<< p.setShift < 2 ^ p.tagShift := by
    rw [Nat.shiftLeft_eq, tagShift, Nat.pow_add, Nat.mul_comm]
    exact Nat.mul_lt_mul_of_pos_left h (Nat.two_pow_pos _)
  rw [regenerateBlkAddr, Nat.shiftLeft_eq tag, Nat.mul_comm tag, ← Nat.two_pow_add_eq_or_of_lt hlt,
    Nat.shiftLeft_eq, tagShift, Nat.pow_add]
  unfold numSets blkSize
  rw [Nat.add_mul]
  congr 1
  ac_rfl

theorem extractTag_eq (addr : Nat) : p.extractTag addr = addr / p.blkSize / p.numSets := by
  rw [extractTag, Nat.shiftRight_eq_div_pow, tagShift, Nat.pow_add, Nat.div_div_eq_div_mul]
  rfl

theorem extractSet_eq (addr : Nat) : p.extractSet addr = addr / p.blkSize % p.numSets := by
  rw [extractSet, numSets, Nat.and_two_pow_sub_one_eq_mod, Nat.shiftRight_eq_div_pow]
  rfl

theorem blkAlign_eq (addr : Nat) : p.blkAlign addr = addr / p.blkSize * p.blkSize := by
  rw [blkAlign, Nat.shiftRight_eq_div_pow, Nat.shiftLeft_eq]
  rfl

theorem regenerateBlkAddr_extract (addr : Nat) :
    p.regenerateBlkAddr (p.extractTag addr) (p.extractSet addr) = p.blkAlign addr := by
  rw [p.regenerateBlkAddr_eq _ (p.extractSet_lt addr), extractTag_eq, extractSet_eq, blkAlign_eq,
    Nat.mul_comm (addr / p.blkSize / p.numSets), Nat.div_add_mod]

theorem extractTag_regenerate (tag : Nat) (h : set < p.numSets) :
    p.extractTag (p.regenerateBlkAddr tag set) = tag := by
  rw [extractTag_eq, p.regenerateBlkAddr_eq tag h, Nat.mul_div_cancel _ p.blkSize_pos,
    Nat.mul_comm tag, Nat.mul_add_div p.numSets_pos, Nat.div_eq_of_lt h, Nat.add_zero]

theorem extractSet_regenerate (tag : Nat) (h : set < p.numSets) :
    p.extractSet (p.regenerateBlkAddr tag set) = set := by
  rw [extractSet_eq, p.regenerateBlkAddr_eq tag h, Nat.mul_div_cancel _ p.blkSize_pos,
    Nat.mul_comm tag, Nat.mul_add_mod, Nat.mod_eq_of_lt h]

theorem numBlocks_pos : 0 < p.numBlocks := Nat.mul_pos p.numSets_pos p.assoc_pos

theorem div_assoc_lt {i : Nat} (h : i < p.numBlocks) : i / p.assoc < p.numSets :=
  (Nat.div_lt_iff_lt_mul p.assoc_pos).mpr h

end TagParams

/-! ## Counting -/

/-- 1 if the block has the property. -/
def one (q : CacheBlk → Bool) (b : CacheBlk) : Nat := if q b then 1 else 0

/-- The counter of PCM or of DRAM lines. -/
def CacheSet.lines (s : CacheSet) (isPcm : Bool) : BitVec 8 := if isPcm then s.pcm else s.dram

/-- A valid block of a master. -/
def ofMaster (m : Nat) (b : CacheBlk) : Bool := b.valid && b.srcMasterId == m

/-- A valid PCM or DRAM block of a set. -/
def lineOf (s : Nat) (isPcm : Bool) (b : CacheBlk) : Bool := b.valid && (b.isPcm == isPcm && b.set == s)

section One
variable {b : CacheBlk}

theorem one_ofMaster {m : Nat} (hv : b.valid = true) : one (ofMaster m) b = if m = b.srcMasterId then 1 else 0 := by
  simp only [one, ofMaster, hv, Bool.true_and, beq_iff_eq, eq_comm (a := m)]

theorem one_lineOf {s : Nat} {isPcm : Bool} (hv : b.valid = true) :
    one (lineOf s isPcm) b = if s = b.set ∧ isPcm = b.isPcm then 1 else 0 := by
  simp only [one, lineOf, hv, Bool.true_and, Bool.and_eq_true, beq_iff_eq, eq_comm (a := s),
    eq_comm (a := isPcm), and_comm]

theorem one_of_not {q : CacheBlk → Bool} (h : q b = false) : one q b = 0 := by
  simp [one, h]

end One

variable {n m : Nat} {C : Prop}

theorem ofNat_add_ite [Decidable C] (h : n + (if C then 1 else 0) = m) :
    BitVec.ofNat 8 n + (if C then 1 else 0) = BitVec.ofNat 8 m := by
  subst h
  split
  · exact (BitVec.ofNat_add n 1).symm
  · exact BitVec.add_zero _

theorem ofNat_sub_ite [Decidable C] (h : m + (if C then 1 else 0) = n) :
    BitVec.ofNat 8 n - (if C then 1 else 0) = BitVec.ofNat 8 m := by
  rw [← ofNat_add_ite h]
  exact BitVec.add_sub_cancel _ _

namespace Tags
variable {σ : Type} {t : Tags σ} {i j : Nat} {b : CacheBlk}

theorem blk_setBlk_self (h : i < t.blocks.length) : (t.setBlk i b).blk i = b := by
  simp [blk, setBlk, h]

theorem blk_setBlk_ne (h : j ≠ i) : (t.setBlk i b).blk j = t.blk j := by
  simp [blk, setBlk, getElem?_set_ne (Ne.symm h)]

theorem blk_eq_getElem (h : i < t.blocks.length) : t.blk i = t.blocks[i] := by
  simp [blk, h]

theorem setBlk_setBlk (b' : CacheBlk) : (t.setBlk i b).setBlk i b' = t.setBlk i b' := by
  simp [setBlk]

theorem countP_setBlk (q : CacheBlk → Bool) (h : i < t.blocks.length) :
    (t.setBlk i b).blocks.countP q + one q (t.blk i) = t.blocks.countP q + one q b := by
  have hle : one q (t.blk i) ≤ t.blocks.countP q := by
    unfold one
    split
    · rename_i hq
      refine countP_pos_iff.mpr ⟨t.blk i, ?_, hq⟩
      rw [blk_eq_getElem h]
      exact getElem_mem h
    · exact Nat.zero_le _
  rw [setBlk, countP_set h, ← blk_eq_getElem h]
  unfold one at *
  omega

variable {m k : Nat} {n : Int}

theorem incOccupancy_at (h : t.occupancies[m]? = some n) :
    (t.incOccupancy k).occupancies[m]? = some (n + if m = k then 1 else 0) := by
  rw [incOccupancy, getElem?_modify, h]
  by_cases hk : k = m
  · simp [hk]
  · simp [hk, Ne.symm hk]

theorem decOccupancy_at (h : t.occupancies[m]? = some n) :
    (t.decOccupancy k).occupancies[m]? = some (n - if m = k then 1 else 0) := by
  rw [decOccupancy, getElem?_modify, h]
  by_cases hk : k = m
  · simp [hk]
  · simp [hk, Ne.symm hk]

theorem setAt_modify (f : CacheSet → CacheSet) (h : i < t.sets.length) :
    ({ t with sets := t.sets.modify i f } : Tags σ).setAt j =
      if j = i then f (t.setAt j) else t.setAt j := by
  by_cases hj : j = i
  · simp [setAt, hj, h]
  · simp [setAt, hj, getElem?_modify_ne _ _ (Ne.symm hj)]

theorem lines_incSetLine (isPcm q : Bool) (h : i < t.sets.length) : ((t.incSetLine i q).setAt j).lines isPcm =
      (t.setAt j).lines isPcm + if j = i ∧ isPcm = q then 1 else 0 := by
  rw [incSetLine, setAt_modify _ h]
  by_cases hj : j = i
  · cases isPcm <;> cases q <;> simp [hj, CacheSet.lines]
  · simp [hj]

theorem lines_decSetLine (isPcm q : Bool) (h : i < t.sets.length) : ((t.decSetLine i q).setAt j).lines isPcm =
      (t.setAt j).lines isPcm - if j = i ∧ isPcm = q then 1 else 0 := by
  rw [decSetLine, setAt_modify _ h]
  by_cases hj : j = i
  · cases isPcm <;> cases q <;> simp [hj, CacheSet.lines]
  · simp [hj]

variable {q : Bool}

theorem blks_incSetLine : ((t.incSetLine i q).setAt j).blks = (t.setAt j).blks := by
  simp only [incSetLine, setAt, getElem?_modify]
  cases t.sets[j]? with
  | none => rfl
  | some s =>
    split
    · cases q <;> rfl
    · rfl

theorem blks_decSetLine : ((t.decSetLine i q).setAt j).blks = (t.setAt j).blks := by
  simp only [decSetLine, setAt, getElem?_modify]
  cases t.sets[j]? with
  | none => rfl
  | some s =>
    split
    · cases q <;> rfl
    · rfl

end Tags

/-! ## Blocks in their sets -/

/-- Every set holds its own blocks, in some order. -/
structure Placed {σ : Type} (p : TagParams) (t : Tags σ) : Prop where
  numBlocks : t.blocks.length = p.numBlocks
  numSets : t.sets.length = p.numSets
  ways : ∀ s < p.numSets, (t.setAt s).blks.Perm ((range p.assoc).map fun j => s * p.assoc + j)
  set : ∀ i < p.numBlocks, (t.blk i).set = i / p.assoc

namespace Placed
variable {σ : Type} {p : TagParams} {t : Tags σ} {i s : Nat}

theorem mem_ways (hp : Placed p t) (hs : s < p.numSets) :
    i ∈ (t.setAt s).blks ↔ i < p.numBlocks ∧ i / p.assoc = s := by
  rw [(hp.ways s hs).mem_iff, mem_map]
  constructor
  · rintro ⟨j, hj, rfl⟩
    have hlt := mem_range.mp hj
    refine ⟨?_, by rw [Nat.mul_comm, Nat.mul_add_div p.assoc_pos, Nat.div_eq_of_lt hlt, Nat.add_zero]⟩
    calc s * p.assoc + j < (s + 1) * p.assoc := by rw [Nat.succ_mul]; omega
      _ ≤ p.numSets * p.assoc := Nat.mul_le_mul_right _ hs
  · rintro ⟨-, rfl⟩
    refine ⟨i % p.assoc, mem_range.mpr (Nat.mod_lt _ p.assoc_pos), ?_⟩
    rw [Nat.mul_comm, Nat.div_add_mod]

theorem ways_nodup (hp : Placed p t) (hs : s < p.numSets) : (t.setAt s).blks.Nodup := by
  refine (hp.ways s hs).nodup_iff.mpr (nodup_range.map ?_)
  intro j k hjk
  exact Nat.add_left_cancel hjk

theorem ways_length (hp : Placed p t) (hs : s < p.numSets) : (t.setAt s).blks.length = p.assoc := by
  rw [(hp.ways s hs).length_eq, length_map, length_range]

end Placed

/-! ## The invariant -/

/-- Block `i` on its own. -/
structure BlkInv (p : TagParams) (i : Nat) (b : CacheBlk) : Prop where
  set : b.set = i / p.assoc
  touched : b.isTouched = b.valid
  dirty : b.dirty = true → b.valid = true
  secure : b.secure = true → b.valid = true
  master : b.valid = true → b.srcMasterId < p.maxMasters

structure TagsInv {σ : Type} (p : TagParams) (arr : BlkArray) (live : Option (Nat × Bool)) (extra : Nat)
    (t : Tags σ) : Prop where
  array : t.blks = arr
  numBlocks : t.blocks.length = p.numBlocks
  numSets : t.sets.length = p.numSets
  ways : ∀ s < p.numSets, (t.setAt s).blks.Perm ((range p.assoc).map fun j => s * p.assoc + j)
  blk : ∀ i < p.numBlocks, BlkInv p i (t.blk i)
  unique : ∀ i < p.numBlocks, ∀ j < p.numBlocks, (t.blk i).valid = true → (t.blk j).valid = true →
    (t.blk i).set = (t.blk j).set → (t.blk i).tag = (t.blk j).tag →
    (t.blk i).secure = (t.blk j).secure → i = j
  tagsInUse : t.tagsInUse = t.blocks.countP (·.valid) + extra
  masters : t.occupancies.length = p.maxMasters
  occupancies : ∀ m < p.maxMasters, t.occupancies[m]? = some (t.blocks.countP (ofMaster m) : Int)
  lines : ∀ s < p.numSets, ∀ isPcm, (t.setAt s).lines isPcm =
    BitVec.ofNat 8 (t.blocks.countP (lineOf s isPcm) + if live = some (s, isPcm) then 1 else 0)

namespace TagsInv
variable {σ : Type} {p : TagParams} {arr : BlkArray} {live : Option (Nat × Bool)} {extra : Nat} {t t' : Tags σ} {i : Nat}
  {b : CacheBlk}

section
variable (hi : TagsInv p arr live extra t)
include hi

theorem lt_length (h : i < p.numBlocks) : i < t.blocks.length := by
  rw [hi.numBlocks]
  exact h

theorem set (h : i < p.numBlocks) : (t.blk i).set = i / p.assoc :=
  (hi.blk i h).set

theorem placed : Placed p t :=
  ⟨hi.numBlocks, hi.numSets, hi.ways, fun _ h => hi.set h⟩

theorem mem_ways {s : Nat} (hs : s < p.numSets) : i ∈ (t.setAt s).blks ↔ i < p.numBlocks ∧ i / p.assoc = s :=
  hi.placed.mem_ways hs

theorem set_lt (h : i < p.numBlocks) : (t.blk i).set < p.numSets := by
  rw [hi.set h]
  exact p.div_assoc_lt h

theorem ways_nodup {s : Nat} (hs : s < p.numSets) : (t.setAt s).blks.Nodup :=
  hi.placed.ways_nodup hs

theorem ways_length {s : Nat} (hs : s < p.numSets) : (t.setAt s).blks.length = p.assoc :=
  hi.placed.ways_length hs

/-- Counting the blocks of a set through the set. -/
theorem countP_lineOf {s : Nat} (hs : s < p.numSets) (isPcm : Bool) : t.blocks.countP (lineOf s isPcm) =
      (t.setAt s).blks.countP fun i => (t.blk i).valid && (t.blk i).isPcm == isPcm := by
  have hblocks : t.blocks = (range p.numBlocks).map t.blk := by
    refine ext_getElem (by simp [hi.numBlocks]) fun i h₁ h₂ => ?_
    rw [getElem_map, getElem_range, blk_eq_getElem]
  have hways : ((range p.numBlocks).filter fun i => i / p.assoc == s).Perm (t.setAt s).blks := by
    refine (perm_ext_iff_of_nodup (nodup_range.filter _) (hi.ways_nodup hs)).mpr fun i => ?_
    rw [hi.mem_ways hs, mem_filter, mem_range, beq_iff_eq]
  calc t.blocks.countP (lineOf s isPcm)
      = (range p.numBlocks).countP fun i => lineOf s isPcm (t.blk i) := by
        rw [hblocks, countP_map]
        rfl
    _ = (range p.numBlocks).countP fun i =>
          ((t.blk i).valid && (t.blk i).isPcm == isPcm) && i / p.assoc == s := by
        refine countP_congr fun i hmem => ?_
        rw [lineOf, hi.set (mem_range.mp hmem), Bool.and_assoc]
    _ = ((range p.numBlocks).filter fun i => i / p.assoc == s).countP fun i =>
          (t.blk i).valid && (t.blk i).isPcm == isPcm := by
        rw [countP_filter]
    _ = _ := hways.countP_eq _

end

/-! ## Looking up -/

variable {addr : Nat} {isSecure : Bool}

theorem findBlock_spec (hi : TagsInv p arr live extra t) (h : t.findBlock p addr isSecure = some i) :
    i < p.numBlocks ∧ (t.blk i).set = p.extractSet addr ∧ (t.blk i).tag = p.extractTag addr ∧
    (t.blk i).valid = true ∧ (t.blk i).secure = isSecure := by
  have hmem := (hi.mem_ways (p.extractSet_lt addr)).mp (mem_of_find?_eq_some h)
  have hholds := find?_some h
  simp only [holds, Bool.and_eq_true, beq_iff_eq] at hholds
  exact ⟨hmem.1, by rw [hi.set hmem.1, hmem.2], hholds.1.1, hholds.1.2, hholds.2⟩

theorem findBlock_none (hi : TagsInv p arr live extra t)
    (h : t.findBlock p addr isSecure = none) {j : Nat} (hj : j < p.numBlocks)
    (hset : (t.blk j).set = p.extractSet addr) (htag : (t.blk j).tag = p.extractTag addr)
    (hvalid : (t.blk j).valid = true) : (t.blk j).secure ≠ isSecure := by
  intro hsec
  rw [hi.set hj] at hset
  have hmem := (hi.mem_ways (p.extractSet_lt addr)).mpr ⟨hj, hset⟩
  have := find?_eq_none.mp h j hmem
  simp [holds, htag, hvalid, hsec] at this

theorem findBlock_own (hi : TagsInv p arr live extra t) (h : i < p.numBlocks) (hvalid : (t.blk i).valid = true) :
    t.findBlock p (p.regenerateBlkAddr (t.blk i).tag (t.blk i).set) (t.blk i).secure = some i := by
  have hset := hi.set_lt h
  cases hf : t.findBlock p (p.regenerateBlkAddr (t.blk i).tag (t.blk i).set) (t.blk i).secure with
  | none =>
    refine absurd rfl (hi.findBlock_none hf h ?_ ?_ hvalid)
    · rw [p.extractSet_regenerate _ hset]
    · rw [p.extractTag_regenerate _ hset]
  | some j =>
    obtain ⟨hj, hjset, hjtag, hjvalid, hjsec⟩ := hi.findBlock_spec hf
    rw [p.extractSet_regenerate _ hset] at hjset
    rw [p.extractTag_regenerate _ hset] at hjtag
    rw [hi.unique j hj i h hjvalid hvalid hjset hjtag hjsec]

/-! ## The changes -/

theorem new (p : TagParams) (x : σ) : TagsInv p .blocks none 0 (Tags.new p x) := by
  have hblk (j : Nat) (hj : j < p.numBlocks) : (Tags.new p x).blk j =
      { tag := j % p.assoc, set := j / p.assoc, data := replicate p.blkSize 0 } := by
    simp [Tags.blk, Tags.new, hj]
  have hset (s : Nat) (hs : s < p.numSets) : (Tags.new p x).setAt s =
      { blks := (range p.assoc).map fun j => s * p.assoc + j } := by
    simp [Tags.setAt, Tags.new, hs]
  have hnone (q : CacheBlk → Bool) (hq : ∀ b : CacheBlk, b.valid = false → q b = false) :
      (Tags.new p x).blocks.countP q = 0 := by
    rw [countP_eq_zero]
    intro b hb
    obtain ⟨j, -, rfl⟩ := mem_map.mp hb
    simp [hq]
  refine ⟨rfl, by simp [Tags.new], by simp [Tags.new], fun s hs => ?_, fun j hj => ?_, fun j hj k hk h => ?_, ?_,
    by simp [Tags.new], fun m hm => ?_, fun s hs isPcm => ?_⟩
  · rw [hset s hs]
  · rw [hblk j hj]
    exact ⟨rfl, rfl, fun h => h, fun h => h, fun h => by cases h⟩
  · rw [hblk j hj] at h
    cases h
  · rw [hnone _ fun b hb => hb]
    rfl
  · rw [hnone _ fun b hb => by simp [ofMaster, hb]]
    simp [Tags.new, hm]
  · rw [hnone _ fun b hb => by simp [lineOf, hb], hset s hs]
    cases isPcm <;> rfl

theorem new_invalid (p : TagParams) (x : σ) (i : Nat) : ((Tags.new p x).blk i).valid = false := by
  by_cases h : i < p.numBlocks
  · simp [Tags.blk, Tags.new, h]
  · simp [Tags.blk, Tags.new, h]

section
variable (hi : TagsInv p arr live extra t)
include hi

theorem congr {arr' : BlkArray} (harr : t'.blks = arr')
    (hblocks : t'.blocks = t.blocks) (hsets : t'.sets = t.sets) (huse : t'.tagsInUse = t.tagsInUse)
    (hocc : t'.occupancies = t.occupancies) : TagsInv p arr' live extra t' := by
  have hblk (j : Nat) : t'.blk j = t.blk j := by rw [Tags.blk, Tags.blk, hblocks]
  have hset (s : Nat) : t'.setAt s = t.setAt s := by rw [setAt, setAt, hsets]
  refine ⟨harr, hblocks ▸ hi.numBlocks, hsets ▸ hi.numSets, ?_, ?_, ?_, ?_, hocc ▸ hi.masters, ?_, ?_⟩
  · simpa only [hset] using hi.ways
  · simpa only [hblk] using hi.blk
  · simpa only [hblk] using hi.unique
  · rw [huse, hblocks]
    exact hi.tagsInUse
  · rw [hocc, hblocks]
    exact hi.occupancies
  · simpa only [hset, hblocks] using hi.lines

theorem reordered (hr : Reordered t t') : TagsInv p arr live extra t' := by
  have hblk := hr.blk
  refine ⟨hr.blks.trans hi.array, hr.blocks ▸ hi.numBlocks, hr.numSets.trans hi.numSets, fun s hs => ?_, ?_, ?_, ?_,
    hr.occupancies ▸ hi.masters, ?_, fun s hs isPcm => ?_⟩
  · exact (hr.ways s).trans (hi.ways s hs)
  · simpa only [hblk] using hi.blk
  · simpa only [hblk] using hi.unique
  · rw [hr.tagsInUse, hr.blocks]
    exact hi.tagsInUse
  · rw [hr.occupancies, hr.blocks]
    exact hi.occupancies
  · rw [hr.blocks, ← hi.lines s hs isPcm]
    cases isPcm
    · exact hr.dram s
    · exact hr.pcm s

theorem blk_setBlk (h : i < p.numBlocks) (hb : BlkInv p i b) :
    ∀ j < p.numBlocks, BlkInv p j ((t.setBlk i b).blk j) := by
  intro j hj
  by_cases hji : j = i
  · rw [hji, blk_setBlk_self (hi.lt_length h)]
    exact hb
  · rw [blk_setBlk_ne hji]
    exact hi.blk j hj

/-- A new block that is not valid, or that no other valid block equals, keeps blocks distinct. -/
theorem unique_setBlk (h : i < p.numBlocks)
    (hb : b.valid = true → ∀ j < p.numBlocks, j ≠ i → (t.blk j).valid = true → (t.blk j).set = b.set →
      (t.blk j).tag = b.tag → (t.blk j).secure ≠ b.secure) :
    ∀ j < p.numBlocks, ∀ k < p.numBlocks, ((t.setBlk i b).blk j).valid = true →
      ((t.setBlk i b).blk k).valid = true → ((t.setBlk i b).blk j).set = ((t.setBlk i b).blk k).set →
      ((t.setBlk i b).blk j).tag = ((t.setBlk i b).blk k).tag →
      ((t.setBlk i b).blk j).secure = ((t.setBlk i b).blk k).secure → j = k := by
  have hlt := hi.lt_length h
  intro j hj k hk hvj hvk hset htag hsec
  by_cases hji : j = i
  · by_cases hki : k = i
    · rw [hji, hki]
    · subst hji
      rw [blk_setBlk_self hlt] at hvj hset htag hsec
      rw [blk_setBlk_ne hki] at hvk hset htag hsec
      exact absurd hsec.symm (hb hvj k hk hki hvk hset.symm htag.symm)
  · rw [blk_setBlk_ne hji] at hvj hset htag hsec
    by_cases hki : k = i
    · subst hki
      rw [blk_setBlk_self hlt] at hvk hset htag hsec
      exact absurd hsec (hb hvk j hj hji hvj hset htag)
    · rw [blk_setBlk_ne hki] at hvk hset htag hsec
      exact hi.unique j hj k hk hvj hvk hset htag hsec

/-- A change of a block that the tag store does not see. -/
theorem setSame (h : i < p.numBlocks) (hsame : CacheBlk.SameLine (t.blk i) b)
    (hdirty : b.dirty = true → b.valid = true) : TagsInv p arr live extra (t.setBlk i b) := by
  have hlt := hi.lt_length h
  have hcount (q : CacheBlk → Bool) (hq : q b = q (t.blk i)) :
      (t.setBlk i b).blocks.countP q = t.blocks.countP q := by
    have := countP_setBlk (b := b) q hlt
    unfold one at this
    rw [hq] at this
    omega
  have hb : BlkInv p i b := by
    refine ⟨hsame.set.trans (hi.set h), ?_, hdirty, ?_, ?_⟩
    · rw [hsame.isTouched, hsame.valid]
      exact (hi.blk i h).touched
    · rw [hsame.secure, hsame.valid]
      exact (hi.blk i h).secure
    · rw [hsame.valid, hsame.srcMasterId]
      exact (hi.blk i h).master
  refine ⟨hi.array, length_set.trans hi.numBlocks, hi.numSets, hi.ways,
    hi.blk_setBlk h hb, hi.unique_setBlk h ?_, ?_, hi.masters, fun m hm => ?_, fun s hs isPcm => ?_⟩
  · intro hv j hj hji hvj hset htag hsec
    rw [hsame.valid] at hv
    rw [hsame.set] at hset
    rw [hsame.tag] at htag
    rw [hsame.secure] at hsec
    exact hji (hi.unique j hj i h hvj hv hset htag hsec)
  · rw [hcount _ hsame.valid]
    exact hi.tagsInUse
  · rw [hcount _ (by simp only [ofMaster, hsame.valid, hsame.srcMasterId])]
    exact hi.occupancies m hm
  · rw [hcount _ (by simp only [lineOf, hsame.valid, hsame.isPcm, hsame.set])]
    exact hi.lines s hs isPcm

/-- A valid block goes: its master and its set have one less. -/
theorem retire (h : i < p.numBlocks) (hvalid : (t.blk i).valid = true)
    (hset : b.set = (t.blk i).set) (hv : b.valid = false) (ht : b.isTouched = false) (hd : b.dirty = false)
    (hs : b.secure = false) : TagsInv p arr live (extra + 1)
      (((t.decOccupancy (t.blk i).srcMasterId).decSetLine (t.blk i).set (t.blk i).isPcm).setBlk i b) := by
  have hlt := hi.lt_length h
  have hsetlt : (t.blk i).set < t.sets.length := by
    rw [hi.numSets]
    exact hi.set_lt h
  have hnot : b.valid = true → False := fun h => by
    rw [hv] at h
    cases h
  have hb : BlkInv p i b := by
    refine ⟨hset.trans (hi.set h), ht.trans hv.symm, fun hdirty => ?_, fun hsec => ?_,
      fun h => absurd h hnot⟩
    · rw [hd] at hdirty
      cases hdirty
    · rw [hs] at hsec
      cases hsec
  refine ⟨hi.array, length_set.trans hi.numBlocks, (length_modify ..).trans hi.numSets, fun s hs => ?_,
    hi.blk_setBlk h hb, hi.unique_setBlk h (fun hvb => absurd hvb hnot), ?_,
    (length_modify ..).trans hi.masters, fun m hm => ?_, fun s hs isPcm => ?_⟩
  · exact (List.Perm.of_eq blks_decSetLine).trans (hi.ways s hs)
  · have hcount := countP_setBlk (b := b) (·.valid) hlt
    simp only [one, hv, hvalid, if_true, Bool.false_eq_true, if_false] at hcount
    have huse := hi.tagsInUse
    change t.tagsInUse = ((t.setBlk i b).blocks.countP (·.valid) : Int) + (extra + 1 : Nat)
    omega
  · have hcount := countP_setBlk (b := b) (ofMaster m) hlt
    rw [one_ofMaster hvalid, one_of_not (by simp [ofMaster, hv])] at hcount
    refine (decOccupancy_at (hi.occupancies m hm)).trans ?_
    change some ((t.blocks.countP (ofMaster m) : Int) - _) =
      some ((t.setBlk i b).blocks.countP (ofMaster m) : Int)
    rw [Option.some.injEq]
    split at hcount <;> omega
  · have hcount := countP_setBlk (b := b) (lineOf s isPcm) hlt
    rw [one_lineOf hvalid, one_of_not (by simp [lineOf, hv])] at hcount
    refine (lines_decSetLine isPcm
      (t.blk i).isPcm hsetlt).trans ?_
    change (t.setAt s).lines isPcm - _ = BitVec.ofNat 8 ((t.setBlk i b).blocks.countP (lineOf s isPcm) + _)
    rw [hi.lines s hs isPcm]
    exact ofNat_sub_ite (by omega)

end

/-- A block becomes valid: its master and its set have one more. -/
theorem arrive (hi : TagsInv p arr live (extra + 1) t) (h : i < p.numBlocks) (hold : (t.blk i).valid = false)
    (hset : b.set = (t.blk i).set) (hv : b.valid = true) (ht : b.isTouched = true) (hm : b.srcMasterId < p.maxMasters)
    (hnew : ∀ j < p.numBlocks, (t.blk j).valid = true → (t.blk j).set = b.set → (t.blk j).tag = b.tag →
      (t.blk j).secure ≠ b.secure) :
    TagsInv p arr live extra (((t.incSetLine b.set b.isPcm).incOccupancy b.srcMasterId).setBlk i b) := by
  have hlt := hi.lt_length h
  have hsetlt : b.set < t.sets.length := by
    rw [hi.numSets, hset]
    exact hi.set_lt h
  have hb : BlkInv p i b := ⟨hset.trans (hi.set h), ht.trans hv.symm, fun _ => hv, fun _ => hv, fun _ => hm⟩
  refine ⟨hi.array, length_set.trans hi.numBlocks, (length_modify ..).trans hi.numSets, fun s hs => ?_,
    hi.blk_setBlk h hb, hi.unique_setBlk h (fun _ j hj _ => hnew j hj), ?_,
    (length_modify ..).trans hi.masters, fun m hm' => ?_, fun s hs isPcm => ?_⟩
  · exact (List.Perm.of_eq (blks_incSetLine)).trans (hi.ways s hs)
  · have hcount := countP_setBlk (b := b) (·.valid) hlt
    simp only [one, hv, hold, if_true, Bool.false_eq_true, if_false] at hcount
    have huse := hi.tagsInUse
    change t.tagsInUse = ((t.setBlk i b).blocks.countP (·.valid) : Int) + (extra : Nat)
    omega
  · have hcount := countP_setBlk (b := b) (ofMaster m) hlt
    rw [one_ofMaster hv, one_of_not (by simp [ofMaster, hold])] at hcount
    refine (incOccupancy_at (hi.occupancies m hm')).trans ?_
    change some ((t.blocks.countP (ofMaster m) : Int) + _) =
      some ((t.setBlk i b).blocks.countP (ofMaster m) : Int)
    rw [Option.some.injEq]
    split at hcount <;> omega
  · have hcount := countP_setBlk (b := b) (lineOf s isPcm) hlt
    rw [one_lineOf hv, one_of_not (by simp [lineOf, hold])] at hcount
    refine (lines_incSetLine isPcm b.isPcm hsetlt).trans ?_
    change _ = BitVec.ofNat 8 ((t.setBlk i b).blocks.countP (lineOf s isPcm) + _)
    rw [hi.lines s hs isPcm]
    exact ofNat_add_ite (by omega)

theorem countTemp (hi : TagsInv p arr none extra t) {s : Nat} (hs : s < p.numSets) (isPcm : Bool) :
    TagsInv p arr (some (s, isPcm)) extra (t.incSetLine s isPcm) := by
  have hlt : s < t.sets.length := by
    rw [hi.numSets]
    exact hs
  refine ⟨hi.array, hi.numBlocks, by simpa [incSetLine] using hi.numSets, fun r hr => ?_, hi.blk,
    hi.unique, hi.tagsInUse, hi.masters, hi.occupancies, fun r hr q => ?_⟩
  · rw [blks_incSetLine]
    exact hi.ways r hr
  · rw [lines_incSetLine q isPcm hlt, hi.lines r hr q]
    exact ofNat_add_ite (by simp [incSetLine, eq_comm])

theorem uncountTemp {s : Nat} {isPcm : Bool} (hi : TagsInv p arr (some (s, isPcm)) extra t)
    (hs : s < p.numSets) : TagsInv p arr none extra (t.decSetLine s isPcm) := by
  have hlt : s < t.sets.length := by
    rw [hi.numSets]
    exact hs
  refine ⟨hi.array, hi.numBlocks, by simpa [decSetLine] using hi.numSets, fun r hr => ?_, hi.blk,
    hi.unique, hi.tagsInUse, hi.masters, hi.occupancies, fun r hr q => ?_⟩
  · rw [blks_decSetLine]
    exact hi.ways r hr
  · rw [lines_decSetLine q isPcm hlt, hi.lines r hr q]
    exact ofNat_sub_ite (by simp [decSetLine, eq_comm])

theorem addUse (hi : TagsInv p arr live extra t) (n : Int) (extra' : Nat) (h : (extra' : Int) = extra + n) :
    TagsInv p arr live extra' { t with tagsInUse := t.tagsInUse + n } := by
  refine ⟨hi.array, hi.numBlocks, hi.numSets, hi.ways, hi.blk, hi.unique, ?_, hi.masters, hi.occupancies, hi.lines⟩
  have huse := hi.tagsInUse
  change t.tagsInUse + n = (t.blocks.countP (·.valid) : Int) + extra'
  omega

/-- A reordering does not change what is found: at most one block matches. -/
theorem findBlock_reordered (hi : TagsInv p arr live extra t) (hr : Reordered t t') (addr : Nat)
    (isSecure : Bool) : t'.findBlock p addr isSecure = t.findBlock p addr isSecure := by
  have hi' := hi.reordered hr
  cases h : t.findBlock p addr isSecure with
  | none =>
    refine find?_eq_none.mpr fun j hj => ?_
    rw [hr.blk]
    exact find?_eq_none.mp h j ((hr.ways _).mem_iff.mp hj)
  | some i =>
    obtain ⟨hlt, hset, htag, hvalid, hsec⟩ := hi.findBlock_spec h
    cases h' : t'.findBlock p addr isSecure with
    | none =>
      rw [← hr.blk] at hset htag hvalid hsec
      exact absurd hsec (hi'.findBlock_none h' hlt hset htag hvalid)
    | some j =>
      obtain ⟨hlt', hset', htag', hvalid', hsec'⟩ := hi'.findBlock_spec h'
      rw [hr.blk] at hset' htag' hvalid' hsec'
      rw [hi.unique j hlt' i hlt hvalid' hvalid (hset'.trans hset.symm) (htag'.trans htag.symm)
        (hsec'.trans hsec.symm)]

/-! ## The operations of a tag store -/

theorem canInvalidate (hi : TagsInv p arr live extra t) (h : i < p.numBlocks) (hvalid : (t.blk i).valid = true) :
    CanInvalidate p t i := by
  refine ⟨hi.lt_length h, hvalid, (hi.blk i h).master hvalid, ?_, ?_⟩
  · rw [hi.numSets]
    exact hi.set_lt h
  · rw [hi.mem_ways (hi.set_lt h)]
    exact ⟨h, (hi.set h).symm⟩

variable {T : TagStore σ}

/-- `tags->invalidate(blk)` and `blk->invalidate()`. -/
theorem invalidate (hT : Lawful p T) (hi : TagsInv p arr live extra t) (h : i < p.numBlocks)
    (hinv : T.invalidate t i = .ok t') :
    (t.blk i).valid = true ∧ TagsInv p arr live extra (t'.setBlk i (t'.blk i).invalidate) ∧
    (∀ j, j ≠ i → t'.blk j = t.blk j) := by
  obtain ⟨t₁, t₂, h₁, h₂, h₃⟩ := hT.invalidate hinv
  have hi₁ := hi.reordered h₁
  obtain ⟨hvalid, -, ht₂⟩ := invalidate_eq_ok.mp h₂
  have hretire := (hi₁.retire (b := (t'.blk i).invalidate) h hvalid ?_ rfl rfl rfl rfl).addUse
    (-1) extra (by omega)
  · refine ⟨by rw [← h₁.blk]; exact hvalid, ?_, fun j hj => ?_⟩
    · refine TagsInv.reordered ?_ (h₃.setBlk i (t'.blk i).invalidate)
      rw [ht₂, setBlk_setBlk]
      exact hretire
    · rw [h₃.blk, ht₂, blk_setBlk_ne hj]
      exact h₁.blk j
  · rw [h₃.blk, ht₂, blk_setBlk_self]
    · rfl
    · exact hi₁.lt_length h

/-- No valid block holds the address. -/
def Misses (p : TagParams) (t : Tags σ) (addr : Nat) (isSecure : Bool) : Prop :=
  ∀ j < p.numBlocks, (t.blk j).set = p.extractSet addr → (t.blk j).tag = p.extractTag addr →
    (t.blk j).valid = true → (t.blk j).secure ≠ isSecure

theorem misses (hi : TagsInv p arr live extra t)
    (h : t.findBlock p addr isSecure = none) : Misses p t addr isSecure :=
  fun _ hj hset htag hvalid => hi.findBlock_none h hj hset htag hvalid

theorem Misses.same (hm : Misses p t addr isSecure)
    (h : ∀ j, CacheBlk.SameLine (t.blk j) (t'.blk j)) : Misses p t' addr isSecure := by
  intro j hj hset htag hvalid
  rw [(h j).set] at hset
  rw [(h j).tag] at htag
  rw [(h j).valid] at hvalid
  rw [(h j).secure]
  exact hm j hj hset htag hvalid

/-- `insertBlock` without the new block: the victim is gone, and `tagsInUse` counts the block that comes. -/
theorem evict (hi : TagsInv p arr live 0 t) (h : i < p.numBlocks) {t₁ : Tags σ}
    (he : (if (t.blk i).isTouched then t else { t with tagsInUse := t.tagsInUse + 1 }).evict p i = .ok t₁) :
    TagsInv p arr live 1 t₁ ∧ (t₁.blk i).valid = false ∧ (t₁.blk i).secure = false ∧
    (t₁.blk i).set = (t.blk i).set ∧ ∀ j, j ≠ i → t₁.blk j = t.blk j := by
  have htouched := (hi.blk i h).touched
  cases hv : (t.blk i).valid with
  | true =>
    rw [htouched, hv, if_pos rfl, Tags.evict, if_pos hv] at he
    obtain ⟨_, -, he⟩ := of_bind he
    cases he
    rw [blk_setBlk_self]
    · refine ⟨hi.retire h hv rfl rfl rfl rfl rfl, rfl, rfl, rfl, fun j hj => ?_⟩
      rw [blk_setBlk_ne hj]
      rfl
    · exact hi.lt_length h
  | false =>
    rw [htouched, hv, if_neg Bool.false_ne_true, Tags.evict, if_neg] at he
    · cases he
      refine ⟨hi.addUse 1 1 (by omega), hv, ?_, rfl, fun j _ => rfl⟩
      cases hs : (t.blk i).secure with
      | false => exact hs
      | true =>
        rw [(hi.blk i h).secure hs] at hv
        cases hv
    · change ¬(t.blk i).valid = true
      rw [hv]
      exact Bool.false_ne_true

/-- `insertBlock`, after which the caller makes the block valid. -/
theorem insertBlock (hT : Lawful p T) (hi : TagsInv p arr live 0 t) {pkt : Packet}
    (hvictim : i ∈ (t.setAt (p.extractSet pkt.addr)).blks)
    (hmiss : Misses p t pkt.addr isSecure) (hins : T.insertBlock t pkt i = .ok t') :
    (t'.blk i).valid = false ∧ (t'.blk i).secure = false ∧
    ∀ b : CacheBlk, b.valid = true → b.secure = isSecure → b.tag = (t'.blk i).tag →
      b.set = (t'.blk i).set → b.isTouched = (t'.blk i).isTouched → b.isPcm = (t'.blk i).isPcm →
      b.srcMasterId = (t'.blk i).srcMasterId → TagsInv p arr live 0 (t'.setBlk i b) := by
  obtain ⟨hlt, hway⟩ := (hi.mem_ways (p.extractSet_lt pkt.addr)).mp hvictim
  obtain ⟨t₁, t₂, h₁, h₂, h₃⟩ := hT.insertBlock hins
  have hi₁ := hi.reordered h₁
  obtain ⟨t₃, hev, h₂⟩ := of_bind h₂
  obtain ⟨_, hm, h₂⟩ := of_bind h₂
  cases h₂
  obtain ⟨hi₃, hv₃, hs₃, hset₃, hother⟩ := hi₁.evict hlt hev
  -- the block in its place, before the caller sets the status
  have hnew := (h₃.blk i).trans (blk_setBlk_self (by exact hi₃.lt_length hlt))
  refine ⟨by rw [hnew]; exact hv₃, by rw [hnew]; exact hs₃, ?_⟩
  intro b hv hsec htag hset ht hpcm hmaster
  rw [hnew] at htag hset ht hpcm hmaster
  have haddr : b.set = p.extractSet pkt.addr := by
    rw [hset, ← hway]
    exact hset₃.trans (hi₁.set hlt)
  refine TagsInv.reordered ?_ (h₃.setBlk i b)
  rw [setBlk_setBlk]
  have harrive := hi₃.arrive hlt hv₃ hset hv ht ?_ ?_
  · rw [hset, hpcm, hmaster] at harrive
    exact harrive
  · rw [hmaster]
    simpa using hm
  · intro j hj hvj hsetj htagj
    by_cases hji : j = i
    · rw [hji, hv₃] at hvj
      cases hvj
    · rw [hother j hji, h₁.blk] at hvj hsetj htagj ⊢
      rw [hsec]
      exact hmiss j hj (hsetj.trans haddr) (htagj.trans htag) hvj

end TagsInv

end Gem5.Cache
