import Gem5Nvmain.Cache.Policies

/- The tag stores that balance PCM against DRAM lines with sample sets (mem/cache/tags: hap, hap_test).

  `insertBlock` of both is a copy of BaseSetAssoc's with the line counters in between; it is written here as that
  function between two counter updates. `updateSomething` compares the measured cost rates of the sample sets, which
  are given as a comparison. A number of lines is converted from `double` modulo 2^32. -/
namespace Gem5.Cache
open Lib Gem5.Mem Tags Reordered

/-- `sample_counter`. -/
structure SampleCounter where
  accessCounter : BitVec 32 := 0
  costCounter : BitVec 32 := 0
  pcmLineCounter : Int := 0
  deriving DecidableEq, Repr

structure HapState where
  sc : List SampleCounter
  minPcmLineCounter : BitVec 32
  maxPcmLineCounter : BitVec 32
  currentPcmLineCounter : BitVec 32
  deriving DecidableEq, Repr

/-- `bits(set, tagShift-setShift-(bitsOfSets+1), 0)`. -/
def hapLow (p : TagParams) (bitsOfSets set : Nat) : Nat := set % 2 ^ (p.setBits - bitsOfSets)

/-- `numBlocks - 5 * pow(2, bitsOfSets) * 16`. -/
def hapNormalLines (p : TagParams) (bitsOfSets : Nat) : Int := p.numBlocks - 80 * 2 ^ bitsOfSets

def HapState.new (p : TagParams) (bitsOfSets samples : Nat) : HapState :=
  { sc := List.replicate samples {}
    minPcmLineCounter := 0
    maxPcmLineCounter := BitVec.ofInt 32 (hapNormalLines p bitsOfSets)
    currentPcmLineCounter := 0 }

def modifySample (t : Tags HapState) (low : Nat) (f : SampleCounter → SampleCounter) : Tags HapState :=
  { t with policy := { t.policy with sc := t.policy.sc.modify low f } }

def addCurrent (t : Tags HapState) (n : BitVec 32) : Tags HapState :=
  { t with policy :=
      { t.policy with currentPcmLineCounter := t.policy.currentPcmLineCounter + n } }

/-- The last way of the set whose block has the property, or else `blk`. -/
def lastSuch (t : Tags HapState) (set : Nat) (such : CacheBlk → Bool) (blk : Nat) : Nat :=
  ((t.setAt set).blks.reverse.find? fun i => such (t.blk i)).getD blk

/-- What a fill costs, counted in the first five sample sets. -/
def addCost (p : TagParams) (bitsOfSets : Nat) (pcmCost : BitVec 32) (t : Tags HapState) (pkt : Packet)
    (i : Nat) : Tags HapState :=
  let low := hapLow p bitsOfSets (t.blk i).set
  if low ≤ 4 then
    modifySample t low fun s => { s with
      costCounter := s.costCounter + if pkt.addr < p.watershed then pcmCost else 1 }
  else t

/-- The counters of a sample set start again; one without accesses has no cost. -/
def resetSamples (t : Tags HapState) : Except Stop (Tags HapState) := do
  require (t.policy.sc.all fun s => s.accessCounter != 0 || s.costCounter == 0)
  pure { t with policy := { t.policy with
    sc := t.policy.sc.map fun s => { s with accessCounter := 0, costCounter := 0 } } }

/-! ## HAP -/

/-- `decPcmLineCounter` and `incPcmLineCounter`. -/
def hapAddPcmLine (p : TagParams) (bitsOfSets : Nat) (t : Tags HapState) (numSet : Nat) (n : Int) :
    Tags HapState :=
  let low := hapLow p bitsOfSets numSet
  if low < 5 then modifySample t low fun s => { s with pcmLineCounter := s.pcmLineCounter + n }
  else addCurrent t (BitVec.ofInt 32 n)

def hapFindVictim (p : TagParams) (bitsOfSets : Nat) (t : Tags HapState) (addr : Nat) :
    Except Stop (Tags HapState × Nat) := do
  let set := p.extractSet addr
  let blk ← t.way set (p.assoc - 1)
  let low := hapLow p bitsOfSets set
  let validPcm := fun b : CacheBlk => b.isPcm && b.valid
  let validDram := fun b : CacheBlk => !b.isPcm && b.valid
  if low ≤ 4 then
    let s ← index t.policy.sc low
    pure (t, if s.pcmLineCounter > low * 4 * 2 ^ bitsOfSets then lastSuch t set validPcm blk else blk)
  else if t.policy.currentPcmLineCounter > t.policy.maxPcmLineCounter then
    pure (t, if addr < p.watershed then lastSuch t set validPcm blk else blk)
  else if t.policy.currentPcmLineCounter < t.policy.minPcmLineCounter then
    pure (t, if addr < p.watershed then blk else lastSuch t set validDram blk)
  else pure (t, blk)

/-- The lines PCM had before and has after a fill of block `i`. -/
def insertCounted (p : TagParams) (addPcmLine : Tags HapState → Nat → Int → Tags HapState)
    (t : Tags HapState) (pkt : Packet) (i : Nat) : Except Stop (Tags HapState) := do
  let b := t.blk i
  let t := if b.valid && b.isPcm then addPcmLine t b.set (-1) else t
  let t ← t.insertBlock p pkt i
  let t := if pkt.addr < p.watershed then addPcmLine t b.set 1 else t
  t.reorder (p.extractSet pkt.addr) fun l => moveToHead l i

/-- The two neighbouring shares between which the number of PCM lines should stay: the cheapest sample set and the
  cheaper of its neighbours. -/
def hapShares (lt : Nat → Nat → Bool) : Nat × Nat :=
  let first := [1, 2, 3, 4].foldl (fun first i => if lt i first then i else first) 0
  let second :=
    if first = 4 then 3
    else if first = 0 then 1
    else if lt (first + 1) (first - 1) then first + 1
    else first - 1
  if first > second then (second, first) else (first, second)

def hap (p : TagParams) (bitsOfSets : Nat) : TagStore HapState where
  new := Tags.new p (HapState.new p bitsOfSets 5)
  -- the constructor leaves the flag as it is
  flag := none
  accessBlock t addr isSecure cmd _ :=
    let low := hapLow p bitsOfSets (p.extractSet addr)
    t.accessAndMove p (moveBlk moveToHead) addr isSecure >>= fun (t, b) =>
      .ok (if cmd ≠ .writeback ∧ low ≤ 4 then
        modifySample t low fun s => { s with accessCounter := s.accessCounter + 1 } else t, b)
  findVictim t addr _ := hapFindVictim p bitsOfSets t addr
  insertBlock t pkt i :=
    let t := if pkt.cmd = .writeback then t else addCost p bitsOfSets 4 t pkt i
    insertCounted p (hapAddPcmLine p bitsOfSets) t pkt i
  invalidate t i :=
    let b := t.blk i
    let t := if b.isPcm then hapAddPcmLine p bitsOfSets t b.set (-1) else t
    t.invalidateToTail p i
  updateSomething t lt := do
    let t ← resetSamples t
    let (first, second) := hapShares lt
    pure { t with policy := { t.policy with
      minPcmLineCounter := BitVec.ofInt 32 ((hapNormalLines p bitsOfSets * first).tdiv 4)
      maxPcmLineCounter := BitVec.ofInt 32 ((hapNormalLines p bitsOfSets * second).tdiv 4) } }

/-! ## HAPTEST -/

def hapTestAddPcmLine (p : TagParams) (bitsOfSets : Nat) (t : Tags HapState) (numSet : Nat) (n : Int) :
    Tags HapState :=
  let t := modifySample t (hapLow p bitsOfSets numSet) fun s =>
    { s with pcmLineCounter := s.pcmLineCounter + n }
  addCurrent t (BitVec.ofInt 32 n)

/-- `HAPTEST::findVictim`; unlike HAP's it may take an invalid PCM block. -/
def hapTestFindVictim (p : TagParams) (bitsOfSets : Nat) (t : Tags HapState) (addr : Nat) :
    Except Stop (Tags HapState × Nat) := do
  let set := p.extractSet addr
  let blk ← t.way set (p.assoc - 1)
  if t.warmedUp && (t.blk blk).valid then
    let low := hapLow p bitsOfSets set
    let s ← index t.policy.sc low
    let full := s.pcmLineCounter > (low % 5) * 4 * 2 ^ bitsOfSets
    pure (t, if full ∧ addr < p.watershed then lastSuch t set (·.isPcm) blk else blk)
  else pure (t, blk)

def hapTest (p : TagParams) (bitsOfSets : Nat) : TagStore HapState where
  new := Tags.new p (HapState.new p bitsOfSets (2 ^ (p.setBits - bitsOfSets)))
  flag := some .hapTest
  accessBlock t addr isSecure _ _ :=
    t.accessAndMove p (moveBlk moveToHead) addr isSecure >>= fun (t, b) =>
      .ok (if t.warmedUp then
        modifySample t (hapLow p bitsOfSets (p.extractSet addr)) fun s =>
          { s with accessCounter := s.accessCounter + 1 } else t, b)
  findVictim t addr _ := hapTestFindVictim p bitsOfSets t addr
  insertBlock t pkt i :=
    let t := if t.warmedUp && pkt.cmd != .writeback then addCost p bitsOfSets 6 t pkt i else t
    insertCounted p (hapTestAddPcmLine p bitsOfSets) t pkt i
  invalidate t i :=
    let b := t.blk i
    let t := if b.isPcm then hapTestAddPcmLine p bitsOfSets t b.set (-1) else t
    t.invalidateToTail p i
  updateSomething t _ := resetSamples t

/-! ## Lawfulness -/

section Lawful
variable {p : TagParams} {bitsOfSets : Nat} {t t' : Tags HapState} {i : Nat} {pkt : Packet}

theorem modifySample_reordered (t : Tags HapState) (low : Nat) (f : SampleCounter → SampleCounter) :
    Reordered t (modifySample t low f) :=
  of_policy t _ t.recordBlks

theorem addCurrent_reordered (t : Tags HapState) (n : BitVec 32) : Reordered t (addCurrent t n) :=
  of_policy t _ t.recordBlks

theorem addCost_reordered (pcmCost : BitVec 32) (t : Tags HapState) (pkt : Packet) (i : Nat) :
    Reordered t (addCost p bitsOfSets pcmCost t pkt i) := by
  unfold addCost
  simp only
  split
  · exact modifySample_reordered ..
  · exact refl t

theorem hapAddPcmLine_reordered (t : Tags HapState) (numSet : Nat) (n : Int) :
    Reordered t (hapAddPcmLine p bitsOfSets t numSet n) := by
  unfold hapAddPcmLine
  simp only
  split
  · exact modifySample_reordered ..
  · exact addCurrent_reordered ..

theorem hapTestAddPcmLine_reordered (t : Tags HapState) (numSet : Nat) (n : Int) :
    Reordered t (hapTestAddPcmLine p bitsOfSets t numSet n) :=
  (modifySample_reordered ..).trans (addCurrent_reordered ..)

theorem resetSamples_reordered (h : resetSamples t = .ok t') : Reordered t t' := by
  obtain ⟨-, -, h⟩ := of_bind h
  cases h
  exact of_policy t _ t.recordBlks

theorem lastSuch_mem {set blk : Nat} {such : CacheBlk → Bool} (hb : blk ∈ (t.setAt set).blks) :
    lastSuch t set such blk ∈ (t.setAt set).blks := by
  unfold lastSuch
  cases hf : (t.setAt set).blks.reverse.find? fun i => such (t.blk i) with
  | none => exact hb
  | some i => exact List.mem_reverse.mp (List.mem_of_find?_eq_some hf)

variable {addr : Nat}

theorem hapFindVictim_spec (h : hapFindVictim p bitsOfSets t addr = .ok (t', i)) :
    Reordered t t' ∧ i ∈ (t.setAt (p.extractSet addr)).blks := by
  obtain ⟨blk, hblk, h⟩ := of_bind h
  have hmem := way_mem hblk
  simp only at h
  split at h
  · obtain ⟨s, -, h⟩ := of_bind h
    cases h
    refine ⟨refl t, ?_⟩
    split
    · exact lastSuch_mem hmem
    · exact hmem
  · split at h
    · cases h
      refine ⟨refl t, ?_⟩
      split
      · exact lastSuch_mem hmem
      · exact hmem
    · split at h
      · cases h
        refine ⟨refl t, ?_⟩
        split
        · exact hmem
        · exact lastSuch_mem hmem
      · cases h
        exact ⟨refl t, hmem⟩

theorem hapTestFindVictim_spec (h : hapTestFindVictim p bitsOfSets t addr = .ok (t', i)) :
    Reordered t t' ∧ i ∈ (t.setAt (p.extractSet addr)).blks := by
  obtain ⟨blk, hblk, h⟩ := of_bind h
  have hmem := way_mem hblk
  split at h
  · obtain ⟨s, -, h⟩ := of_bind h
    cases h
    refine ⟨refl t, ?_⟩
    split
    · exact lastSuch_mem hmem
    · exact hmem
  · cases h
    exact ⟨refl t, hmem⟩

variable {addPcmLine : Tags HapState → Nat → Int → Tags HapState}

section
variable (hadd : ∀ t numSet n, Reordered t (addPcmLine t numSet n))
include hadd

theorem insertCounted_spec (h : insertCounted p addPcmLine t pkt i = .ok t') :
    ∃ t₁ t₂, Reordered t t₁ ∧ t₁.insertBlock p pkt i = .ok t₂ ∧ Reordered t₂ t' := by
  obtain ⟨t₂, h₂, h⟩ := of_bind h
  refine ⟨_, t₂, ?_, h₂, trans ?_ (reorder (fun _ _ => moveToHead_perm) h)⟩
  · split
    · exact hadd ..
    · exact refl t
  · split
    · exact hadd ..
    · exact refl t₂

theorem invalidateCounted_spec
    (h : (if (t.blk i).isPcm then addPcmLine t (t.blk i).set (-1) else t).invalidateToTail p i = .ok t') :
    ∃ t₁ t₂, Reordered t t₁ ∧ t₁.invalidate p i = .ok t₂ ∧ Reordered t₂ t' := by
  obtain ⟨t₁, t₂, h₁, h₂, h₃⟩ := invalidateToTail_spec h
  refine ⟨t₁, t₂, trans ?_ h₁, h₂, h₃⟩
  split
  · exact hadd ..
  · exact refl t

theorem invalidateCounted_ok (hc : CanInvalidate p t i) :
    ∃ t', (if (t.blk i).isPcm then addPcmLine t (t.blk i).set (-1) else t).invalidateToTail p i = .ok t' := by
  refine invalidateToTail_ok (hc.reordered ?_)
  split
  · exact hadd ..
  · exact refl t

end

end Lawful

theorem hap_lawful (p : TagParams) (bitsOfSets : Nat) : Lawful p (hap p bitsOfSets) where
  new := rfl
  accessBlock h := by
    obtain ⟨⟨t₁, b₁⟩, h₁, h⟩ := of_bind h
    obtain ⟨hmove, rfl⟩ := accessAndMove_spec h₁ fun _ _ _ => moveBlk_reordered fun _ _ => moveToHead_perm
    cases h
    refine ⟨?_, rfl⟩
    split
    · exact hmove.trans (modifySample_reordered ..)
    · exact hmove
  findVictim h := hapFindVictim_spec h
  insertBlock {t t' pkt i} h := by
    obtain ⟨t₁, t₂, h₁, h₂, h₃⟩ := insertCounted_spec hapAddPcmLine_reordered h
    refine ⟨t₁, t₂, trans ?_ h₁, h₂, h₃⟩
    split
    · exact refl t
    · exact addCost_reordered ..
  invalidate h := invalidateCounted_spec hapAddPcmLine_reordered h
  invalidate_ok h := invalidateCounted_ok hapAddPcmLine_reordered h
  updateSomething h := by
    obtain ⟨t₁, h₁, h⟩ := of_bind h
    cases h
    exact (resetSamples_reordered h₁).trans (of_policy t₁ _ t₁.recordBlks)
  clearBloomFilter_ok _ _ := ⟨_, rfl⟩
  clearBloomFilter h := of_ok h
  setRecord h := of_ok h

theorem hapTest_lawful (p : TagParams) (bitsOfSets : Nat) : Lawful p (hapTest p bitsOfSets) where
  new := rfl
  accessBlock h := by
    obtain ⟨⟨t₁, b₁⟩, h₁, h⟩ := of_bind h
    obtain ⟨hmove, rfl⟩ := accessAndMove_spec h₁ fun _ _ _ => moveBlk_reordered fun _ _ => moveToHead_perm
    cases h
    refine ⟨?_, rfl⟩
    split
    · exact hmove.trans (modifySample_reordered ..)
    · exact hmove
  findVictim h := hapTestFindVictim_spec h
  insertBlock {t t' pkt i} h := by
    obtain ⟨t₁, t₂, h₁, h₂, h₃⟩ := insertCounted_spec hapTestAddPcmLine_reordered h
    refine ⟨t₁, t₂, trans ?_ h₁, h₂, h₃⟩
    split
    · exact addCost_reordered ..
    · exact refl t
  invalidate h := invalidateCounted_spec hapTestAddPcmLine_reordered h
  invalidate_ok h := invalidateCounted_ok hapTestAddPcmLine_reordered h
  updateSomething h := resetSamples_reordered h
  clearBloomFilter_ok _ _ := ⟨_, rfl⟩
  clearBloomFilter h := of_ok h
  setRecord h := of_ok h

end Gem5.Cache
