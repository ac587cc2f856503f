import Gem5Nvmain.Cache.CacheSet

/- The set associative tag store (mem/cache/tags/base.hh, mem/cache/tags/base_set_assoc.hh,
  mem/cache/tags/base_set_assoc.cc).

  `Tags` holds the members of BaseSetAssoc and, in `policy`, those of the derived class. `blocks` is the array that
  BaseSetAssoc's constructor allocates; `blks` says which array the member of that name points at, since one derived
  class makes it point at an array of its own (`recordBlks`). The number of sets and the block size are powers of two,
  as the constructor checks.

  `TagStore` is what a derived class provides. `Lawful` says what each of them keeps: they find and count blocks as
  BaseSetAssoc does, and on their own only reorder the blocks of a set (`Reordered`). Everything the cache relies on
  follows from that.

  Left out: statistics other than `tagsInUse` and `occupancies`, and latencies. -/
namespace Gem5.Cache
open Lib Gem5.Mem

structure TagParams where
  setShift : Nat
  setBits : Nat
  assoc : Nat
  /-- `PhysicalMemory::watershed`: PCM lies below it. -/
  watershed : Nat
  /-- `System::maxMasters()`, a `uint16_t`. -/
  maxMasters : Nat
  setShift_ge : 2 ≤ setShift
  assoc_pos : 0 < assoc
  maxMasters_lt : maxMasters < 65536

namespace TagParams

theorem two_le_six : 2 ≤ 6 := by decide

theorem one_master : 1 < 65536 := by decide
variable (p : TagParams)

def blkSize : Nat := 2 ^ p.setShift
def numSets : Nat := 2 ^ p.setBits
def numBlocks : Nat := p.numSets * p.assoc
def tagShift : Nat := p.setShift + p.setBits

def extractTag (addr : Nat) : Nat := addr >>> p.tagShift
def extractSet (addr : Nat) : Nat := (addr >>> p.setShift) &&& (p.numSets - 1)
def blkAlign (addr : Nat) : Nat := (addr >>> p.setShift) <<< p.setShift
def regenerateBlkAddr (tag set : Nat) : Nat := (tag <<< p.tagShift) ||| (set <<< p.setShift)

end TagParams

/-- The array a pointer to blocks points at. -/
inductive BlkArray where
  | blocks
  | recordBlks
  deriving DecidableEq, Repr

structure Tags (σ : Type) where
  blocks : List CacheBlk
  recordBlks : List CacheBlk := []
  blks : BlkArray := .blocks
  sets : List CacheSet
  tagsInUse : Int := 0
  occupancies : List Int
  warmedUp : Bool := false
  policy : σ

namespace Tags
variable {σ : Type}

/-- `BaseSetAssoc(p)`, with the members of the derived class. -/
def new (p : TagParams) (policy : σ) : Tags σ :=
  { blocks := (List.range p.numBlocks).map fun i =>
      { tag := i % p.assoc, set := i / p.assoc, data := List.replicate p.blkSize 0 }
    sets := (List.range p.numSets).map fun i =>
      { blks := (List.range p.assoc).map fun j => i * p.assoc + j }
    occupancies := List.replicate p.maxMasters 0
    policy := policy }

/-- The block a pointer points at. -/
def blk (t : Tags σ) (i : Nat) : CacheBlk := (t.blocks[i]?).getD {}

def setBlk (t : Tags σ) (i : Nat) (b : CacheBlk) : Tags σ := { t with blocks := t.blocks.set i b }

def setAt (t : Tags σ) (i : Nat) : CacheSet := (t.sets[i]?).getD { blks := [] }

/-- `CacheSet::findBlk`'s test. -/
def holds (b : CacheBlk) (tag : Nat) (isSecure : Bool) : Bool :=
  b.tag == tag && b.valid && b.secure == isSecure

def findBlock (p : TagParams) (t : Tags σ) (addr : Nat) (isSecure : Bool) : Option Nat :=
  (t.setAt (p.extractSet addr)).blks.find? fun i => holds (t.blk i) (p.extractTag addr) isSecure

def incSetLine (t : Tags σ) (numSet : Nat) (isPcm : Bool) : Tags σ :=
  { t with sets := t.sets.modify numSet fun s =>
      if isPcm then { s with pcm := s.pcm + 1 } else { s with dram := s.dram + 1 } }

def decSetLine (t : Tags σ) (numSet : Nat) (isPcm : Bool) : Tags σ :=
  { t with sets := t.sets.modify numSet fun s =>
      if isPcm then { s with pcm := s.pcm - 1 } else { s with dram := s.dram - 1 } }

def incOccupancy (t : Tags σ) (m : Nat) : Tags σ :=
  { t with occupancies := t.occupancies.modify m (· + 1) }

def decOccupancy (t : Tags σ) (m : Nat) : Tags σ :=
  { t with occupancies := t.occupancies.modify m (· - 1) }

def invalidate (p : TagParams) (t : Tags σ) (i : Nat) : Except Stop (Tags σ) := do
  let b := t.blk i
  require b.valid
  let t := { t with tagsInUse := t.tagsInUse - 1 }
  let t := t.decSetLine b.set b.isPcm
  require (decide (b.srcMasterId < p.maxMasters))
  let t := t.decOccupancy b.srcMasterId
  pure (t.setBlk i { b with srcMasterId := invldMasterId })

theorem invalidate_eq_ok {p : TagParams} {t t' : Tags σ} {i : Nat} : t.invalidate p i = .ok t' ↔
    (t.blk i).valid = true ∧ (t.blk i).srcMasterId < p.maxMasters ∧
    t' = ((({ t with tagsInUse := t.tagsInUse - 1 } : Tags σ).decSetLine (t.blk i).set
      (t.blk i).isPcm).decOccupancy (t.blk i).srcMasterId).setBlk i
        { t.blk i with srcMasterId := invldMasterId } := by
  constructor
  · intro h
    obtain ⟨_, hv, h⟩ := of_bind h
    obtain ⟨_, hm, h⟩ := of_bind h
    cases h
    exact ⟨by simpa using hv, by simpa using hm, rfl⟩
  · rintro ⟨hv, hm, rfl⟩
    exact bind_eq_ok.mpr ⟨(), by simpa using hv, bind_eq_ok.mpr ⟨(), by simpa using hm, rfl⟩⟩

/-- The victim of the base class: an invalid block, or else the last way. -/
def findVictim (p : TagParams) (t : Tags σ) (addr : Nat) : Except Stop Nat :=
  let ways := (t.setAt (p.extractSet addr)).blks
  match ways.find? fun i => !(t.blk i).valid with
  | some i => .ok i
  | none => index ways (p.assoc - 1)

/-- What `insertBlock` does to a block that was valid. -/
def evict (p : TagParams) (t : Tags σ) (i : Nat) : Except Stop (Tags σ) := do
  let b := t.blk i
  if b.valid then
    require (decide (b.srcMasterId < p.maxMasters))
    pure (((t.decOccupancy b.srcMasterId).decSetLine b.set b.isPcm).setBlk i b.invalidate)
  else pure t

/-- `insertBlock`: the caller sets the status. -/
def insertBlock (p : TagParams) (t : Tags σ) (pkt : Packet) (i : Nat) : Except Stop (Tags σ) := do
  let t := if (t.blk i).isTouched then t else { t with tagsInUse := t.tagsInUse + 1 }
  let t ← t.evict p i
  let b := t.blk i
  let isPcm := decide (pkt.addr < p.watershed)
  let t := t.incSetLine b.set isPcm
  require (decide (pkt.req.masterId < p.maxMasters))
  let t := t.incOccupancy pkt.req.masterId
  pure (t.setBlk i { b with
    isPcm := isPcm
    isTouched := true
    tag := p.extractTag pkt.addr
    srcMasterId := pkt.req.masterId })

/-- An invalid block is taken without an eviction. -/
theorem insertBlock_invalid {p : TagParams} {t : Tags σ} {pkt : Packet} {i : Nat}
    (ht : (t.blk i).isTouched = false) (hv : (t.blk i).valid = false) (hm : pkt.req.masterId < p.maxMasters) :
    t.insertBlock p pkt i = .ok (((({ t with tagsInUse := t.tagsInUse + 1 } : Tags σ).incSetLine (t.blk i).set
      (decide (pkt.addr < p.watershed))).incOccupancy pkt.req.masterId).setBlk i { t.blk i with
        isPcm := decide (pkt.addr < p.watershed)
        isTouched := true
        tag := p.extractTag pkt.addr
        srcMasterId := pkt.req.masterId }) := by
  rw [insertBlock, ht]
  refine bind_eq_ok.mpr ⟨{ t with tagsInUse := t.tagsInUse + 1 }, ?_, bind_eq_ok.mpr ⟨(), ?_, rfl⟩⟩
  · refine if_neg ?_
    change ¬(t.blk i).valid = true
    rw [hv]
    exact Bool.false_ne_true
  · simpa using hm

/-- One of `CacheSet`'s reorderings, applied to `sets[i]`. -/
def reorder (t : Tags σ) (i : Nat) (f : List Nat → Except Stop (List Nat)) : Except Stop (Tags σ) := do
  let s ← index t.sets i
  let l ← f s.blks
  pure { t with sets := t.sets.set i { s with blks := l } }

/-- `sets[i].blks[j]`. -/
def way (t : Tags σ) (i j : Nat) : Except Stop Nat := index (t.setAt i).blks j

end Tags

/-! ## Derived classes -/

/-- `BaseSetAssoc::PolicyFlag`. -/
inductive PolicyFlag where
  | lru | pipp | hap | feaf | heaf | random | hapTest | hybLru | hybBf | hybDip | iHybDip | lruWb
  | hybRrip | brp
  deriving DecidableEq, Repr

/-- What a class derived from BaseSetAssoc provides. The second argument of `findVictim` is the random number it may
  draw; `updateSomething` and `setRecord` compare measured rates, which are given (`fun i j => rate i < rate j`). -/
structure TagStore (σ : Type) where
  new : Tags σ
  flag : Option PolicyFlag
  accessBlock : Tags σ → Nat → Bool → MemCmd → Int → Except Stop (Tags σ × Option Nat)
  findVictim : Tags σ → Nat → Nat → Except Stop (Tags σ × Nat)
  insertBlock : Tags σ → Packet → Nat → Except Stop (Tags σ)
  invalidate : Tags σ → Nat → Except Stop (Tags σ)
  clearBloomFilter : Tags σ → Nat → Except Stop (Tags σ) := fun t _ => .ok t
  updateSomething : Tags σ → (Nat → Nat → Bool) → Except Stop (Tags σ) := fun t _ => .ok t
  setRecord : Tags σ → (Nat → Nat → Bool) → Except Stop (Tags σ) := fun t _ => .ok t

/-- The blocks, their arrays and the counters are the same; each set holds the same blocks in some order. -/
structure Reordered {σ : Type} (t t' : Tags σ) : Prop where
  blocks : t'.blocks = t.blocks
  blks : t'.blks = t.blks
  numSets : t'.sets.length = t.sets.length
  ways : ∀ i, (t'.setAt i).blks.Perm (t.setAt i).blks
  pcm : ∀ i, (t'.setAt i).pcm = (t.setAt i).pcm
  dram : ∀ i, (t'.setAt i).dram = (t.setAt i).dram
  tagsInUse : t'.tagsInUse = t.tagsInUse
  occupancies : t'.occupancies = t.occupancies

namespace Reordered
variable {σ : Type} {t t' t'' : Tags σ}

theorem refl (t : Tags σ) : Reordered t t :=
  ⟨rfl, rfl, rfl, fun _ => List.Perm.refl _, fun _ => rfl, fun _ => rfl, rfl, rfl⟩

theorem of_ok (h : (.ok t : Except Stop (Tags σ)) = .ok t') : Reordered t t' := by
  cases h
  exact refl t

theorem trans (h₁ : Reordered t t') (h₂ : Reordered t' t'') : Reordered t t'' :=
  ⟨h₂.blocks.trans h₁.blocks, h₂.blks.trans h₁.blks, h₂.numSets.trans h₁.numSets,
    fun i => (h₂.ways i).trans (h₁.ways i), fun i => (h₂.pcm i).trans (h₁.pcm i),
    fun i => (h₂.dram i).trans (h₁.dram i), h₂.tagsInUse.trans h₁.tagsInUse,
    h₂.occupancies.trans h₁.occupancies⟩

theorem of_policy (t : Tags σ) (x : σ) (r : List CacheBlk) : Reordered t { t with policy := x, recordBlks := r } :=
  ⟨rfl, rfl, rfl, fun _ => List.Perm.refl _, fun _ => rfl, fun _ => rfl, rfl, rfl⟩

theorem reorder {i : Nat} {f : List Nat → Except Stop (List Nat)}
    (hf : ∀ l l', f l = .ok l' → l'.Perm l) (h : t.reorder i f = .ok t') : Reordered t t' := by
  obtain ⟨s, hs, h⟩ := of_bind h
  obtain ⟨l, hl, h⟩ := of_bind h
  cases h
  rw [index_eq_ok] at hs
  have at_i (j : Nat) : Tags.setAt { t with sets := t.sets.set i { s with blks := l } } j =
      if j = i then { s with blks := l } else t.setAt j := by
    have hlt := (List.getElem?_eq_some_iff.mp hs).1
    by_cases hj : j = i
    · simp [Tags.setAt, hj, hlt]
    · simp [Tags.setAt, hj, List.getElem?_set_ne (Ne.symm hj)]
  have at_old : t.setAt i = s := by simp [Tags.setAt, hs]
  refine ⟨rfl, rfl, List.length_set .., fun j => ?_, fun j => ?_, fun j => ?_, rfl, rfl⟩
  · rw [at_i]
    split
    · rename_i hj
      rw [hj, at_old]
      exact hf _ _ hl
    · exact List.Perm.refl _
  · rw [at_i]
    split
    · rename_i hj
      rw [hj, at_old]
    · rfl
  · rw [at_i]
    split
    · rename_i hj
      rw [hj, at_old]
    · rfl

theorem blk (h : Reordered t t') (i : Nat) : t'.blk i = t.blk i := by
  unfold Tags.blk
  rw [h.blocks]

theorem setBlk (h : Reordered t t') (i : Nat) (b : CacheBlk) : Reordered (t.setBlk i b) (t'.setBlk i b) :=
  ⟨by rw [Tags.setBlk, Tags.setBlk, h.blocks], h.blks, h.numSets, h.ways, h.pcm, h.dram, h.tagsInUse,
    h.occupancies⟩

end Reordered

/-- What `invalidate` needs: a valid block of a registered master, in its set. -/
structure CanInvalidate {σ : Type} (p : TagParams) (t : Tags σ) (i : Nat) : Prop where
  lt : i < t.blocks.length
  valid : (t.blk i).valid = true
  master : (t.blk i).srcMasterId < p.maxMasters
  set_lt : (t.blk i).set < t.sets.length
  mem : i ∈ (t.setAt (t.blk i).set).blks

theorem CanInvalidate.reordered {σ : Type} {p : TagParams} {t t' : Tags σ} {i : Nat}
    (hc : CanInvalidate p t i) (h : Reordered t t') : CanInvalidate p t' i := by
  refine ⟨by rw [h.blocks]; exact hc.lt, by rw [h.blk]; exact hc.valid, by rw [h.blk]; exact hc.master,
    by rw [h.blk, h.numSets]; exact hc.set_lt, ?_⟩
  rw [h.blk]
  exact (h.ways _).mem_iff.mpr hc.mem

/-- What every tag store derived from BaseSetAssoc keeps. The last functions do nothing in most of them. -/
structure Lawful {σ : Type} (p : TagParams) (T : TagStore σ) : Prop where
  new : T.new = { Tags.new p T.new.policy with recordBlks := T.new.recordBlks, blks := T.new.blks }
  accessBlock : ∀ {t t' : Tags σ} {addr : Nat} {isSecure : Bool} {cmd : MemCmd} {portId : Int}
    {b : Option Nat}, T.accessBlock t addr isSecure cmd portId = .ok (t', b) →
    Reordered t t' ∧ b = t.findBlock p addr isSecure
  findVictim : ∀ {t t' : Tags σ} {addr rand i : Nat}, T.findVictim t addr rand = .ok (t', i) →
    Reordered t t' ∧ i ∈ (t.setAt (p.extractSet addr)).blks
  insertBlock : ∀ {t t' : Tags σ} {pkt : Packet} {i : Nat}, T.insertBlock t pkt i = .ok t' →
    ∃ t₁ t₂, Reordered t t₁ ∧ t₁.insertBlock p pkt i = .ok t₂ ∧ Reordered t₂ t'
  invalidate : ∀ {t t' : Tags σ} {i : Nat}, T.invalidate t i = .ok t' →
    ∃ t₁ t₂, Reordered t t₁ ∧ t₁.invalidate p i = .ok t₂ ∧ Reordered t₂ t'
  invalidate_ok : ∀ {t : Tags σ} {i : Nat}, CanInvalidate p t i → ∃ t', T.invalidate t i = .ok t'
  clearBloomFilter_ok : ∀ (t : Tags σ) (i : Nat), ∃ t', T.clearBloomFilter t i = .ok t'
  clearBloomFilter : ∀ {t t' : Tags σ} {i : Nat}, T.clearBloomFilter t i = .ok t' →
    Reordered t t'
  updateSomething : ∀ {t t' : Tags σ} {lt : Nat → Nat → Bool}, T.updateSomething t lt = .ok t' →
    Reordered t t'
  setRecord : ∀ {t t' : Tags σ} {lt : Nat → Nat → Bool}, T.setRecord t lt = .ok t' →
    Reordered t t'

end Gem5.Cache
