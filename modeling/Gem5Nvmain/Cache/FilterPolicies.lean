import Gem5Nvmain.Cache.Policies

/- The tag stores that remember evicted blocks in a filter (mem/cache/tags: feaf, heaf, hybbf, setbloomfilter.hh,
  hsetbloomfilter.cc).

  A block whose tag is in the filter of its set was evicted before and enters the set in a better place. A filter's
  `int tag` is the low half of the tag.

  Correspondence (C++ ↔ Lean):
    `FILTE_NUM`, `TAG_NUM_BIT` ↔ `filteNum`, `tagNumBit`
    `char *bloomfilter` ↔ a list of Booleans; an access outside it stops
    `EAF` ↔ `Eaf`, 16 of them per set -/
namespace Gem5.Cache
open Lib Gem5.Mem Tags Reordered

/-! ## The hashed filter -/

def ceilLog2 (n : Nat) : Nat := if n = 1 then 0 else (n - 1).log2 + 1

structure HSetBloomFilter where
  counter : Int
  bloomfilter : List Bool
  filteNum : Nat
  tagNumBit : Nat
  deriving DecidableEq, Repr

namespace HSetBloomFilter

def new (cnt : Int) (numBFBits numTagBits : Nat) : HSetBloomFilter :=
  ⟨cnt, List.replicate numBFBits false, ceilLog2 numBFBits, numTagBits⟩

def clearbloomfilter (f : HSetBloomFilter) : HSetBloomFilter :=
  { f with counter := 0, bloomfilter := List.replicate f.bloomfilter.length false }

/-- `getFliter`: the tag's bits folded on themselves, read as a number. Its callers take the bits from an `int` that
  they shift. -/
def getFliter (f : HSetBloomFilter) (tag : BitVec 32) : Except Stop Nat :=
  let tags := (List.range f.tagNumBit).map fun i => (tag.sshiftRight i).getLsbD 0
  (List.range f.filteNum).foldlM (fun result i => do
    let a ← index tags i
    let b ← index tags (f.tagNumBit - 1 - i)
    pure (2 * result + if a != b then 1 else 0)) 0

/-- The tag for the next hash function. -/
def rotate (f : HSetBloomFilter) (tag : BitVec 32) : BitVec 32 :=
  (tag.sshiftRight (f.tagNumBit - 1)) ||| (tag <<< 1)

def insertLoop : Nat → BitVec 32 → HSetBloomFilter → Except Stop HSetBloomFilter
  | 0, _, f => .ok f
  | n + 1, tag, f => do
    let result ← f.getFliter tag
    let _ ← index f.bloomfilter result
    insertLoop n (f.rotate tag) { f with bloomfilter := f.bloomfilter.set result true }

/-- `insertTags`, with `FUNC_NUM` = 3 hash functions. -/
def insertTags (f : HSetBloomFilter) (tag : BitVec 32) : Except Stop HSetBloomFilter :=
  let f := if f.counter > 16 then f.clearbloomfilter else f
  insertLoop 3 tag { f with counter := f.counter + 1 }

def testLoop (f : HSetBloomFilter) : Nat → BitVec 32 → Except Stop Bool
  | 0, _ => .ok true
  | n + 1, tag => do
    let result ← f.getFliter tag
    let bit ← index f.bloomfilter result
    if bit then f.testLoop n (f.rotate tag) else pure false

def testTags (f : HSetBloomFilter) (tag : BitVec 32) : Except Stop Bool := f.testLoop 3 tag

end HSetBloomFilter

/-- `HSetBloomFilter **setbloomfilter` of HEAF and HYBBF. -/
structure BloomState where
  setbloomfilter : List HSetBloomFilter
  deriving DecidableEq, Repr

def BloomState.new (p : TagParams) (counter : Int) (numBits : Nat) : BloomState :=
  ⟨List.replicate p.numSets (HSetBloomFilter.new counter numBits (32 - p.tagShift))⟩

def insertBloomFilter (t : Tags BloomState) (numSet tag : Nat) : Except Stop (Tags BloomState) := do
  let f ← index t.policy.setbloomfilter numSet
  let f ← f.insertTags (BitVec.ofNat 32 tag)
  pure { t with policy := ⟨t.policy.setbloomfilter.set numSet f⟩ }

def testBloomFilter (t : Tags BloomState) (numSet tag : Nat) : Except Stop Bool := do
  let f ← index t.policy.setbloomfilter numSet
  f.testTags (BitVec.ofNat 32 tag)

/-- The evicted block is remembered when it is a valid DRAM block. -/
def rememberDram (t : Tags BloomState) (i : Nat) : Except Stop (Tags BloomState) :=
  let b := t.blk i
  if b.valid && !b.isPcm then insertBloomFilter t b.set b.tag else .ok t

/-- HEAF's place for a block that replaces a DRAM block: at the head for PCM or a remembered tag, else at way 7. -/
def heafPlace (p : TagParams) (t : Tags BloomState) (pkt : Packet) (i : Nat) :
    Except Stop (Tags BloomState) := do
  let set := (t.blk i).set
  if (t.blk i).isPcm then t.reorder set fun l => moveToHead l i
  else
    let hit ← testBloomFilter t set (p.extractTag pkt.addr)
    t.reorder set fun l => if hit then moveToHead l i else insertFixLocation l i 7

def heaf (p : TagParams) (counter : Int) (numBits : Nat) : TagStore BloomState where
  new := Tags.new p (BloomState.new p counter numBits)
  flag := some .heaf
  accessBlock t addr isSecure _ _ := t.accessAndMove p (moveBlk moveToHead) addr isSecure
  findVictim t addr _ := t.lastWay p addr
  insertBlock t pkt i := do
    let isValid := (t.blk i).valid && !(t.blk i).isPcm
    let t ← rememberDram t i
    let t ← t.insertBlock p pkt i
    if isValid then heafPlace p t pkt i else moveBlk moveToHead t i
  invalidate t i := t.invalidateToTail p i
  clearBloomFilter t numSet :=
    .ok { t with policy := ⟨t.policy.setbloomfilter.modify numSet HSetBloomFilter.clearbloomfilter⟩ }

/-- HYBBF's place for a new block, once warmed up. -/
def hybBfPlace (p : TagParams) (t : Tags BloomState) (pkt : Packet) (i : Nat) :
    Except Stop (Tags BloomState) := do
  let set := p.extractSet pkt.addr
  if (t.blk i).isPcm then t.reorder set fun l => moveToHead l i
  else
    let hit ← testBloomFilter t set (p.extractTag pkt.addr)
    t.reorder set fun l => insertFixLocation l i (if hit then 3 else 7)

def hybBf (p : TagParams) (counter : Int) (numBits : Nat) : TagStore BloomState where
  new := Tags.new p (BloomState.new p counter numBits)
  flag := some .hybBf
  accessBlock t addr isSecure _ _ :=
    t.accessAndMove p (fun t i => moveBlk (fun l i =>
      if t.warmedUp && !(t.blk i).isPcm then moveNStep l i 3 else moveToHead l i) t i) addr isSecure
  findVictim t addr _ := t.lastWay p addr
  insertBlock t pkt i :=
    if t.warmedUp then do
      let t ← rememberDram t i
      let t ← t.insertBlock p pkt i
      hybBfPlace p t pkt i
    else t.insertAndMove p (fun t i => t.reorder (p.extractSet pkt.addr) fun l => moveToHead l i) pkt i
  invalidate t i := t.invalidateToTail p i

/-! ## The exact filter of FEAF -/

structure Eaf where
  valid : Bool
  tags : BitVec 32
  deriving DecidableEq, Repr

/-- `SetBloomFilter::insertTags`: into the first free entry, or the oldest goes. -/
def eafInsertTags (eaf : List Eaf) (tag : BitVec 32) : List Eaf :=
  match eaf.findIdx? fun e => !e.valid with
  | some i => eaf.set i ⟨true, tag⟩
  | none => eaf.tail ++ [⟨true, tag⟩]

def eafTestTags (eaf : List Eaf) (tag : BitVec 32) : Bool := eaf.any fun e => e.valid && e.tags == tag

structure FeafState where
  eaf : List (List Eaf)
  totalCounter : Nat
  deriving DecidableEq, Repr

/-- `FEAF::insertBloomFilter`: after as many insertions as there are blocks every entry is dropped. -/
def feafInsertBloomFilter (p : TagParams) (t : Tags FeafState) (numSet tag : Nat) : Tags FeafState :=
  let eaf := t.policy.eaf.modify numSet fun l => eafInsertTags l (BitVec.ofNat 32 tag)
  if t.policy.totalCounter + 1 = p.numBlocks then
    { t with policy := ⟨eaf.map fun l => l.map fun e => { e with valid := false }, 0⟩ }
  else { t with policy := ⟨eaf, t.policy.totalCounter + 1⟩ }

def feaf (p : TagParams) : TagStore FeafState where
  new := Tags.new p ⟨List.replicate p.numSets (List.replicate 16 ⟨false, 0⟩), 0⟩
  flag := some .feaf
  accessBlock t addr isSecure _ _ := t.accessAndMove p (moveBlk moveToHead) addr isSecure
  findVictim t addr _ := t.lastWay p addr
  insertBlock t pkt i := do
    let b := t.blk i
    let t := if b.valid then feafInsertBloomFilter p t b.set b.tag else t
    let t ← t.insertBlock p pkt i
    let set := p.extractSet pkt.addr
    let eaf ← index t.policy.eaf set
    let hit := eafTestTags eaf (BitVec.ofNat 32 (p.extractTag pkt.addr))
    t.reorder set fun l => if b.valid && !hit then insertFixLocation l i 14 else moveToHead l i
  invalidate t i := t.invalidateToTail p i

/-! ## Lawfulness -/

section Lawful
variable {p : TagParams} {t t' : Tags BloomState} {i : Nat} {pkt : Packet}

theorem rememberDram_reordered (h : rememberDram t i = .ok t') : Reordered t t' := by
  unfold rememberDram at h
  simp only at h
  split at h
  · obtain ⟨f, -, h⟩ := of_bind h
    obtain ⟨f', -, h⟩ := of_bind h
    cases h
    exact of_policy t _ t.recordBlks
  · cases h
    exact refl t

theorem heafPlace_reordered (h : heafPlace p t pkt i = .ok t') : Reordered t t' := by
  unfold heafPlace at h
  split at h
  · exact reorder (fun _ _ => moveToHead_perm) h
  · obtain ⟨hit, -, h⟩ := of_bind h
    refine reorder (fun l l' hl => ?_) h
    split at hl
    · exact moveToHead_perm hl
    · exact insertFixLocation_perm hl

theorem hybBfPlace_reordered (h : hybBfPlace p t pkt i = .ok t') : Reordered t t' := by
  unfold hybBfPlace at h
  split at h
  · exact reorder (fun _ _ => moveToHead_perm) h
  · obtain ⟨hit, -, h⟩ := of_bind h
    exact reorder (fun _ _ => insertFixLocation_perm) h

end Lawful

theorem heaf_lawful (p : TagParams) (counter : Int) (numBits : Nat) : Lawful p (heaf p counter numBits) where
  new := rfl
  accessBlock h := accessAndMove_spec h fun _ _ _ => moveBlk_reordered fun _ _ => moveToHead_perm
  findVictim h := lastWay_spec h
  insertBlock h := by
    obtain ⟨t₁, h₁, h⟩ := of_bind h
    obtain ⟨t₂, h₂, h⟩ := of_bind h
    refine ⟨t₁, t₂, rememberDram_reordered h₁, h₂, ?_⟩
    split at h
    · exact heafPlace_reordered h
    · exact moveBlk_reordered (fun _ _ => moveToHead_perm) h
  invalidate h := invalidateToTail_spec h
  invalidate_ok h := invalidateToTail_ok h
  clearBloomFilter h := by
    cases h
    exact of_policy _ _ _
  clearBloomFilter_ok _ _ := ⟨_, rfl⟩
  updateSomething h := of_ok h
  setRecord h := of_ok h

theorem hybBf_lawful (p : TagParams) (counter : Int) (numBits : Nat) : Lawful p (hybBf p counter numBits) where
  new := rfl
  accessBlock h := by
    dsimp only [hybBf] at h
    refine accessAndMove_spec h fun t i t' hmove => moveBlk_reordered (fun l l' hl => ?_) hmove
    split at hl
    · exact moveNStep_perm hl
    · exact moveToHead_perm hl
  findVictim h := lastWay_spec h
  insertBlock h := by
    dsimp only [hybBf] at h
    split at h
    · obtain ⟨t₁, h₁, h⟩ := of_bind h
      obtain ⟨t₂, h₂, h⟩ := of_bind h
      exact ⟨t₁, t₂, rememberDram_reordered h₁, h₂, hybBfPlace_reordered h⟩
    · exact insertAndMove_spec h fun _ _ _ => reorder fun _ _ => moveToHead_perm
  invalidate h := invalidateToTail_spec h
  invalidate_ok h := invalidateToTail_ok h
  clearBloomFilter_ok _ _ := ⟨_, rfl⟩
  clearBloomFilter h := of_ok h
  updateSomething h := of_ok h
  setRecord h := of_ok h

theorem feafInsertBloomFilter_reordered (p : TagParams) (t : Tags FeafState) (numSet tag : Nat) :
    Reordered t (feafInsertBloomFilter p t numSet tag) := by
  unfold feafInsertBloomFilter
  split
  · exact of_policy t _ t.recordBlks
  · exact of_policy t _ t.recordBlks

theorem feaf_lawful (p : TagParams) : Lawful p (feaf p) where
  new := rfl
  accessBlock h := accessAndMove_spec h fun _ _ _ => moveBlk_reordered fun _ _ => moveToHead_perm
  findVictim h := lastWay_spec h
  insertBlock h := by
    obtain ⟨t₂, h₂, h⟩ := of_bind h
    obtain ⟨eaf, -, h⟩ := of_bind h
    refine ⟨_, t₂, ?_, h₂, reorder (fun l l' hl => ?_) h⟩
    · split
      · exact feafInsertBloomFilter_reordered ..
      · exact refl _
    · split at hl
      · exact insertFixLocation_perm hl
      · exact moveToHead_perm hl
  invalidate h := invalidateToTail_spec h
  invalidate_ok h := invalidateToTail_ok h
  clearBloomFilter_ok _ _ := ⟨_, rfl⟩
  clearBloomFilter h := of_ok h
  updateSomething h := of_ok h
  setRecord h := of_ok h

end Gem5.Cache
