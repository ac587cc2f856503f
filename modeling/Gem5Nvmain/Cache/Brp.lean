import Gem5Nvmain.Cache.Policies

/- The BRP tag store (mem/cache/tags/brp.hh, mem/cache/tags/brp.cc).

  BRP keeps, for each of NUM_CORE cores and each set, a shadow set of tags that it uses as an LRU stack to learn how
  much each way is worth to each core. Its constructor allocates all shadow blocks in one array and stores the array
  in the member `blks` of BaseSetAssoc: here `blks` is `.recordBlks`. The shadow block at way `j` of set `i` of core
  `k` is always element `(k * numSets + i) * assoc + j`; the stack moves tags, not pointers.

  Correspondence (C++ ↔ Lean):
    `record_sets[k][i].blks` ↔ `shadowRow p t k i`
    shadow `status` 0 or 1 ↔ the bit BlkValid (0x01)
    shadow `tag = -1` ↔ `noTag`
    the rates compared in setRecord ↔ `lt`, with 4 for the initial rate 0
  Left out: `isStream`, `accessPCM`, `accessDRAM` and their per-set counts, which only reach debug output. -/
namespace Gem5.Cache
open Lib Gem5.Mem Tags List Reordered

def numCore : Nat := 4
def sampleSet : Nat := 32

/-- `Addr(-1)`. -/
def noTag : Nat := 2 ^ 64 - 1

structure BrpState where
  hit : Int
  core : List (List Int)
  coreSampling : List Int
  access : List Int
  hits : List Int
  saveOverhead : List (List Int)
  best : Int
  deriving DecidableEq, Repr

def BrpState.new (p : TagParams) : BrpState :=
  { hit := 0
    core := replicate p.numSets (replicate numCore ((p.assoc / 4 : Nat) : Int))
    coreSampling := replicate numCore (((p.assoc + 1) / numCore : Nat) : Int)
    access := replicate numCore 0
    hits := replicate numCore 0
    saveOverhead := replicate numCore (replicate p.assoc 0)
    best := 0 }

/-! ## Shadow sets -/

def shadowRow (p : TagParams) (t : Tags BrpState) (k set : Nat) : List CacheBlk :=
  (t.recordBlks.drop ((k * p.numSets + set) * p.assoc)).take p.assoc

def setShadowRow (p : TagParams) (t : Tags BrpState) (k set : Nat) (row : List CacheBlk) : Tags BrpState :=
  let start := (k * p.numSets + set) * p.assoc
  { t with recordBlks := t.recordBlks.take start ++ row ++ t.recordBlks.drop (start + p.assoc) }

/-- The tag and the status of `src`. -/
def withTag (b src : CacheBlk) : CacheBlk := { b with tag := src.tag, valid := src.valid }

def shadowAt (row : List CacheBlk) (j : Nat) : CacheBlk := (row[j]?).getD {}

/-- `MoveTagHead`: the tag at `index` goes to the front, those before it move back. -/
def moveTagHead (row : List CacheBlk) (index : Nat) : List CacheBlk :=
  row.mapIdx fun j b =>
    if j = 0 then withTag b (shadowAt row index)
    else if j ≤ index then withTag b (shadowAt row (j - 1))
    else b

/-- `MoveTagTail`. -/
def moveTagTail (row : List CacheBlk) (index : Nat) : List CacheBlk :=
  row.mapIdx fun j b =>
    if j + 1 = row.length then withTag b (shadowAt row index)
    else if index ≤ j then withTag b (shadowAt row (j + 1))
    else b

/-- The core a port belongs to; `record_sets` has `NUM_CORE` of them. -/
def portCore (portId : Int) : Except Stop Nat :=
  if 0 ≤ portId ∧ portId < numCore then .ok portId.toNat else .error .outOfRange

/-- What a hit adds to the counters of a shadow block, and a writeback to its status. -/
def creditHit (p : TagParams) (addr : Nat) (cmd : MemCmd) (b : CacheBlk) : CacheBlk :=
  let isPcm := decide (addr < p.watershed)
  let b :=
    if b.valid then { b with asidDirty := b.asidDirty + if isPcm then 70 else 10 }
    else { b with asid := b.asid + if isPcm then 24 else 9 }
  if cmd = .writeback then { b with valid := true } else b

def recordBrp (p : TagParams) (t : Tags BrpState) (addr : Nat) (cmd : MemCmd) (portId : Int) :
    Except Stop (Tags BrpState) := do
  let k ← portCore portId
  let tag := p.extractTag addr
  let set := p.extractSet addr
  let row := shadowRow p t k set
  match row.findIdx? fun b => b.tag == tag with
  | some i =>
    let t := { t with policy := { t.policy with hit := t.policy.hit + 1 } }
    pure (setShadowRow p t k set (moveTagHead (row.modify i (creditHit p addr cmd)) i))
  | none =>
    let last := p.assoc - 1
    let row := row.modify last fun b => { b with tag := tag, valid := decide (cmd = .writeback) }
    pure (setShadowRow p t k set (moveTagHead row last))

/-- The shadow tags of a block that is invalidated: the first core that has the tag drops it. -/
def dropShadowTag (p : TagParams) (t : Tags BrpState) (set tag : Nat) : List Nat → Tags BrpState
  | [] => t
  | k :: ks =>
    let row := shadowRow p t k set
    match row.findIdx? fun b => b.tag == tag with
    | some i => setShadowRow p t k set (moveTagTail (row.modify i fun b => { b with tag := noTag }) i)
    | none => dropShadowTag p t set tag ks

/-! ## The partition -/

structure Partition where
  best : Int
  core : List Int
  deriving DecidableEq, Repr

/-- The end of a branch of `subBest`. -/
def subBestLeaf (level : Nat) (tempBest : Int) (remain : Nat) (s : Partition) : Partition × Nat :=
  if tempBest > s.best then
    (⟨tempBest, if remain = 0 then s.core.mapIdx fun i c => if level ≤ i then 0 else c else s.core⟩, 1)
  else (s, 0)

/-- `subBest`, with `n` = `NUM_CORE - level` levels to go. -/
def subBest (saveOverhead : List (List Int)) : Nat → Int → Nat → Partition → Partition × Nat
  | 0, tempBest, remain, s => subBestLeaf numCore tempBest remain s
  | n + 1, tempBest, remain, s =>
    let level := numCore - (n + 1)
    if remain = 0 then subBestLeaf level tempBest remain s
    else
      let try_ (give : Nat) (saved : Int) (acc : Partition × Nat) : Partition × Nat :=
        let (s, res) := subBest saveOverhead n (tempBest + saved) (remain - give) acc.1
        (if res = 0 then s else { s with core := s.core.set level give }, acc.2 + res)
      (range remain).foldl
        (fun acc i => try_ (i + 1) (((saveOverhead[level]?.getD [])[i]?).getD 0) acc) (try_ 0 0 (s, 0))

def findBest (p : TagParams) (b : BrpState) (set maxRatioIndex : Nat) : BrpState :=
  let s := (subBest b.saveOverhead numCore 0 p.assoc ⟨0, (b.core[set]?).getD []⟩).1
  let remain := (p.assoc : Int) - s.core.sum
  let core := if remain > 0 then s.core.modify maxRatioIndex (· + remain) else s.core
  { b with best := s.best, core := b.core.set set core }

/-- Running sums of what hits at each way of a shadow set saved. -/
def prefixSums (row : List CacheBlk) : List Int :=
  (row.foldl (fun (acc : List Int × Int) b =>
    let s := acc.2 + (b.asid + b.asidDirty)
    (acc.1 ++ [s], s)) ([], 0)).1

/-- One set of `setRecord`. -/
def recordSet (p : TagParams) (maxRatioIndex : Nat) (t : Tags BrpState) (set : Nat) : Tags BrpState :=
  let save := (range numCore).map fun k => prefixSums (shadowRow p t k set)
  let t := (range numCore).foldl (fun t k => setShadowRow p t k set
    ((shadowRow p t k set).map fun b => { b with asid := 0, asidDirty := 0 })) t
  { t with policy := findBest p { t.policy with saveOverhead := save } set maxRatioIndex }

/-- `!(i & (skip_set-1))`. -/
def sampled (p : TagParams) (i : Nat) : Bool :=
  let skipSet := p.numSets / sampleSet
  if skipSet = 0 then i == 0 else i % skipSet == 0

def brpSetRecord (p : TagParams) (t : Tags BrpState) (lt : Nat → Nat → Bool) : Tags BrpState :=
  let max := (range numCore).foldl (fun max i => if lt max i then i else max) numCore
  let maxRatioIndex := if max = numCore then 0 else max
  let t := { t with policy := { t.policy with
    hit := 0, access := replicate numCore 0, hits := replicate numCore 0 } }
  let t := (range p.numSets).foldl (recordSet p maxRatioIndex) t
  let gained (k : Nat) : Int :=
    (((range p.numSets).filter (sampled p)).map fun i =>
      ((t.policy.core[i]?.getD [])[k]?).getD 0).sum
  { t with policy := { t.policy with
    coreSampling := t.policy.coreSampling.mapIdx fun k c => (c + gained k).tdiv sampleSet } }

/-! ## The tag store -/

def countPort (l : List Int) (k : Nat) : List Int := l.modify k (· + 1)

def brpAccessBlock (p : TagParams) (t : Tags BrpState) (addr : Nat) (isSecure : Bool) (cmd : MemCmd)
    (portId : Int) : Except Stop (Tags BrpState × Option Nat) := do
  let found := t.findBlock p addr isSecure
  let t ← recordBrp p t addr cmd portId
  let k ← portCore portId
  let t := { t with policy := { t.policy with access := countPort t.policy.access k } }
  match found with
  | none => pure (t, none)
  | some i =>
    let steps := (t.policy.coreSampling[k]?).getD 0
    let t ← moveBlk (fun l i =>
      if t.warmedUp then moveNStep l i (steps.tdiv (if (t.blk i).isPcm then 2 else 4) + 1)
      else moveToHead l i) t i
    pure ({ t with policy := { t.policy with hits := countPort t.policy.hits k } }, some i)

/-- The place of a new block: `core_sampling + 4` ways up for PCM, `core_sampling - 2` for DRAM. The comparison for
  PCM is unsigned. -/
def brpPosition (p : TagParams) (coreSampling : Int) (isPcm : Bool) : Int :=
  if isPcm then
    (if coreSampling + 4 < 0 ∨ coreSampling + 4 > p.assoc - 1 then p.assoc - 1 else coreSampling + 4)
  else (if coreSampling - 2 > 0 then coreSampling - 2 else 0)

def brpPlace (p : TagParams) (t : Tags BrpState) (pkt : Packet) (i : Nat) : Except Stop (Tags BrpState) := do
  let set := p.extractSet pkt.addr
  if t.warmedUp then
    let k ← portCore (((pkt.req.masterId : Int) - 7).tdiv 6)
    let c ← index t.policy.coreSampling k
    t.reorder set fun l =>
      insertFixLocation l i (toUInt8 (p.assoc - 1 - brpPosition p c (t.blk i).isPcm))
  else t.reorder set fun l => moveToHead l i

def brp (p : TagParams) : TagStore BrpState where
  new := { Tags.new p (BrpState.new p) with
    recordBlks := replicate (numCore * p.numSets * p.assoc) { tag := noTag }
    blks := .recordBlks }
  flag := some .brp
  accessBlock t addr isSecure cmd portId := brpAccessBlock p t addr isSecure cmd portId
  findVictim t addr _ := t.lastWay p addr
  insertBlock t pkt i := t.insertAndMove p (fun t i => brpPlace p t pkt i) pkt i
  invalidate t i := do
    let t ← t.invalidateToTail p i
    let b := t.blk i
    pure (dropShadowTag p t b.set b.tag (range numCore))
  setRecord t lt := .ok (brpSetRecord p t lt)

/-! ## Lawfulness -/

section Lawful
variable {p : TagParams} {t t' : Tags BrpState} {i : Nat} {pkt : Packet}

theorem setShadowRow_reordered (t : Tags BrpState) (k set : Nat) (row : List CacheBlk) :
    Reordered t (setShadowRow p t k set row) :=
  of_policy t t.policy _

variable {addr : Nat} {cmd : MemCmd} {portId : Int}

theorem recordBrp_reordered (h : recordBrp p t addr cmd portId = .ok t') : Reordered t t' := by
  obtain ⟨k, -, h⟩ := of_bind h
  simp only at h
  split at h
  · cases h
    exact of_policy t _ _
  · cases h
    exact setShadowRow_reordered ..

theorem dropShadowTag_reordered (t : Tags BrpState) (set tag : Nat) (ks : List Nat) :
    Reordered t (dropShadowTag p t set tag ks) := by
  induction ks with
  | nil => exact refl t
  | cons k ks ih =>
    simp only [dropShadowTag]
    split
    · exact setShadowRow_reordered ..
    · exact ih

theorem foldl_reordered {f : Tags BrpState → Nat → Tags BrpState} (hf : ∀ t k, Reordered t (f t k))
    (ks : List Nat) (t : Tags BrpState) : Reordered t (ks.foldl f t) := by
  induction ks generalizing t with
  | nil => exact refl t
  | cons k ks ih => exact (hf t k).trans (ih (f t k))

theorem recordSet_reordered (maxRatioIndex : Nat) (t : Tags BrpState) (set : Nat) :
    Reordered t (recordSet p maxRatioIndex t set) :=
  (foldl_reordered (fun _ _ => setShadowRow_reordered ..) _ t).trans (of_policy _ _ _)

theorem brpSetRecord_reordered (t : Tags BrpState) (lt : Nat → Nat → Bool) : Reordered t (brpSetRecord p t lt) := by
  have hreset (x : BrpState) : Reordered t { t with policy := x } := of_policy t x t.recordBlks
  exact ((hreset _).trans (foldl_reordered (recordSet_reordered _) _ _)).trans (of_policy _ _ _)

theorem brpAccessBlock_spec {isSecure : Bool} {b : Option Nat}
    (h : brpAccessBlock p t addr isSecure cmd portId = .ok (t', b)) :
    Reordered t t' ∧ b = t.findBlock p addr isSecure := by
  obtain ⟨t₁, h₁, h⟩ := of_bind h
  obtain ⟨k, -, h⟩ := of_bind h
  have hrec := recordBrp_reordered h₁
  split at h
  · rename_i hf
    cases h
    exact ⟨hrec.trans (of_policy t₁ _ t₁.recordBlks), hf.symm⟩
  · rename_i j hf
    obtain ⟨t₂, h₂, h⟩ := of_bind h
    cases h
    refine ⟨hrec.trans (trans ?_ (of_policy t₂ _ t₂.recordBlks)), hf.symm⟩
    refine (of_policy t₁ _ t₁.recordBlks).trans (moveBlk_reordered (fun l l' hl => ?_) h₂)
    split at hl
    · exact moveNStep_perm hl
    · exact moveToHead_perm hl

theorem brpPlace_reordered (h : brpPlace p t pkt i = .ok t') : Reordered t t' := by
  unfold brpPlace at h
  split at h
  · obtain ⟨k, -, h⟩ := of_bind h
    obtain ⟨c, -, h⟩ := of_bind h
    exact reorder (fun _ _ => insertFixLocation_perm) h
  · exact reorder (fun _ _ => moveToHead_perm) h

end Lawful

theorem brp_lawful (p : TagParams) : Lawful p (brp p) where
  new := rfl
  accessBlock h := brpAccessBlock_spec h
  findVictim h := lastWay_spec h
  insertBlock h := by
    exact insertAndMove_spec h fun _ _ _ => brpPlace_reordered
  invalidate h := by
    obtain ⟨t₃, h₃, h⟩ := of_bind h
    cases h
    obtain ⟨t₁, t₂, h₁, h₂, hmove⟩ := invalidateToTail_spec h₃
    exact ⟨t₁, t₂, h₁, h₂, hmove.trans (dropShadowTag_reordered ..)⟩
  invalidate_ok h := by
    obtain ⟨t', hinv⟩ := invalidateToTail_ok h
    dsimp only [brp]
    rw [hinv]
    exact ⟨_, rfl⟩
  setRecord h := by
    cases h
    exact brpSetRecord_reordered ..
  clearBloomFilter_ok _ _ := ⟨_, rfl⟩
  clearBloomFilter h := of_ok h
  updateSomething h := of_ok h

end Gem5.Cache
