import Gem5Nvmain.Cache.BaseSetAssoc

/- The tag stores that order the blocks of a set by position or by re-reference prediction (mem/cache/tags: lru,
  lru_wb, pipp, random_repl, hyblru, hybdip, ihybdip, hybrrip).

  Each is BaseSetAssoc with a move on a hit, a victim, a place for a new block and a place for an invalidated one. A
  move never changes which blocks a set holds, so every store is lawful; the proofs only name the moves.

  Correspondence (C++ ↔ Lean):
    `sets[blk->set].moveToHead(blk)` and the like ↔ `moveBlk` with that move
    a location passed as `uint8_t` ↔ `toUInt8`
    `bits(setLocation[i], 7, 4)` ↔ `dipLocation` -/
namespace Gem5.Cache
open Lib Gem5.Mem Reordered Tags

/-- Conversion to `uint8_t`. -/
def toUInt8 (x : Int) : Nat := (x % 256).toNat

/-! ## Common parts -/

namespace Tags
variable {σ : Type}

/-- `sets[blk->set].move(blk)`. -/
def moveBlk (move : List Nat → Nat → Except Stop (List Nat)) (t : Tags σ) (i : Nat) :
    Except Stop (Tags σ) :=
  t.reorder (t.blk i).set fun l => move l i

/-- `accessBlock`: a block that is found is moved. -/
def accessAndMove (p : TagParams) (move : Tags σ → Nat → Except Stop (Tags σ)) (t : Tags σ) (addr : Nat)
    (isSecure : Bool) : Except Stop (Tags σ × Option Nat) :=
  match t.findBlock p addr isSecure with
  | none => .ok (t, none)
  | some i => do
    let t ← move t i
    pure (t, some i)

/-- `findVictim`: the block in the last way. -/
def lastWay (p : TagParams) (t : Tags σ) (addr : Nat) : Except Stop (Tags σ × Nat) := do
  let i ← t.way (p.extractSet addr) (p.assoc - 1)
  pure (t, i)

/-- `insertBlock`: the base class's, then a move in the set of the address. -/
def insertAndMove (p : TagParams) (move : Tags σ → Nat → Except Stop (Tags σ)) (t : Tags σ) (pkt : Packet)
    (i : Nat) : Except Stop (Tags σ) := do
  let t ← t.insertBlock p pkt i
  move t i

/-- `invalidate`: the block should be evicted before valid ones. -/
def invalidateToTail (p : TagParams) (t : Tags σ) (i : Nat) : Except Stop (Tags σ) := do
  let t ← t.invalidate p i
  moveBlk moveToTail t i

end Tags

/-! ## LRU and its variants -/

open Tags

def lru (p : TagParams) : TagStore Unit where
  new := new p ()
  flag := some .lru
  accessBlock t addr isSecure _ _ := t.accessAndMove p (moveBlk moveToHead) addr isSecure
  findVictim t addr _ := t.lastWay p addr
  insertBlock t pkt i :=
    t.insertAndMove p (fun t i => t.reorder (p.extractSet pkt.addr) fun l => moveToHead l i) pkt i
  invalidate t i := t.invalidateToTail p i

/-- LRUWB: a writeback does not refresh a block. -/
def lruWb (p : TagParams) : TagStore Unit where
  new := new p ()
  flag := some .lruWb
  accessBlock t addr isSecure cmd _ :=
    t.accessAndMove p (fun t i => if cmd = .writeback then .ok t else moveBlk moveToHead t i) addr isSecure
  findVictim t addr _ := t.lastWay p addr
  insertBlock t pkt i :=
    t.insertAndMove p (fun t i => t.reorder (p.extractSet pkt.addr) fun l => moveToHead l i) pkt i
  invalidate t i := t.invalidateToTail p i

/-- PIPP: a hit is one step; PCM and DRAM blocks enter at their own places. -/
def pipp (p : TagParams) (pcmLocation dramLocation : Int) : TagStore Unit where
  new := new p ()
  flag := some .pipp
  accessBlock t addr isSecure _ _ := t.accessAndMove p (moveBlk moveOneStep) addr isSecure
  findVictim t addr _ := t.lastWay p addr
  insertBlock t pkt i :=
    t.insertAndMove p (fun t i => t.reorder (p.extractSet pkt.addr) fun l =>
      insertFixLocation l i (toUInt8 (if (t.blk i).isPcm then pcmLocation else dramLocation))) pkt i
  invalidate t i := t.invalidateToTail p i

/-- RandomRepl: an invalid block, or the way `random_mt` draws. -/
def randomRepl (p : TagParams) : TagStore Unit where
  new := new p ()
  flag := some .random
  accessBlock t addr isSecure _ _ := t.accessAndMove p (fun t _ => .ok t) addr isSecure
  findVictim t addr rand := do
    let i ← t.findVictim p addr
    if (t.blk i).valid then
      let j ← t.way (p.extractSet addr) (rand % p.assoc)
      pure (t, j)
    else pure (t, i)
  insertBlock t pkt i := t.insertBlock p pkt i
  invalidate t i := t.invalidate p i

/-- HYBLRU: once warmed up, a DRAM block enters at way 7 and climbs one step a hit. -/
def hybLru (p : TagParams) : TagStore Unit where
  new := new p ()
  flag := some .hybLru
  accessBlock t addr isSecure _ _ :=
    t.accessAndMove p (fun t i =>
      if t.warmedUp && !(t.blk i).isPcm then moveBlk moveOneStep t i else moveBlk moveToHead t i)
      addr isSecure
  findVictim t addr _ := t.lastWay p addr
  insertBlock t pkt i :=
    t.insertAndMove p (fun t i => t.reorder (p.extractSet pkt.addr) fun l =>
      if t.warmedUp && !(t.blk i).isPcm then insertFixLocation l i 7 else moveToHead l i) pkt i
  invalidate t i := t.invalidateToTail p i

/-! ## Dynamic insertion -/

/-- `setLocation` of HYBDIP and IHYBDIP, one `unsigned char` per set. -/
structure DipState where
  setLocation : List (BitVec 8)
  deriving DecidableEq, Repr

def DipState.new (p : TagParams) : DipState := ⟨List.replicate p.numSets 128⟩

def dipLocation (t : Tags DipState) (set : Nat) : Except Stop Nat := do
  let l ← index t.policy.setLocation set
  pure (l >>> 4).toNat

/-- A PCM miss lowers the location of its set, a DRAM miss raises it. -/
def dipAdjust (t : Tags DipState) (set : Nat) (isPcm : Bool) (step : BitVec 8) : Tags DipState :=
  { t with policy := ⟨t.policy.setLocation.modify set fun l =>
      if isPcm then (if l &&& 0xfc ≠ 0 then l - step else l)
      else (if l ^^^ 0xfc ≠ 0 then l + step else l)⟩ }

/-- `assert(location < assoc)`, then `insertFixLocation(blk, location)` of it. -/
def insertAtLocation (p : TagParams) (t : Tags DipState) (set i : Nat) (place : Int → Int) :
    Except Stop (Tags DipState) := do
  let location ← dipLocation t (t.blk i).set
  require (decide (location < p.assoc))
  t.reorder set fun l => insertFixLocation l i (toUInt8 (place location))

def hybDipInsert (p : TagParams) (t : Tags DipState) (pkt : Packet) (i : Nat) :
    Except Stop (Tags DipState) := do
  let set := p.extractSet pkt.addr
  if t.warmedUp then
    let isPcm := (t.blk i).isPcm
    let t ←
      (if isPcm then
        t.reorder set fun l => if pkt.cmd = .writeback then moveToHead l i
          else insertFixLocation l i (toUInt8 (p.assoc - 3))
       else if pkt.cmd = .writeback then
        insertAtLocation p t set i fun location => p.assoc - location - 1
       else t.reorder set fun l => insertFixLocation l i (toUInt8 (p.assoc - 2)))
    pure (if pkt.cmd = .writeback then t else dipAdjust t set isPcm 8)
  else t.reorder set fun l => moveToHead l i

/-- The move on a hit: once warmed up, a DRAM block climbs as many steps as the location of its set says. -/
def dipHit (steps : Nat → Nat) (t : Tags DipState) (i : Nat) : Except Stop (Tags DipState) :=
  if t.warmedUp then do
    let location ← dipLocation t (t.blk i).set
    moveBlk (fun l i => if (t.blk i).isPcm then moveToHead l i else moveNStep l i (steps location)) t i
  else moveBlk moveToHead t i

def hybDip (p : TagParams) : TagStore DipState where
  new := new p (DipState.new p)
  flag := some .hybDip
  accessBlock t addr isSecure _ _ := t.accessAndMove p (dipHit id) addr isSecure
  findVictim t addr _ := t.lastWay p addr
  insertBlock t pkt i := t.insertAndMove p (fun t i => hybDipInsert p t pkt i) pkt i
  invalidate t i := t.invalidateToTail p i

/-- IHYBDIP differs in the steps, in the places of PCM blocks, and in adjusting the location on writebacks too. -/
def iHybDipInsert (p : TagParams) (t : Tags DipState) (pkt : Packet) (i : Nat) :
    Except Stop (Tags DipState) := do
  let set := p.extractSet pkt.addr
  if t.warmedUp then
    let isPcm := (t.blk i).isPcm
    let t ←
      (if isPcm then
        (if pkt.cmd = .writeback ∨ pkt.cmd = .readResp then t.reorder set fun l => moveToHead l i
         else insertAtLocation p t set i fun location => location)
       else if pkt.cmd = .writeback then
        insertAtLocation p t set i fun location => p.assoc - location - 1
       else t.reorder set fun l => insertFixLocation l i (toUInt8 (p.assoc - 2)))
    pure (dipAdjust t set isPcm 4)
  else t.reorder set fun l => moveToHead l i

def iHybDip (p : TagParams) : TagStore DipState where
  new := new p (DipState.new p)
  flag := some .iHybDip
  accessBlock t addr isSecure cmd _ :=
    t.accessAndMove p (dipHit fun location => if cmd = .writeback then location / 2 else location)
      addr isSecure
  findVictim t addr _ := t.lastWay p addr
  insertBlock t pkt i := t.insertAndMove p (fun t i => iHybDipInsert p t pkt i) pkt i
  invalidate t i := t.invalidateToTail p i

/-! ## Re-reference prediction -/

/-- `rrpv` of every block. -/
structure RripState where
  rrpv : List (BitVec 8)
  deriving DecidableEq, Repr

def setRrpv (t : Tags RripState) (i : Nat) (v : BitVec 8) : Tags RripState :=
  { t with policy := ⟨t.policy.rrpv.set i v⟩ }

/-- The search of `HYBRRIP::findVictim`: the first block whose `rrpv` is `assoc - 1`; when there is none, every block
  ages by one. After 256 rounds each `rrpv` has had every value, so the loop of the source would never end. -/
def rripSearch (assoc : Nat) (ways : List Nat) : Nat → List (BitVec 8) →
    Except Stop (List (BitVec 8) × Nat)
  | 0, _ => .error .outOfFuel
  | fuel + 1, rrpv =>
    match ways.find? fun i => ((rrpv[i]?).getD 0).toNat == assoc - 1 with
    | some i => .ok (rrpv, i)
    | none => rripSearch assoc ways fuel (ways.foldl (fun r i => r.modify i (· + 1)) rrpv)

def hybRrip (p : TagParams) : TagStore RripState where
  new := new p ⟨List.replicate p.numBlocks (BitVec.ofNat 8 (p.assoc - 1))⟩
  flag := some .hybRrip
  accessBlock t addr isSecure _ _ :=
    t.accessAndMove p (fun t i => .ok (setRrpv t i
      (if t.warmedUp && !(t.blk i).isPcm then BitVec.ofNat 8 (p.assoc / 2) else 0))) addr isSecure
  findVictim t addr _ := do
    let (rrpv, i) ← rripSearch p.assoc (t.setAt (p.extractSet addr)).blks 257 t.policy.rrpv
    pure ({ t with policy := ⟨rrpv⟩ }, i)
  insertBlock t pkt i :=
    t.insertAndMove p (fun t i => .ok (setRrpv t i
      (if t.warmedUp && !(t.blk i).isPcm then
        (if pkt.cmd = .writeback then BitVec.ofNat 8 (p.assoc / 2) else BitVec.ofInt 8 (p.assoc - 2))
       else 0))) pkt i
  invalidate t i := do
    let t ← t.invalidate p i
    pure (setRrpv t i (BitVec.ofNat 8 (p.assoc - 1)))

/-! ## Lawfulness -/

section Lawful
variable {σ : Type} {p : TagParams} {t t' : Tags σ} {i : Nat}

theorem moveBlk_reordered {move : List Nat → Nat → Except Stop (List Nat)}
    (hm : ∀ l l', move l i = .ok l' → l'.Perm l) (h : moveBlk move t i = .ok t') : Reordered t t' :=
  reorder hm h

variable {move : Tags σ → Nat → Except Stop (Tags σ)} {addr : Nat}

theorem accessAndMove_spec {isSecure : Bool} {b : Option Nat} (h : t.accessAndMove p move addr isSecure = .ok (t', b))
    (hm : ∀ t i t', move t i = .ok t' → Reordered t t') : Reordered t t' ∧ b = t.findBlock p addr isSecure := by
  unfold accessAndMove at h
  split at h
  · rename_i hf
    cases h
    exact ⟨refl _, hf.symm⟩
  · rename_i j hf
    obtain ⟨t₁, hmove, h⟩ := of_bind h
    cases h
    exact ⟨hm _ _ _ hmove, hf.symm⟩

theorem way_mem {i j k : Nat} (h : t.way i j = .ok k) : k ∈ (t.setAt i).blks :=
  List.mem_of_getElem? (index_eq_ok.mp h)

theorem lastWay_spec (h : t.lastWay p addr = .ok (t', i)) :
    Reordered t t' ∧ i ∈ (t.setAt (p.extractSet addr)).blks := by
  obtain ⟨j, hj, h⟩ := of_bind h
  cases h
  exact ⟨refl _, way_mem hj⟩

theorem findVictim_mem (h : t.findVictim p addr = .ok i) : i ∈ (t.setAt (p.extractSet addr)).blks := by
  unfold findVictim at h
  simp only at h
  split at h
  · rename_i hf
    cases h
    exact List.mem_of_find?_eq_some hf
  · exact List.mem_of_getElem? (index_eq_ok.mp h)

theorem insertAndMove_spec {pkt : Packet}
    (h : t.insertAndMove p move pkt i = .ok t') (hm : ∀ t i t', move t i = .ok t' → Reordered t t') :
    ∃ t₁ t₂, Reordered t t₁ ∧ t₁.insertBlock p pkt i = .ok t₂ ∧ Reordered t₂ t' := by
  obtain ⟨t₂, hins, h⟩ := of_bind h
  exact ⟨t, t₂, refl t, hins, hm _ _ _ h⟩

theorem invalidateToTail_spec (h : t.invalidateToTail p i = .ok t') :
    ∃ t₁ t₂, Reordered t t₁ ∧ t₁.invalidate p i = .ok t₂ ∧ Reordered t₂ t' := by
  obtain ⟨t₂, hinv, h⟩ := of_bind h
  exact ⟨t, t₂, refl t, hinv, moveBlk_reordered (fun _ _ => moveToTail_perm) h⟩

theorem invalidate_base_ok (hc : CanInvalidate p t i) :
    ∃ t', t.invalidate p i = .ok t' ∧ (t'.blk i).set = (t.blk i).set ∧ t'.sets.length = t.sets.length ∧
      (t'.setAt (t.blk i).set).blks = (t.setAt (t.blk i).set).blks := by
  refine ⟨_, invalidate_eq_ok.mpr ⟨hc.valid, hc.master, rfl⟩, ?_, ?_, ?_⟩
  · have hlt := hc.lt
    simp [Tags.setBlk, Tags.blk, Tags.decOccupancy, Tags.decSetLine, hlt]
  · simp [Tags.setBlk, Tags.decOccupancy, Tags.decSetLine]
  · have hset := hc.set_lt
    simp only [Tags.setAt, Tags.setBlk, Tags.decOccupancy, Tags.decSetLine, List.getElem?_modify_eq,
      List.getElem?_eq_getElem hset]
    split <;> rfl

theorem invalidateToTail_ok (hc : CanInvalidate p t i) : ∃ t', t.invalidateToTail p i = .ok t' := by
  obtain ⟨t₁, hinv, hset, hlen, hblks⟩ := invalidate_base_ok hc
  have hlt : (t₁.blk i).set < t₁.sets.length := by
    rw [hset, hlen]
    exact hc.set_lt
  have hs : index t₁.sets (t₁.blk i).set = .ok (t₁.setAt (t₁.blk i).set) := by
    rw [index_eq_ok, setAt, List.getElem?_eq_getElem hlt, Option.getD_some]
  have hmem : i ∈ (t₁.setAt (t₁.blk i).set).blks := by
    rw [hset, hblks]
    exact hc.mem
  obtain ⟨l, hl⟩ := moveToTail_ok hmem
  rw [Tags.invalidateToTail, hinv, bind_ok, moveBlk, Tags.reorder, hs, bind_ok, hl]
  exact ⟨_, rfl⟩

end Lawful

theorem lru_lawful (p : TagParams) : Lawful p (lru p) where
  new := rfl
  accessBlock h := accessAndMove_spec h fun _ _ _ => moveBlk_reordered fun _ _ => moveToHead_perm
  findVictim h := lastWay_spec h
  insertBlock h := by
    dsimp only [lru] at h
    exact insertAndMove_spec h fun _ _ _ => reorder fun _ _ => moveToHead_perm
  invalidate h := invalidateToTail_spec h
  invalidate_ok h := invalidateToTail_ok h
  clearBloomFilter_ok _ _ := ⟨_, rfl⟩
  clearBloomFilter h := of_ok h
  updateSomething h := of_ok h
  setRecord h := of_ok h

theorem lruWb_lawful (p : TagParams) : Lawful p (lruWb p) where
  new := rfl
  accessBlock h := by
    dsimp only [lruWb] at h
    refine accessAndMove_spec h fun t i t' hmove => ?_
    split at hmove
    · cases hmove
      exact refl t
    · exact moveBlk_reordered (fun _ _ => moveToHead_perm) hmove
  findVictim h := lastWay_spec h
  insertBlock h := by
    dsimp only [lruWb] at h
    exact insertAndMove_spec h fun _ _ _ => reorder fun _ _ => moveToHead_perm
  invalidate h := invalidateToTail_spec h
  invalidate_ok h := invalidateToTail_ok h
  clearBloomFilter_ok _ _ := ⟨_, rfl⟩
  clearBloomFilter h := of_ok h
  updateSomething h := of_ok h
  setRecord h := of_ok h

theorem pipp_lawful (p : TagParams) (pcmLocation dramLocation : Int) :
    Lawful p (pipp p pcmLocation dramLocation) where
  new := rfl
  accessBlock h := accessAndMove_spec h fun _ _ _ => moveBlk_reordered fun _ _ => moveOneStep_perm
  findVictim h := lastWay_spec h
  insertBlock h := by
    dsimp only [pipp] at h
    exact insertAndMove_spec h fun _ _ _ => reorder fun _ _ => insertFixLocation_perm
  invalidate h := invalidateToTail_spec h
  invalidate_ok h := invalidateToTail_ok h
  clearBloomFilter_ok _ _ := ⟨_, rfl⟩
  clearBloomFilter h := of_ok h
  updateSomething h := of_ok h
  setRecord h := of_ok h

theorem randomRepl_lawful (p : TagParams) : Lawful p (randomRepl p) where
  new := rfl
  accessBlock h := by
    dsimp only [randomRepl] at h
    refine accessAndMove_spec h fun t i t' hmove => ?_
    cases hmove
    exact refl t
  findVictim h := by
    obtain ⟨i, hi, h⟩ := of_bind h
    split at h
    · obtain ⟨j, hj, h⟩ := of_bind h
      cases h
      exact ⟨refl _, way_mem hj⟩
    · cases h
      exact ⟨refl _, findVictim_mem hi⟩
  insertBlock h := ⟨_, _, refl _, h, refl _⟩
  invalidate h := ⟨_, _, refl _, h, refl _⟩
  invalidate_ok h := (invalidate_base_ok h).imp fun _ h => h.1
  clearBloomFilter_ok _ _ := ⟨_, rfl⟩
  clearBloomFilter h := of_ok h
  updateSomething h := of_ok h
  setRecord h := of_ok h

theorem hybLru_lawful (p : TagParams) : Lawful p (hybLru p) where
  new := rfl
  accessBlock h := by
    dsimp only [hybLru] at h
    refine accessAndMove_spec h fun t i t' hmove => ?_
    split at hmove
    · exact moveBlk_reordered (fun _ _ => moveOneStep_perm) hmove
    · exact moveBlk_reordered (fun _ _ => moveToHead_perm) hmove
  findVictim h := lastWay_spec h
  insertBlock h := by
    dsimp only [hybLru] at h
    refine insertAndMove_spec h fun t i t' hmove => reorder (fun l l' hl => ?_) hmove
    split at hl
    · exact insertFixLocation_perm hl
    · exact moveToHead_perm hl
  invalidate h := invalidateToTail_spec h
  invalidate_ok h := invalidateToTail_ok h
  clearBloomFilter_ok _ _ := ⟨_, rfl⟩
  clearBloomFilter h := of_ok h
  updateSomething h := of_ok h
  setRecord h := of_ok h

section Dip
variable {p : TagParams} {t t' : Tags DipState} {i : Nat} {pkt : Packet}

theorem dipHit_reordered {steps : Nat → Nat} (h : dipHit steps t i = .ok t') : Reordered t t' := by
  unfold dipHit at h
  split at h
  · obtain ⟨location, -, h⟩ := of_bind h
    refine moveBlk_reordered (fun l l' h => ?_) h
    split at h
    · exact moveToHead_perm h
    · exact moveNStep_perm h
  · exact moveBlk_reordered (fun _ _ => moveToHead_perm) h

theorem dipAdjust_reordered (t : Tags DipState) (set : Nat) (isPcm : Bool) (step : BitVec 8) :
    Reordered t (dipAdjust t set isPcm step) :=
  of_policy t _ t.recordBlks

theorem insertAtLocation_reordered {set : Nat} {place : Int → Int}
    (h : insertAtLocation p t set i place = .ok t') : Reordered t t' := by
  obtain ⟨location, -, h⟩ := of_bind h
  obtain ⟨-, -, h⟩ := of_bind h
  exact reorder (fun _ _ => insertFixLocation_perm) h

theorem hybDipInsert_reordered (h : hybDipInsert p t pkt i = .ok t') : Reordered t t' := by
  unfold hybDipInsert at h
  simp only at h
  split at h
  · obtain ⟨t₁, ht₁, h⟩ := of_bind h
    have hmoved : Reordered t t₁ := by
      split at ht₁
      · refine reorder (fun l l' h => ?_) ht₁
        split at h
        · exact moveToHead_perm h
        · exact insertFixLocation_perm h
      · split at ht₁
        · exact insertAtLocation_reordered ht₁
        · exact reorder (fun _ _ => insertFixLocation_perm) ht₁
    cases h
    split
    · exact hmoved
    · exact hmoved.trans (dipAdjust_reordered ..)
  · exact reorder (fun _ _ => moveToHead_perm) h

theorem iHybDipInsert_reordered (h : iHybDipInsert p t pkt i = .ok t') : Reordered t t' := by
  unfold iHybDipInsert at h
  simp only at h
  split at h
  · obtain ⟨t₁, ht₁, h⟩ := of_bind h
    have hmoved : Reordered t t₁ := by
      split at ht₁
      · split at ht₁
        · exact reorder (fun _ _ => moveToHead_perm) ht₁
        · exact insertAtLocation_reordered ht₁
      · split at ht₁
        · exact insertAtLocation_reordered ht₁
        · exact reorder (fun _ _ => insertFixLocation_perm) ht₁
    cases h
    exact hmoved.trans (dipAdjust_reordered ..)
  · exact reorder (fun _ _ => moveToHead_perm) h

end Dip

theorem hybDip_lawful (p : TagParams) : Lawful p (hybDip p) where
  new := rfl
  accessBlock h := accessAndMove_spec h fun _ _ _ => dipHit_reordered
  findVictim h := lastWay_spec h
  insertBlock h := by
    exact insertAndMove_spec h fun _ _ _ => hybDipInsert_reordered
  invalidate h := invalidateToTail_spec h
  invalidate_ok h := invalidateToTail_ok h
  clearBloomFilter_ok _ _ := ⟨_, rfl⟩
  clearBloomFilter h := of_ok h
  updateSomething h := of_ok h
  setRecord h := of_ok h

theorem iHybDip_lawful (p : TagParams) : Lawful p (iHybDip p) where
  new := rfl
  accessBlock h := by
    dsimp only [iHybDip] at h
    exact accessAndMove_spec h fun _ _ _ => dipHit_reordered
  findVictim h := lastWay_spec h
  insertBlock h := by
    exact insertAndMove_spec h fun _ _ _ => iHybDipInsert_reordered
  invalidate h := invalidateToTail_spec h
  invalidate_ok h := invalidateToTail_ok h
  clearBloomFilter_ok _ _ := ⟨_, rfl⟩
  clearBloomFilter h := of_ok h
  updateSomething h := of_ok h
  setRecord h := of_ok h

theorem rripSearch_mem {assoc fuel i : Nat} {ways : List Nat} {rrpv rrpv' : List (BitVec 8)}
    (h : rripSearch assoc ways fuel rrpv = .ok (rrpv', i)) : i ∈ ways := by
  induction fuel generalizing rrpv with
  | zero => cases h
  | succ fuel ih =>
    simp only [rripSearch] at h
    split at h
    · rename_i hf
      cases h
      exact List.mem_of_find?_eq_some hf
    · exact ih h

theorem setRrpv_reordered (t : Tags RripState) (i : Nat) (v : BitVec 8) : Reordered t (setRrpv t i v) :=
  of_policy t _ t.recordBlks

theorem hybRrip_lawful (p : TagParams) : Lawful p (hybRrip p) where
  new := rfl
  accessBlock h := by
    dsimp only [hybRrip] at h
    refine accessAndMove_spec h fun t i t' hmove => ?_
    cases hmove
    exact setRrpv_reordered ..
  findVictim h := by
    obtain ⟨⟨rrpv, j⟩, hs, h⟩ := of_bind h
    cases h
    exact ⟨of_policy _ _ _, rripSearch_mem hs⟩
  insertBlock h := by
    dsimp only [hybRrip] at h
    refine insertAndMove_spec h fun t i t' hmove => ?_
    cases hmove
    exact setRrpv_reordered ..
  invalidate h := by
    obtain ⟨t₂, hinv, h⟩ := of_bind h
    cases h
    exact ⟨_, t₂, refl _, hinv, setRrpv_reordered ..⟩
  invalidate_ok h := by
    obtain ⟨t', hinv, -⟩ := invalidate_base_ok h
    dsimp only [hybRrip]
    rw [hinv]
    exact ⟨_, rfl⟩
  clearBloomFilter_ok _ _ := ⟨_, rfl⟩
  clearBloomFilter h := of_ok h
  updateSomething h := of_ok h
  setRecord h := of_ok h

end Gem5.Cache
