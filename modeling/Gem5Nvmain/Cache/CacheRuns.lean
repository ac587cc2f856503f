import Gem5Nvmain.Cache.CacheInv
import Gem5Nvmain.Cache.Timing
import Gem5Nvmain.Cache.TagRuns

/- Runs of block operations in any order, and the soundness of the tag store.

  `opStep` is one operation of the cache on its blocks, at any time and with any arguments the cache could give it: a
  block it found or filled, a response, a snoop. Only a fill is tied to its end: `recvTimingResp` clears `tempBlock`
  out before it returns, so no fill starts while another is being finished (`fill`). What else the cache does to a
  block (`setStatus`), to the queues (`queues`) and to the tag store's own members (`adapt`) may happen in between.

  Every state of every run has `CacheInv` (`reachable_inv`). For LRU it gives the soundness of the tag store, as long
  as the counters of a set, which are 8 bits wide, can hold its blocks and the temporary one. -/
namespace Gem5.Cache
open Lib Gem5.Mem List Tags

/-- A cache between two operations. `fill` is the block filled by the response that is being handled. -/
structure RunState (σ : Type) where
  cache : CacheState σ
  fill : Option BlkPtr := none

/-- The temporary block is in use. -/
def RunState.live {σ : Type} (s : RunState σ) : Bool := decide (s.fill = some .temp)

inductive Op where
  | access (pkt : Packet) (rand : Nat)
  | handleFill (pkt : Packet) (rand : Nat)
  | finishFill (time : Tick)
  | satisfyCpuSideRequest (pkt : Packet) (ptr : BlkPtr) (deferredResponse pendingDowngrade : Bool)
  | handleSnoop (pkt : Packet) (ptr : Option BlkPtr) (isDeferred pendingInval : Bool) (up : SnoopReply)
  | uncacheableFlush (pkt : Packet)
  | memWriteback
  | memInvalidate
  | pageInvalidate (pageStart : Nat)
  | setStatus (ptr : BlkPtr) (writable readable hwPrefetched canGoExclusive keepDirty : Bool)
  | adapt (a : Adapt)
  | queues (mshrQueue writeBuffer : MshrQueue) (order : Nat)

section Step
variable {σ : Type} (P : CacheParams) (T : TagStore σ)

/-- A block of the tag store, or `tempBlock`. -/
def BlkPtr.inCache : BlkPtr → Bool
  | .temp => true
  | .blk i => decide (i < P.numBlocks)
  | .record _ => false

/-- What the end of a response does to `tempBlock`. -/
def finishFill (c : CacheState σ) (fill : BlkPtr) (time : Tick) : Except Stop (CacheState σ) :=
  if fill = .temp then c.clearTempBlock P time else .ok c

/-- The status bits that are changed outside the operations; a block never becomes dirty there. -/
def setStatus (b : CacheBlk) (writable readable hwPrefetched canGoExclusive keepDirty : Bool) : CacheBlk :=
  { b with
    writable := writable
    readable := readable
    hwPrefetched := hwPrefetched
    canGoExclusive := canGoExclusive
    dirty := b.dirty && keepDirty }

def opStep (s : RunState σ) : Op → Except Stop (RunState σ)
  | .access pkt rand => do
    let a ← s.cache.access P T pkt rand
    pure { s with cache := a.cache }
  | .handleFill pkt rand => do
    require s.fill.isNone
    let blk := s.cache.tags.findBlock P.toTagParams pkt.addr pkt.isSecure
    let (c, ptr, _) ← s.cache.handleFill P T pkt blk rand
    pure ⟨c, some ptr⟩
  | .finishFill time =>
    match s.fill with
    | none => .ok s
    | some ptr => do
      let c ← finishFill P s.cache ptr time
      pure ⟨c, none⟩
  | .satisfyCpuSideRequest pkt ptr deferredResponse pendingDowngrade => do
    require (ptr.inCache P)
    let (c, _) ← s.cache.satisfyCpuSideRequest P T pkt ptr deferredResponse pendingDowngrade
    pure { s with cache := c }
  | .handleSnoop pkt ptr isDeferred pendingInval up => do
    require (ptr.all (BlkPtr.inCache P))
    let (c, _) ← s.cache.handleSnoop P T pkt ptr isDeferred pendingInval up
    pure { s with cache := c }
  | .uncacheableFlush pkt => do
    let (c, _) ← s.cache.uncacheableFlush P T pkt
    pure { s with cache := c }
  | .memWriteback => do
    let (c, _) ← s.cache.memWriteback P
    pure { s with cache := c }
  | .memInvalidate => do
    let c ← s.cache.memInvalidate P T
    pure { s with cache := c }
  | .pageInvalidate pageStart => do
    let (c, _) ← s.cache.pageInvalidate P T pageStart
    pure { s with cache := c }
  | .setStatus ptr writable readable hwPrefetched canGoExclusive keepDirty => do
    require (ptr.inCache P)
    let b := setStatus (s.cache.get ptr) writable readable hwPrefetched canGoExclusive keepDirty
    pure { s with cache := s.cache.put ptr b }
  | .adapt a => do
    let tags ← adaptTags T s.cache.tags a
    pure { s with cache := { s.cache with tags := tags } }
  | .queues mshrQueue writeBuffer order =>
    .ok { s with cache := { s.cache with mshrQueue := mshrQueue, writeBuffer := writeBuffer, order := order } }

/-- The cache after some sequence of operations. -/
def Reachable (h : List Op) (s : RunState σ) : Prop :=
  Exec (StepOf (opStep P T)) ⟨CacheState.new P T, none⟩ h s

end Step

/-! ## The invariant of every run -/

section Invariant
variable {σ : Type} {P : CacheParams} {arr : BlkArray} {Q : MshrQueue → MshrQueue → Prop} {T : TagStore σ}
  {c c' : CacheState σ} {s s' : RunState σ}

theorem BlkPtr.inCache_spec {ptr : BlkPtr} (h : ptr.inCache P = true) : ptr.InBounds P ∧ ∀ k, ptr ≠ .record k := by
  cases ptr with
  | temp => exact ⟨trivial, fun k => by simp⟩
  | blk i => exact ⟨by simpa [BlkPtr.inCache, BlkPtr.InBounds] using h, fun k => by simp⟩
  | record k => cases h

theorem allocateWriteBuffer_spec {pkt : Packet} {time : Tick} {e : Entry}
    (h : c.allocateWriteBuffer pkt time = .ok (c', e)) :
    ∃ q, c.writeBuffer.allocate pkt.addr pkt.size pkt time c.order = .ok (q, e.index) ∧
      c' = { c with writeBuffer := q, order := c.order + 1 } := by
  obtain ⟨_, -, h⟩ := of_bind h
  obtain ⟨⟨q, i⟩, hq, h⟩ := of_bind h
  cases h
  exact ⟨q, hq, rfl⟩

/-- What is asked of the queues is kept when a packet is put into the write buffer. -/
def Accepts (Q : MshrQueue → MshrQueue → Prop) : Prop :=
  ∀ {m w w' : MshrQueue} {addr size order i : Nat} {pkt : Packet} {time : Tick}, Q m w →
    w.allocate addr size pkt time order = .ok (w', i) → Q m w'

/-- The temporary block is counted no more. -/
theorem CacheInv.clearTempBlock {time : Tick} (hQ : Accepts Q) (hi : CacheInv P arr Q true c)
    (h : c.clearTempBlock P time = .ok c') : CacheInv P arr Q false c' := by
  obtain ⟨c₁, h₁, h⟩ := of_bind h
  cases h
  have hi₁ : CacheInv P arr Q true c₁ := by
    split at h₁
    · obtain ⟨⟨c₂, wb⟩, h₂, h₁⟩ := of_bind h₁
      obtain ⟨⟨c₃, e⟩, h₃, h₁⟩ := of_bind h₁
      cases h₁
      have hi₂ := hi.writebackBlk (BlkPtr.inBounds_temp P) (fun k => by simp) h₂
      obtain ⟨q, hq, rfl⟩ := allocateWriteBuffer_spec h₃
      exact hi₂.of_eq rfl rfl rfl (hQ hi₂.queues hq)
    · cases h₁
      exact hi
  refine ⟨?_, nofun, nofun, nofun, hi₁.tempMaster,
    hi₁.built, hi₁.queues⟩
  exact hi₁.tags.uncountTemp (hi₁.tempSet rfl)

theorem opStep_inv (hT : Lawful P.toTagParams T) {op : Op}
    (hi : CacheInv P arr (fun _ _ => True) s.live s.cache) (h : opStep P T s op = .ok s') :
    CacheInv P arr (fun _ _ => True) s'.live s'.cache := by
  cases op with
  | access pkt rand =>
    obtain ⟨a, ha, h⟩ := of_bind h
    cases h
    exact (hi.access hT ha).1
  | handleFill pkt rand =>
    obtain ⟨_, hnone, h⟩ := of_bind h
    obtain ⟨⟨c, ptr, _⟩, hc, h⟩ := of_bind h
    cases h
    rw [require_eq_ok, Option.isNone_iff_eq_none] at hnone
    rw [RunState.live, hnone] at hi
    have hfill := (CacheInv.handleFill hT hi hc).1
    simpa [RunState.live] using hfill
  | finishFill time =>
    simp only [opStep] at h
    split at h
    · cases h
      exact hi
    · rename_i ptr hfill
      obtain ⟨c, hc, h⟩ := of_bind h
      cases h
      rw [RunState.live, hfill] at hi
      unfold finishFill at hc
      split at hc
      · rename_i htemp
        rw [htemp] at hi
        exact hi.clearTempBlock (fun _ _ => trivial) hc
      · rename_i htemp
        cases hc
        simpa [RunState.live, htemp] using hi
  | satisfyCpuSideRequest pkt ptr deferredResponse pendingDowngrade =>
    obtain ⟨_, hin, h⟩ := of_bind h
    obtain ⟨⟨c, _⟩, hc, h⟩ := of_bind h
    cases h
    exact hi.satisfyCpuSideRequest hT (BlkPtr.inCache_spec (require_eq_ok.mp hin)).1 hc
  | handleSnoop pkt ptr isDeferred pendingInval up =>
    obtain ⟨_, hin, h⟩ := of_bind h
    obtain ⟨⟨c, _⟩, hc, h⟩ := of_bind h
    cases h
    refine hi.handleSnoop hT (fun p hp => ?_) hc
    rw [require_eq_ok, hp] at hin
    exact (BlkPtr.inCache_spec hin).1
  | uncacheableFlush pkt =>
    obtain ⟨⟨c, _⟩, hc, h⟩ := of_bind h
    cases h
    exact hi.uncacheableFlush hT hc
  | memWriteback =>
    obtain ⟨⟨c, _⟩, hc, h⟩ := of_bind h
    cases h
    exact hi.memWriteback hc
  | memInvalidate =>
    obtain ⟨c, hc, h⟩ := of_bind h
    cases h
    exact hi.memInvalidate hT hc
  | pageInvalidate pageStart =>
    obtain ⟨⟨c, _⟩, hc, h⟩ := of_bind h
    cases h
    exact hi.pageInvalidate hT hc
  | setStatus ptr writable readable hwPrefetched canGoExclusive keepDirty =>
    obtain ⟨_, hin, h⟩ := of_bind h
    cases h
    obtain ⟨hbounds, hrec⟩ := BlkPtr.inCache_spec (require_eq_ok.mp hin)
    refine hi.put_same hbounds ⟨rfl, rfl, rfl, rfl, rfl, rfl, rfl⟩ fun hd => ?_
    rw [setStatus, Bool.and_eq_true] at hd
    exact hi.dirty_valid hbounds hrec hd.1
  | adapt a =>
    obtain ⟨tags, ht, h⟩ := of_bind h
    cases h
    exact hi.reordered (adaptTags_reordered hT ht)
  | queues mshrQueue writeBuffer order =>
    cases h
    exact hi.of_eq rfl rfl rfl trivial

theorem reachable_inv (hT : Lawful P.toTagParams T) {h : List Op} (hr : Reachable P T h s) :
    CacheInv P T.new.blks (fun _ _ => True) s.live s.cache :=
  hr.invariant (P := fun s => CacheInv P T.new.blks (fun _ _ => True) s.live s.cache)
    (CacheInv.new hT trivial) fun _ _ _ hi hs => opStep_inv hT hi hs

/-! ## Soundness of the tag store -/

/-- A set holds a block once, blocks are found under their own address, and the counters are the numbers of blocks;
  the temporary block counts while it is live. -/
structure Sound (P : CacheParams) (s : RunState σ) : Prop where
  unique : ∀ set < P.numSets, ∀ i ∈ (s.cache.tags.setAt set).blks, ∀ j ∈ (s.cache.tags.setAt set).blks,
    (s.cache.tags.blk i).valid = true → (s.cache.tags.blk j).valid = true →
    (s.cache.tags.blk i).tag = (s.cache.tags.blk j).tag →
    (s.cache.tags.blk i).secure = (s.cache.tags.blk j).secure → i = j
  address : ∀ a isSecure i, s.cache.tags.findBlock P.toTagParams a isSecure = some i →
    P.regenerateBlkAddr (s.cache.tags.blk i).tag (s.cache.tags.blk i).set = P.blkAlign a
  tagsInUse : s.cache.tags.tagsInUse = s.cache.tags.blocks.countP (·.valid)
  occupancies : ∀ m < P.maxMasters, s.cache.tags.occupancies[m]? =
    some (s.cache.tags.blocks.countP fun b => b.valid && b.srcMasterId == m : Int)
  lines : ∀ set < P.numSets, ∀ isPcm, ((s.cache.tags.setAt set).lines isPcm).toNat =
    ((s.cache.tags.setAt set).blks.countP fun i =>
      (s.cache.tags.blk i).valid && (s.cache.tags.blk i).isPcm == isPcm) +
    if s.live = true ∧ s.cache.tempBlock.set = set ∧ s.cache.tempBlock.isPcm = isPcm then 1 else 0

/-- The counters of a set hold its blocks and the temporary one. -/
theorem CacheInv.sound (hi : CacheInv P arr Q s.live s.cache) (hassoc : P.assoc ≤ 254) : Sound P s := by
  have ht := hi.tags
  refine ⟨fun set hset i hmem j hmem' hvi hvj htag hsec => ?_, fun a isSecure i hf => ?_, ?_, ?_,
    fun set hset isPcm => ?_⟩
  · obtain ⟨hlt, hi₁⟩ := (ht.mem_ways hset).mp hmem
    obtain ⟨hlt', hj₁⟩ := (ht.mem_ways hset).mp hmem'
    refine ht.unique i hlt j hlt' hvi hvj ?_ htag hsec
    rw [ht.set hlt, ht.set hlt', hi₁, hj₁]
  · obtain ⟨-, hset, htag, -, -⟩ := ht.findBlock_spec hf
    rw [hset, htag]
    exact P.regenerateBlkAddr_extract a
  · rw [ht.tagsInUse]
    rfl
  · exact ht.occupancies
  · have hle := countP_le_length (p := fun i =>
      (s.cache.tags.blk i).valid && (s.cache.tags.blk i).isPcm == isPcm) (l := (s.cache.tags.setAt set).blks)
    rw [ht.ways_length hset] at hle
    rw [ht.lines set hset isPcm, ht.countP_lineOf hset, BitVec.toNat_ofNat]
    -- the temporary block is counted where the set is its own
    have htemp : ((if s.live = true then some (s.cache.tempBlock.set, s.cache.tempBlock.isPcm) else none) =
        some (set, isPcm)) ↔
        (s.live = true ∧ s.cache.tempBlock.set = set ∧ s.cache.tempBlock.isPcm = isPcm) := by
      by_cases hl : s.live = true
      · simp [hl]
      · simp [hl]
    simp only [htemp]
    refine Nat.mod_eq_of_lt ?_
    split
    · omega
    · omega

end Invariant

/-- In every run of operations on an LRU tag store of at most 254 ways, every state between operations is sound. -/
theorem lru_tags_sound (P : CacheParams) (hassoc : P.assoc ≤ 254) {h : List Op} {s : RunState Unit}
    (hr : Reachable P (lru P.toTagParams) h s) : Sound P s :=
  (reachable_inv (lru_lawful _) hr).sound hassoc

/-- A cache of one set. -/
def oneSet (assoc : Nat) (h : 0 < assoc) : CacheParams where
  setShift := 2
  setBits := 0
  assoc := assoc
  watershed := 4096
  maxMasters := 8
  setShift_ge := Nat.one_lt_two
  assoc_pos := h
  maxMasters_lt := by decide
  mshrs := 4
  writeBuffers := 4
  isTopLevel := false
  isLastLevel := true
  isInstruction := false
  forwardSnoops := false
  hasPrefetcher := false
  prefetchOnAccess := false
  hitLatency := 2
  clockPeriod := 1
  addrRanges := [(0, 8191)]
  clockPeriod_pos := Nat.one_pos

/-- The writeback of block `n` from above. -/
def writebackOf (n : Nat) : Packet :=
  { cmd := .writeback
    req := { paddr := 4 * n, size := 4, masterId := 7 }
    addr := 4 * n
    size := 4
    data := [1, 2, 3, 4] }

def oneWay : CacheParams := oneSet 1 (by decide)

theorem lru_tags_sound_one : ∃ s, Reachable oneWay (lru oneWay.toTagParams) [.access (writebackOf 0) 0] s ∧
      Sound oneWay s ∧ s.cache.tags.tagsInUse = 1 := by
  refine Exec.ends_with (p := fun s => s.cache.tags.tagsInUse == 1) (by decide) fun s hr hp => ?_
  exact ⟨lru_tags_sound oneWay (by decide) hr, by simpa using hp⟩

/-! ## A set of 256 blocks -/

/-- LRU puts a new block at the head of its set. -/
theorem lru_insertBlock_last {p : TagParams} {arr : BlkArray} {live : Option (Nat × Bool)} {t : Tags Unit} {pkt : Packet}
    {l : List Nat} {x : Nat} (hi : TagsInv p arr live 0 t) (hx : (t.blk x).valid = false)
    (hblks : (t.setAt (p.extractSet pkt.addr)).blks = l ++ [x]) (hm : pkt.req.masterId < p.maxMasters) :
    ∃ t', (lru p).insertBlock t pkt x = .ok t' ∧ (t'.setAt (p.extractSet pkt.addr)).blks = x :: l ∧
      (t'.blk x).tag = p.extractTag pkt.addr ∧ (t'.blk x).isPcm = decide (pkt.addr < p.watershed) ∧
      (∀ j, j ≠ x → t'.blk j = t.blk j) ∧ x < t'.blocks.length := by
  have hset := p.extractSet_lt pkt.addr
  have hmem : x ∈ (t.setAt (p.extractSet pkt.addr)).blks := by
    rw [hblks]
    exact mem_append_right _ (mem_singleton_self x)
  have hlt := ((hi.mem_ways hset).mp hmem).1
  have htouched : (t.blk x).isTouched = false := (hi.blk x hlt).touched.trans hx
  have hnot : x ∉ l := by
    have hnd := hi.ways_nodup hset
    rw [hblks] at hnd
    exact fun hl => (nodup_append.mp hnd).2.2 x hl x (mem_singleton_self x) rfl
  -- the base class: nothing is evicted
  have hins := insertBlock_invalid htouched hx hm
  generalize hb : ({ t.blk x with
    isPcm := decide (pkt.addr < p.watershed)
    isTouched := true
    tag := p.extractTag pkt.addr
    srcMasterId := pkt.req.masterId } : CacheBlk) = b at hins
  generalize hu : ((({ t with tagsInUse := t.tagsInUse + 1 } : Tags Unit).incSetLine (t.blk x).set
    (decide (pkt.addr < p.watershed))).incOccupancy pkt.req.masterId).setBlk x b = u at hins
  have hblk (j : Nat) (hj : j ≠ x) : u.blk j = t.blk j := by
    rw [← hu, blk_setBlk_ne hj]
    rfl
  have hself : u.blk x = b := by
    rw [← hu, blk_setBlk_self]
    exact hi.lt_length hlt
  have hways : (u.setAt (p.extractSet pkt.addr)).blks = l ++ [x] := by
    rw [← hu, ← hblks]
    exact blks_incSetLine
  have hlen : p.extractSet pkt.addr < u.sets.length := by
    rw [← hu]
    simpa [setBlk, incOccupancy, incSetLine, hi.numSets] using hset
  have hs : index u.sets (p.extractSet pkt.addr) = .ok (u.setAt (p.extractSet pkt.addr)) := by
    rw [index_eq_ok, setAt, getElem?_eq_getElem hlen, Option.getD_some]
  refine ⟨{ u with
    sets := u.sets.set (p.extractSet pkt.addr)
      { u.setAt (p.extractSet pkt.addr) with blks := x :: l } }, ?_, ?_, ?_, ?_, hblk, ?_⟩
  · refine bind_eq_ok.mpr ⟨u, hins, bind_eq_ok.mpr ⟨_, hs, bind_eq_ok.mpr ⟨x :: l, ?_, rfl⟩⟩⟩
    rw [hways]
    exact moveToHead_last hnot
  · simp [setAt, hlen]
  · rw [← hself] at hb
    exact (congrArg CacheBlk.tag hb).symm
  · rw [← hself] at hb
    exact (congrArg CacheBlk.isPcm hb).symm
  · change x < u.blocks.length
    rw [← hu]
    simpa [setBlk, incOccupancy, incSetLine] using hi.lt_length hlt

/-- The first `n` blocks of the set have been written back to it; the others are invalid. -/
def Filled (n : Nat) (s : RunState Unit) : Prop :=
  ∃ front back, (s.cache.tags.setAt 0).blks = front ++ back ∧ front.length = n ∧
    (∀ i ∈ front, (s.cache.tags.blk i).valid = true ∧ (s.cache.tags.blk i).isPcm = true ∧
      (s.cache.tags.blk i).tag < n) ∧
    ∀ i ∈ back, (s.cache.tags.blk i).valid = false

section OneSet
variable {assoc : Nat} {h : 0 < assoc} {Q : MshrQueue → MshrQueue → Prop}

theorem oneSet_extractSet (addr : Nat) : (oneSet assoc h).extractSet addr = 0 := by
  have hlt := (oneSet assoc h).extractSet_lt addr
  exact Nat.lt_one_iff.mp hlt

theorem oneSet_extractTag (n : Nat) : (oneSet assoc h).extractTag (writebackOf n).addr = n := by
  rw [TagParams.extractTag_eq]
  change 4 * n / 4 / 1 = n
  omega

theorem writeWholeBlk_writeback (P : CacheParams) (c : CacheState Unit) (n i : Nat) :
    ∃ b, c.writeWholeBlk P (writebackOf n) i = .ok { c with tags := c.tags.setBlk i b } ∧
      CacheBlk.SameLine (c.tags.blk i) b := by
  refine ⟨_, bind_eq_ok.mpr ⟨(), rfl, rfl⟩, ?_⟩
  exact ⟨rfl, rfl, rfl, rfl, rfl, rfl, rfl⟩

/-- A writeback that misses goes into the last way, if that is invalid. -/
theorem access_fills_last {live : Bool} {c : CacheState Unit} {n x : Nat} {l : List Nat}
    (hi : CacheInv (oneSet assoc h) .blocks Q live c) (hblks : (c.tags.setAt 0).blks = l ++ [x])
    (hx : (c.tags.blk x).valid = false)
    (hmiss : c.tags.findBlock (oneSet assoc h).toTagParams (writebackOf n).addr false = none) :
    ∃ a, c.access (oneSet assoc h) (lru (oneSet assoc h).toTagParams) (writebackOf n) 0 = .ok a ∧
      (a.cache.tags.setAt 0).blks = x :: l ∧ (a.cache.tags.blk x).valid = true ∧
      (a.cache.tags.blk x).tag = n ∧ (a.cache.tags.blk x).isPcm = decide (4 * n < 4096) ∧
      ∀ j, j ≠ x → a.cache.tags.blk j = c.tags.blk j := by
  have hset : (c.tags.setAt ((oneSet assoc h).extractSet (writebackOf n).addr)).blks = l ++ [x] := by
    rw [oneSet_extractSet, hblks]
  have hlast : (oneSet assoc h).assoc - 1 = l.length := by
    have hlen := hi.tags.ways_length ((oneSet assoc h).extractSet_lt (writebackOf n).addr)
    rw [hset, length_append, length_singleton] at hlen
    exact Nat.sub_eq_of_eq_add hlen.symm
  have hacc : (lru (oneSet assoc h).toTagParams).accessBlock c.tags (writebackOf n).addr false .writeback
      (CacheState.portId (writebackOf n)) = .ok (c.tags, none) := by
    change accessAndMove _ _ _ _ _ = _
    rw [accessAndMove, hmiss]
  have hvictim : (lru (oneSet assoc h).toTagParams).findVictim c.tags (writebackOf n).addr 0 = .ok (c.tags, x) := by
    refine bind_eq_ok.mpr ⟨x, ?_, rfl⟩
    rw [way, hset, index_eq_ok, hlast]
    exact getElem?_concat_length
  have halloc : c.allocateBlock (oneSet assoc h) (lru (oneSet assoc h).toTagParams) (writebackOf n).addr 0 =
      .ok (c, some x, []) := by
    refine bind_eq_ok.mpr ⟨(c.tags, x), hvictim, if_neg ?_⟩
    rw [hx]
    exact Bool.false_ne_true
  obtain ⟨t, hins, hways, htag, hpcm, hother, hlt⟩ := lru_insertBlock_last hi.tags hx hset
    (show 7 < (oneSet assoc h).maxMasters from Nat.lt_succ_self 7)
  obtain ⟨b, hwrite, hsame⟩ := writeWholeBlk_writeback (oneSet assoc h) { c with
    tags := t.setBlk x { t.blk x with
      valid := true
      readable := true
      writable := false
      dirty := false
      hwPrefetched := false
      canGoExclusive := false
      secure := false } } n x
  refine ⟨_, bind_eq_ok.mpr ⟨(), rfl, bind_eq_ok.mpr ⟨_, hacc, bind_eq_ok.mpr ⟨(), rfl,
    bind_eq_ok.mpr ⟨_, halloc, bind_eq_ok.mpr ⟨t, hins, bind_eq_ok.mpr ⟨_, hwrite, rfl⟩⟩⟩⟩⟩⟩, ?_, ?_⟩
  · rw [oneSet_extractSet] at hways
    exact hways
  · rw [blk_setBlk_self hlt] at hsame
    rw [setBlk_setBlk, blk_setBlk_self hlt]
    refine ⟨hsame.valid, ?_, hsame.isPcm.trans hpcm, fun j hj => ?_⟩
    · rw [oneSet_extractTag] at htag
      exact hsame.tag.trans htag
    · rw [blk_setBlk_ne hj]
      exact hother j hj

/-- One more block is written back. -/
theorem filled_access {n : Nat} {s : RunState Unit} (hi : CacheInv (oneSet assoc h) .blocks Q s.live s.cache)
    (hf : Filled n s) (hn : n < assoc) (hpcm : n < 1024) :
    ∃ s', opStep (oneSet assoc h) (lru (oneSet assoc h).toTagParams) s (.access (writebackOf n) 0) = .ok s' ∧
      Filled (n + 1) s' := by
  obtain ⟨front, back, hblks, hlen, hfront, hback⟩ := hf
  have hassoc : n + back.length = assoc := by
    have hways := hi.tags.ways_length ((oneSet assoc h).extractSet_lt 0)
    rw [oneSet_extractSet, hblks, length_append, hlen] at hways
    exact hways
  obtain ⟨rest, x, rfl⟩ : ∃ rest x, back = rest ++ [x] := by
    refine ⟨back.dropLast, back.getLast ?_, (dropLast_append_getLast _).symm⟩
    intro hnil
    rw [hnil, length_nil] at hassoc
    omega
  have hx := hback x (mem_append_right _ (mem_singleton_self x))
  -- no block has the tag yet
  have hmiss : s.cache.tags.findBlock (oneSet assoc h).toTagParams (writebackOf n).addr false = none := by
    refine find?_eq_none.mpr fun i hmem => ?_
    rw [oneSet_extractSet, hblks] at hmem
    rw [oneSet_extractTag]
    rcases mem_append.mp hmem with hmem | hmem
    · simp [holds, Nat.ne_of_lt (hfront i hmem).2.2]
    · simp [holds, hback i hmem]
  have hnot : x ∉ front ++ rest := by
    have hnd := hi.tags.ways_nodup ((oneSet assoc h).extractSet_lt 0)
    rw [oneSet_extractSet, hblks, ← append_assoc] at hnd
    exact fun hl => (nodup_append.mp hnd).2.2 x hl x (mem_singleton_self x) rfl
  rw [← append_assoc] at hblks
  obtain ⟨a, hacc, hways, hvalid, htag, hispcm, hother⟩ := access_fills_last hi hblks hx hmiss
  refine ⟨{ s with cache := a.cache }, bind_eq_ok.mpr ⟨a, hacc, rfl⟩, x :: front, rest, hways,
    by rw [length_cons, hlen], fun i hmem => ?_, fun i hmem => ?_⟩
  · rcases mem_cons.mp hmem with rfl | hmem
    · refine ⟨hvalid, ?_, ?_⟩
      · rw [hispcm]
        exact decide_eq_true (by omega)
      · rw [htag]
        exact Nat.lt_succ_self n
    · rw [hother i fun heq => hnot (heq ▸ mem_append_left _ hmem)]
      obtain ⟨hv, hp, ht⟩ := hfront i hmem
      exact ⟨hv, hp, Nat.lt_succ_of_lt ht⟩
  · rw [hother i fun heq => hnot (heq ▸ mem_append_right _ hmem)]
    exact hback i (mem_append_left _ hmem)

theorem filled_reachable (assoc : Nat) (h : 0 < assoc) {n : Nat} (hn : n ≤ assoc) (hpcm : n ≤ 1024) :
    ∃ s, Reachable (oneSet assoc h) (lru (oneSet assoc h).toTagParams)
      ((range n).map fun k => .access (writebackOf k) 0) s ∧ s.fill = none ∧ Filled n s := by
  induction n with
  | zero =>
    refine ⟨_, .nil, rfl, [], _, rfl, rfl, nofun, fun i _ => ?_⟩
    exact TagsInv.new_invalid _ _ i
  | succ n ih =>
    obtain ⟨s, hr, hfill, hf⟩ := ih (by omega) (by omega)
    obtain ⟨s', hstep, hf'⟩ := filled_access (reachable_inv (lru_lawful _) hr) hf (by omega) (by omega)
    refine ⟨s', ?_, ?_, hf'⟩
    · rw [range_succ, map_append]
      exact .snoc hr hstep
    · obtain ⟨a, -, hs'⟩ := of_bind hstep
      cases hs'
      exact hfill

end OneSet

def manyWays : CacheParams := oneSet 256 (by decide)

/-- 256 PCM blocks in one set: its counter of PCM lines is 0 again. -/
theorem lru_pcm_counter_wraps : ∃ s, Reachable manyWays (lru manyWays.toTagParams)
        ((range 256).map fun n => .access (writebackOf n) 0) s ∧
      (s.cache.tags.setAt 0).pcm = 0 ∧ ¬Sound manyWays s := by
  obtain ⟨s, hr, hfill, front, back, hblks, hlen, hfront, -⟩ :=
    filled_reachable 256 (by decide) (n := 256) (by omega) (by omega)
  have hi := reachable_inv (lru_lawful _) hr
  have hset : 0 < manyWays.numSets := by decide
  have hback : back = [] := by
    have hways := hi.tags.ways_length hset
    rw [hblks, length_append, hlen] at hways
    have hways' : 256 + back.length = 256 := hways
    exact eq_nil_of_length_eq_zero (by omega)
  have hcount : ((s.cache.tags.setAt 0).blks.countP fun i =>
      (s.cache.tags.blk i).valid && (s.cache.tags.blk i).isPcm == true) = 256 := by
    rw [hblks, hback, append_nil, ← hlen, countP_eq_length]
    intro i hmem
    obtain ⟨hv, hp, -⟩ := hfront i hmem
    rw [hv, hp]
    rfl
  have hlive : s.live = false := by
    rw [RunState.live, hfill]
    rfl
  have hpcm : (s.cache.tags.setAt 0).lines true = 0 := by
    rw [hi.tags.lines 0 hset true, hi.tags.countP_lineOf hset, hcount, hlive]
    simp
  refine ⟨s, hr, hpcm, fun hsound => ?_⟩
  have hlines := hsound.lines 0 hset true
  omega

end Gem5.Cache
