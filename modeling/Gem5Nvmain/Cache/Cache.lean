import Gem5Nvmain.Cache.BaseSetAssoc
import Gem5Nvmain.Cache.MshrQueue

/- The cache over a tag store (mem/cache/cache_impl.hh): the functions that read and change blocks, in timing mode.

  `CacheState σ` is `Cache<TagStore>`: the tag store, the block `tempBlock` that holds a fill when the victim cannot
  be replaced, the MSHRs and the write buffer. A `BlkType *` is a `BlkPtr`. The functions take the parameters of the
  cache and the functions of its tag store, and pass the state along. A packet that a function changes is returned.

  Correspondence (C++ ↔ Lean):
    `if (blk != tempBlock) tags->invalidate(blk); blk->invalidate();` ↔ `dropBlk`
    `tags->invalidate(blk); blk->invalidate();` ↔ `invalidateBlk`
    the snoop of the caches above, sent through `cpuSidePort` ↔ `SnoopReply`
    `random_mt`, for a random victim ↔ `rand`
  `built` has no counterpart: it lists every packet `writebackBlk` has built, with the block it was built from.

  Left out: statistics, atomic mode, and the flow control towards the CPU side (`setBlocked`, retries). -/
namespace Gem5.Cache
open Lib Gem5.Mem

structure CacheParams extends TagParams where
  mshrs : Nat
  writeBuffers : Nat
  isTopLevel : Bool
  isLastLevel : Bool
  isInstruction : Bool
  forwardSnoops : Bool
  /-- `prefetcher != NULL` -/
  hasPrefetcher : Bool
  prefetchOnAccess : Bool
  hitLatency : Nat
  clockPeriod : Nat
  addrRanges : List (Nat × Nat)
  clockPeriod_pos : 0 < clockPeriod

/-- Where a block pointer points. -/
inductive BlkPtr where
  | temp
  | blk (i : Nat)
  | record (i : Nat)
  deriving DecidableEq, Repr

/-- How the caches above answered a snoop that was forwarded to them. -/
structure SnoopReply where
  memInhibit : Bool := false
  shared : Bool := false
  prefetchSquashed : Bool := false
  deriving DecidableEq, Repr

structure CacheState (σ : Type) where
  tags : Tags σ
  tempBlock : CacheBlk
  mshrQueue : MshrQueue
  writeBuffer : MshrQueue
  order : Nat
  built : List (BlkPtr × Packet)

namespace CacheState
variable {σ : Type} (P : CacheParams) (T : TagStore σ)

/-- `Cache(p)`. -/
def new : CacheState σ :=
  { tags := T.new
    tempBlock := { data := List.replicate P.blkSize 0 }
    mshrQueue := MshrQueue.new P.mshrs 4
    writeBuffer := MshrQueue.new P.writeBuffers (P.mshrs + 1000)
    order := 0
    built := [] }

def get (c : CacheState σ) : BlkPtr → CacheBlk
  | .temp => c.tempBlock
  | .blk i => c.tags.blk i
  | .record i => (c.tags.recordBlks[i]?).getD {}

def put (c : CacheState σ) (ptr : BlkPtr) (b : CacheBlk) : CacheState σ :=
  match ptr with
  | .temp => { c with tempBlock := b }
  | .blk i => { c with tags := c.tags.setBlk i b }
  | .record i => { c with tags := { c.tags with recordBlks := c.tags.recordBlks.set i b } }

/-- `tags->invalidate(blk)`. The master of `tempBlock` and of a shadow block is never a registered one, so its
  assertion fails for them. -/
def tagsInvalidate (c : CacheState σ) : BlkPtr → Except Stop (CacheState σ)
  | .blk i => do
    let tags ← T.invalidate c.tags i
    pure { c with tags := tags }
  | _ => .error .assertFailed

def invalidateBlk (c : CacheState σ) (ptr : BlkPtr) : Except Stop (CacheState σ) := do
  let c ← tagsInvalidate T c ptr
  pure (c.put ptr (c.get ptr).invalidate)

def dropBlk (c : CacheState σ) (ptr : BlkPtr) : Except Stop (CacheState σ) :=
  if ptr = .temp then .ok (c.put ptr (c.get ptr).invalidate) else invalidateBlk T c ptr

/-! ## Requests from the CPU side -/

/-- The bytes of a `uint64_t` in memory. -/
def bytesOf (x : BitVec 64) : List Byte := (List.range 8).map fun i => (x >>> (8 * i)).setWidth 8

/-- Whether a conditional swap writes. -/
def swapWrites (pkt : Packet) (old : List Byte) : Except Stop Bool :=
  if pkt.req.isCondSwap then
    if pkt.size = 8 ∨ pkt.size = 4 then .ok (decide ((bytesOf pkt.req.extraData).take pkt.size = old))
    else .error (.fatal "Invalid size for conditional read/write\n")
  else .ok true

def cmpAndSwap (b : CacheBlk) (pkt : Packet) : Except Stop (CacheBlk × Packet) := do
  require pkt.isRequest
  require (decide (pkt.size ≤ 8))
  let old := (pkt.setDataFromBlock b.data P.blkSize).data
  let writes ← swapWrites pkt old
  let b :=
    if writes then { b with data := pkt.writeDataToBlock b.data P.blkSize, dirty := true } else b
  pure (b, { pkt with data := old })

/-- What a whole-block read gives away: the block itself, ownership of the dirty data, or a shared copy. -/
def supplyBlock (c : CacheState σ) (pkt : Packet) (ptr : BlkPtr) (deferredResponse pendingDowngrade : Bool) :
    Except Stop (CacheState σ × Packet) :=
  let b := c.get ptr
  if pkt.needsExclusive then do
    let c ← dropBlk T c ptr
    pure (c, if b.dirty then { pkt with memInhibitAsserted := true } else pkt)
  else if b.isWritable && !pendingDowngrade && !pkt.sharedAsserted && !pkt.req.isInstFetch then
    if b.dirty then
      if !deferredResponse && !P.isTopLevel then
        .ok (c.put ptr { b with dirty := false }, { pkt with memInhibitAsserted := true })
      else .ok (c, { pkt with sharedAsserted := true })
    else .ok (c, pkt)
  else .ok (c, { pkt with sharedAsserted := true })

/-- The lock a load-locked leaves. -/
def readLock (b : CacheBlk) (pkt : Packet) : Except Stop CacheBlk :=
  if pkt.isLLSC then b.trackLoadLocked pkt else .ok b

def satisfyCpuSideRequest (c : CacheState σ) (pkt : Packet) (ptr : BlkPtr)
    (deferredResponse pendingDowngrade : Bool) : Except Stop (CacheState σ × Packet) := do
  require pkt.isRequest
  let b := c.get ptr
  require b.valid
  require (decide (pkt.getOffset P.blkSize + pkt.size ≤ P.blkSize))
  if pkt.cmd = .swapReq then
    let (b, pkt) ← cmpAndSwap P b pkt
    pure (c.put ptr b, pkt)
  else if pkt.isWrite then
    let (b, pkt, proceeds) ← b.checkWrite pkt
    let b := if proceeds then { b with data := pkt.writeDataToBlock b.data P.blkSize } else b
    pure (c.put ptr { b with dirty := true }, pkt)
  else if pkt.isRead then
    let b ← readLock b pkt
    let c := c.put ptr b
    let pkt := pkt.setDataFromBlock b.data P.blkSize
    if pkt.size = P.blkSize then supplyBlock P T c pkt ptr deferredResponse pendingDowngrade
    else pure (c, pkt)
  else
    require pkt.isUpgrade
    require (decide (ptr ≠ .temp))
    let c ← invalidateBlk T c ptr
    pure (c, pkt)

/-! ## Writebacks -/

/-- `writebackBlk`: the packet has the block's own master. -/
def writebackBlk (c : CacheState σ) (ptr : BlkPtr) : Except Stop (CacheState σ × Packet) := do
  let b := c.get ptr
  require (b.valid && b.dirty)
  let addr := P.regenerateBlkAddr b.tag b.set
  let pkt : Packet :=
    { cmd := .writeback
      req := { paddr := addr, size := P.blkSize, masterId := b.srcMasterId }
      addr := addr
      size := P.blkSize
      isSecure := b.secure
      data := b.data
      isSupplyExclusive := b.isWritable }
  let c := c.put ptr { b with dirty := false }
  pure ({ c with built := c.built ++ [(ptr, pkt)] }, pkt)

/-- `writebackVisitor`: a functional write of the block, if it is dirty. -/
def writebackVisitor (c : CacheState σ) (ptr : BlkPtr) : Except Stop (CacheState σ × List Packet) :=
  let b := c.get ptr
  if b.dirty then do
    require b.valid
    let addr := P.regenerateBlkAddr b.tag b.set
    let pkt : Packet :=
      { cmd := .writeReq
        req := { paddr := addr, size := P.blkSize, masterId := funcMasterId }
        addr := addr
        size := P.blkSize
        data := b.data }
    pure (c.put ptr { b with dirty := false }, [pkt])
  else .ok (c, [])

def invalidateVisitor (c : CacheState σ) (ptr : BlkPtr) : Except Stop (CacheState σ) :=
  let b := c.get ptr
  if b.valid then do
    require (!b.dirty)
    invalidateBlk T c ptr
  else .ok c

/-- The blocks `forEachBlk` visits, in order: `blks[i]` for `i < numSets * assoc`. -/
def visited (c : CacheState σ) : List BlkPtr :=
  (List.range P.numBlocks).map fun i =>
    match c.tags.blks with
    | .blocks => BlkPtr.blk i
    | .recordBlks => BlkPtr.record i

def writebackAll (c : CacheState σ) : List BlkPtr → Except Stop (CacheState σ × List Packet)
  | [] => .ok (c, [])
  | ptr :: ptrs => do
    let (c, pkts) ← writebackVisitor P c ptr
    let (c, rest) ← writebackAll c ptrs
    pure (c, pkts ++ rest)

/-- `memWriteback`, with the packets sent to memory. -/
def memWriteback (c : CacheState σ) : Except Stop (CacheState σ × List Packet) := writebackAll P c (c.visited P)

def invalidateAll (c : CacheState σ) : List BlkPtr → Except Stop (CacheState σ)
  | [] => .ok c
  | ptr :: ptrs => do
    let c ← invalidateVisitor T c ptr
    invalidateAll c ptrs

def memInvalidate (c : CacheState σ) : Except Stop (CacheState σ) := invalidateAll T c (c.visited P)

/-- `isDirty`. -/
def isDirty (c : CacheState σ) : Bool := (c.visited P).any fun ptr => (c.get ptr).dirty

def clearLocks (c : CacheState σ) : CacheState σ :=
  (c.visited P).foldl (fun c ptr => c.put ptr { c.get ptr with lockList := [] }) c

def uncacheableFlush (c : CacheState σ) (pkt : Packet) : Except Stop (CacheState σ × List Packet) :=
  let c := if pkt.req.isClearLL then c.clearLocks P else c
  match c.tags.findBlock P.toTagParams pkt.addr pkt.isSecure with
  | none => .ok (c, [])
  | some i => do
    let (c, pkts) ← writebackVisitor P c (.blk i)
    let c ← invalidateVisitor T c (.blk i)
    pure (c, pkts)

/-! ## Allocation -/

/-- `allocateBlock`: the block to fill, if the victim can be replaced, and its writeback. -/
def allocateBlock (c : CacheState σ) (addr rand : Nat) : Except Stop (CacheState σ × Option Nat × List Packet) := do
  let (tags, i) ← T.findVictim c.tags addr rand
  let c := { c with tags := tags }
  let b := c.tags.blk i
  if b.valid then
    match c.mshrQueue.findMatch (P.regenerateBlkAddr b.tag b.set) b.secure with
    | some m =>
      require (!b.isWritable || b.dirty)
      require (c.mshrQueue.mshr m).needsExclusive
      pure (c, none, [])
    | none =>
      if b.dirty then
        let (c, wb) ← writebackBlk P c (.blk i)
        pure (c, some i, [wb])
      else pure (c, some i, [])
  else pure (c, some i, [])

/-- What a writeback or a whole-line write puts into its block. -/
def writeWholeBlk (c : CacheState σ) (pkt : Packet) (i : Nat) : Except Stop (CacheState σ) :=
  let b := { c.tags.blk i with data := pkt.data.take P.blkSize, dirty := true }
  if pkt.cmd = .writeback then do
    require (!pkt.needsResponse)
    pure (c.put (.blk i) { b with writable := b.writable || pkt.isSupplyExclusive })
  else do
    require b.isReadable
    pure (c.put (.blk i) { b with canGoExclusive := true, writable := false })

/-- The result of `access`. -/
structure Access (σ : Type) where
  cache : CacheState σ
  pkt : Packet
  blk : Option Nat
  writebacks : List Packet
  satisfied : Bool

/-- `access` of a writeback, or of a whole-line write at the top level. -/
def accessWholeBlk (c : CacheState σ) (pkt : Packet) (blk : Option Nat) (rand : Nat) :
    Except Stop (Access σ) := do
  require (P.blkSize == pkt.size)
  match blk with
  | some i =>
    let c ← writeWholeBlk P c pkt i
    pure ⟨c, pkt, some i, [], true⟩
  | none =>
    let (c, victim, writebacks) ← allocateBlock P T c pkt.addr rand
    match victim with
    | none => pure ⟨c, pkt, none, writebacks, false⟩
    | some i =>
      let tags ← T.insertBlock c.tags pkt i
      let c := { c with tags := tags.setBlk i { tags.blk i with
        valid := true
        readable := true
        writable := false
        dirty := false
        hwPrefetched := false
        canGoExclusive := false
        secure := pkt.isSecure } }
      let c ← writeWholeBlk P c pkt i
      pure ⟨c, pkt, some i, writebacks, true⟩

/-- The block is writable, or readable, as the packet needs it. -/
def permits (b : CacheBlk) (pkt : Packet) : Bool := if pkt.needsExclusive then b.isWritable else b.isReadable

/-- `(pkt->req->masterId()-7)/6`. -/
def portId (pkt : Packet) : Int := ((pkt.req.masterId : Int) - 7).tdiv 6

def access (c : CacheState σ) (pkt : Packet) (rand : Nat) : Except Stop (Access σ) := do
  require pkt.isRequest
  if pkt.req.isUncacheable then
    let (c, _) ← uncacheableFlush P T c pkt
    pure ⟨c, pkt, none, [], false⟩
  else
    let (tags, blk) ← T.accessBlock c.tags pkt.addr pkt.isSecure pkt.cmd (portId pkt)
    let c := { c with tags := tags }
    if pkt.cmd = .writeback ∨ (pkt.cmd = .writeInvalidateReq ∧ P.isTopLevel) then
      accessWholeBlk P T c pkt blk rand
    else
      match blk with
      | some i =>
        if pkt.cmd = .writeInvalidateReq then
          let c ← invalidateBlk T c (.blk i)
          pure ⟨c, pkt, some i, [], true⟩
        else if permits (c.tags.blk i) pkt then
          let (c, pkt) ← satisfyCpuSideRequest P T c pkt (.blk i) false false
          pure ⟨c, pkt, some i, [], true⟩
        else pure ⟨c, pkt, some i, [], false⟩
      | none =>
        if pkt.cmd = .writeInvalidateReq then pure ⟨c, pkt, none, [], true⟩
        else if pkt.isLLSC && pkt.isWrite then
          -- a store conditional that misses completely fails at once
          pure ⟨c, { pkt with req := { pkt.req with extraData := 0 } }, none, [], true⟩
        else pure ⟨c, pkt, none, [], false⟩

/-! ## Fills -/

/-- The block and the status that a response leaves in a block. -/
def fillBlk (b : CacheBlk) (pkt : Packet) : CacheBlk :=
  { b with
    secure := b.secure || pkt.isSecure
    valid := true
    readable := true
    writable := b.writable || !pkt.sharedAsserted
    dirty := b.dirty || (!pkt.sharedAsserted && pkt.memInhibitAsserted) ||
      pkt.cmd == .writeInvalidateReq
    data := if pkt.isRead then pkt.data.take P.blkSize else b.data }

/-- A fill that finds no replaceable block uses `tempBlock`, which is counted in its set like the others. -/
def useTempBlock (c : CacheState σ) (pkt : Packet) : Except Stop (CacheState σ) := do
  require (!c.tempBlock.valid)
  let set := P.extractSet pkt.addr
  let isPcm := decide (pkt.addr < P.watershed)
  pure { c with
    tags := c.tags.incSetLine set isPcm
    tempBlock := { c.tempBlock with set := set, tag := P.extractTag pkt.addr, isPcm := isPcm } }

def handleFill (c : CacheState σ) (pkt : Packet) (blk : Option Nat) (rand : Nat) :
    Except Stop (CacheState σ × BlkPtr × List Packet) := do
  require pkt.isResponse
  match blk with
  | some i =>
    require ((c.tags.blk i).tag == P.extractTag pkt.addr)
    require (pkt.hasData || (c.tags.blk i).valid)
    pure (c.put (.blk i) (fillBlk P (c.tags.blk i) pkt), .blk i, [])
  | none =>
    require pkt.hasData
    let (c, victim, writebacks) ← allocateBlock P T c pkt.addr rand
    match victim with
    | none =>
      let c ← useTempBlock P c pkt
      pure (c.put .temp (fillBlk P c.tempBlock pkt), .temp, writebacks)
    | some i =>
      let tags ← T.insertBlock c.tags pkt i
      require (!(tags.blk i).valid)
      pure ({ c with tags := tags.setBlk i (fillBlk P (tags.blk i) pkt) }, .blk i, writebacks)

/-! ## Snoops -/

/-- What a forwarded snoop leaves in the packet. -/
def forwardSnoop (pkt : Packet) (up : SnoopReply) : Except Stop Packet :=
  if P.forwardSnoops then do
    require (!(up.memInhibit && pkt.memInhibitAsserted))
    pure { pkt with
      memInhibitAsserted := pkt.memInhibitAsserted || up.memInhibit
      sharedAsserted := pkt.sharedAsserted || up.shared
      prefetchSquashed := pkt.prefetchSquashed || up.prefetchSquashed }
  else .ok pkt

/-- `doTimingSupplyResponse`: the response sent to the memory side. -/
def doTimingSupplyResponse (pkt : Packet) (blkData : List Byte) (pendingInval : Bool) :
    Except Stop Packet := do
  require (pkt.isInvalidate || pkt.sharedAsserted)
  let resp ← pkt.makeTimingResponse
  let resp := if resp.isRead then resp.setDataFromBlock blkData P.blkSize else resp
  pure (if resp.cmd = .readResp ∧ pendingInval then { resp with cmd := .readRespWithInvalidate } else resp)

/-- The answer of a dirty block. -/
def respondToSnoop (b : CacheBlk) (pkt : Packet) (haveExclusive pendingInval : Bool) :
    Except Stop (Packet × List Packet) := do
  require (!pkt.memInhibitAsserted)
  let pkt := { pkt with
    memInhibitAsserted := true
    isSupplyExclusive := pkt.isSupplyExclusive || haveExclusive }
  let resp ← doTimingSupplyResponse P pkt b.data pendingInval
  pure (pkt, [resp])

/-- `handleSnoop` on a valid block. -/
def snoopBlk (c : CacheState σ) (pkt : Packet) (ptr : BlkPtr) (pendingInval : Bool) :
    Except Stop (CacheState σ × Packet × List Packet) := do
  let b := c.get ptr
  let respond := b.dirty && pkt.needsResponse && pkt.cmd != .writeInvalidateReq
  let downgrade := pkt.isRead && !pkt.isInvalidate
  require (!(downgrade && pkt.needsExclusive))
  let haveExclusive := b.isWritable
  let b := { b with
    writable := b.writable && !downgrade
    canGoExclusive := b.canGoExclusive && !downgrade }
  let c := c.put ptr b
  let invalidate := pkt.isInvalidate
  let pkt := { pkt with sharedAsserted := pkt.sharedAsserted || downgrade }
  let (pkt, resps) ← (if respond then respondToSnoop P b pkt haveExclusive pendingInval else .ok (pkt, []))
  let c ← (if invalidate then dropBlk T c ptr else .ok c)
  pure (c, pkt, resps)

def handleSnoop (c : CacheState σ) (pkt : Packet) (blk : Option BlkPtr) (isDeferred pendingInval : Bool)
    (up : SnoopReply) : Except Stop (CacheState σ × Packet × List Packet) := do
  require (!(pendingInval && !isDeferred))
  require pkt.isRequest
  let pkt ← forwardSnoop P pkt up
  match blk with
  | none => pure (c, pkt, [])
  | some ptr =>
    if !(c.get ptr).valid then pure (c, pkt, [])
    else if pkt.cmd = .hardPFReq then pure (c, { pkt with prefetchSquashed := true }, [])
    else snoopBlk P T c pkt ptr pendingInval

/-! ## Page invalidation -/

/-- One address of `pageInvalidate` in an instruction cache. -/
def pageStepInstruction (c : CacheState σ) (addr : Nat) : Except Stop (CacheState σ) :=
  match c.tags.findBlock P.toTagParams addr false with
  | none => .ok c
  | some i => do
    require (!(c.tags.blk i).dirty)
    invalidateBlk T c (.blk i)

/-- The writeback of one block of the page. -/
def pageWriteback (c : CacheState σ) (i : Nat) : Except Stop (CacheState σ × List Packet) :=
  let b := c.tags.blk i
  if b.dirty && b.isReadable && b.isWritable then do
    let (c, wb) ← writebackBlk P c (.blk i)
    pure (c, [wb])
  else .ok (c, [])

/-- HEAF forgets the filter of the set. -/
def pageClearFilter (c : CacheState σ) (i : Nat) : Except Stop (CacheState σ) :=
  if T.flag = some .heaf then do
    let tags ← T.clearBloomFilter c.tags (c.tags.blk i).set
    pure { c with tags := tags }
  else .ok c

/-- One address of `pageInvalidate` in a data cache. -/
def pageStep (c : CacheState σ) (addr : Nat) : Except Stop (CacheState σ × List Packet) :=
  match c.tags.findBlock P.toTagParams addr false with
  | none => .ok (c, [])
  | some i => do
    let c ← pageClearFilter T c i
    let (c, writebacks) ← pageWriteback P c i
    let c ← invalidateBlk T c (.blk i)
    pure (c, writebacks)

def pageStepsInstruction (c : CacheState σ) : List Nat → Except Stop (CacheState σ)
  | [] => .ok c
  | addr :: addrs => do
    let c ← pageStepInstruction P T c addr
    pageStepsInstruction c addrs

def pageSteps (c : CacheState σ) : List Nat → Except Stop (CacheState σ × List Packet)
  | [] => .ok (c, [])
  | addr :: addrs => do
    let (c, writebacks) ← pageStep P T c addr
    let (c, rest) ← pageSteps c addrs
    pure (c, writebacks ++ rest)

/-- The addresses `pageInvalidate` looks up. -/
def pageAddrs (pageStart : Nat) : List Nat := (List.range 64).map fun i => pageStart + 64 * i

/-- `pageInvalidate`: the cache afterwards and the writebacks sent to memory. -/
def pageInvalidate (c : CacheState σ) (pageStart : Nat) : Except Stop (CacheState σ × List Packet) :=
  if P.isInstruction then do
    require P.isTopLevel
    let c ← pageStepsInstruction P T c (pageAddrs pageStart)
    pure (c, [])
  else pageSteps P T c (pageAddrs pageStart)

end CacheState

end Gem5.Cache
