import Gem5Nvmain.Cache.Cache

/- The cache in timing mode (mem/cache/cache_impl.hh, mem/cache/base.hh): requests from the CPU side, responses and
  snoops from the memory side, and the choice of the next request to send.

  An MSHR is an index into one of the two queues. `now` is `curTick()`.

  Correspondence (C++ ↔ Lean):
    `pkt->senderState`, an `MSHR *` ↔ `Entry`
    `prefetcher->getPacket()` ↔ the argument `prefetch`
    the loop over the targets of a response ↔ `respTargets`, on the list of targets
    `mshr->hasPostInvalidate()` and the like ↔ the fields: an MSHR is in service then
  A packet that a function sends is returned in a list.

  Left out: the times of responses to the CPU side (`responseLatency`), the prefetcher's own state, and the scheduling
  of the memory side port (`requestMemSideBus`): the port may ask for a packet at any time. -/
namespace Gem5.Cache
open Lib Gem5.Mem

/-- `MSHRQueueIndex`. -/
inductive QueueIndex where
  | mshrs
  | writeBuffer
  deriving DecidableEq, Repr

/-- An `MSHR *`. -/
structure Entry where
  queue : QueueIndex
  index : Nat
  deriving DecidableEq, Repr

/-- `clockEdge(cycles)`: the next edge, and some cycles later. -/
def clockEdge (P : CacheParams) (now : Tick) (cycles : Nat) : Tick :=
  (now + P.clockPeriod - 1) / P.clockPeriod * P.clockPeriod + P.clockPeriod * cycles

namespace CacheState
variable {σ : Type} (P : CacheParams) (T : TagStore σ)

def queue (c : CacheState σ) : QueueIndex → MshrQueue
  | .mshrs => c.mshrQueue
  | .writeBuffer => c.writeBuffer

def setQueue (c : CacheState σ) (q : QueueIndex) (x : MshrQueue) : CacheState σ :=
  match q with
  | .mshrs => { c with mshrQueue := x }
  | .writeBuffer => { c with writeBuffer := x }

def mshr (c : CacheState σ) (e : Entry) : Mshr := (c.queue e.queue).mshr e.index

def setMshr (c : CacheState σ) (e : Entry) (m : Mshr) : CacheState σ :=
  c.setQueue e.queue ((c.queue e.queue).setMshr e.index m)

/-! ## Buffers -/

/-- `allocateBufferInternal`. -/
def allocateBuffer (c : CacheState σ) (q : QueueIndex) (addr size : Nat) (pkt : Packet) (time : Tick) :
    Except Stop (CacheState σ × Entry) := do
  let (x, i) ← (c.queue q).allocate addr size pkt time c.order
  pure ({ c.setQueue q x with order := c.order + 1 }, ⟨q, i⟩)

def allocateMissBuffer (c : CacheState σ) (pkt : Packet) (time : Tick) :
    Except Stop (CacheState σ × Entry) := do
  require (!pkt.req.isUncacheable)
  allocateBuffer c .mshrs (P.blkAlign pkt.addr) P.blkSize pkt time

def allocateWriteBuffer (c : CacheState σ) (pkt : Packet) (time : Tick) :
    Except Stop (CacheState σ × Entry) := do
  require (pkt.isWrite && !pkt.isRead)
  allocateBuffer c .writeBuffer pkt.addr pkt.size pkt time

def allocateUncachedReadBuffer (c : CacheState σ) (pkt : Packet) (time : Tick) :
    Except Stop (CacheState σ × Entry) := do
  require pkt.req.isUncacheable
  require pkt.isRead
  allocateBuffer c .mshrs pkt.addr pkt.size pkt time

/-- `copy writebacks to write buffer`. -/
def allocateWritebacks (c : CacheState σ) (time : Tick) : List Packet → Except Stop (CacheState σ)
  | [] => .ok c
  | pkt :: pkts => do
    let (c, _) ← allocateWriteBuffer c pkt time
    allocateWritebacks c time pkts

/-! ## Requests -/

def promoteWholeLineWrites (pkt : Packet) : Except Stop Packet :=
  if pkt.cmd = .writeReq ∧ pkt.size = P.blkSize ∧ pkt.getOffset P.blkSize = 0 then do
    require P.isTopLevel
    pure { pkt with cmd := .writeInvalidateReq }
  else .ok pkt

/-- The result of `recvTimingReq`: whether the packet was taken, the responses to the CPU side and the snoops sent
  down. -/
structure ReqResult (σ : Type) where
  cache : CacheState σ
  accepted : Bool
  responses : List Packet := []
  snoops : List Packet := []

/-- A request that a cache above will answer. -/
def recvInhibited (c : CacheState σ) (pkt : Packet) : Except Stop (ReqResult σ) := do
  require (!pkt.req.isUncacheable)
  let snoop := { pkt.copyClearFlags with isExpressSnoop := true, memInhibitAsserted := true }
  pure { cache := c
         accepted := true
         snoops := if pkt.needsExclusive && !pkt.isSupplyExclusive then [snoop] else [] }

def dummyData (pkt : Packet) : Packet := { pkt with data := List.replicate pkt.size 0xFF }

def recvUncacheable (c : CacheState σ) (pkt : Packet) (time : Tick) : Except Stop (ReqResult σ) := do
  let (c, _) ← uncacheableFlush P T c pkt
  if pkt.isPrefetch then
    let resp ← pkt.makeTimingResponse
    pure { cache := c, accepted := true, responses := [dummyData resp] }
  else
    let (c, _) ← (if pkt.isWrite && !pkt.isRead then allocateWriteBuffer c pkt time
      else allocateUncachedReadBuffer c pkt time)
    require pkt.needsResponse
    pure { cache := c, accepted := true }

/-- A hit: the prefetch mark goes when the prefetcher is told of the access. -/
def hitBlk (c : CacheState σ) (blk : Option Nat) : CacheState σ :=
  match blk with
  | none => c
  | some i =>
    if P.hasPrefetcher && (P.prefetchOnAccess || (c.tags.blk i).hwPrefetched) then
      c.put (.blk i) { c.tags.blk i with hwPrefetched := false }
    else c

/-- The packet a software prefetch misses with: a copy with a request of its own, and none when a miss of the block is
  outstanding. -/
def missPacket (pkt : Packet) (mshr : Option Nat) : Option Packet :=
  if pkt.isSWPrefetch && P.isTopLevel then
    match mshr with
    | some _ => none
    | none => some { pkt with req := { pkt.req with contextId := none } }
  else some pkt

/-- A write miss to a valid block makes it unreadable. -/
def markUnreadable (c : CacheState σ) (pkt : Packet) (blk : Option Nat) : Except Stop (CacheState σ) :=
  match blk with
  | none => .ok c
  | some i =>
    let b := c.tags.blk i
    if pkt.cmd ≠ .writeInvalidateReq ∧ b.valid then do
      require pkt.needsExclusive
      require (!b.isWritable)
      pure (c.put (.blk i) { b with readable := false })
    else .ok c

def allocateMiss (c : CacheState σ) (pkt : Packet) (blk : Option Nat) (time : Tick) :
    Except Stop (CacheState σ) := do
  require (decide (pkt.req.masterId < P.maxMasters))
  if pkt.cmd = .writeback then
    let (c, _) ← allocateWriteBuffer c pkt time
    pure c
  else
    let c ← markUnreadable c pkt blk
    let (c, _) ← allocateMissBuffer P c pkt time
    pure c

/-- A miss joins the outstanding miss of its block. -/
def joinMiss (c : CacheState σ) (pkt : Packet) (i : Nat) (time : Tick) : Except Stop (CacheState σ) := do
  require (decide (pkt.req.masterId < P.maxMasters))
  let m ← (c.mshrQueue.mshr i).allocateTarget pkt time c.order
  pure { c.setMshr ⟨.mshrs, i⟩ m with order := c.order + 1 }

def missRequest (c : CacheState σ) (pkt : Packet) (blk : Option Nat) (time : Tick) :
    Except Stop (CacheState σ) :=
  let mshr := c.mshrQueue.findMatch (P.blkAlign pkt.addr) pkt.isSecure
  match missPacket P pkt mshr with
  | none => .ok c
  | some pkt =>
    match mshr with
    | some i => joinMiss P c pkt i time
    | none => allocateMiss P c pkt blk time

/-- A write to a block whose whole-line write is still on its way is replayed later. -/
def mustReplay (c : CacheState σ) (pkt : Packet) (blk : Option Nat) : Bool :=
  match blk with
  | none => false
  | some i =>
    let b := c.tags.blk i
    b.valid && b.canGoExclusive && pkt.isWrite && pkt.cmd != .writeInvalidateReq

/-- `recvTimingReq`, after `access`. -/
def finishReq (a : Access σ) (time : Tick) : Except Stop (ReqResult σ) :=
  let wholeLine := decide (a.pkt.cmd = .writeInvalidateReq)
  if wholeLine && !a.satisfied && P.isTopLevel then .ok { cache := a.cache, accepted := false }
  else if a.satisfied && !wholeLine then do
    let responses ← (if a.pkt.needsResponse then do
      let resp ← a.pkt.makeTimingResponse
      pure [resp] else .ok [])
    let c ← allocateWritebacks (hitBlk P a.cache a.blk) time a.writebacks
    pure { cache := c, accepted := true, responses := responses }
  else if mustReplay a.cache a.pkt a.blk then .ok { cache := a.cache, accepted := false }
  else do
    let responses ← (if a.pkt.isSWPrefetch && P.isTopLevel then do
      let resp ← a.pkt.makeTimingResponse
      pure [dummyData resp] else .ok [])
    let c ← missRequest P a.cache a.pkt a.blk time
    let c ← allocateWritebacks c time a.writebacks
    pure { cache := c, accepted := true, responses := responses }

def recvTimingReq (c : CacheState σ) (now : Tick) (pkt : Packet) (rand : Nat) : Except Stop (ReqResult σ) := do
  require pkt.isRequest
  let pkt ← promoteWholeLineWrites P pkt
  let time := clockEdge P now P.hitLatency
  if pkt.memInhibitAsserted then recvInhibited c pkt
  else if pkt.req.isUncacheable then recvUncacheable P T c pkt time
  else
    let a ← access P T c pkt rand
    finishReq P a time

/-! ## Responses -/

/-- What the response leaves in the packet of a target, and in the block. -/
def answerTarget (c : CacheState σ) (m : Mshr) (pkt : Packet) (isFill : Bool) (blk : Option BlkPtr)
    (target : Packet) : Except Stop (CacheState σ × Packet) :=
  if isFill then
    match blk with
    | none => .error .assertFailed
    | some ptr => do
      let (c, target) ← satisfyCpuSideRequest P T c target ptr true m.postDowngrade
      require (!target.req.isUncacheable)
      require (decide (target.req.masterId < P.maxMasters))
      pure (c, target)
  else if pkt.cmd = .upgradeFailResp then do
    require (decide (target.cmd = .storeCondReq ∨ target.cmd = .storeCondFailReq ∨
      target.cmd = .scUpgradeFailReq))
    pure (c, { target with req := { target.req with extraData := 0 } })
  else if pkt.cmd = .writeInvalidateResp then do
    let c ← (match blk with
      | none => .ok c
      | some ptr => do
        let b := c.get ptr
        require (b.dirty && !b.isWritable)
        -- O goes to E, or to S when the block was snooped in the meantime
        pure (c.put ptr
          { b with writable := b.writable || b.canGoExclusive, dirty := false, canGoExclusive := false }))
    pure (c, if P.isTopLevel then { target with cmd := .writeReq } else target)
  else if pkt.isRead && !pkt.isError then .ok (c, { target with data := pkt.data.take target.size })
  else .ok (c, target)

/-- The response to a target from above. -/
def targetResponse (m : Mshr) (pkt target : Packet) : Except Stop Packet := do
  let resp ← target.makeTimingResponse
  let resp := if pkt.isError then { resp with cmd := pkt.cmd } else resp
  pure (if resp.cmd = .readResp ∧ (pkt.isInvalidate || m.postInvalidate) then
    { resp with cmd := .readRespWithInvalidate } else resp)

/-- One target of a response: the responses to the CPU side and to the memory side. -/
def respTarget (c : CacheState σ) (m : Mshr) (pkt : Packet) (isFill : Bool) (blk : Option BlkPtr)
    (up : SnoopReply) (t : Target) : Except Stop (CacheState σ × List Packet × List Packet) :=
  match t.source with
  | .fromCPU =>
    -- a software prefetch was answered when it missed
    if t.pkt.isSWPrefetch && P.isTopLevel then .ok (c, [], [])
    else do
      let (c, target) ← answerTarget P T c m pkt isFill blk t.pkt
      let resp ← targetResponse m pkt target
      pure (c, [resp], [])
  | .fromPrefetcher => do
    require (decide (t.pkt.cmd = .hardPFReq))
    pure (match blk with
      | none => c
      | some ptr => c.put ptr { c.get ptr with hwPrefetched := true }, [], [])
  | .fromSnoop => do
    require (!pkt.isError)
    require (!(pkt.isInvalidate && !m.postInvalidate))
    let (c, _, resps) ← handleSnoop P T c t.pkt blk true m.postInvalidate up
    pure (c, [], resps)

def respTargets (c : CacheState σ) (m : Mshr) (pkt : Packet) (isFill : Bool) (blk : Option BlkPtr)
    (ups : Nat → SnoopReply) : List Target → Except Stop (CacheState σ × List Packet × List Packet)
  | [] => .ok (c, [], [])
  | t :: ts => do
    let (c, up₁, down₁) ← respTarget P T c m pkt isFill blk (ups ts.length) t
    let (c, up₂, down₂) ← respTargets c m pkt isFill blk ups ts
    pure (c, up₁ ++ up₂, down₁ ++ down₂)

/-- `mshr->handleFill` and `handleFill`. -/
def respFill (c : CacheState σ) (e : Entry) (pkt : Packet) (blk : Option Nat) (rand : Nat) :
    Except Stop (CacheState σ × BlkPtr × List Packet) := do
  let m ← (c.mshr e).handleFill pkt
  handleFill P T (c.setMshr e m) pkt blk rand

/-- After the targets: the block goes, or loses its write permission, when a snoop came in between. -/
def respSnooped (c : CacheState σ) (m : Mshr) (pkt : Packet) (blk : Option BlkPtr) :
    Except Stop (CacheState σ) :=
  match blk with
  | none => .ok c
  | some ptr =>
    let b := c.get ptr
    if !b.valid then .ok c
    else if pkt.isInvalidate || m.postInvalidate then do
      require (decide (ptr ≠ .temp))
      invalidateBlk T c ptr
    else if m.postDowngrade then .ok (c.put ptr { b with writable := false })
    else .ok c

/-- The MSHR is sent again for its deferred targets, or given back. -/
def respRelease (c : CacheState σ) (e : Entry) (now : Tick) (blk : Option BlkPtr) :
    Except Stop (CacheState σ) := do
  let (m, promoted) ← (c.mshr e).promoteDeferredTargets now
  let c := c.setMshr e m
  if promoted then
    -- no later read sees stale data while the write miss is outstanding
    let c := match blk with
      | none => c
      | some ptr => c.put ptr { c.get ptr with readable := false }
    let q ← (c.queue e.queue).markPending e.index
    pure (c.setQueue e.queue q)
  else
    let q ← (c.queue e.queue).deallocate e.index
    pure (c.setQueue e.queue q)

/-- `tempBlock` is cleared out, and written back if it is dirty. -/
def clearTempBlock (c : CacheState σ) (time : Tick) : Except Stop (CacheState σ) := do
  let c ← (if c.tempBlock.dirty then do
    let (c, wb) ← writebackBlk P c .temp
    let (c, _) ← allocateWriteBuffer c wb time
    pure c else .ok c)
  pure { c with
    tags := c.tags.decSetLine c.tempBlock.set c.tempBlock.isPcm
    tempBlock := c.tempBlock.invalidate }

/-- The targets a response is for, popped one by one. -/
def popTargets (m : Mshr) : Mshr := { m with targets := { m.targets with list := [] } }

def recvTimingResp (c : CacheState σ) (now : Tick) (e : Entry) (pkt : Packet) (rand : Nat)
    (ups : Nat → SnoopReply) : Except Stop (CacheState σ × List Packet × List Packet) := do
  require pkt.isResponse
  require (c.mshr e).hasTargets
  require (decide (pkt.req.masterId < P.maxMasters))
  let time := clockEdge P now P.hitLatency
  let found := c.tags.findBlock P.toTagParams pkt.addr pkt.isSecure
  let isFill := !(c.mshr e).isForward && (pkt.isRead || pkt.cmd == .upgradeResp)
  let (c, blk, writebacks) ← (if isFill && !pkt.isError then do
      let (c, ptr, writebacks) ← respFill P T c e pkt found rand
      pure (c, some ptr, writebacks)
    else .ok (c, found.map BlkPtr.blk, []))
  let m := c.mshr e
  let (c, responses, snoopResponses) ← respTargets P T c m pkt isFill blk ups m.targets.list
  let c := c.setMshr e (popTargets (c.mshr e))
  let c ← respSnooped T c m pkt blk
  let c ← respRelease c e now blk
  let c ← allocateWritebacks c time writebacks
  let c ← (if blk = some .temp then clearTempBlock P c time else .ok c)
  pure (c, responses, snoopResponses)

/-! ## Snoops -/

def inRange (addr : Nat) : Bool := P.addrRanges.any fun r => decide (r.1 ≤ addr ∧ addr ≤ r.2)

/-- A snoop that hits a writeback on its way is answered from it; an invalidation takes its place. -/
def snoopWriteback (c : CacheState σ) (pkt : Packet) : Except Stop (CacheState σ × Packet × List Packet) :=
  match c.writeBuffer.findMatches (P.blkAlign pkt.addr) pkt.isSecure with
  | [] => .ok (c, pkt, [])
  | i :: rest => do
    let m := c.writeBuffer.mshr i
    require rest.isEmpty
    require (!m.isUncacheable)
    require (m.getNumTargets == 1)
    let t ← m.getTarget
    require (decide (t.pkt.cmd = .writeback))
    require (!pkt.memInhibitAsserted)
    require (!pkt.needsExclusive || pkt.isInvalidate)
    let c := if pkt.needsExclusive then c else
      c.setMshr ⟨.writeBuffer, i⟩ { m with targets := { m.targets with
        list := [{ t with pkt := { t.pkt with isSupplyExclusive := false } }] } }
    let pkt := { pkt with
      memInhibitAsserted := true
      sharedAsserted := pkt.sharedAsserted || !pkt.needsExclusive }
    let resp ← doTimingSupplyResponse P pkt t.pkt.data false
    if pkt.isInvalidate then
      let q ← c.writeBuffer.markInService i none
      pure ({ c with writeBuffer := q }, pkt, [resp])
    else pure (c, pkt, [resp])

/-- The snoop goes on to the write buffer and the block. -/
def snoopThrough (c : CacheState σ) (pkt : Packet) (blk : Option Nat) (up : SnoopReply) :
    Except Stop (CacheState σ × Packet × List Packet) := do
  let (c, pkt, resps₁) ← snoopWriteback P c pkt
  let (c, pkt, resps₂) ← handleSnoop P T c pkt (blk.map BlkPtr.blk) false false up
  pure (c, pkt, resps₁ ++ resps₂)

def recvTimingSnoopReq (c : CacheState σ) (now : Tick) (pkt : Packet) (up : SnoopReply) :
    Except Stop (CacheState σ × Packet × List Packet) :=
  if pkt.req.isUncacheable ∨ pkt.cmd = .writeback ∨ inRange P pkt.addr = false then .ok (c, pkt, [])
  else
    let blk := c.tags.findBlock P.toTagParams pkt.addr pkt.isSecure
    match c.mshrQueue.findMatch (P.blkAlign pkt.addr) pkt.isSecure with
    | none => snoopThrough P T c pkt blk up
    | some i =>
      if pkt.cmd = .hardPFReq then .ok (c, { pkt with prefetchSquashed := true }, [])
      else
        let (m, pkt, took) := (c.mshrQueue.mshr i).handleSnoop pkt c.order now
        let c := { c.setMshr ⟨.mshrs, i⟩ m with order := c.order + 1 }
        if took then .ok (c, pkt, []) else snoopThrough P T c pkt blk up

/-! ## Sending -/

/-- The request sent for a miss; none when the packet itself is forwarded. -/
def getBusPacket (cpuPkt : Packet) (blk : Option CacheBlk) (needsExclusive : Bool) :
    Except Stop (Option Packet) :=
  let blkValid := blk.any (·.valid)
  if cpuPkt.req.isUncacheable then .ok none
  else if cpuPkt.cmd = .writeInvalidateReq then .ok none
  else if !blkValid && (cpuPkt.cmd == .writeback || cpuPkt.isUpgrade) then .ok none
  else do
    require cpuPkt.needsResponse
    require (!blkValid || (needsExclusive && !blk.any (·.isWritable)))
    let cmd : MemCmd :=
      if blkValid then (if cpuPkt.isLLSC then .scUpgradeReq else .upgradeReq)
      else if cpuPkt.cmd = .scUpgradeFailReq ∨ cpuPkt.cmd = .storeCondFailReq then .scUpgradeFailReq
      else if needsExclusive then .readExReq
      else .readReq
    pure (some
      { cmd := cmd
        req := cpuPkt.req
        addr := P.blkAlign cpuPkt.req.paddr
        size := P.blkSize
        isSecure := cpuPkt.isSecure })

/-- The prefetch that is tried when nothing is ready. -/
def nextPrefetch (c : CacheState σ) (now : Tick) (prefetch : Option Packet) :
    Except Stop (CacheState σ × Option Entry) :=
  if P.hasPrefetcher && !c.mshrQueue.isFull then
    match prefetch with
    | none => .ok (c, none)
    | some pkt =>
      let addr := P.blkAlign pkt.addr
      if (c.tags.findBlock P.toTagParams addr pkt.isSecure).isNone &&
          (c.mshrQueue.findMatch addr pkt.isSecure).isNone &&
          (c.writeBuffer.findMatch addr pkt.isSecure).isNone then do
        require (decide (pkt.req.masterId < P.maxMasters))
        let (c, e) ← allocateMissBuffer P c pkt now
        pure (c, some e)
      else .ok (c, none)
  else .ok (c, none)

def getNextMSHR (c : CacheState σ) (now : Tick) (prefetch : Option Packet) :
    Except Stop (CacheState σ × Option Entry) :=
  match c.mshrQueue.getNextMSHR now, c.writeBuffer.getNextMSHR now with
  | some i, none => .ok (c, some ⟨.mshrs, i⟩)
  | none, some j => .ok (c, some ⟨.writeBuffer, j⟩)
  | some i, some j =>
    let miss := c.mshrQueue.mshr i
    let write := c.writeBuffer.mshr j
    if c.writeBuffer.isFull && c.writeBuffer.inServiceEntries == 0 then
      match c.mshrQueue.findPending write.addr write.size write.isSecure with
      | some k =>
        if (c.mshrQueue.mshr k).order < write.order then .ok (c, some ⟨.mshrs, k⟩)
        else .ok (c, some ⟨.writeBuffer, j⟩)
      | none => .ok (c, some ⟨.writeBuffer, j⟩)
    else
      match c.writeBuffer.findPending miss.addr miss.size miss.isSecure with
      | some k => .ok (c, some ⟨.writeBuffer, k⟩)
      | none => .ok (c, some ⟨.mshrs, i⟩)
  | none, none => nextPrefetch P c now prefetch

/-- What the caches above make of a prefetch that is about to be sent. -/
inductive PrefetchCheck where
  | squashed
  | inhibited (snoop : Packet)
  | clear

def checkPrefetch (pkt : Packet) (up : SnoopReply) : PrefetchCheck :=
  if pkt.cmd = .hardPFReq then
    if up.prefetchSquashed then .squashed
    else if up.memInhibit then .inhibited { pkt.copyClearFlags with
      isExpressSnoop := true
      memInhibitAsserted := true
      sharedAsserted := up.shared }
    else .clear
  else .clear

/-- The packet for a miss, and `isForward`. -/
def missBusPacket (c : CacheState σ) (e : Entry) (pkt : Packet) : Except Stop (CacheState σ × Packet) := do
  let m := c.mshr e
  let blk := (c.tags.findBlock P.toTagParams m.addr m.isSecure).map c.tags.blk
  let bus ← getBusPacket P pkt blk m.needsExclusive
  pure (c.setMshr e { m with isForward := bus.isNone }, bus.getD pkt)

/-- `getTimingPacket`: the packet to send and its MSHR. -/
def getTimingPacket (c : CacheState σ) (now : Tick) (prefetch : Option Packet) (up : SnoopReply) :
    Except Stop (CacheState σ × Option (Entry × Packet)) := do
  let (c, e?) ← getNextMSHR P c now prefetch
  match e? with
  | none => pure (c, none)
  | some e =>
    let m := c.mshr e
    let t ← m.getTarget
    let found := (c.tags.findBlock P.toTagParams m.addr m.isSecure).isSome
    if m.isForwardNoResponse then
      require (!found)
      pure (c, some (e, t.pkt))
    else
      require (!(t.pkt.cmd == .hardPFReq && found))
      match checkPrefetch t.pkt up with
      | .squashed =>
        let (q, _) ← (c.queue e.queue).forceDeallocateTarget e.index now
        pure (c.setQueue e.queue q, none)
      | .inhibited snoop =>
        let q ← (c.queue e.queue).markInService e.index (some snoop)
        pure (c.setQueue e.queue q, none)
      | .clear =>
        let (c, pkt) ← missBusPacket P c e t.pkt
        pure (c, some (e, pkt))

/-- `sendDeferredPacket`: with `down`, the packet was taken and snooped below. -/
def sendDeferredPacket (c : CacheState σ) (now : Tick) (prefetch : Option Packet) (up : SnoopReply)
    (down : Option SnoopReply) : Except Stop (CacheState σ) := do
  let (c, next) ← getTimingPacket P c now prefetch up
  match next, down with
  | some (e, pkt), some r =>
    let pkt := { pkt with
      memInhibitAsserted := pkt.memInhibitAsserted || r.memInhibit
      sharedAsserted := pkt.sharedAsserted || r.shared }
    let q ← (c.queue e.queue).markInService e.index (some pkt)
    pure (c.setQueue e.queue q)
  | _, _ => pure c

end CacheState

end Gem5.Cache
