import Gem5Nvmain.Lib.Exec
import Gem5Nvmain.Lib.Ring

/- The load/store queue of a thread (src/cpu/o3/lsq_unit.hh, src/cpu/o3/lsq_unit_impl.hh), with what the instructions
  (src/cpu/base_dyn_inst.hh), execution and commit (src/cpu/o3/iew_impl.hh) do to it.

  A load takes its data from the youngest older store in the store queue that has executed and covers it, waits for
  one that covers a part of it, and otherwise reads the cache. A store puts its data in the store queue when it
  executes, and looks for younger loads that have read too early. Stores that have committed are sent to the cache in
  order.

  The data cache takes a request or is blocked (`answers`); what it takes is served in that order, by the bytes of
  memory. Only this thread writes them. `phys` translates the address of a byte.

  Correspondence (C++ ↔ Lean):
    `NULL`, `sqIdx == -1` ↔ `none`
    `Addr` (64 bits) ↔ `Nat` below `2 ^ 64`, sums in `add64`
    `uint8_t effSize`, `uint8_t size` ↔ `Nat`, cut off by `toByte`
    `char data[16]` ↔ a function, zero where nothing was written
    `TheISA::HasUnalignedMemAcc` ↔ without it `splitRequest` never splits, and no part of a split is sent
    `hasPendingPkt`, `pendingPkt` ↔ `pendingPkt`
    `state->pktToSend` of another packet ↔ the second part of `retryPkt`
    `isExecuted` of a load ↔ its data is determined; the event that delivers it comes later

  Left out: uncacheable accesses, snoops and with them `checkLoads`, load-locked and store-conditional, IPR accesses,
  prefetches, faults and delayed translation, and the events that replay a load that has waited. -/
namespace Gem5.Cpu.LSQ
open Lib Function

structure Params where
  /-- `LQEntries`, with the sentinel. -/
  lqEntries : Nat
  /-- `SQEntries`, with the sentinel. -/
  sqEntries : Nat
  depCheckShift : Nat := 4
  cachePorts : Nat := 200
  needsTSO : Bool := false
  hasUnalignedMemAcc : Bool := true
  cacheLineSize : Nat := 64
  lqEntries_pos : 0 < lqEntries
  sqEntries_pos : 0 < sqEntries

/-- The sum of two addresses. -/
def add64 (a b : Nat) : Nat := (a + b) % 2 ^ 64

/-- A size in a `uint8_t`. -/
def toByte (size : Nat) : Nat := size % 256

/-- The bytes of a request. -/
structure Access where
  vaddr : Nat
  size : Nat
  pos : 0 < size
  fits : vaddr + size ≤ 2 ^ 64

/-- The data of a store; one with `CACHE_BLOCK_ZERO` has none. -/
structure Write extends Access where
  data : Nat → UInt8
  zero : Bool := false

structure DynInst where
  seqNum : Nat
  lqIdx : Nat
  sqIdx : Option Nat
  effAddr : Nat := 0
  effSize : Nat := 0
  effAddrValid : Bool := false
  executed : Bool := false
  memData : Nat → UInt8 := fun _ => 0

/-- `effAddr + effSize - 1`. -/
def DynInst.lastByte (inst : DynInst) : Nat := (inst.effAddr + inst.effSize + (2 ^ 64 - 1)) % 2 ^ 64

structure SQEntry where
  inst : DynInst
  data : Nat → UInt8 := fun _ => 0
  size : Nat := 0
  /-- The size of `sreqLow` where the store is split. -/
  sreqLow : Option Nat := none
  canWB : Bool := false
  committed : Bool := false
  completed : Bool := false
  isAllZeros : Bool := false

/-- A part of a store on its way to the cache. -/
structure Packet where
  addr : Nat
  size : Nat
  data : Nat → UInt8

/-! ## The data cache -/

/-- The bytes of a write. -/
def Packet.put (phys : Nat → Nat) (pkt : Packet) (memory : Nat → UInt8) (b : Nat) : UInt8 :=
  match (List.range pkt.size).find? fun i => phys (pkt.addr + i) == b with
  | some i => pkt.data i
  | none => memory b

structure Dcache where
  memory : Nat → UInt8
  /-- Whether it takes the next requests. It takes all that come after these. -/
  answers : List Bool := []

namespace Dcache

/-- The return value of `sendTimingReq`. -/
def takes (d : Dcache) : Bool := d.answers.headD true

def next (d : Dcache) : Dcache := { d with answers := d.answers.tail }

end Dcache

structure LSQUnit where
  loadQueue : Nat → Option DynInst := fun _ => none
  storeQueue : Nat → Option SQEntry := fun _ => none
  loads : Nat := 0
  stores : Nat := 0
  storesToWB : Nat := 0
  loadHead : Nat := 0
  loadTail : Nat := 0
  storeHead : Nat := 0
  storeWBIdx : Nat := 0
  storeTail : Nat := 0
  usedPorts : Nat := 0
  stalled : Bool := false
  stallingStoreIsn : Nat := 0
  stallingLoadIdx : Nat := 0
  /-- The packet that the cache did not take, and the rest of its store. -/
  retryPkt : Option (Packet × Option Packet) := none
  isStoreBlocked : Bool := false
  storeInFlight : Bool := false
  /-- The sequence number of the load. -/
  memDepViolator : Option Nat := none
  pendingPkt : Option Packet := none
  dcache : Dcache

/-- `inst` of an entry, which the code takes for granted. -/
def deref {α : Type} (x : Option α) : Except Stop α :=
  match x with
  | some a => .ok a
  | none => .error .assertFailed

@[simp] theorem deref_eq_ok {α : Type} {x : Option α} {a : α} : deref x = .ok a ↔ x = some a := by
  cases x <;> simp [deref]

/-- `splitRequest`: the size of the low part of a request that crosses the end of a cache line. -/
def splitRequest (p : Params) (a : Access) : Option Nat :=
  let splitAddr := (a.vaddr + a.size - 1) / p.cacheLineSize * p.cacheLineSize
  if p.hasUnalignedMemAcc && decide (splitAddr > a.vaddr) then some (splitAddr - a.vaddr) else none

namespace LSQUnit
variable (p : Params) (phys : Nat → Nat)

/-! ## Insertion -/

def insertLoad (u : LSQUnit) (seqNum : Nat) : Except Stop LSQUnit := do
  require (ringNext p.lqEntries u.loadTail != u.loadHead)
  require (decide (u.loads < p.lqEntries))
  let inst : DynInst :=
    { seqNum := seqNum, lqIdx := u.loadTail, sqIdx := if u.stores = 0 then none else some u.storeTail }
  pure { u with
    loadQueue := update u.loadQueue u.loadTail (some inst)
    loadTail := ringNext p.lqEntries u.loadTail
    loads := u.loads + 1 }

def insertStore (u : LSQUnit) (seqNum : Nat) : Except Stop LSQUnit := do
  require (ringNext p.sqEntries u.storeTail != u.storeHead)
  require (decide (u.stores < p.sqEntries))
  let inst : DynInst := { seqNum := seqNum, lqIdx := u.loadTail, sqIdx := some u.storeTail }
  pure { u with
    storeQueue := update u.storeQueue u.storeTail (some { inst := inst })
    storeTail := ringNext p.sqEntries u.storeTail
    stores := u.stores + 1 }

/-! ## Loads -/

/-- How much of a request the data of a store has. -/
inductive Coverage where
  | all | part | nothing
  deriving DecidableEq

def coverage (a : Access) (e : SQEntry) : Coverage :=
  let storeHasLowerLimit := decide (a.vaddr ≥ e.inst.effAddr)
  let storeHasUpperLimit := decide (add64 a.vaddr a.size ≤ add64 e.inst.effAddr e.size)
  let lowerLoadHasStorePart := decide (a.vaddr < add64 e.inst.effAddr e.size)
  let upperLoadHasStorePart := decide (add64 a.vaddr a.size > e.inst.effAddr)
  if storeHasLowerLimit && storeHasUpperLimit then .all
  else if (storeHasLowerLimit && lowerLoadHasStorePart) || (storeHasUpperLimit && upperLoadHasStorePart) ||
      (lowerLoadHasStorePart && upperLoadHasStorePart) then .part
  else .nothing

/-- The store that decides what a load gets. -/
inductive Found where
  | none
  | forward (e : SQEntry)
  | part (e : SQEntry)

/-- "Check the SQ for any previous stores that might lead to forwarding". -/
def searchStores (u : LSQUnit) (a : Access) : Nat → Nat → Except Stop Found
  | 0, _ => .error .outOfFuel
  | fuel + 1, storeIdx =>
    if storeIdx = u.storeWBIdx then .ok .none
    else do
      let storeIdx := ringPrev p.sqEntries storeIdx
      let e ← deref (u.storeQueue storeIdx)
      if e.size = 0 then searchStores u a fuel storeIdx
      else do
        require e.inst.effAddrValid
        match coverage a e with
        | .all => pure (.forward e)
        | .part => pure (.part e)
        | .nothing => searchStores u a fuel storeIdx

/-- The search of a load; without an index there was no older store. -/
def findStore (u : LSQUnit) (a : Access) (load : DynInst) : Except Stop Found :=
  match load.sqIdx with
  | none => .ok .none
  | some storeIdx => u.searchStores p a (p.sqEntries + 1) storeIdx

/-- No older load has to wait for a store. -/
def mustStall (u : LSQUnit) (load : DynInst) : Except Stop Bool :=
  if u.stalled then do
    let stalling ← deref (u.loadQueue u.stallingLoadIdx)
    pure (decide (load.seqNum < stalling.seqNum))
  else .ok true

/-- "Must stall load and force it to retry, so long as it's the oldest load that needs to do so." -/
def stall (u : LSQUnit) (e : SQEntry) (load : DynInst) (loadIdx : Nat) : Except Stop LSQUnit :=
  if e.completed then .error (.fatal "Should not check one of these")
  else do
    let oldest ← u.mustStall load
    pure (if oldest then { u with stalled := true, stallingStoreIsn := e.inst.seqNum, stallingLoadIdx := loadIdx } else u)

/-- The data that a load gets. -/
def setData (u : LSQUnit) (loadIdx : Nat) (load : DynInst) (data : Nat → UInt8) : LSQUnit :=
  { u with loadQueue := update u.loadQueue loadIdx (some { load with executed := true, memData := data }) }

/-- "If there's no forwarding case, then go access memory": the cache may take all parts of the request or not. -/
def readCache (u : LSQUnit) (a : Access) (loadIdx : Nat) (load : DynInst) : LSQUnit :=
  let first := u.dcache.takes
  let u := { u with usedPorts := u.usedPorts + 1, dcache := u.dcache.next }
  let data := fun i => u.dcache.memory (phys (a.vaddr + i))
  if !first then u
  else if (splitRequest p a).isSome then
    let second := u.dcache.takes
    let u := { u with usedPorts := u.usedPorts + 1, dcache := u.dcache.next }
    if second then u.setData loadIdx load data else u
  else u.setData loadIdx load data

/-- `read`. -/
def read (u : LSQUnit) (a : Access) (loadIdx : Nat) : Except Stop LSQUnit := do
  let load ← deref (u.loadQueue loadIdx)
  require (!load.executed)
  match ← u.findStore p a load with
  | .forward e =>
    let shiftAmt := a.vaddr - e.inst.effAddr
    if !e.isAllZeros && decide (shiftAmt + a.size > 16) then .error .outOfRange
    else pure (u.setData loadIdx load fun i => if e.isAllZeros then 0 else e.data (shiftAmt + i))
  | .part e => u.stall e load loadIdx
  | .none => pure (u.readCache p phys a loadIdx load)

/-- `executeLoad`, with `readMem`. -/
def executeLoad (u : LSQUnit) (loadIdx : Nat) (a : Access) : Except Stop LSQUnit := do
  let load ← deref (u.loadQueue loadIdx)
  let load := { load with effAddr := a.vaddr, effSize := toByte a.size, effAddrValid := true }
  read p phys { u with loadQueue := update u.loadQueue loadIdx (some load) } a loadIdx

/-! ## Stores -/

/-- The ranges of two instructions meet in a granule. -/
def clashes (inst load : DynInst) : Bool :=
  let instEffAddr1 := inst.effAddr >>> p.depCheckShift
  let instEffAddr2 := inst.lastByte >>> p.depCheckShift
  let ldEffAddr1 := load.effAddr >>> p.depCheckShift
  let ldEffAddr2 := load.lastByte >>> p.depCheckShift
  load.effAddrValid && decide (instEffAddr2 ≥ ldEffAddr1) && decide (instEffAddr1 ≤ ldEffAddr2)

/-- `checkViolations` for a store. -/
def checkViolations (u : LSQUnit) (inst : DynInst) : Nat → Nat → Except Stop LSQUnit
  | 0, _ => .error .outOfFuel
  | fuel + 1, loadIdx =>
    if loadIdx = u.loadTail then .ok u
    else do
      let load ← deref (u.loadQueue loadIdx)
      if clashes p inst load then
        -- "Check if we already have a violator, or if it's newer squash and refetch."
        if u.memDepViolator.any fun v => decide (load.seqNum > v) then pure u
        else pure { u with memDepViolator := some load.seqNum }
      else checkViolations u inst fuel (ringNext p.lqEntries loadIdx)

/-- `write`. -/
def write (e : SQEntry) (w : Write) : Except Stop SQEntry := do
  require (decide (w.size ≤ 16) || w.zero)
  pure { e with
    inst := { e.inst with effAddr := w.vaddr, effSize := toByte w.size, effAddrValid := true }
    size := toByte w.size
    sreqLow := splitRequest p w.toAccess
    isAllZeros := w.zero
    data := if w.zero then e.data else fun i => if i < w.size then w.data i else e.data i }

/-- `initiateAcc`: a store whose predicate is false writes nothing. -/
def initiateAcc (e : SQEntry) : Option Write → Except Stop SQEntry
  | some w => write p e w
  | none => .ok e

/-- `executeStore`. Execution marks the store as executed, and issues it once. -/
def executeStore (u : LSQUnit) (storeIdx : Nat) (w : Option Write) : Except Stop LSQUnit := do
  require (u.stores != 0)
  let e ← deref (u.storeQueue storeIdx)
  require (!e.inst.executed)
  let e ← initiateAcc p e w
  let e := { e with inst := { e.inst with executed := true } }
  let u := { u with storeQueue := update u.storeQueue storeIdx (some e) }
  if e.size = 0 then pure u else u.checkViolations p e.inst (p.lqEntries + 1) e.inst.lqIdx

/-! ## Commit -/

/-- `commitLoads`, by the number of loads. -/
def commitLoads (youngestInst : Nat) : Nat → LSQUnit → Except Stop LSQUnit
  | 0, u => .ok u
  | loads + 1, u => do
    let load ← deref (u.loadQueue u.loadHead)
    if load.seqNum ≤ youngestInst then
      commitLoads youngestInst loads { u with
        loadQueue := update u.loadQueue u.loadHead none
        loadHead := ringNext p.lqEntries u.loadHead
        loads := loads }
    else pure u

/-- `commitStores` from an entry on. -/
def commitStores (youngestInst : Nat) : Nat → Nat → LSQUnit → Except Stop LSQUnit
  | 0, _, _ => .error .outOfFuel
  | fuel + 1, storeIdx, u =>
    if storeIdx = u.storeTail then .ok u
    else do
      let e ← deref (u.storeQueue storeIdx)
      if e.canWB then commitStores youngestInst fuel (ringNext p.sqEntries storeIdx) u
      else if e.inst.seqNum > youngestInst then pure u
      else commitStores youngestInst fuel (ringNext p.sqEntries storeIdx) { u with
        storeQueue := update u.storeQueue storeIdx (some { e with canWB := true })
        storesToWB := u.storesToWB + 1 }

/-! ## Writing back -/

/-- A store no longer stalls the queue. -/
def unstall (u : LSQUnit) (e : SQEntry) : LSQUnit :=
  if u.stalled && u.stallingStoreIsn == e.inst.seqNum then { u with stalled := false, stallingStoreIsn := 0 } else u

/-- `storePostSend`. -/
def storePostSend (u : LSQUnit) : Except Stop LSQUnit := do
  let e ← deref (u.storeQueue u.storeWBIdx)
  let u := u.unstall e
  pure { u with
    storeInFlight := u.storeInFlight || p.needsTSO
    storeWBIdx := ringNext p.sqEntries u.storeWBIdx }

/-- The stores at the head that are complete leave. -/
def popCompleted : Nat → LSQUnit → LSQUnit
  | 0, u => u
  | stores + 1, u =>
    let u := { u with storeHead := ringNext p.sqEntries u.storeHead, stores := stores }
    if (u.storeQueue u.storeHead).any (·.completed) && u.storeHead != u.storeTail then popCompleted stores u else u

/-- `completeStore`. -/
def completeStore (u : LSQUnit) (storeIdx : Nat) : Except Stop LSQUnit := do
  let e ← deref (u.storeQueue storeIdx)
  let u := { u with
    storeQueue := update u.storeQueue storeIdx (some { e with completed := true })
    storesToWB := u.storesToWB - 1 }
  let u := if storeIdx = u.storeHead then popCompleted p u.stores u else u
  let u := u.unstall e
  pure { u with storeInFlight := u.storeInFlight && !p.needsTSO }

/-- `sendStore`; `rest` is the packet that is to be sent after one that the cache does not take. -/
def sendStore (u : LSQUnit) (pkt : Packet) (rest : Option Packet) : Except Stop (LSQUnit × Bool) := do
  let dcache := u.dcache.next
  if u.dcache.takes then pure ({ u with dcache := { dcache with memory := pkt.put phys dcache.memory } }, true)
  else do
    require u.retryPkt.isNone
    pure ({ u with dcache := dcache, isStoreBlocked := true, retryPkt := some (pkt, rest) }, false)

/-- `if (sendStore(pkt)) storePostSend(pkt)`. -/
def sendLast (u : LSQUnit) (pkt : Packet) : Except Stop LSQUnit := do
  let (u, sent) ← u.sendStore phys pkt none
  if sent then u.storePostSend p else pure u

/-- `writebackPendingStore`. -/
def writebackPendingStore (u : LSQUnit) : Except Stop LSQUnit :=
  match u.pendingPkt with
  | some pkt => sendLast p phys { u with pendingPkt := none } pkt
  | none => .ok u

/-- The bytes that a store writes. -/
def storeData (e : SQEntry) (i : Nat) : UInt8 := if e.isAllZeros then 0 else e.data i

/-- The packets of a store. -/
def packet (e : SQEntry) : Packet := { addr := e.inst.effAddr, size := e.size, data := storeData e }

def lowPacket (e : SQEntry) (low : Nat) : Packet := { packet e with size := low }

def highPacket (e : SQEntry) (low : Nat) : Packet :=
  { addr := e.inst.effAddr + low, size := e.size - low, data := fun i => storeData e (low + i) }

/-- A store goes to the cache. -/
def writebackStore (u : LSQUnit) (e : SQEntry) : Except Stop LSQUnit := do
  let u := { u with usedPorts := u.usedPorts + 1 }
  require (!e.committed)
  let u := { u with storeQueue := update u.storeQueue u.storeWBIdx (some { e with committed := true }) }
  match e.sreqLow with
  | none => u.sendLast p phys (packet e)
  | some low => do
    let (u, sent) ← u.sendStore phys (lowPacket e low) (some (highPacket e low))
    if !sent then pure u
    else if u.usedPorts < p.cachePorts then
      sendLast p phys { u with usedPorts := u.usedPorts + 1 } (highPacket e low)
    else do
      -- "Store the packet for when there's free ports."
      require u.pendingPkt.isNone
      pure { u with pendingPkt := some (highPacket e low) }

/-- The loop of `writebackStores`. -/
def writebackLoop : Nat → LSQUnit → Except Stop LSQUnit
  | 0, _ => .error .outOfFuel
  | fuel + 1, u =>
    match u.storeQueue u.storeWBIdx with
    | none => .ok u
    | some e =>
      if u.storesToWB > 0 && u.storeWBIdx != u.storeTail && e.canWB && (!p.needsTSO || !u.storeInFlight) &&
          decide (u.usedPorts < p.cachePorts) && !u.isStoreBlocked then
        -- "Store didn't write any data so no need to write it back to memory."
        if e.size = 0 then do
          let u ← u.completeStore p u.storeWBIdx
          writebackLoop fuel { u with storeWBIdx := ringNext p.sqEntries u.storeWBIdx }
        else do
          let u ← u.writebackStore p phys e
          writebackLoop fuel u
      else .ok u

/-- `writebackStores`. -/
def writebackStores (u : LSQUnit) : Except Stop LSQUnit := do
  let u ← u.writebackPendingStore p phys
  let u ← writebackLoop p phys (p.sqEntries + 1) u
  pure { u with usedPorts := 0 }

/-- `recvRetry`. -/
def recvRetry (u : LSQUnit) : Except Stop LSQUnit :=
  if !u.isStoreBlocked then .ok u
  else do
    let (pkt, rest) ← deref u.retryPkt
    let dcache := u.dcache.next
    if !u.dcache.takes then pure { u with dcache := dcache }
    else
      let u := { u with
        dcache := { dcache with memory := pkt.put phys dcache.memory }
        retryPkt := none
        isStoreBlocked := false }
      match rest with
      | none => u.storePostSend p
      | some rest => u.sendLast p phys rest

/-- `completeDataAccess` for a store: the cache answers when all its parts were sent, once. -/
def storeResponse (u : LSQUnit) (storeIdx : Nat) : Except Stop LSQUnit := do
  let e ← deref (u.storeQueue storeIdx)
  require (e.committed && !e.completed && storeIdx != u.storeWBIdx)
  u.completeStore p storeIdx

/-! ## Squashes -/

/-- The loop of `squash` over the loads, by their number. -/
def squashLoads (squashedNum : Nat) : Nat → LSQUnit → Except Stop LSQUnit
  | 0, u => .ok u
  | loads + 1, u => do
    let loadIdx := ringPrev p.lqEntries u.loadTail
    let load ← deref (u.loadQueue loadIdx)
    if load.seqNum > squashedNum then
      let u := if u.stalled && loadIdx == u.stallingLoadIdx then
          { u with stalled := false, stallingStoreIsn := 0, stallingLoadIdx := 0 }
        else u
      squashLoads squashedNum loads { u with
        loadQueue := update u.loadQueue loadIdx none
        loads := loads
        loadTail := loadIdx }
    else pure u

/-- The loop of `squash` over the stores, by their number. -/
def squashStores (squashedNum : Nat) : Nat → LSQUnit → Except Stop LSQUnit
  | 0, u => .ok u
  | stores + 1, u => do
    let storeIdx := ringPrev p.sqEntries u.storeTail
    let e ← deref (u.storeQueue storeIdx)
    -- "Instructions marked as can WB are already committed."
    if e.inst.seqNum > squashedNum && !e.canWB then
      if u.stalled && e.inst.seqNum == u.stallingStoreIsn then
        .error (.fatal "Is stalled should have been cleared by stalling load!")
      else squashStores squashedNum stores { u with
        storeQueue := update u.storeQueue storeIdx none
        stores := stores
        storeTail := storeIdx }
    else pure u

/-- `squash`. -/
def squash (u : LSQUnit) (squashedNum : Nat) : Except Stop LSQUnit := do
  let u ← squashLoads p squashedNum u.loads u
  let u := if u.memDepViolator.any fun v => decide (squashedNum < v) then { u with memDepViolator := none } else u
  squashStores p squashedNum u.stores u

end LSQUnit

end Gem5.Cpu.LSQ
