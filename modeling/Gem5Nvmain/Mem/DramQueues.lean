import Gem5Nvmain.Lib.Chunks
import Gem5Nvmain.Mem.AbstractMemory

/- The queues of a DRAM controller (mem/dram_ctrl.cc).

  A packet from outside has a number, which stands for its pointer. Burst helpers are known by their place in
  `helpers`, where a deleted one is `none`. `responses` has the calls of `accessAndRespond`. Addresses have 64 bits,
  sizes 32. Left out: the banks, the times, the events and the refreshes. They decide which burst is served next, and
  when; here any burst can be the next one (`serveRead`, `serveWrite`). -/
namespace Gem5.Mem
open Lib

/-- `Enums::AddrMap`. -/
inductive AddrMap where
  | RoRaBaChCo
  | RoRaBaCoCh
  | RoCoRaBaCh
  deriving DecidableEq, Repr

/-- The parameters of a controller. -/
structure DRAMCtrl where
  burstSize : Nat
  columnsPerRowBuffer : Nat
  columnsPerStripe : Nat
  ranksPerChannel : Nat
  banksPerRank : Nat
  channels : Nat
  rowsPerBank : Nat
  readBufferSize : Nat
  writeBufferSize : Nat
  addrMapping : AddrMap
  frontendLatency : Nat
  backendLatency : Nat

structure PacketPtr where
  id : Nat
  packet : Packet
  deriving DecidableEq, Repr

structure BurstHelper where
  burstCount : Nat
  burstsServiced : Nat
  deriving DecidableEq, Repr

structure DRAMPacket where
  pkt : PacketPtr
  isRead : Bool
  rank : Nat
  bank : Nat
  row : Nat
  bankId : Nat
  addr : Nat
  size : Nat
  burstHelper : Option Nat := none
  deriving DecidableEq, Repr

structure Response where
  pkt : PacketPtr
  static_latency : Nat
  /-- the packet goes back to the requester -/
  needsResponse : Bool
  deriving DecidableEq, Repr

structure DramQueues where
  memory : AbstractMemory
  readQueue : List DRAMPacket := []
  writeQueue : List DRAMPacket := []
  respQueue : List DRAMPacket := []
  helpers : List (Option BurstHelper) := []
  responses : List Response := []
  retryRdReq : Bool := false
  retryWrReq : Bool := false

def add64 (a b : Nat) : Nat := (a + b) % 2 ^ 64
def sub64 (a b : Nat) : Nat := (a + (2 ^ 64 - b)) % 2 ^ 64

def divide (a b : Nat) : Except Stop Nat := if b = 0 then .error (.fatal "division by zero") else pure (a / b)
def modulo (a b : Nat) : Except Stop Nat := if b = 0 then .error (.fatal "division by zero") else pure (a % b)

namespace DRAMCtrl

/-! ## The mapping of addresses -/

/-- Rank, bank and row of a burst, the first two as `uint8_t`. -/
def mapBurst (p : DRAMCtrl) (addr : Nat) : Except Stop (Nat × Nat × Nat) :=
  match p.addrMapping with
  | .RoRaBaChCo => do
    let addr ← divide addr p.columnsPerRowBuffer
    let addr ← divide addr p.channels
    let bank ← modulo addr p.banksPerRank
    let addr ← divide addr p.banksPerRank
    let rank ← modulo addr p.ranksPerChannel
    let addr ← divide addr p.ranksPerChannel
    let row ← modulo addr p.rowsPerBank
    pure (rank % 256, bank % 256, row)
  | .RoRaBaCoCh => do
    let addr ← divide addr p.columnsPerStripe
    let addr ← divide addr p.channels
    let columns ← divide p.columnsPerRowBuffer p.columnsPerStripe
    let addr ← divide addr columns
    let bank ← modulo addr p.banksPerRank
    let addr ← divide addr p.banksPerRank
    let rank ← modulo addr p.ranksPerChannel
    let addr ← divide addr p.ranksPerChannel
    let row ← modulo addr p.rowsPerBank
    pure (rank % 256, bank % 256, row)
  | .RoCoRaBaCh => do
    let addr ← divide addr p.columnsPerStripe
    let addr ← divide addr p.channels
    let bank ← modulo addr p.banksPerRank
    let addr ← divide addr p.banksPerRank
    let rank ← modulo addr p.ranksPerChannel
    let addr ← divide addr p.ranksPerChannel
    let columns ← divide p.columnsPerRowBuffer p.columnsPerStripe
    let addr ← divide addr columns
    let row ← modulo addr p.rowsPerBank
    pure (rank % 256, bank % 256, row)

def decodeAddr (p : DRAMCtrl) (pkt : PacketPtr) (dramPktAddr size : Nat) (isRead : Bool) : Except Stop DRAMPacket := do
  let (rank, bank, row) ← p.mapBurst (dramPktAddr / p.burstSize)
  require (decide (rank < p.ranksPerChannel))
  require (decide (bank < p.banksPerRank))
  require (decide (row < p.rowsPerBank))
  -- Bank::NO_ROW
  require (decide (row < 2 ^ 32 - 1))
  pure { pkt := pkt, isRead := isRead, rank := rank, bank := bank, row := row, bankId := (p.banksPerRank * rank + bank) % 2 ^ 16,
         addr := dramPktAddr, size := size }

/-! ## The bursts of a packet -/

def nextBurst (p : DRAMCtrl) (addr : Nat) : Nat := add64 (addr ||| (p.burstSize - 1)) 1

/-- Address and size of the rounds of the loops of `addToReadQueue` and `addToWriteQueue`. -/
def bursts (p : DRAMCtrl) (pkt : Packet) : Nat → Nat → List (Nat × Nat)
  | _, 0 => []
  | addr, cnt + 1 =>
    (addr, sub64 (min (p.nextBurst addr) (add64 pkt.addr pkt.size)) addr % 2 ^ 32) :: p.bursts pkt (p.nextBurst addr) cnt

/-- `dram_pkt_count`, with `divCeil` in 32 bits. -/
def dramPktCount (p : DRAMCtrl) (pkt : Packet) : Nat :=
  ((pkt.addr &&& (p.burstSize - 1)) + pkt.size + p.burstSize - 1) % 2 ^ 32 / p.burstSize

end DRAMCtrl

namespace DRAMPacket

/-- The entry after it was merged with a write, if it can be. -/
def absorb (burstSize : Nat) (w : DRAMPacket) (addr size : Nat) : Option DRAMPacket :=
  if w.addr ≥ addr then
    if add64 addr size ≥ add64 w.addr w.size then some { w with addr := addr, size := size }
    else if add64 addr size ≥ w.addr ∧ sub64 (add64 w.addr w.size) addr ≤ burstSize then
      some { w with size := sub64 (add64 w.addr w.size) addr % 2 ^ 32, addr := addr }
    else none
  else
    if add64 w.addr w.size ≥ add64 addr size then some w
    else if add64 w.addr w.size ≥ addr ∧ sub64 (add64 addr size) w.addr ≤ burstSize then
      some { w with size := sub64 (add64 addr size) w.addr % 2 ^ 32 }
    else none

end DRAMPacket

/-- The loop over the write queue: the first entry that can be merged is. -/
def mergeWrite (burstSize addr size : Nat) : List DRAMPacket → Option (List DRAMPacket)
  | [] => none
  | w :: rest =>
    match w.absorb burstSize addr size with
    | some w => some (w :: rest)
    | none => (mergeWrite burstSize addr size rest).map (w :: ·)

/-- A burst that is read is part of an entry. -/
def foundInWrQ (writeQueue : List DRAMPacket) (addr size : Nat) : Bool :=
  writeQueue.any fun i => decide (i.addr ≤ addr) && decide (add64 addr size ≤ add64 i.addr i.size)

namespace DramQueues

def accessAndRespond (s : DramQueues) (pkt : PacketPtr) (static_latency : Nat) : Except Stop DramQueues := do
  let a ← s.memory.access pkt.packet
  require (!pkt.packet.needsResponse || a.pkt.isResponse)
  pure { s with
    memory := a.memory
    responses := s.responses ++ [{ pkt := { pkt with packet := a.pkt }, static_latency := static_latency
                                   needsResponse := pkt.packet.needsResponse }] }

def readQueueFull (s : DramQueues) (p : DRAMCtrl) (neededEntries : Nat) : Bool :=
  decide (s.readQueue.length + s.respQueue.length + neededEntries > p.readBufferSize)

def writeQueueFull (s : DramQueues) (p : DRAMCtrl) (neededEntries : Nat) : Bool :=
  decide (s.writeQueue.length + neededEntries > p.writeBufferSize)

/-! ## Reads -/

/-- The variables of the loop of `addToReadQueue`. -/
structure ReadLoop where
  queues : DramQueues
  burst_helper : Option Nat := none
  pktsServicedByWrQ : Nat := 0

/-- The burst helper for split packets. -/
def ReadLoop.makeHelper (l : ReadLoop) (pktCount : Nat) : ReadLoop :=
  if pktCount > 1 ∧ l.burst_helper = none then
    { l with
      burst_helper := some l.queues.helpers.length
      queues := { l.queues with helpers := l.queues.helpers ++ [some { burstCount := pktCount, burstsServiced := 0 }] } }
  else l

def addReadBurst (p : DRAMCtrl) (pkt : PacketPtr) (pktCount : Nat) (l : ReadLoop) (burst : Nat × Nat) : Except Stop ReadLoop :=
  if foundInWrQ l.queues.writeQueue burst.1 burst.2 then pure { l with pktsServicedByWrQ := l.pktsServicedByWrQ + 1 }
  else do
    let l := l.makeHelper pktCount
    let dram_pkt ← p.decodeAddr pkt burst.1 burst.2 true
    require (!l.queues.readQueueFull p 1)
    pure { l with queues := { l.queues with readQueue := l.queues.readQueue ++ [{ dram_pkt with burstHelper := l.burst_helper }] } }

def addToReadQueue (s : DramQueues) (p : DRAMCtrl) (pkt : PacketPtr) (pktCount : Nat) : Except Stop DramQueues := do
  require (!pkt.packet.isWrite)
  require (pktCount != 0)
  let l ← (p.bursts pkt.packet pkt.packet.addr pktCount).foldlM (addReadBurst p pkt pktCount) { queues := s }
  if l.pktsServicedByWrQ = pktCount then l.queues.accessAndRespond pkt p.frontendLatency
  else
    match l.burst_helper with
    | some h =>
      pure { l.queues with helpers := l.queues.helpers.modify h (Option.map ({ · with burstsServiced := l.pktsServicedByWrQ })) }
    | none => pure l.queues

/-! ## Writes -/

def addWriteBurst (p : DRAMCtrl) (pkt : PacketPtr) (writeQueue : List DRAMPacket) (burst : Nat × Nat) :
    Except Stop (List DRAMPacket) :=
  match mergeWrite p.burstSize burst.1 burst.2 writeQueue with
  | some writeQueue => pure writeQueue
  | none => do
    let dram_pkt ← p.decodeAddr pkt burst.1 burst.2 false
    require (decide (writeQueue.length < p.writeBufferSize))
    pure (writeQueue ++ [dram_pkt])

def addToWriteQueue (s : DramQueues) (p : DRAMCtrl) (pkt : PacketPtr) (pktCount : Nat) : Except Stop DramQueues := do
  require pkt.packet.isWrite
  let writeQueue ← (p.bursts pkt.packet pkt.packet.addr pktCount).foldlM (addWriteBurst p pkt) s.writeQueue
  accessAndRespond { s with writeQueue := writeQueue } pkt p.frontendLatency

/-! ## The interface -/

/-- Whether the packet is accepted. -/
def recvTimingReq (s : DramQueues) (p : DRAMCtrl) (pkt : PacketPtr) : Except Stop (Bool × DramQueues) :=
  -- inhibited packets are dropped
  if pkt.packet.memInhibitAsserted then pure (true, s)
  else
    let dram_pkt_count := p.dramPktCount pkt.packet
    if pkt.packet.isRead then do
      require (pkt.packet.size != 0)
      if s.readQueueFull p dram_pkt_count then pure (false, { s with retryRdReq := true })
      else do
        let s ← s.addToReadQueue p pkt dram_pkt_count
        pure (true, s)
    else if pkt.packet.isWrite then do
      require (pkt.packet.size != 0)
      if s.writeQueueFull p dram_pkt_count then pure (false, { s with retryWrReq := true })
      else do
        let s ← s.addToWriteQueue p pkt dram_pkt_count
        pure (true, s)
    else do
      let s ← s.accessAndRespond pkt 1
      pure (true, s)

/-- The burst of the read is served, from `processRespondEvent`. -/
def burstServiced (s : DramQueues) (p : DRAMCtrl) (dram_pkt : DRAMPacket) : Except Stop DramQueues :=
  match dram_pkt.burstHelper with
  | some h =>
    match s.helpers[h]? with
    | some (some b) =>
      if b.burstsServiced + 1 = b.burstCount then do
        let s ← s.accessAndRespond dram_pkt.pkt (p.frontendLatency + p.backendLatency)
        pure { s with helpers := s.helpers.set h none }
      else pure { s with helpers := s.helpers.set h (some { b with burstsServiced := b.burstsServiced + 1 }) }
    | _ => .error .outOfRange
  | none => s.accessAndRespond dram_pkt.pkt (p.frontendLatency + p.backendLatency)

def processRespondEvent (s : DramQueues) (p : DRAMCtrl) : Except Stop DramQueues :=
  match s.respQueue with
  | [] => .error .outOfRange
  | dram_pkt :: rest => do
    let s ← s.burstServiced p dram_pkt
    pure { s with respQueue := rest, retryRdReq := false }

/-- The end of `processNextReqEvent`. -/
def retryWrites (s : DramQueues) (p : DRAMCtrl) : DramQueues :=
  if s.writeQueue.length < p.writeBufferSize then { s with retryWrReq := false } else s

/-- `processNextReqEvent`, where the read at a place of its queue was chosen. -/
def serveRead (s : DramQueues) (p : DRAMCtrl) (k : Nat) : Except Stop DramQueues := do
  let dram_pkt ← index s.readQueue k
  require (decide (dram_pkt.size ≤ p.burstSize))
  pure (retryWrites { s with readQueue := s.readQueue.eraseIdx k, respQueue := s.respQueue ++ [dram_pkt] } p)

/-- `processNextReqEvent`, where the write at a place of its queue was chosen. -/
def serveWrite (s : DramQueues) (p : DRAMCtrl) (k : Nat) : Except Stop DramQueues := do
  let dram_pkt ← index s.writeQueue k
  require (decide (dram_pkt.size ≤ p.burstSize))
  pure (retryWrites { s with writeQueue := s.writeQueue.eraseIdx k } p)

end DramQueues

/-! ## The controller in its system -/

inductive DramOp where
  | recvTimingReq (packet : Packet)
  | serveRead (k : Nat)
  | serveWrite (k : Nat)
  | processRespondEvent
  deriving DecidableEq, Repr

structure DramSystem where
  queues : DramQueues
  /-- the number of the next packet -/
  arrived : Nat := 0
  /-- the reads that were accepted -/
  reads : List Nat := []
  /-- for each entry of the write queue, the writes that went into it -/
  parts : List (List (Nat × Nat)) := []

namespace DramSystem

/-- The write queue as each burst of a packet finds it. -/
def stages (p : DRAMCtrl) (pkt : PacketPtr) (writeQueue : List DRAMPacket) : List (Nat × Nat) → List (List DRAMPacket × (Nat × Nat))
  | [] => []
  | burst :: rest =>
    (writeQueue, burst) ::
      match DramQueues.addWriteBurst p pkt writeQueue burst with
      | .ok writeQueue => stages p pkt writeQueue rest
      | .error _ => []

/-- The place of the entry that takes a burst. -/
def taker (burstSize : Nat) (writeQueue : List DRAMPacket) (burst : Nat × Nat) : Option Nat :=
  writeQueue.findIdx? fun w => (w.absorb burstSize burst.1 burst.2).isSome

def addPart (burstSize : Nat) (parts : List (List (Nat × Nat))) (stage : List DRAMPacket × (Nat × Nat)) : List (List (Nat × Nat)) :=
  match taker burstSize stage.1 stage.2 with
  | some i => parts.modify i (stage.2 :: ·)
  | none => parts ++ [[stage.2]]

def isReadReq (pkt : Packet) : Bool := !pkt.memInhibitAsserted && pkt.isRead
def isWriteReq (pkt : Packet) : Bool := !pkt.memInhibitAsserted && !pkt.isRead && pkt.isWrite

/-- The bursts of a packet in the order of the loop. -/
def burstsOf (p : DRAMCtrl) (pkt : Packet) : List (Nat × Nat) := p.bursts pkt pkt.addr (p.dramPktCount pkt)

def step (p : DRAMCtrl) (s : DramSystem) : DramOp → Except Stop DramSystem
  | .recvTimingReq packet => do
    let pkt : PacketPtr := { id := s.arrived, packet := packet }
    let (accepted, queues) ← s.queues.recvTimingReq p pkt
    pure {
      queues := queues
      arrived := s.arrived + 1
      reads := if accepted && isReadReq packet then s.reads ++ [s.arrived] else s.reads
      parts :=
        if accepted && isWriteReq packet then
          (stages p pkt s.queues.writeQueue (burstsOf p packet)).foldl (addPart p.burstSize) s.parts
        else s.parts }
  | .serveRead k => do
    let queues ← s.queues.serveRead p k
    pure { s with queues := queues }
  | .serveWrite k => do
    let queues ← s.queues.serveWrite p k
    pure { s with queues := queues, parts := s.parts.eraseIdx k }
  | .processRespondEvent => do
    let queues ← s.queues.processRespondEvent p
    pure { s with queues := queues }

end DramSystem

end Gem5.Mem
