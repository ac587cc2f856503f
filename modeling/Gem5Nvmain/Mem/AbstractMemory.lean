import Gem5Nvmain.Mem.Packet
import Gem5Nvmain.Mem.XBarRanges

/- A memory and its load-locked reservations (mem/abstract_mem.cc).

  A byte of the memory is found by its physical address. `access` also tells whether bytes of the memory were written:
  the memory does not keep that. The host is little endian. Left out: a memory without storage (`null`), the traces
  and the statistics, and the processor that is woken up when it loses its reservation. -/
namespace Gem5.Mem
open Lib

/-- `req->contextId()`. -/
def Request.context (req : Request) : Except Stop Nat :=
  match req.contextId with
  | some c => pure c
  | none => .error .assertFailed

structure LockedAddr where
  addr : Nat
  contextId : Nat
  deriving DecidableEq, Repr

/-- The granule of an address has 16 bytes. -/
def LockedAddr.mask (paddr : Nat) : Nat := paddr / 16 * 16

structure AbstractMemory where
  range : AddrRange
  lockedAddrList : List LockedAddr := []
  /-- the bytes from `pmemAddr` on -/
  mem : Nat → Byte

def readBytes (mem : Nat → Byte) (a size : Nat) : List Byte := (List.range size).map fun i => mem (a + i)

def writeBytes (mem : Nat → Byte) (a size : Nat) (data : List Byte) : Nat → Byte :=
  fun x => if a ≤ x ∧ x < a + size then data.getD (x - a) 0 else mem x

namespace AbstractMemory

def trackLoadLocked (m : AbstractMemory) (pkt : Packet) : Except Stop AbstractMemory := do
  let paddr := LockedAddr.mask pkt.req.paddr
  let c ← pkt.req.context
  match m.lockedAddrList.findIdx? (·.contextId == c) with
  -- the record of this context gets the new address
  | some i => pure { m with lockedAddrList := m.lockedAddrList.set i { addr := paddr, contextId := c } }
  | none => pure { m with lockedAddrList := { addr := paddr, contextId := c } :: m.lockedAddrList }

/-- The loop over the list for a store-conditional. -/
def findLock (req : Request) (paddr : Nat) : List LockedAddr → Except Stop Bool
  | [] => pure false
  | i :: rest =>
    if i.addr = paddr then do
      let c ← req.context
      if i.contextId = c then pure true else findLock req paddr rest
    else findLock req paddr rest

def setExtraData (pkt : Packet) (extraData : BitVec 64) : Packet := { pkt with req := { pkt.req with extraData := extraData } }

def checkLockedAddrList (m : AbstractMemory) (pkt : Packet) : Except Stop (Bool × Packet × AbstractMemory) := do
  let paddr := LockedAddr.mask pkt.req.paddr
  let allowStore ← if pkt.isLLSC then findLock pkt.req paddr m.lockedAddrList else pure true
  let pkt := if pkt.isLLSC then setExtraData pkt (if allowStore then 1 else 0) else pkt
  if allowStore then pure (true, pkt, { m with lockedAddrList := m.lockedAddrList.filter (·.addr ≠ paddr) })
  else pure (false, pkt, m)

def writeOK (m : AbstractMemory) (pkt : Packet) : Except Stop (Bool × Packet × AbstractMemory) :=
  if m.lockedAddrList = [] then pure (!pkt.isLLSC, if pkt.isLLSC then setExtraData pkt 0 else pkt, m)
  else m.checkLockedAddrList pkt

/-- Whether a swap writes the memory. -/
def overwrite_mem (m : AbstractMemory) (pkt : Packet) : Except Stop Bool :=
  if pkt.req.isCondSwap then
    if pkt.size = 8 ∨ pkt.size = 4 then
      pure ((List.range pkt.size).map (fun i => (pkt.req.extraData >>> (8 * i)).setWidth 8) == readBytes m.mem pkt.addr pkt.size)
    else .error (.fatal "Invalid size for conditional read/write\n")
  else pure true

structure Access where
  pkt : Packet
  memory : AbstractMemory
  /-- bytes of the memory were written -/
  wrote : Bool

/-- What happens to the packet and the memory before the response is made. -/
def perform (m : AbstractMemory) (pkt : Packet) : Except Stop Access :=
  if pkt.cmd = .swapReq then do
    require (decide (8 ≥ pkt.size))
    let overwrite ← m.overwrite_mem pkt
    let old := readBytes m.mem pkt.addr pkt.size
    let mem := if overwrite then writeBytes m.mem pkt.addr pkt.size pkt.data else m.mem
    require (!pkt.req.isInstFetch)
    pure { pkt := { pkt with data := old }, memory := { m with mem := mem }, wrote := overwrite }
  else if pkt.isRead then do
    require (!pkt.isWrite)
    let m ← if pkt.isLLSC then m.trackLoadLocked pkt else pure m
    pure { pkt := { pkt with data := readBytes m.mem pkt.addr pkt.size }, memory := m, wrote := false }
  else if pkt.isWrite then do
    let (ok, pkt, m) ← m.writeOK pkt
    if ok then do
      require (!pkt.req.isInstFetch)
      pure { pkt := pkt, memory := { m with mem := writeBytes m.mem pkt.addr pkt.size pkt.data }, wrote := true }
    else pure { pkt := pkt, memory := m, wrote := false }
  else if pkt.isInvalidate then pure { pkt := pkt, memory := m, wrote := false }
  else .error (.fatal "unimplemented")

def access (m : AbstractMemory) (pkt : Packet) : Except Stop Access := do
  require (← (AddrRange.RangeIn pkt.addr (pkt.addr + pkt.size - 1)).isSubset m.range)
  if pkt.memInhibitAsserted then pure { pkt := pkt, memory := m, wrote := false }
  else do
    let a ← m.perform pkt
    if a.pkt.needsResponse then do
      let pkt ← a.pkt.makeTimingResponse
      pure { a with pkt := pkt }
    else pure a

end AbstractMemory

end Gem5.Mem
