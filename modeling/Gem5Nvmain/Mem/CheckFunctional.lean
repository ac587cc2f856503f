import Gem5Nvmain.Lib.Blit
import Gem5Nvmain.Mem.Packet

/- Functional accesses to buffered data (mem/packet.cc, mem/packet_queue.cc).

  A functional packet is checked against every place where the data of its addresses may be held: the packets of a
  queue, a block, a memory. A read collects the bytes it finds, a write updates the bytes it meets. What a packet has
  found so far is the range `bytesValidStart .. bytesValidEnd-1` of its data, two 16-bit fields; offsets are computed
  as 32-bit signed numbers (`int32`).

  A functional packet carries the array of its data from the start (its senders use `dataStatic`), so `allocate` finds
  it there. The object that a print request prints is left out. -/
namespace Gem5.Mem
open Lib

/-- A packet with the range of bytes found for a functional read. -/
structure FunctionalPacket extends Packet where
  bytesValidStart : Nat := 0
  bytesValidEnd : Nat := 0
  deriving DecidableEq, Repr

/-- The arguments of `checkFunctional`; `data` is `none` for a null pointer. -/
structure Buffer where
  addr : Nat
  isSecure : Bool
  size : Nat
  data : Option (List Byte)
  deriving DecidableEq, Repr

/-- A 64-bit difference stored in an `int`. -/
def int32 (x : Int) : Int := (x + 2 ^ 31) % 2 ^ 32 - 2 ^ 31

def uint16 (x : Int) : Nat := (x % 2 ^ 16).toNat

/-- `addr + size - 1`, in 64 bits. -/
def lastAddr (addr size : Nat) : Nat := (addr + size + (2 ^ 64 - 1)) % 2 ^ 64

def Packet.isPrint (p : Packet) : Bool := p.cmd.testCmdAttrib .isPrint

/-- `cmdString`: the names of the command table. -/
def MemCmd.cmdString : MemCmd → String
  | .invalidCmd => "InvalidCmd"
  | .readReq => "ReadReq"
  | .readResp => "ReadResp"
  | .readRespWithInvalidate => "ReadRespWithInvalidate"
  | .writeReq => "WriteReq"
  | .writeResp => "WriteResp"
  | .writeback => "Writeback"
  | .softPFReq => "SoftPFReq"
  | .hardPFReq => "HardPFReq"
  | .softPFResp => "SoftPFResp"
  | .hardPFResp => "HardPFResp"
  | .writeInvalidateReq => "WriteInvalidateReq"
  | .writeInvalidateResp => "WriteInvalidateResp"
  | .upgradeReq => "UpgradeReq"
  | .scUpgradeReq => "SCUpgradeReq"
  | .upgradeResp => "UpgradeResp"
  | .scUpgradeFailReq => "SCUpgradeFailReq"
  | .upgradeFailResp => "UpgradeFailResp"
  | .readExReq => "ReadExReq"
  | .readExResp => "ReadExResp"
  | .loadLockedReq => "LoadLockedReq"
  | .storeCondReq => "StoreCondReq"
  | .storeCondFailReq => "StoreCondFailReq"
  | .storeCondResp => "StoreCondResp"
  | .swapReq => "SwapReq"
  | .swapResp => "SwapResp"
  | .messageReq => "MessageReq"
  | .messageResp => "MessageResp"
  | .invalidDestError => "InvalidDestError"
  | .badAddressError => "BadAddressError"
  | .functionalReadError => "FunctionalReadError"
  | .functionalWriteError => "FunctionalWriteError"
  | .printReq => "PrintReq"
  | .flushReq => "FlushReq"
  | .invalidationReq => "InvalidationReq"
  | .recordResp => "RecordResp"

namespace FunctionalPacket

/-- Where a partial overlap lies: the offset into the buffer, the offset into the packet and the size. -/
def partialOverlap (func_start func_end val_start val_end : Nat) (size : Int) : Except Stop (Int × Int × Int) :=
  if val_start < func_start ∧ val_end ≤ func_end then
    .ok (int32 ((func_start : Int) - val_start), 0, int32 ((val_end : Int) - func_start))
  else if val_start ≥ func_start ∧ val_end > func_end then
    .ok (0, int32 ((val_start : Int) - func_start), int32 ((func_end : Int) - val_start))
  else if val_start ≥ func_start ∧ val_end ≤ func_end then
    .ok (0, int32 ((val_start : Int) - func_start), size)
  else .error (.fatal "BUG: Missed a case for a partial functional request")

/-- Copy the found bytes, and tell whether the packet is complete. -/
def copyFound (p : FunctionalPacket) (data : List Byte) (val_offset func_offset overlap_size : Int) :
    Except Stop (FunctionalPacket × Bool) := do
  require (decide (p.bytesValidEnd ≤ p.size))
  let bytes ← memcpy p.data func_offset data val_offset overlap_size
  pure ({ p with data := bytes }, p.bytesValidStart == 0 && p.bytesValidEnd == p.size)

/-- Merge an overlap with the range found so far, without overwriting what was found. -/
def mergeFound (p : FunctionalPacket) (data : List Byte) (val_offset func_offset overlap_size : Int) :
    Except Stop (FunctionalPacket × Bool) :=
  let start : Int := p.bytesValidStart
  let stop : Int := p.bytesValidEnd
  if p.bytesValidStart == 0 && p.bytesValidEnd == 0 then
    copyFound { p with bytesValidStart := uint16 func_offset, bytesValidEnd := uint16 (func_offset + overlap_size) }
      data val_offset func_offset overlap_size
  else
    let a := func_offset - start
    let b := func_offset + overlap_size - stop
    let c := func_offset - stop
    let d := func_offset + overlap_size - start
    if a ≥ 0 ∧ b ≤ 0 then
      -- the bytes already found are a superset
      copyFound p data val_offset func_offset 0
    else if a < 0 ∧ d ≥ 0 ∧ b ≤ 0 then
      copyFound { p with bytesValidStart := uint16 func_offset } data val_offset func_offset (start - func_offset)
    else if b > 0 ∧ c ≤ 0 ∧ a ≥ 0 then
      copyFound { p with bytesValidEnd := uint16 (stop + b) } data (val_offset + (stop - func_offset)) stop b
    else if a < 0 ∧ b > 0 then do
      -- the first part, in front of what was found, and then the part behind it
      let bytes ← memcpy p.data func_offset data val_offset (start - func_offset)
      copyFound { p with data := bytes, bytesValidStart := uint16 func_offset, bytesValidEnd := uint16 (stop + b) }
        data (val_offset + (stop - func_offset)) stop b
    else if (c > 0 ∧ b > 0) ∨ (a < 0 ∧ d < 0) then
      .error (.fatal "BUG: Discontiguous bytes foundfor functional copying!")
    else copyFound p data val_offset func_offset overlap_size

/-- The read of `checkFunctional`. -/
def readFunctional (p : FunctionalPacket) (b : Buffer) (data : List Byte) : Except Stop (FunctionalPacket × Bool) :=
  let func_start := p.addr
  let func_end := lastAddr p.addr p.size
  let val_start := b.addr
  let val_end := lastAddr b.addr b.size
  if func_start ≥ val_start ∧ func_end ≤ val_end then do
    let bytes ← memcpy p.data 0 data (int32 ((func_start : Int) - val_start)) p.size
    pure ({ p with data := bytes }, true)
  else do
    let (val_offset, func_offset, overlap_size) ← partialOverlap func_start func_end val_start val_end b.size
    p.mergeFound data val_offset func_offset overlap_size

/-- The write of `checkFunctional`: the buffer's bytes afterwards. -/
def writeFunctional (p : FunctionalPacket) (b : Buffer) (data : List Byte) : Except Stop (List Byte) :=
  let func_start := p.addr
  let last := min (lastAddr p.addr p.size) (lastAddr b.addr b.size)
  let offset := int32 ((func_start : Int) - b.addr)
  if offset ≥ 0 then memcpy data offset p.data 0 ((last : Int) - func_start + 1)
  else memcpy data 0 p.data (-offset) ((last : Int) - b.addr + 1)

/-- `checkFunctional`: the packet and the buffer's data afterwards, and whether the access is complete. -/
def checkFunctional (p : FunctionalPacket) (b : Buffer) :
    Except Stop (FunctionalPacket × Option (List Byte) × Bool) :=
  if b.isSecure != p.isSecure || decide (p.addr > lastAddr b.addr b.size) ||
      decide (b.addr > lastAddr p.addr p.size) then .ok (p, b.data, false)
  else if p.isPrint then .ok (p, b.data, false)
  else
    match b.data with
    | none => .ok (p, none, false)
    | some data =>
      if p.isRead then do
        let (p, done) ← p.readFunctional b data
        pure (p, some data, done)
      else if p.isWrite then do
        let data ← p.writeFunctional b data
        pure (p, some data, false)
      else .error (.fatal ("Don't know how to handle command " ++ p.cmd.cmdString ++ "\n"))

end FunctionalPacket

/-- `checkFunctional(other)`: the buffer of a packet in transit. -/
def Packet.buffer (other : Packet) : Buffer :=
  { addr := other.addr
    isSecure := other.isSecure
    size := other.size
    data := if other.hasData then some other.data else none }

/-- `PacketQueue::checkFunctional`: the packets of the queue in order, until the access is complete. -/
def PacketQueue.checkFunctional (p : FunctionalPacket) :
    List Packet → Except Stop (FunctionalPacket × List Packet × Bool)
  | [] => .ok (p, [], false)
  | other :: transmitList => do
    let (p, data, found) ← p.checkFunctional other.buffer
    let other := { other with data := data.getD other.data }
    if found then pure (p, other :: transmitList, true)
    else
      let (p, rest, found) ← PacketQueue.checkFunctional p transmitList
      pure (p, other :: rest, found)

end Gem5.Mem
