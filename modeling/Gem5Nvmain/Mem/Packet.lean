import Gem5Nvmain.Lib.Exec

/- Packets and their commands (mem/packet.hh, mem/packet.cc, mem/request.hh).

  `commandInfo` is the table of packet.cc: the attributes of each command and the command of its response. A packet
  carries the request it belongs to by value; the cache never shares one request between two packets that it modifies
  differently. Addresses are physical addresses: memory never reaches to the end of the 64-bit space, so an address
  plus a packet size does not wrap around.

  Left out: the routing fields `src` and `dest`, the bus delays, and the ranges of functional reads. -/
namespace Gem5.Mem
open Lib

inductive MemCmd where
  | invalidCmd | readReq | readResp | readRespWithInvalidate | writeReq | writeResp | writeback
  | softPFReq | hardPFReq | softPFResp | hardPFResp | writeInvalidateReq | writeInvalidateResp
  | upgradeReq | scUpgradeReq | upgradeResp | scUpgradeFailReq | upgradeFailResp
  | readExReq | readExResp | loadLockedReq | storeCondReq | storeCondFailReq | storeCondResp
  | swapReq | swapResp | messageReq | messageResp
  | invalidDestError | badAddressError | functionalReadError | functionalWriteError
  | printReq | flushReq | invalidationReq | recordResp
  deriving DecidableEq, Repr

inductive Attribute where
  | isRead | isWrite | isUpgrade | isInvalidate | needsExclusive | isRequest | isResponse
  | needsResponse | isSWPrefetch | isHWPrefetch | isLlsc | hasData | isError | isPrint | isFlush
  deriving DecidableEq, Repr

namespace MemCmd
open Attribute

/-- The attributes of a command and its response. -/
def commandInfo : MemCmd → List Attribute × MemCmd
  | invalidCmd => ([], invalidCmd)
  | readReq => ([isRead, isRequest, needsResponse], readResp)
  | readResp => ([isRead, isResponse, hasData], invalidCmd)
  | readRespWithInvalidate => ([isRead, isResponse, hasData, isInvalidate], invalidCmd)
  | writeReq => ([isWrite, needsExclusive, isRequest, needsResponse, hasData], writeResp)
  | writeResp => ([isWrite, needsExclusive, isResponse], invalidCmd)
  | writeback => ([isWrite, needsExclusive, isRequest, hasData], invalidCmd)
  | softPFReq => ([isRead, isRequest, isSWPrefetch, needsResponse], softPFResp)
  | hardPFReq => ([isRead, isRequest, isHWPrefetch, needsResponse], hardPFResp)
  | softPFResp => ([isRead, isResponse, isSWPrefetch, hasData], invalidCmd)
  | hardPFResp => ([isRead, isResponse, isHWPrefetch, hasData], invalidCmd)
  | writeInvalidateReq =>
    ([isWrite, needsExclusive, isInvalidate, isRequest, hasData, needsResponse], writeInvalidateResp)
  | writeInvalidateResp => ([isWrite, needsExclusive, isResponse], invalidCmd)
  | upgradeReq => ([isInvalidate, needsExclusive, isUpgrade, isRequest, needsResponse], upgradeResp)
  | scUpgradeReq =>
    ([isInvalidate, needsExclusive, isUpgrade, isLlsc, isRequest, needsResponse], upgradeResp)
  | upgradeResp => ([needsExclusive, isUpgrade, isResponse], invalidCmd)
  | scUpgradeFailReq =>
    ([isRead, needsExclusive, isInvalidate, isLlsc, isRequest, needsResponse], upgradeFailResp)
  | upgradeFailResp => ([isRead, needsExclusive, isResponse, hasData], invalidCmd)
  | readExReq => ([isRead, needsExclusive, isInvalidate, isRequest, needsResponse], readExResp)
  | readExResp => ([isRead, needsExclusive, isResponse, hasData], invalidCmd)
  | loadLockedReq => ([isRead, isLlsc, isRequest, needsResponse], readResp)
  | storeCondReq => ([isWrite, needsExclusive, isLlsc, isRequest, needsResponse, hasData], storeCondResp)
  | storeCondFailReq =>
    ([isWrite, needsExclusive, isLlsc, isRequest, needsResponse, hasData], storeCondResp)
  | storeCondResp => ([isWrite, needsExclusive, isLlsc, isResponse], invalidCmd)
  | swapReq => ([isRead, isWrite, needsExclusive, isRequest, hasData, needsResponse], swapResp)
  | swapResp => ([isRead, isWrite, needsExclusive, isResponse, hasData], invalidCmd)
  | messageReq => ([isWrite, isRequest, needsResponse, hasData], messageResp)
  | messageResp => ([isWrite, isResponse], invalidCmd)
  | invalidDestError => ([isResponse, isError], invalidCmd)
  | badAddressError => ([isResponse, isError], invalidCmd)
  | functionalReadError => ([isRead, isResponse, isError], invalidCmd)
  | functionalWriteError => ([isWrite, isResponse, isError], invalidCmd)
  | printReq => ([isRequest, isPrint], invalidCmd)
  | flushReq => ([isRequest, isFlush, needsExclusive], invalidCmd)
  | invalidationReq => ([needsExclusive, isInvalidate, isRequest], invalidCmd)
  | recordResp => ([isRead, isWrite, needsExclusive, isRequest, hasData, needsResponse], swapResp)

def testCmdAttrib (c : MemCmd) (a : Attribute) : Bool := c.commandInfo.1.contains a

def responseCommand (c : MemCmd) : MemCmd := c.commandInfo.2

end MemCmd

abbrev Byte := BitVec 8

/-- The parts of `Request` that the cache reads. `contextId` is `none` when the request has no context. -/
structure Request where
  paddr : Nat
  size : Nat
  masterId : Nat
  contextId : Option Nat := none
  isUncacheable : Bool := false
  isClearLL : Bool := false
  isInstFetch : Bool := false
  isCondSwap : Bool := false
  extraData : BitVec 64 := 0
  deriving DecidableEq, Repr

/-- `Request::wbMasterId`, `Request::funcMasterId` and `Request::invldMasterId`. -/
def wbMasterId : Nat := 0
def funcMasterId : Nat := 1
def invldMasterId : Nat := 65535

structure Packet where
  cmd : MemCmd
  req : Request
  addr : Nat
  size : Nat
  isSecure : Bool := false
  data : List Byte := []
  /-- flag SHARED -/
  sharedAsserted : Bool := false
  /-- flag EXPRESS_SNOOP -/
  isExpressSnoop : Bool := false
  /-- flag SUPPLY_EXCLUSIVE -/
  isSupplyExclusive : Bool := false
  /-- flag MEM_INHIBIT -/
  memInhibitAsserted : Bool := false
  /-- flag PREFETCH_SNOOP_SQUASH -/
  prefetchSquashed : Bool := false
  deriving DecidableEq, Repr

namespace Packet

def isRead (p : Packet) : Bool := p.cmd.testCmdAttrib .isRead
def isWrite (p : Packet) : Bool := p.cmd.testCmdAttrib .isWrite
def isUpgrade (p : Packet) : Bool := p.cmd.testCmdAttrib .isUpgrade
def isRequest (p : Packet) : Bool := p.cmd.testCmdAttrib .isRequest
def isResponse (p : Packet) : Bool := p.cmd.testCmdAttrib .isResponse
def needsExclusive (p : Packet) : Bool := p.cmd.testCmdAttrib .needsExclusive
def needsResponse (p : Packet) : Bool := p.cmd.testCmdAttrib .needsResponse
def isInvalidate (p : Packet) : Bool := p.cmd.testCmdAttrib .isInvalidate
def hasData (p : Packet) : Bool := p.cmd.testCmdAttrib .hasData
def isLLSC (p : Packet) : Bool := p.cmd.testCmdAttrib .isLlsc
def isSWPrefetch (p : Packet) : Bool := p.cmd.testCmdAttrib .isSWPrefetch
def isHWPrefetch (p : Packet) : Bool := p.cmd.testCmdAttrib .isHWPrefetch
def isPrefetch (p : Packet) : Bool := p.isSWPrefetch || p.isHWPrefetch
def isError (p : Packet) : Bool := p.cmd.testCmdAttrib .isError

/-- `getOffset(blkSize)`, for a block size that is a power of two. -/
def getOffset (p : Packet) (blkSize : Nat) : Nat := p.addr % blkSize

/-- `Packet(pkt, true)`: a copy without the snoop flags. -/
def copyClearFlags (p : Packet) : Packet :=
  { p with
    sharedAsserted := false
    isExpressSnoop := false
    isSupplyExclusive := false
    memInhibitAsserted := false
    prefetchSquashed := false }

/-- `setDataFromBlock`, from a block of `blkSize` bytes. -/
def setDataFromBlock (p : Packet) (blkData : List Byte) (blkSize : Nat) : Packet :=
  { p with data := (blkData.drop (p.getOffset blkSize)).take p.size }

/-- `writeDataToBlock`: the block's bytes afterwards. -/
def writeDataToBlock (p : Packet) (blkData : List Byte) (blkSize : Nat) : List Byte :=
  let offset := p.getOffset blkSize
  blkData.take offset ++ p.data.take p.size ++ blkData.drop (offset + p.size)

/-- `makeTimingResponse`; a response is never express. -/
def makeTimingResponse (p : Packet) : Except Stop Packet := do
  require p.needsResponse
  require p.isRequest
  pure { p with cmd := p.cmd.responseCommand, isExpressSnoop := false }

end Packet

end Gem5.Mem
