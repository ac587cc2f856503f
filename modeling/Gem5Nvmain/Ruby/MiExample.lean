import Mathlib.Data.Fintype.Pi
import Mathlib.Logic.Function.Basic
import Gem5Nvmain.Lib.Exec

/- The MI_example protocol on one line: any number of caches, a directory and any number of DMA controllers
  (src/mem/protocol/MI_example-cache.sm, MI_example-dir.sm, MI_example-dma.sm,
  src/mem/ruby/structures/DirectoryMemory.cc).

  A machine is its table of transitions (`cacheTransition`, `dirTransition`); what the actions do is in
  `Gem5Nvmain.Ruby.MiSystem`. An instruction fetch takes the transitions of a load; the mandatory queue, profiling,
  the evictions that the processor is told of and the message fields that no action reads are left out. -/
namespace Gem5.Ruby
open Lib

/-! Data. -/

/-- The bytes of a line. -/
abbrev DataBlock (size : Nat) := Fin size → UInt8

variable {size : Nat}

namespace DataBlock

def clear : DataBlock size := fun _ => 0

/-- The block with the bytes `[offset, offset + len)` of another. -/
def patch (blk dblk : DataBlock size) (offset len : Nat) : DataBlock size :=
  fun i => if offset ≤ i.val ∧ i.val < offset + len then dblk i else blk i

def copyPartial (blk dblk : DataBlock size) (offset len : Nat) : Except Stop (DataBlock size) := do
  require (decide (offset + len ≤ size))
  return patch blk dblk offset len

def setData (blk : DataBlock size) (data : List UInt8) (offset : Nat) : Except Stop (DataBlock size) := do
  require (decide (offset + data.length ≤ size))
  return fun i => if offset ≤ i.val then data.getD (i.val - offset) (blk i) else blk i

end DataBlock

/-! Messages. -/

/-- Requests of a cache to the directory. -/
inductive RequestMsg (size : Nat) where
  | getx (requestor : Nat)
  | putx (requestor : Nat) (dataBlk : DataBlock size)
  deriving DecidableEq

/-- What the directory sends to a cache on the forward network. -/
inductive ForwardMsg where
  | getx (requestor : Nat)
  | wbAck
  | wbNack
  | inv
  deriving DecidableEq, Repr

/-- `DATA` to a cache. -/
structure ResponseMsg (size : Nat) where
  destination : Nat
  dataBlk : DataBlock size
  deriving DecidableEq

structure DMARequestMsg (size : Nat) where
  write : Bool
  physicalAddress : Nat
  requestor : Nat
  dataBlk : DataBlock size
  len : Nat
  deriving DecidableEq

/-- `DATA` to a DMA controller, or `ACK`. -/
structure DMAResponseMsg (size : Nat) where
  destination : Nat
  data : Option (DataBlock size)
  deriving DecidableEq

/-- `MEMORY_READ`, or `MEMORY_WB`. -/
structure MemoryMsg (size : Nat) where
  write : Bool
  originalRequestor : Option Nat
  dataBlk : DataBlock size
  deriving DecidableEq

namespace RequestMsg

def requestor : RequestMsg size → Nat
  | .getx r => r
  | .putx r _ => r

/-- The data of a `PUTX`; a `GETX` has the block of a new message. -/
def dataBlk : RequestMsg size → DataBlock size
  | .getx _ => DataBlock.clear
  | .putx _ d => d

end RequestMsg

/-! The machines. -/

/-- A declared transition: a stall leaves everything as it is. -/
inductive Transition (α σ : Type) where
  | stall
  | go (actions : List α) (next : σ)

inductive CacheState where
  | I | II | M | MI | MII | IS | IM
  deriving DecidableEq, Repr

inductive CacheEvent where
  | load | store | data | fwdGetx | inv | replacement | writebackAck | writebackNack
  deriving DecidableEq, Repr

inductive CacheAction where
  | issueRequest | issuePUT | sendData | sendDataFromTBE | allocateL1CacheBlock | deallocateL1CacheBlock
  | popResponseQueue | popForwardedRequestQueue | loadHit | storeHit | writeDataToCache
  | allocateTBE | deallocateTBE | copyDataFromCacheToTBE
  deriving DecidableEq, Repr

open CacheAction in
def cacheTransition : CacheState → CacheEvent → Option (Transition CacheAction CacheState)
  | .IS, .load | .IM, .load | .MI, .load | .II, .load | .MII, .load => some .stall
  | .IS, .store | .IM, .store | .MI, .store | .II, .store | .MII, .store => some .stall
  | .IS, .replacement | .IM, .replacement | .MI, .replacement | .II, .replacement | .MII, .replacement => some .stall
  | .IS, .fwdGetx | .IM, .fwdGetx | .IS, .inv | .IM, .inv => some .stall
  | .MI, .inv => some (.go [popForwardedRequestQueue] .MI)
  | .M, .store => some (.go [storeHit] .M)
  | .M, .load => some (.go [loadHit] .M)
  | .I, .inv => some (.go [popForwardedRequestQueue] .I)
  | .I, .store => some (.go [allocateTBE, allocateL1CacheBlock, issueRequest] .IM)
  | .I, .load => some (.go [allocateTBE, allocateL1CacheBlock, issueRequest] .IS)
  | .IS, .data => some (.go [writeDataToCache, loadHit, deallocateTBE, popResponseQueue] .M)
  | .IM, .data => some (.go [writeDataToCache, storeHit, deallocateTBE, popResponseQueue] .M)
  | .M, .fwdGetx => some (.go [sendData, popForwardedRequestQueue] .I)
  | .I, .replacement => some (.go [deallocateL1CacheBlock] .I)
  | .M, .replacement | .M, .inv =>
    some (.go [allocateTBE, issuePUT, copyDataFromCacheToTBE, deallocateL1CacheBlock] .MI)
  | .MI, .writebackAck => some (.go [deallocateTBE, popForwardedRequestQueue] .I)
  | .MI, .fwdGetx => some (.go [sendDataFromTBE, popForwardedRequestQueue] .II)
  | .MI, .writebackNack => some (.go [popForwardedRequestQueue] .MII)
  | .MII, .fwdGetx => some (.go [sendDataFromTBE, deallocateTBE, popForwardedRequestQueue] .I)
  | .II, .writebackNack => some (.go [deallocateTBE, popForwardedRequestQueue] .I)
  | _, _ => none

inductive DirState where
  | I | M | M_DRD | M_DWR | M_DWRI | M_DRDI | IM | MI | ID | ID_W
  deriving DecidableEq, Repr

inductive DirEvent where
  | getx | putx | putxNotOwner | dmaRead | dmaWrite | memoryData | memoryAck
  deriving DecidableEq, Repr

inductive DirAction where
  | sendWriteBackAck | sendWriteBackNack | clearOwner | sendData | sendDMAData | sendDMADataFromPUTX | sendDMAAck
  | ownerIsRequestor | forwardRequest | sendCacheInvalidate | popIncomingRequestQueue | popIncomingDMARequestQueue
  | writeDataToMemory | writeDMADataFromTBE | allocateTBE | allocateTbeForDmaRead | allocateTBEFromRequestNet
  | deallocateTBE | recycleRequestQueue | recycleDMARequestQueue | queueMemoryFetchRequest | queueMemoryFetchRequestDMA
  | queueMemoryWBRequestPartial | queueMemoryWBRequestPartialTBE | queueMemoryWBRequest | popMemQueue
  | writeDataToMemoryFromTBE
  deriving DecidableEq, Repr

open DirAction in
def dirTransition : DirState → DirEvent → Option (Transition DirAction DirState)
  | .M_DRD, .getx => some (.go [recycleRequestQueue] .M_DRD)
  | .M_DWR, .getx => some (.go [recycleRequestQueue] .M_DWR)
  | .M_DWRI, .getx => some (.go [recycleRequestQueue] .M_DWRI)
  | .M_DRDI, .getx => some (.go [recycleRequestQueue] .M_DRDI)
  | .IM, .getx | .IM, .putx | .IM, .putxNotOwner => some (.go [recycleRequestQueue] .IM)
  | .MI, .getx | .MI, .putx | .MI, .putxNotOwner => some (.go [recycleRequestQueue] .MI)
  | .ID, .getx | .ID, .putx | .ID, .putxNotOwner => some (.go [recycleRequestQueue] .ID)
  | .ID_W, .getx | .ID_W, .putx | .ID_W, .putxNotOwner => some (.go [recycleRequestQueue] .ID_W)
  | .IM, .dmaRead | .IM, .dmaWrite => some (.go [recycleDMARequestQueue] .IM)
  | .MI, .dmaRead | .MI, .dmaWrite => some (.go [recycleDMARequestQueue] .MI)
  | .ID, .dmaRead | .ID, .dmaWrite => some (.go [recycleDMARequestQueue] .ID)
  | .ID_W, .dmaRead | .ID_W, .dmaWrite => some (.go [recycleDMARequestQueue] .ID_W)
  | .I, .getx => some (.go [queueMemoryFetchRequest, ownerIsRequestor, popIncomingRequestQueue] .IM)
  | .IM, .memoryData => some (.go [sendData, popMemQueue] .M)
  | .I, .dmaRead => some (.go [allocateTbeForDmaRead, queueMemoryFetchRequestDMA, popIncomingDMARequestQueue] .ID)
  | .ID, .memoryData => some (.go [sendDMAData, deallocateTBE, popMemQueue] .I)
  | .I, .dmaWrite => some (.go [allocateTBE, queueMemoryWBRequestPartial, popIncomingDMARequestQueue] .ID_W)
  | .ID_W, .memoryAck => some (.go [writeDMADataFromTBE, sendDMAAck, deallocateTBE, popMemQueue] .I)
  | .M, .dmaRead => some (.go [allocateTBE, sendCacheInvalidate, popIncomingDMARequestQueue] .M_DRD)
  | .M_DRD, .putx =>
    some (.go [writeDataToMemory, sendDMADataFromPUTX, clearOwner, queueMemoryWBRequest, popIncomingRequestQueue] .M_DRDI)
  | .M_DRDI, .memoryAck => some (.go [sendWriteBackAck, deallocateTBE, popMemQueue] .I)
  | .M, .dmaWrite => some (.go [allocateTBE, sendCacheInvalidate, popIncomingDMARequestQueue] .M_DWR)
  | .M_DWR, .putx =>
    some (.go [writeDataToMemory, queueMemoryWBRequestPartialTBE, clearOwner, popIncomingRequestQueue] .M_DWRI)
  | .M_DWRI, .memoryAck =>
    some (.go [writeDataToMemoryFromTBE, sendWriteBackAck, sendDMAAck, deallocateTBE, popMemQueue] .I)
  | .M, .getx => some (.go [forwardRequest, ownerIsRequestor, popIncomingRequestQueue] .M)
  | .M, .putx => some (.go [clearOwner, allocateTBEFromRequestNet, queueMemoryWBRequest, popIncomingRequestQueue] .MI)
  | .MI, .memoryAck => some (.go [writeDataToMemoryFromTBE, sendWriteBackAck, deallocateTBE, popMemQueue] .I)
  | .M, .putxNotOwner => some (.go [sendWriteBackNack, popIncomingRequestQueue] .M)
  | .I, .putxNotOwner => some (.go [sendWriteBackNack, popIncomingRequestQueue] .I)
  | _, _ => none

inductive DmaState where
  | READY | BUSY_RD | BUSY_WR
  deriving DecidableEq, Repr

/-! The state of each party. -/

structure CacheEntry (size : Nat) where
  cacheState : CacheState
  dataBlk : DataBlock size
  deriving DecidableEq

structure CacheTBE (size : Nat) where
  tbeState : CacheState
  dataBlk : DataBlock size
  deriving DecidableEq

/-- A store of the sequencer. -/
structure Write where
  offset : Nat
  data : List UInt8
  deriving DecidableEq, Repr

structure Cache (size : Nat) where
  entry : Option (CacheEntry size)
  tbe : Option (CacheTBE size)
  /-- The store that waits for its callback. -/
  write : Option Write
  deriving DecidableEq

namespace Cache

def init : Cache size := ⟨none, none, none⟩

def getState (c : Cache size) : CacheState :=
  match c.tbe, c.entry with
  | some t, _ => t.tbeState
  | none, some e => e.cacheState
  | none, none => .I

def setState (c : Cache size) (state : CacheState) : Cache size :=
  { c with
    tbe := c.tbe.map fun t => { t with tbeState := state }
    entry := c.entry.map fun e => { e with cacheState := state } }

end Cache

structure DirEntry (size : Nat) where
  directoryState : DirState
  dataBlk : DataBlock size
  owner : List Nat
  deriving DecidableEq

structure DirTBE (size : Nat) where
  physicalAddress : Nat
  tbeState : DirState
  dataBlk : DataBlock size
  len : Nat
  dmaRequestor : Nat
  deriving DecidableEq

/-- The directory with the entry and the TBE of the line. An entry is allocated when it is first asked for. -/
structure Directory (size : Nat) where
  useMap : Bool
  /-- The memory behind the array form. -/
  ram : DataBlock size
  entry : Option (DirEntry size)
  tbe : Option (DirTBE size)
  deriving DecidableEq

namespace Directory

def init (useMap : Bool) (ram : DataBlock size) : Directory size := ⟨useMap, ram, none, none⟩

/-- `allocate` clears the data of an entry of the sparse memory, and shares that of the array with the memory. -/
def getDirectoryEntry (d : Directory size) : DirEntry size :=
  d.entry.getD ⟨.I, if d.useMap then DataBlock.clear else d.ram, []⟩

def modifyEntry (d : Directory size) (f : DirEntry size → DirEntry size) : Directory size :=
  { d with entry := some (f d.getDirectoryEntry) }

def getState (d : Directory size) : DirState :=
  match d.tbe with
  | some t => t.tbeState
  | none => d.getDirectoryEntry.directoryState

/-- Only the sparse memory gives the entry up. -/
def invalidateBlock (d : Directory size) : Directory size := if d.useMap then { d with entry := none } else d

def setState (d : Directory size) (state : DirState) : Except Stop (Directory size) := do
  let d : Directory size := { d with tbe := d.tbe.map fun t => { t with tbeState := state } }
  require (decide (state ≠ .M) || decide (d.getDirectoryEntry.owner.length = 1))
  let d := d.modifyEntry fun e => { e with directoryState := state }
  require (decide (state ≠ .I) || decide (d.getDirectoryEntry.owner.length = 0))
  return if state = .I then d.invalidateBlock else d

end Directory

end Gem5.Ruby
