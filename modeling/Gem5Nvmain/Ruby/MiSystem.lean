import Gem5Nvmain.Ruby.MiExample

/- What the machines of MI_example do to each other (the in_ports and actions of src/mem/protocol/MI_example-cache.sm,
  MI_example-dir.sm and MI_example-dma.sm).

  Every message of `requests`, `dmaRequests`, `responses` and `memQueue` may be the next one of its port, so a
  recycled message stays in its place. An input of the system that no port is ready for, or whose transition is a
  stall, changes nothing. -/
namespace Gem5.Ruby
open Lib DataBlock

variable {size : Nat}

def addressOffset (size addr : Nat) : Nat := addr % size

def invalidTransition : Stop := .fatal "Invalid transition"

/-- The value of a pointer that is asserted to be valid. -/
def valid {α : Type} (x : Option α) : Except Stop α :=
  match x with
  | some a => .ok a
  | none => .error .assertFailed

@[simp] theorem valid_some {α : Type} (a : α) : valid (some a) = .ok a := rfl

/-- The actions of a transition, in order. -/
def perform {α σ : Type} (act : α → σ → Except Stop σ) : List α → σ → Except Stop σ
  | [], s => .ok s
  | a :: l, s => do
    let s ← act a s
    perform act l s

/-! The directory. -/

/-- The directory, its queues, and the networks it sends on. -/
structure DirSide (size : Nat) where
  dir : Directory size
  memQueue : List (MemoryMsg size)
  requests : List (RequestMsg size)
  dmaRequests : List (DMARequestMsg size)
  forwards : Nat → List ForwardMsg
  responses : List (ResponseMsg size)
  dmaResponses : List (DMAResponseMsg size)

namespace DirSide

def init (useMap : Bool) (ram : DataBlock size) : DirSide size :=
  ⟨Directory.init useMap ram, [], [], [], fun _ => [], [], []⟩

def owner (s : DirSide size) : List Nat := s.dir.getDirectoryEntry.owner

def forwardTo (s : DirSide size) (destination : List Nat) (m : ForwardMsg) : DirSide size :=
  { s with forwards := fun c => if c ∈ destination then s.forwards c ++ [m] else s.forwards c }

def setDir (s : DirSide size) (dir : Directory size) : DirSide size := { s with dir := dir }

/-- Only `TBEs.allocate` makes a TBE, with the default of every field that is not set. -/
def allocateTBE (s : DirSide size) (t : DirTBE size) : Except Stop (DirSide size) := do
  require s.dir.tbe.isNone
  return s.setDir { s.dir with tbe := some t }

end DirSide

/-- An action of the directory; `k` is the place of the message in the queue of the port. -/
def DirAction.act (k : Nat) (a : DirAction) (s : DirSide size) : Except Stop (DirSide size) :=
  match a with
  | .sendWriteBackAck => do
    let m ← index s.memQueue k
    let r ← valid m.originalRequestor
    return s.forwardTo [r] .wbAck
  | .sendWriteBackNack => do
    let m ← index s.requests k
    return s.forwardTo [m.requestor] .wbNack
  | .clearOwner => .ok (s.setDir (s.dir.modifyEntry fun e => { e with owner := [] }))
  | .sendData => do
    let m ← index s.memQueue k
    let r ← valid m.originalRequestor
    return { s with responses := s.responses ++ [⟨r, m.dataBlk⟩] }
  | .sendDMAData => do
    let m ← index s.memQueue k
    let t ← valid s.dir.tbe
    return { s with dmaResponses := s.dmaResponses ++ [⟨t.dmaRequestor, some m.dataBlk⟩] }
  | .sendDMADataFromPUTX => do
    let m ← index s.requests k
    let t ← valid s.dir.tbe
    return { s with dmaResponses := s.dmaResponses ++ [⟨t.dmaRequestor, some m.dataBlk⟩] }
  | .sendDMAAck => do
    let t ← valid s.dir.tbe
    return { s with dmaResponses := s.dmaResponses ++ [⟨t.dmaRequestor, none⟩] }
  | .ownerIsRequestor => do
    let m ← index s.requests k
    return s.setDir (s.dir.modifyEntry fun e => { e with owner := [m.requestor] })
  | .forwardRequest => do
    let m ← index s.requests k
    return s.forwardTo s.owner (.getx m.requestor)
  | .sendCacheInvalidate => .ok (s.forwardTo s.owner .inv)
  | .popIncomingRequestQueue => .ok { s with requests := s.requests.eraseIdx k }
  | .popIncomingDMARequestQueue => .ok { s with dmaRequests := s.dmaRequests.eraseIdx k }
  | .writeDataToMemory => do
    let m ← index s.requests k
    return s.setDir (s.dir.modifyEntry fun e => { e with dataBlk := m.dataBlk })
  | .writeDMADataFromTBE => do
    let t ← valid s.dir.tbe
    let blk ← s.dir.getDirectoryEntry.dataBlk.copyPartial t.dataBlk (addressOffset size t.physicalAddress) t.len
    return s.setDir (s.dir.modifyEntry fun e => { e with dataBlk := blk })
  | .allocateTBE => do
    let m ← index s.dmaRequests k
    s.allocateTBE ⟨m.physicalAddress, .I, m.dataBlk, m.len, m.requestor⟩
  | .allocateTbeForDmaRead => do
    let m ← index s.dmaRequests k
    s.allocateTBE ⟨0, .I, clear, 0, m.requestor⟩
  | .allocateTBEFromRequestNet => do
    let m ← index s.requests k
    s.allocateTBE ⟨0, .I, m.dataBlk, 0, 0⟩
  | .deallocateTBE => do
    require s.dir.tbe.isSome
    return s.setDir { s.dir with tbe := none }
  | .recycleRequestQueue => .ok s
  | .recycleDMARequestQueue => .ok s
  | .queueMemoryFetchRequest => do
    let m ← index s.requests k
    return { s with memQueue := s.memQueue ++ [⟨false, some m.requestor, s.dir.getDirectoryEntry.dataBlk⟩] }
  | .queueMemoryFetchRequestDMA =>
    .ok { s with memQueue := s.memQueue ++ [⟨false, none, s.dir.getDirectoryEntry.dataBlk⟩] }
  | .queueMemoryWBRequestPartial => do
    let m ← index s.dmaRequests k
    let blk ← clear.copyPartial m.dataBlk (addressOffset size m.physicalAddress) m.len
    return { s with memQueue := s.memQueue ++ [⟨true, none, blk⟩] }
  | .queueMemoryWBRequestPartialTBE => do
    let m ← index s.requests k
    let t ← valid s.dir.tbe
    let blk ← clear.copyPartial t.dataBlk (addressOffset size t.physicalAddress) t.len
    return { s with memQueue := s.memQueue ++ [⟨true, some m.requestor, blk⟩] }
  | .queueMemoryWBRequest => do
    let m ← index s.requests k
    return { s with memQueue := s.memQueue ++ [⟨true, some m.requestor, m.dataBlk⟩] }
  | .popMemQueue => .ok { s with memQueue := s.memQueue.eraseIdx k }
  | .writeDataToMemoryFromTBE => do
    let t ← valid s.dir.tbe
    return s.setDir (s.dir.modifyEntry fun e => { e with dataBlk := t.dataBlk })

namespace DirSide

def dirStep (s : DirSide size) (k : Nat) (ev : DirEvent) : Except Stop (DirSide size) :=
  match dirTransition s.dir.getState ev with
  | none => .error invalidTransition
  | some .stall => .ok s
  | some (.go actions next) => do
    let s ← perform (DirAction.act k) actions s
    let dir ← s.dir.setState next
    return s.setDir dir

/-- The event of `requestQueue_in`. -/
def requestEvent (s : DirSide size) : RequestMsg size → DirEvent
  | .getx _ => .getx
  | .putx r _ => if r ∈ s.owner then .putx else .putxNotOwner

end DirSide

/-- The event of `dmaRequestQueue_in`. -/
def DMARequestMsg.event (m : DMARequestMsg size) : DirEvent := if m.write then .dmaWrite else .dmaRead

/-- The event of `memQueue_in`. -/
def MemoryMsg.event (m : MemoryMsg size) : DirEvent := if m.write then .memoryAck else .memoryData

/-! The system. -/

structure System (size : Nat) extends DirSide size where
  caches : Nat → Cache size
  dmas : Nat → DmaState

namespace System

def init (useMap : Bool) (ram : DataBlock size) : System size :=
  { toDirSide := DirSide.init useMap ram, caches := fun _ => Cache.init, dmas := fun _ => .READY }

def setCache (s : System size) (c : Nat) (x : Cache size) : System size :=
  { s with caches := Function.update s.caches c x }

def popForward (s : System size) (c : Nat) : System size :=
  { s with forwards := Function.update s.forwards c (s.forwards c).tail }

def popResponse (s : System size) (k : Nat) : System size := { s with responses := s.responses.eraseIdx k }

/-- The requestor in the first message of `forwardRequestNetwork_in`, a `GETX`. -/
def forwardRequestor (s : System size) (c : Nat) : Except Stop Nat :=
  match (s.forwards c).head? with
  | some (.getx r) => .ok r
  | _ => .error .assertFailed

end System

/-- An action of cache `c`; `k` is the place of the message in the response network. -/
def CacheAction.act (c k : Nat) (a : CacheAction) (s : System size) : Except Stop (System size) :=
  let x := s.caches c
  match a with
  | .issueRequest => .ok { s with requests := s.requests ++ [.getx c] }
  | .issuePUT => do
    let e ← valid x.entry
    return { s with requests := s.requests ++ [.putx c e.dataBlk] }
  | .sendData => do
    let r ← s.forwardRequestor c
    let e ← valid x.entry
    return { s with responses := s.responses ++ [⟨r, e.dataBlk⟩] }
  | .sendDataFromTBE => do
    let r ← s.forwardRequestor c
    let t ← valid x.tbe
    return { s with responses := s.responses ++ [⟨r, t.dataBlk⟩] }
  | .allocateL1CacheBlock => .ok (s.setCache c { x with entry := some (x.entry.getD ⟨.I, clear⟩) })
  | .deallocateL1CacheBlock => .ok (s.setCache c { x with entry := none })
  | .popResponseQueue => .ok (s.popResponse k)
  | .popForwardedRequestQueue => .ok (s.popForward c)
  | .loadHit => do
    require x.entry.isSome
    return s
  | .storeHit => do
    let e ← valid x.entry
    let w ← valid x.write
    let blk ← e.dataBlk.setData w.data w.offset
    return s.setCache c { x with entry := some { e with dataBlk := blk }, write := none }
  | .writeDataToCache => do
    let m ← index s.responses k
    let e ← valid x.entry
    return s.setCache c { x with entry := some { e with dataBlk := m.dataBlk } }
  | .allocateTBE => do
    require x.tbe.isNone
    return s.setCache c { x with tbe := some ⟨.I, clear⟩ }
  | .deallocateTBE => do
    require x.tbe.isSome
    return s.setCache c { x with tbe := none }
  | .copyDataFromCacheToTBE => do
    let e ← valid x.entry
    let t ← valid x.tbe
    return s.setCache c { x with tbe := some { t with dataBlk := e.dataBlk } }

/-- An event that a port of a cache or of the directory triggers. -/
inductive Event where
  | cache (c : Nat) (ev : CacheEvent)
  | dir (ev : DirEvent)
  deriving DecidableEq, Repr

/-- A request of a processor, a replacement, a message that is next at its port, or a request of a device. -/
inductive Input where
  | load (c : Nat)
  | store (c : Nat) (w : Write)
  | replacement (c : Nat)
  | forwardPort (c : Nat)
  | responsePort (k : Nat)
  | requestPort (k : Nat)
  | dmaRequestPort (k : Nat)
  | memPort (k : Nat)
  | dmaRead (d addr len : Nat)
  | dmaWrite (d addr : Nat) (data : List UInt8)
  | dmaResponsePort (k : Nat)
  deriving DecidableEq, Repr

def ForwardMsg.event : ForwardMsg → CacheEvent
  | .getx _ => .fwdGetx
  | .wbAck => .writebackAck
  | .wbNack => .writebackNack
  | .inv => .inv

namespace Input

/-- The place of the message that the input takes. -/
def place : Input → Nat
  | .responsePort k | .requestPort k | .dmaRequestPort k | .memPort k => k
  | _ => 0

def write : Input → Option Write
  | .store _ w => some w
  | _ => none

end Input

namespace System

/-- The event that an input triggers, if its port is ready. -/
def event (s : System size) : Input → Option Event
  | .load c => some (.cache c .load)
  | .store c _ => some (.cache c .store)
  | .replacement c => some (.cache c .replacement)
  | .forwardPort c => (s.forwards c).head?.map fun m => .cache c m.event
  | .responsePort k => s.responses[k]?.map fun m => .cache m.destination .data
  | .requestPort k => s.requests[k]?.map fun m => .dir (s.requestEvent m)
  | .dmaRequestPort k => s.dmaRequests[k]?.map fun m => .dir m.event
  | .memPort k => s.memQueue[k]?.map fun m => .dir m.event
  | .dmaRead .. | .dmaWrite .. | .dmaResponsePort _ => none

/-- The transition that the tables declare for an event. -/
def declared (s : System size) : Event → Bool
  | .cache c ev => (cacheTransition (s.caches c).getState ev).isSome
  | .dir ev => (dirTransition s.dir.getState ev).isSome

/-- A store that does not stall waits for its callback. -/
def begin (s : System size) (c : Nat) (w : Option Write) : System size :=
  match w with
  | some w => s.setCache c { s.caches c with write := some w }
  | none => s

def cacheStep (s : System size) (c k : Nat) (w : Option Write) (ev : CacheEvent) : Except Stop (System size) :=
  match cacheTransition (s.caches c).getState ev with
  | none => .error invalidTransition
  | some .stall => .ok s
  | some (.go actions next) => do
    let s ← perform (CacheAction.act c k) actions (s.begin c w)
    return s.setCache c ((s.caches c).setState next)

/-- What the DMA controllers do. A controller takes one request at a time. -/
def dmaStep (s : System size) : Input → Except Stop (System size)
  | .dmaRead d addr len =>
    if s.dmas d = .READY then
      .ok { s with
        dmas := Function.update s.dmas d .BUSY_RD
        dmaRequests := s.dmaRequests ++ [⟨false, addr, d, clear, len⟩] }
    else .ok s
  | .dmaWrite d addr data =>
    if s.dmas d = .READY then do
      let blk ← clear.setData data (addressOffset size addr)
      return { s with
        dmas := Function.update s.dmas d .BUSY_WR
        dmaRequests := s.dmaRequests ++ [⟨true, addr, d, blk, data.length⟩] }
    else .ok s
  | .dmaResponsePort k =>
    match s.dmaResponses[k]? with
    | none => .ok s
    | some m =>
      if s.dmas m.destination = (if m.data.isSome then .BUSY_RD else .BUSY_WR) then
        .ok { s with
          dmas := Function.update s.dmas m.destination .READY
          dmaResponses := s.dmaResponses.eraseIdx k }
      else .error invalidTransition
  | _ => .ok s

def step (s : System size) (i : Input) : Except Stop (System size) :=
  match s.event i with
  | some (.cache c ev) => s.cacheStep c i.place i.write ev
  | some (.dir ev) => do
    let d ← s.toDirSide.dirStep i.place ev
    return { s with toDirSide := d }
  | none => s.dmaStep i

end System

end Gem5.Ruby
