import Gem5Nvmain.Nvm.CacheBank

/- The miss map of the DRAM cache (nvmain-test/MemControl/MissMap/MissMap.cpp).

  A cache bank has an entry for each page of 2^18 bytes, with a vector of 64 bits that says which parts of the page
  are in the DRAM cache. A probe reads the vector and a fill writes a vector back; both are commands of the bank,
  whose responses come back in `RequestComplete`. The bank is `CacheController`; `requests` are the requests that its
  responses belong to, in the same order.

  The vector of a fill is behind the pointer `rawData` of a data block whose member `size` nobody sets (`LineMap`). To
  assign a data block copies `size` bytes (`LineMap.assign`), so a data block of the bank has as many bytes as were
  copied, and `*lineMap` is a read of 8 bytes of it (`readLineMap`).

  Left out: the channel of the DRAM cache that a request goes to, the latencies, the statistics, `IssueAtomic`, and
  that the data of some fills has been freed: none of it is copied. -/
namespace Nvm
open Lib

/-- The data block of a fill: `rawData` points at the bytes. -/
structure LineMap where
  rawData : List UInt8
  size : Nat := 0
  isValid : Bool := false
  deriving DecidableEq, Repr

/-- `NVMDataBlock::operator=` from the data block of a fill: what the other block has then. -/
def LineMap.assign (m : LineMap) : NVMDataBlock := ⟨m.rawData.take m.size, m.isValid⟩

/-- The bytes of a `uint64_t`, the lowest first. -/
def lineMapBytes (w : BitVec 64) : List UInt8 := (List.range 8).map fun i => UInt8.ofNat (w.toNat / 256 ^ i)

/-- `*lineMap`. -/
def readLineMap (d : NVMDataBlock) : Except Stop (BitVec 64) :=
  if 8 ≤ d.rawData.length then
    .ok (BitVec.ofNat 64 ((d.rawData.take 8).foldr (fun b w => b.toNat + 256 * w) 0))
  else .error .outOfRange

/-- `MISSMAP_READ` and `MISSMAP_WRITE`. -/
inductive MissMapTag where
  | read
  | write
  deriving DecidableEq, Repr

structure MissMapRequest where
  address : Nat
  /-- `type == READ`, of the request that was accepted. -/
  isRead : Bool
  tag : MissMapTag
  deriving DecidableEq, Repr

namespace MissMapRequest
variable (req : MissMapRequest)

/-- The page address, which is the address of the entry. -/
def page : Nat := req.address >>> 6 >>> 12

def lineOffset : Nat := (req.address >>> 6 &&& 0xFFF) / 64

def lineMask : BitVec 64 := 1#64 <<< req.lineOffset

end MissMapRequest

structure MissMap where
  missMap : CacheController
  /-- The requests of `missMap.responses`. -/
  requests : List MissMapRequest := []
  missMapQueue : List MissMapRequest := []
  missMapFillQueue : List (MissMapRequest × LineMap) := []
  /-- Addresses of requests that went to the DRAM cache because the map has their line. -/
  found : List Nat := []
  /-- Addresses of reads that are in the main memory. -/
  mainMemory : List Nat := []
  /-- Addresses of the other writes to the DRAM cache. -/
  written : List Nat := []
  /-- Addresses of the forced evictions. -/
  forced : List Nat := []

namespace MissMap
variable (c : CacheConfig) (missMapQueueSize : Nat) (s : MissMap)

def init : MissMap := { missMap := CacheController.init c }

/-- `IssueCommand`; a request that finds the queue full is not accepted. -/
def issueCommand (address : Nat) (isRead : Bool) : MissMap :=
  if s.missMapQueue.length < missMapQueueSize then
    { s with missMapQueue := s.missMapQueue ++ [⟨address, isRead, .read⟩] }
  else s

/-- The request goes with each response that the command has. -/
def tagged (bank : CacheController) (req : MissMapRequest) : MissMap :=
  { s with
    missMap := bank
    requests := s.requests ++ List.replicate (bank.responses.length - s.missMap.responses.length) req }

def issueFill (req : MissMapRequest) (data : LineMap) (rest : List (MissMapRequest × LineMap)) : Except Stop MissMap := do
  let bank ← s.missMap.issueWrite c req.page data.assign
  return { s.tagged bank req with missMapFillQueue := rest }

def issueProbe (req : MissMapRequest) (rest : List MissMapRequest) : Except Stop MissMap := do
  let bank ← s.missMap.issueRead c req.page
  return { s.tagged bank req with missMapQueue := rest }

/-- `Cycle`: fills come first. -/
def cycle : Except Stop MissMap :=
  match s.missMapFillQueue with
  | (req, data) :: rest => if s.missMap.busy then .ok s else s.issueFill c req data rest
  | [] =>
    match s.missMapQueue with
    | req :: rest => if s.missMap.busy then .ok s else s.issueProbe c req rest
    | [] => .ok s

/-- A line that is not in the map: reads go to the main memory, writes to the DRAM cache, and `lineMap` is filled in. -/
def notFound (req : MissMapRequest) (lineMap : BitVec 64) : MissMap :=
  { s with
    mainMemory := if req.isRead then s.mainMemory ++ [req.address] else s.mainMemory
    written := if req.isRead then s.written else s.written ++ [req.address]
    missMapFillQueue := s.missMapFillQueue ++ [({ req with tag := .write }, { rawData := lineMapBytes lineMap })] }

def probeComplete (req : MissMapRequest) (creq : CacheRequest) : Except Stop MissMap :=
  if creq.hit then do
    let lineMap ← readLineMap creq.data
    if lineMap &&& req.lineMask ≠ 0 then return { s with found := s.found ++ [req.address] }
    else return s.notFound req (lineMap ||| req.lineMask)
  else .ok (s.notFound req req.lineMask)

/-- The lines of an entry that was evicted are counted, and the DRAM cache is told to evict them. -/
def fillComplete (req : MissMapRequest) (creq : CacheRequest) : Except Stop MissMap :=
  if creq.optype = .evict then do
    let _ ← readLineMap creq.data
    return { s with forced := s.forced ++ [req.address] }
  else .ok s

/-- The response that comes next, with its request. -/
def next : Option (MissMapRequest × CacheRequest) :=
  match s.requests[s.missMap.delivered]?, s.missMap.responses[s.missMap.delivered]? with
  | some req, some creq => some (req, creq)
  | _, _ => none

/-- `RequestComplete`, of a response of the bank. -/
def bankComplete : Except Stop MissMap :=
  match s.next with
  | some (req, creq) => do
    let bank ← s.missMap.requestComplete
    match req.tag with
    | .read => probeComplete { s with missMap := bank } req creq
    | .write => fillComplete { s with missMap := bank } req creq
  | none => .ok s

/-- `RequestComplete`, of a read of the main memory, which now fills the DRAM cache. -/
def memoryComplete (i : Nat) : MissMap :=
  match s.mainMemory[i]? with
  | some address => { s with mainMemory := s.mainMemory.eraseIdx i, written := s.written ++ [address] }
  | none => s

inductive Op where
  | issueCommand (address : Nat) (isRead : Bool)
  | cycle
  | bankComplete
  | memoryComplete (i : Nat)
  deriving DecidableEq, Repr

def step : Op → Except Stop MissMap
  | .issueCommand address isRead => .ok (s.issueCommand missMapQueueSize address isRead)
  | .cycle => s.cycle c
  | .bankComplete => s.bankComplete
  | .memoryComplete i => .ok (s.memoryComplete i)

end MissMap

end Nvm
