import Gem5Nvmain.Nvm.Controller

/- The memory below the controller: ranks, banks and sub-arrays (nvmain-test/Ranks/StandardRank/StandardRank.cpp,
  Banks/DDR3Bank/DDR3Bank.cpp, src/SubArray.cpp, Interconnect/OffChipBus/OffChipBus.cpp).

  Each level has the `next*` registers: the first cycles at which it takes a command of a kind. `IsIssuable` asks the
  levels from the rank down, and `IssueCommand` moves the registers on. What the event queue does to a sub-array later
  is kept as the time at which it comes: `SubArray.settle c` is the sub-array at cycle `c`, when the events up to then
  have been processed.

  Each level's `IssueCommand` asks `IsIssuable` once more; here only the top does, as the controller issues nothing
  else. Energy, statistics and power-down are left out, and the latencies that depend on the data of a request are
  functions of it (`Timing`). -/
namespace Nvm
open Function

/-- The timing parameters. -/
structure Timing (p : Params) where
  tAL : Nat := 0
  tBURST : Nat := 4
  tCAS : Nat := 10
  tCCD : Nat := 4
  tCMD : Nat := 1
  tCWD : Nat := 7
  tOST : Nat := 0
  tPPD : Nat := 0
  tRAS : Nat := 24
  tRAW : Nat := 20
  tRCD : Nat := 9
  tRFC : Nat := 107
  tRP : Nat := 9
  tRRDR : Nat := 5
  tRTP : Nat := 5
  tRTRS : Nat := 1
  tWR : Nat := 10
  tWTR : Nat := 5
  rawNum : Nat := 4
  /-- `writeMode == WRITE_BACK`. -/
  writeBack : Bool := false
  burstCount : Request p → Nat := fun _ => 1
  /-- The latency of the data encoder of a read. -/
  decLat : Request p → Nat := fun _ => 0
  /-- `encLat + endrLat` of a write. -/
  encLat : Request p → Nat := fun _ => 0
  /-- `WriteCellData1`, or what is left of a write that was paused. -/
  writeCellData : Request p → Nat := fun _ => 0
  /-- Whether a cycle is in `writeIterationStarts` of a write. -/
  writeIterationStart : Request p → Nat → Bool := fun _ _ => false

/-- `MAX(tBURST, tCCD)`. -/
def Timing.burst {p : Params} (tm : Timing p) : Nat := max tm.tBURST tm.tCCD

/-- The registers of a level. -/
structure Next where
  activate : Nat := 0
  read : Nat := 0
  write : Nat := 0
  precharge : Nat := 0

/-- `next = MAX(next, ...)`. -/
def Next.meet (n m : Next) : Next :=
  ⟨max n.activate m.activate, max n.read m.read, max n.write m.write, max n.precharge m.precharge⟩

/-- The register of a command. -/
def Next.of (n : Next) : OpType → Nat
  | .activate | .refresh => n.activate
  | .read | .readPrecharge => n.read
  | .write | .writePrecharge => n.write
  | .precharge | .prechargeAll => n.precharge
  | .cachedRead | .cachedWrite => 0

variable {p : Params} (tm : Timing p)

/-- The registers of a bank or rank after a read. -/
def Timing.afterRead (c : Nat) (r : Request p) : Next where
  read := c + tm.burst * tm.burstCount r
  write := c + tm.burst * (tm.burstCount r - 1) + tm.tCAS + tm.tBURST + tm.tRTRS - tm.tCWD

/-- The registers of a bank or rank after a write. -/
def Timing.afterWrite (c : Nat) (r : Request p) : Next where
  read := c + tm.burst * (tm.burstCount r - 1) + tm.tCWD + tm.tBURST + tm.tWTR
  write := c + tm.burst * tm.burstCount r

/-! ## Sub-arrays -/

inductive SubArrayState where
  | closed | opened | precharging | refreshing
  deriving DecidableEq, Repr

structure SubArray (p : Params) where
  state : SubArrayState := .closed
  openRow : Nat := 0
  next : Next := {}
  writeCycle : Bool := false
  writeBackRequests : List (Request p) := []
  writeRequest : Option (Request p) := none
  writeEventTime : Nat := 0
  /-- `nextActivatePreWrite` and so on. -/
  preWrite : Next := {}
  /-- When the implicit precharge of a column command begins. -/
  prechargeAt : Option Nat := none
  /-- When a precharge or refresh ends. -/
  closedAt : Option Nat := none

namespace SubArray

/-- The implicit precharge begins (`RequestComplete` of a READ_PRECHARGE or WRITE_PRECHARGE). -/
def beginPrecharge (c : Nat) (s : SubArray p) : SubArray p :=
  match s.prechargeAt with
  | some t => if t ≤ c then { s with state := .precharging, prechargeAt := none } else s
  | none => s

/-- `RequestComplete` of a PRECHARGE or REFRESH. -/
def close (c : Nat) (s : SubArray p) : SubArray p :=
  match s.closedAt with
  | some t => if t ≤ c then { s with state := .closed, openRow := p.rows, closedAt := none } else s
  | none => s

/-- The sub-array when the events up to cycle `c` have been processed. -/
def settle (c : Nat) (s : SubArray p) : SubArray p := (s.beginPrecharge c).close c

def isWriting (c : Nat) (s : SubArray p) : Bool := s.writeRequest.isSome && decide (c < s.writeEventTime)

/-- A write in progress that must not be paused. -/
def forcedWrite (c : Nat) (s : SubArray p) : Bool :=
  p.writePausing && s.isWriting c && s.writeRequest.any fun w => w.forced

def isIssuable (c : Nat) (s : SubArray p) (r : Request p) : Bool :=
  match r.type with
  | .activate => decide (s.next.activate ≤ c) && !(p.usePrecharge && s.state != .closed) && !s.forcedWrite c &&
      !(p.writePausing && s.isWriting c && !r.priority)
  | .read | .readPrecharge => decide (s.next.read ≤ c) && s.state == .opened && r.address.row == s.openRow &&
      !s.forcedWrite c
  | .write | .writePrecharge => decide (s.next.write ≤ c) && s.state == .opened && r.address.row == s.openRow
  | .precharge | .prechargeAll => decide (s.next.precharge ≤ c) && (s.state == .opened || s.state == .closed)
  | .refresh => decide (s.next.activate ≤ c) && s.state == .closed
  | .cachedRead | .cachedWrite => false

/-- `NextIssuable`: commands with an implicit precharge, PRECHARGE_ALL and REFRESH are not looked at. -/
def nextIssuable (s : SubArray p) (r : Request p) : Nat :=
  match r.type with
  | .activate => s.next.activate
  | .read => s.next.read
  | .write => s.next.write
  | .precharge => s.next.precharge
  | _ => 0

/-- `CheckWritePausing`: the write comes back in the next cycle, and the registers go back. -/
def checkWritePausing (c : Nat) (s : SubArray p) : SubArray p :=
  if p.writePausing && s.isWriting c then { s with next := s.preWrite, writeEventTime := c + 1 } else s

def activate (c : Nat) (s : SubArray p) (r : Request p) : SubArray p :=
  let s := s.checkWritePausing c
  let next : Next :=
    { precharge := c + max tm.tRCD tm.tRAS, read := c + tm.tRCD - tm.tAL, write := c + tm.tRCD - tm.tAL }
  { s with
    next := s.next.meet next
    openRow := r.address.row
    state := .opened
    writeCycle := false }

/-- The registers and events of an implicit precharge that begins at cycle `t`. -/
def closeBehind (t : Nat) (s : SubArray p) : SubArray p :=
  let next := max s.next.activate (t + tm.tRP)
  { s with
    next := s.next.meet ⟨next, next, next, next⟩
    prechargeAt := some t
    closedAt := some (t + tm.tRP) }

def read (c : Nat) (s : SubArray p) (r : Request p) : SubArray p :=
  let s := s.checkWritePausing c
  let bursts := tm.burst * (tm.burstCount r - 1)
  if r.type = .readPrecharge then s.closeBehind tm (c + tm.tAL + tm.tRTP + tm.decLat r + bursts)
  else
    let next : Next :=
      { precharge := c + bursts + tm.tAL + tm.tBURST + tm.tRTP - tm.tCCD + tm.decLat r
        read := c + tm.burst * tm.burstCount r
        write := c + bursts + tm.tCAS + tm.tBURST + tm.tRTRS - tm.tCWD + tm.decLat r }
    { s with next := s.next.meet next }

/-- How long the cells are written. -/
def writeTimer (s : SubArray p) (r : Request p) : Nat :=
  if tm.writeBack then (if s.writeCycle then 0 else tm.writeCellData r) else tm.writeCellData r + tm.encLat r

def write (c : Nat) (s : SubArray p) (r : Request p) : SubArray p :=
  let bursts := tm.burst * (tm.burstCount r - 1)
  let timer := s.writeTimer tm r
  let done := c + bursts + tm.tAL + tm.tCWD + tm.tBURST + timer + tm.tWR
  let s := { s with
    writeBackRequests := if tm.writeBack && s.writeCycle then s.writeBackRequests ++ [r] else s.writeBackRequests
    preWrite := s.next
    writeCycle := true
    writeRequest := some r
    writeEventTime := c + tm.tCWD + tm.burst * tm.burstCount r + timer }
  if r.type = .writePrecharge then s.closeBehind tm done
  else
    let next : Next :=
      { precharge := done
        read := c + bursts + tm.tCWD + tm.tBURST + tm.tWTR + timer
        write := c + tm.burst * tm.burstCount r + timer }
    { s with next := s.next.meet next }

def precharge (c : Nat) (s : SubArray p) (r : Request p) : SubArray p :=
  let timer := if tm.writeBack && s.writeCycle then
      max 1 (tm.tRP + tm.writeCellData r) + (s.writeBackRequests.map tm.encLat).sum
    else max 1 tm.tRP
  { s with
    next := s.next.meet { activate := c + timer }
    writeBackRequests := if tm.writeBack && s.writeCycle then [] else s.writeBackRequests
    state := .precharging
    closedAt := some (c + timer) }

def refresh (c : Nat) (s : SubArray p) : SubArray p :=
  { s with
    next := s.next.meet { activate := c + tm.tRFC }
    state := .refreshing
    closedAt := some (c + tm.tRFC) }

def issueCommand (c : Nat) (s : SubArray p) (r : Request p) : SubArray p :=
  match r.type with
  | .activate => s.activate tm c r
  | .read | .readPrecharge => s.read tm c r
  | .write | .writePrecharge => s.write tm c r
  | .precharge | .prechargeAll => s.precharge tm c r
  | .refresh => s.refresh tm c
  | .cachedRead | .cachedWrite => s

end SubArray

/-! ## Banks -/

inductive BankState where
  | closed | opened
  deriving DecidableEq, Repr

structure Bank (p : Params) where
  state : BankState := .closed
  activeSubArrayQueue : List Nat := []
  next : Next := {}
  subArrays : Nat → SubArray p := fun _ => {}

namespace Bank

/-- The sub-array `i` at cycle `c`. -/
def subArray (c : Nat) (b : Bank p) (i : Nat) : SubArray p := (b.subArrays i).settle c

def isIssuable (c : Nat) (b : Bank p) (r : Request p) : Bool :=
  let child := (b.subArray c r.address.subarray).isIssuable c r
  match r.type with
  | .activate | .refresh => decide (b.next.activate ≤ c) && child
  | .read | .readPrecharge => decide (b.next.read ≤ c) && b.state == .opened && child
  | .write | .writePrecharge => decide (b.next.write ≤ c) && b.state == .opened && child
  | .precharge => decide (b.next.precharge ≤ c) && child
  | .prechargeAll => decide (b.next.precharge ≤ c) && b.activeSubArrayQueue.all fun i => (b.subArray c i).isIssuable c r
  | .cachedRead | .cachedWrite => child

def nextIssuable (b : Bank p) (r : Request p) : Nat :=
  max ((b.subArrays r.address.subarray).nextIssuable r) (b.next.of r.type)

/-- A command of the sub-array `i`. -/
def onSubArray (c : Nat) (b : Bank p) (i : Nat) (r : Request p) : Bank p :=
  { b with subArrays := update b.subArrays i ((b.subArray c i).issueCommand tm c r) }

/-- The sub-array is no longer active. -/
def deactivate (b : Bank p) (i : Nat) : Bank p :=
  let active := b.activeSubArrayQueue.erase i
  { b with activeSubArrayQueue := active, state := if active.isEmpty then .closed else b.state }

def activate (c : Nat) (b : Bank p) (r : Request p) : Bank p :=
  if b.state ≠ .closed ∧ b.activeSubArrayQueue = [] then b
  else
    { b.onSubArray tm c r.address.subarray r with
      state := .opened
      activeSubArrayQueue := r.address.subarray :: b.activeSubArrayQueue }

def read (c : Nat) (b : Bank p) (r : Request p) : Bank p :=
  let b := { b.onSubArray tm c r.address.subarray r with next := b.next.meet (tm.afterRead c r) }
  if r.type = .readPrecharge then b.deactivate r.address.subarray else b

def write (c : Nat) (b : Bank p) (r : Request p) : Bank p :=
  let b := { b.onSubArray tm c r.address.subarray r with next := b.next.meet (tm.afterWrite c r) }
  if r.type = .writePrecharge then b.deactivate r.address.subarray else b

/-- PRECHARGE_ALL closes all active sub-arrays. -/
def prechargeAll (c : Nat) (b : Bank p) (r : Request p) : Bank p :=
  { b.activeSubArrayQueue.foldl (fun b i => b.onSubArray tm c i r) b with activeSubArrayQueue := [], state := .closed }

def issueCommand (c : Nat) (b : Bank p) (r : Request p) : Bank p :=
  match r.type with
  | .activate => b.activate tm c r
  | .read | .readPrecharge => b.read tm c r
  | .write | .writePrecharge => b.write tm c r
  | .precharge => (b.onSubArray tm c r.address.subarray r).deactivate r.address.subarray
  | .prechargeAll => b.prechargeAll tm c r
  | .refresh => b.onSubArray tm c r.address.subarray r
  | .cachedRead | .cachedWrite => b

end Bank

/-! ## Ranks -/

structure Rank (p : Params) where
  next : Next := {}
  lastActivate : Nat → Nat := fun _ => 0
  rawIndex : Nat := 0
  banks : Nat → Bank p := fun _ => {}

namespace Rank

/-- The earliest activation in the row activation window, `tRAW` later. -/
def windowEnd (k : Rank p) : Nat := k.lastActivate ((k.rawIndex + 1) % tm.rawNum) + tm.tRAW

/-- The banks that a REFRESH of a group reaches. -/
def refreshed (r : Request p) : List Nat :=
  (List.range p.banksPerRefresh).map fun i => r.address.bank + i

/-- The assertion `opBank + banksPerRefresh <= bankCount` holds, as only heads of groups are refreshed. -/
def isIssuable (c : Nat) (k : Rank p) (r : Request p) : Bool :=
  let child := (k.banks r.address.bank).isIssuable c r
  match r.type with
  | .activate => decide (k.next.activate ≤ c) && decide (k.windowEnd tm ≤ c) && child
  | .read | .readPrecharge => decide (k.next.read ≤ c) && child
  | .write | .writePrecharge => decide (k.next.write ≤ c) && child
  | .precharge | .prechargeAll => decide (k.next.precharge ≤ c) && child
  | .refresh => decide (k.next.activate ≤ c) && decide (k.windowEnd tm ≤ c) &&
      (refreshed r).all fun b => (k.banks b).isIssuable c r
  | .cachedRead | .cachedWrite => child

def nextIssuable (k : Rank p) (r : Request p) : Nat :=
  let nextCompare := match r.type with
    | .activate | .refresh => max k.next.activate (k.windowEnd tm)
    | t => k.next.of t
  max ((k.banks r.address.bank).nextIssuable r) nextCompare

/-- A command of the bank `b`. -/
def onBank (c : Nat) (k : Rank p) (b : Nat) (r : Request p) : Rank p :=
  { k with banks := update k.banks b ((k.banks b).issueCommand tm c r) }

/-- An activation enters the window. -/
def activated (c : Nat) (k : Rank p) : Rank p :=
  let rawIndex := (k.rawIndex + 1) % tm.rawNum
  { k with
    rawIndex := rawIndex
    lastActivate := update k.lastActivate rawIndex c
    next := k.next.meet { activate := c + tm.tRRDR } }

def issueCommand (c : Nat) (k : Rank p) (r : Request p) : Rank p :=
  let child := k.onBank tm c r.address.bank r
  match r.type with
  | .activate => child.activated tm c
  | .read | .readPrecharge => { child with next := k.next.meet (tm.afterRead c r) }
  | .write | .writePrecharge => { child with next := k.next.meet (tm.afterWrite c r) }
  | .precharge | .prechargeAll => { child with next := k.next.meet { precharge := c + tm.tPPD } }
  | .refresh => ((refreshed r).foldl (fun k b => k.onBank tm c b r) k).activated tm c
  | .cachedRead | .cachedWrite => k

/-- What a command does to the other ranks on the bus. -/
def notify (c : Nat) (k : Rank p) (r : Request p) : Rank p :=
  let read : Next := { read := c + tm.tBURST + tm.tRTRS, write := c + tm.tCAS + tm.tBURST + tm.tRTRS - tm.tCWD }
  let write : Next := { write := c + tm.tBURST + tm.tOST, read := c + tm.tBURST + tm.tCWD + tm.tRTRS - tm.tCAS }
  match r.type with
  | .read | .readPrecharge => { k with next := k.next.meet read }
  | .write | .writePrecharge => { k with next := k.next.meet write }
  | _ => k

end Rank

/-! ## All ranks -/

/-- The ranks at the start. -/
def Ranks.init (_ : Nat) : Rank p := { next := ⟨tm.tCMD, tm.tCMD, tm.tCMD, tm.tCMD⟩ }

def Ranks.nextIssuable (m : Nat → Rank p) (r : Request p) : Nat := (m r.address.rank).nextIssuable tm r

/-- The memory as the controller sees it. -/
def bankMemory : Memory p (Nat → Rank p) where
  isIssuable := fun m c r => (m r.address.rank).isIssuable tm c r
  issueCommand := fun m c r i => if i = r.address.rank then (m i).issueCommand tm c r else (m i).notify tm c r
  subArray := fun m c r =>
    let s := ((m r.address.rank).banks r.address.bank).subArray c r.address.subarray
    some ⟨s.isWriting c, s.isWriting c && s.writeRequest.any fun w => tm.writeIterationStart w c⟩

end Nvm
