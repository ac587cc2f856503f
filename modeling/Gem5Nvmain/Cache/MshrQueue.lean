import Gem5Nvmain.Cache.Mshr

/- The queue of MSHRs (mem/cache/mshr_queue.hh, mem/cache/mshr_queue.cc).

  An `MSHR *` is an index into `registers`. `allocIter` and `readyIter` point at the one place an entry has in
  `allocatedList` and `readyList`, so erasing through them is erasing the entry from the list.

  Correspondence (C++ ↔ Lean):
    `registers`, `allocatedList`, `readyList`, `freeList` ↔ the fields
    `getNextMSHR()`, `findPending(..)`, `findMatch(..)` ↔ an index or `none`
  Draining and the label are left out. -/
namespace Gem5.Cache
open Lib Gem5.Mem

structure MshrQueue where
  numEntries : Int
  numReserve : Int
  registers : List Mshr
  allocatedList : List Nat
  readyList : List Nat
  freeList : List Nat
  allocated : Int
  inServiceEntries : Int
  deriving DecidableEq, Repr

namespace MshrQueue

/-- `MSHRQueue(label, num_entries, reserve, index)`. -/
def new (numEntries reserve : Int) : MshrQueue :=
  { numEntries := numEntries + reserve - 1
    numReserve := reserve
    registers := List.replicate (numEntries + reserve - 1).toNat {}
    allocatedList := []
    readyList := []
    freeList := List.range (numEntries + reserve - 1).toNat
    allocated := 0
    inServiceEntries := 0 }

def isFull (q : MshrQueue) : Bool := decide (q.allocated > q.numEntries - q.numReserve)

/-- The MSHR an index points at. -/
def mshr (q : MshrQueue) (i : Nat) : Mshr := (q.registers[i]?).getD {}

def setMshr (q : MshrQueue) (i : Nat) (m : Mshr) : MshrQueue :=
  { q with registers := q.registers.set i m }

def readyTime (q : MshrQueue) (i : Nat) : Tick := (q.mshr i).readyTime

def inService (q : MshrQueue) (i : Nat) : Bool := (q.mshr i).inService

def findMatch (q : MshrQueue) (addr : Nat) (isSecure : Bool) : Option Nat :=
  q.allocatedList.find? fun i => (q.mshr i).addr == addr && (q.mshr i).isSecure == isSecure

def findMatches (q : MshrQueue) (addr : Nat) (isSecure : Bool) : List Nat :=
  q.allocatedList.filter fun i => (q.mshr i).addr == addr && (q.mshr i).isSecure == isSecure

/-- The test of `findPending`. -/
def overlaps (m : Mshr) (addr size : Nat) : Bool :=
  if m.addr < addr then decide (m.addr + m.size > addr) else decide (addr + size > m.addr)

def findPending (q : MshrQueue) (addr size : Nat) (isSecure : Bool) : Option Nat :=
  q.readyList.find? fun i => (q.mshr i).isSecure == isSecure && overlaps (q.mshr i) addr size

/-- The loop of `addToReadyList`; it finds a place when the last entry is later. -/
def insertBefore (q : MshrQueue) (i : Nat) : List Nat → List Nat
  | [] => []
  | j :: js => if q.readyTime j > q.readyTime i then i :: j :: js else j :: insertBefore q i js

def addToReadyList (q : MshrQueue) (i : Nat) : MshrQueue :=
  match q.readyList.getLast? with
  | none => { q with readyList := q.readyList ++ [i] }
  | some j =>
    if q.readyTime j ≤ q.readyTime i then { q with readyList := q.readyList ++ [i] }
    else { q with readyList := q.insertBefore i q.readyList }

def allocate (q : MshrQueue) (addr size : Nat) (pkt : Packet) (when_ : Tick) (order : Nat) :
    Except Stop (MshrQueue × Nat) := do
  let i ← index q.freeList 0
  require ((q.mshr i).getNumTargets == 0)
  let m ← (q.mshr i).allocate addr size pkt when_ order
  let q := { q with
    freeList := q.freeList.tail
    allocatedList := q.allocatedList ++ [i]
    allocated := q.allocated + 1 }
  pure ((q.setMshr i m).addToReadyList i, i)

/-- `deallocateOne` (and `deallocate`, which only calls it). -/
def deallocate (q : MshrQueue) (i : Nat) : Except Stop MshrQueue := do
  let m := q.mshr i
  let q := { q with
    allocatedList := q.allocatedList.erase i
    freeList := i :: q.freeList
    allocated := q.allocated - 1
    inServiceEntries := if m.inService then q.inServiceEntries - 1 else q.inServiceEntries
    readyList := if m.inService then q.readyList else q.readyList.erase i }
  let m ← m.deallocate
  pure (q.setMshr i m)

def markInService (q : MshrQueue) (i : Nat) (pkt : Option Packet) : Except Stop MshrQueue := do
  let (m, done) ← (q.mshr i).markInService pkt
  let q := q.setMshr i m
  if done then q.deallocate i
  else pure { q with readyList := q.readyList.erase i, inServiceEntries := q.inServiceEntries + 1 }

def markPending (q : MshrQueue) (i : Nat) : Except Stop MshrQueue := do
  require (q.inService i)
  let q := q.setMshr i { q.mshr i with inService := false }
  pure ({ q with inServiceEntries := q.inServiceEntries - 1 }.addToReadyList i)

/-- `forceDeallocateTarget`, with whether the queue is no longer full. -/
def forceDeallocateTarget (q : MshrQueue) (i : Nat) (curTick : Tick) :
    Except Stop (MshrQueue × Bool) := do
  let wasFull := q.isFull
  require (q.mshr i).hasTargets
  let m := (q.mshr i).popTarget
  let q := q.setMshr i m
  let q ←
    (if m.hasTargets then .ok q
     else do
      let (m, promoted) ← m.promoteDeferredTargets curTick
      let q := q.setMshr i m
      if promoted then .ok q else q.deallocate i)
  pure (q, wasFull && !q.isFull)

def getNextMSHR (q : MshrQueue) (curTick : Tick) : Option Nat :=
  match q.readyList with
  | [] => none
  | i :: _ => if q.readyTime i > curTick then none else some i

end MshrQueue

end Gem5.Cache
