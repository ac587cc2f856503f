import Gem5Nvmain.Nvm.Controller

/- The schedulers FRFCFS and FRFCFS_WQF (nvmain-test/MemControl/FRFCFS/FRFCFS.cpp,
  MemControl/FRFCFS-WQF/FRFCFS-WQF.cpp), and the system they are part of.

  FRFCFS has one transaction queue; FRFCFS_WQF has one for reads (0) and one for writes (1), and takes from the latter
  only while it drains it.

  A step of the system is one of the calls that the parts make of each other, in any order: `Cycle` is a `schedule`
  followed by a `cycleCommandQueues`, and the events of an event-driven run add calls of `handleRefresh` and
  `cycleCommandQueues` between them. What happens in the memory below is left open. -/
namespace Nvm
open Lib Function

variable {p : Params} {M : Type}

inductive Policy where
  | frfcfs (queueSize : Nat)
  | frfcfsWqf (readQueueSize writeQueueSize highWaterMark lowWaterMark : Nat)
  deriving DecidableEq, Repr

namespace Policy

def transactionQueueCount : Policy → Nat
  | frfcfs _ => 1
  | frfcfsWqf .. => 2

/-- The queue of the writes. -/
def writeQueueId : Policy → Nat
  | frfcfs _ => 0
  | frfcfsWqf .. => 1

def queueOf (pol : Policy) (r : Request p) : Nat := if r.isWrite then pol.writeQueueId else 0

/-- `IsIssuable`: whether the transaction is accepted. -/
def isIssuable (pol : Policy) (s : Controller p) (r : Request p) : Bool :=
  match pol with
  | frfcfs queueSize => (s.transactionQueues 0).length < queueSize
  | frfcfsWqf readQueueSize writeQueueSize _ _ =>
    if r.type = .read then (s.transactionQueues 0).length < readQueueSize
    else (s.transactionQueues 1).length < writeQueueSize && !s.draining && !s.forceDrain

/-- `IssueCommand` of a read or a write that is accepted. -/
def enqueue (pol : Policy) (s : Controller p) (r : Request p) : Controller p :=
  let q := pol.queueOf r
  { s with transactionQueues :=
      update s.transactionQueues q (s.transactionQueues q ++ [{ r with arrivalCycle := s.cycle }]) }

/-- `RequestComplete` of a write that was paused or cancelled. -/
def prequeue (pol : Policy) (s : Controller p) (r : Request p) : Controller p :=
  let q := pol.writeQueueId
  { s with transactionQueues := update s.transactionQueues q (r :: s.transactionQueues q) }

/-- `FRFCFS_WQF` starts or ends a drain. -/
def updateDraining (pol : Policy) (s : Controller p) : Controller p :=
  match pol with
  | frfcfs _ => s
  | frfcfsWqf _ _ highWaterMark lowWaterMark =>
    let writes := (s.transactionQueues 1).length
    if !s.draining && decide (writes ≥ highWaterMark) && !s.forceDrain then { s with draining := true }
    else if s.draining && decide (writes ≤ lowWaterMark) && !s.forceDrain then { s with draining := false }
    else s

/-- The queue that `Cycle` takes from. -/
def scheduled (pol : Policy) (s : Controller p) : Nat :=
  match pol with
  | frfcfs _ => 0
  | frfcfsWqf .. => if s.draining || (s.forceDrain && (s.transactionQueues 0).isEmpty) then 1 else 0

/-- "If we are draining, do not allow write cancellation or pausing." -/
def forces (pol : Policy) (s : Controller p) : Bool :=
  match pol with
  | frfcfs _ => false
  | frfcfsWqf .. => s.draining || s.forceDrain

def drain (pol : Policy) (s : Controller p) : Controller p :=
  match pol with
  | frfcfs _ => s
  | frfcfsWqf .. => { s with forceDrain := true }

def finds : Policy → List Controller.Find
  | frfcfs _ =>
    [.starvedRequest, .rowBufferHit, .cachedAddress, .writeStalledRead, .oldestReadyRequest, .closedBankRequest]
  | frfcfsWqf .. => [.starvedRequest, .rowBufferHit, .cachedAddress, .oldestReadyRequest, .closedBankRequest]

/-- The request that `Cycle` takes out of a transaction queue. -/
def take (pol : Policy) (mem : Memory p M) (m : M) (s : Controller p) :
    Except Stop (Controller p × Option (Request p)) := do
  let s := pol.updateDraining s
  let q := pol.scheduled s
  match ← s.findNext mem m (s.transactionQueues q) pol.finds with
  | .taken r rest =>
    pure ({ s with transactionQueues := update s.transactionQueues q rest },
      some { r with forced := r.forced || pol.forces s })
  | _ => pure (s, none)

/-- The first part of `Cycle`: a transaction becomes commands. -/
def schedule (pol : Policy) (mem : Memory p M) (m : M) (s : Controller p) : Except Stop (Controller p) := do
  match ← pol.take mem m s with
  | (s, some r) => do
    let (s, _) ← s.issueMemoryCommands mem m r
    pure s
  | (s, none) => pure s

end Policy

inductive Op (p : Params) (M : Type) where
  | issueCommand (id : Nat) (write : Bool) (a : Address p)
  | schedule
  | refreshPulse (rank : Fin p.ranks) (group : Fin p.refreshBankNum)
  | handleRefresh
  | cycleCommandQueues
  /-- The memory returns a request; a write may have been paused or cancelled. -/
  | requestComplete (id : Nat) (paused cancelled : Bool)
  | memory (m : M)
  | drain
  | tick

/-- The read or write that arrives. -/
def arrival (id : Nat) (write : Bool) (a : Address p) : Request p :=
  { id := some id, type := if write then .write else .read, address := a }

namespace System

def hasId (id : Nat) (r : Request p) : Bool := r.id == some id

/-- `RequestComplete`: an interrupted write goes back to its queue, and any other request to where it came from. -/
def requestComplete (pol : Policy) (x : System p M) (id : Nat) (paused cancelled : Bool) : System p M :=
  match x.below.find? (hasId id) with
  | none => x
  | some r =>
    let x := { x with below := x.below.eraseP (hasId id) }
    if r.isWrite && (paused || cancelled) then
      { x with ctl := pol.prequeue x.ctl { r with paused := paused, cancelled := cancelled } }
    else x

def step (pol : Policy) (mem : Memory p M) (x : System p M) : Op p M → Except Stop (System p M)
  | .issueCommand id write a =>
    let r := arrival id write a
    .ok (if pol.isIssuable x.ctl r then { x with ctl := pol.enqueue x.ctl r } else x)
  | .schedule => do
    let ctl ← pol.schedule mem x.mem x.ctl
    pure { x with ctl := ctl }
  | .refreshPulse rank group =>
    -- without refresh no pulse is ever scheduled
    if p.useRefresh then do
      let ctl ← x.ctl.processRefreshPulse (group * p.banksPerRefresh) rank
      pure { x with ctl := ctl }
    else .ok x
  | .handleRefresh => do
    let (ctl, _) ← x.ctl.handleRefresh
    pure { x with ctl := ctl }
  | .cycleCommandQueues => x.cycleCommandQueues mem
  | .requestComplete id paused cancelled => .ok (x.requestComplete pol id paused cancelled)
  | .memory m => .ok { x with mem := m }
  | .drain => .ok { x with ctl := pol.drain x.ctl }
  | .tick => .ok { x with ctl := x.ctl.tick }

end System

end Nvm
