import Gem5Nvmain.Nvm.Banks
import Gem5Nvmain.Nvm.Scheduler

/- The wake-ups of the command queues (ScheduleCommandWake, CommandQueueCallback, RefreshCallback and NextIssuable of
  nvmain-test/src/MemoryController.cpp).

  With `EventDriven` nothing runs in each cycle: the command queues are served when a `CommandQueueCallback` comes out
  of the event queue, and when the scheduler takes a transaction. `wakes` are the cycles for which a callback is
  scheduled; a cycle ends when its own has been processed.

  `HandleRefresh` ends with a wake-up, which asks `NextIssuable`, which may call `HandleRefresh` again, once for each
  refresh that is due. `depth` bounds this nesting.

  Correspondence (C++ ↔ Lean):
    `std::numeric_limits<ncycle_t>::max( )` ↔ `none`: such an event never comes
    `FindCallback` before `InsertCallback` ↔ `insert`
    `GetChild( )->NextIssuable( queueHead )` ↔ `TimedMemory.nextIssuable`

  The events that wake the scheduler are left out, as `cycle` may come at any time, and so is catching up the
  statistics of the ranks. -/
namespace Nvm
open Lib Function

variable {p : Params} {M : Type}

/-- The memory below, which also says when it will take a command. -/
structure TimedMemory (p : Params) (M : Type) extends Memory p M where
  nextIssuable : M → Request p → Nat

/-- The ranks and banks of `Nvm/Banks`. -/
def timedBanks (tm : Timing p) : TimedMemory p (Nat → Rank p) :=
  { bankMemory tm with nextIssuable := Ranks.nextIssuable tm }

namespace Controller

/-- "Returns true if the command queue is empty or will be empty the next cycle". -/
def effectivelyEmpty (s : Controller p) (queueId : Nat) : Bool :=
  match s.commandQueues queueId with
  | [] => true
  | [r] => r.issued
  | _ => false

/-- `IsRefreshBankQueueEmpty`. A group that has a counter has all its banks. -/
def isRefreshBankQueueEmpty (s : Controller p) (a : Address p) : Bool :=
  (groupBanks p a.bank).all fun b =>
    if h : b < p.banks then s.effectivelyEmpty (getCommandQueueId (Address.ofBank b a.rank h a.rank_lt)) else true

/-- The banks in the order in which `NextIssuable` looks at them. -/
def allBanks (p : Params) : List (Address p) :=
  (List.finRange p.ranks).flatMap fun rankIdx : Fin p.ranks =>
    (List.finRange p.banks).map fun bankIdx : Fin p.banks => Address.ofBank bankIdx rankIdx bankIdx.isLt rankIdx.isLt

/-- `IssueMemoryCommands` takes the path for cached requests, which returns early. -/
def takesCachedPath (mem : Memory p M) (m : M) (s : Controller p) (r : Request p) : Bool :=
  match makeCachedRequest r with
  | .ok cachedRequest => mem.isIssuable m s.cycle cachedRequest &&
      !(s.activateQueued (r.address.rank, r.address.bank) && s.rowBufferHit r.address)
  | .error _ => false

end Controller

structure Awake (p : Params) (M : Type) where
  sys : System p M
  /-- The cycles for which a `CommandQueueCallback` is scheduled. -/
  wakes : List Nat := []

namespace Awake

def ctl (y : Awake p M) : Controller p := y.sys.ctl

def withCtl (y : Awake p M) (ctl : Controller p) : Awake p M := { y with sys := { y.sys with ctl := ctl } }

/-- "Avoid scheduling multiple duplicate events". -/
def insert (y : Awake p M) (nextWakeup : Option Nat) : Awake p M :=
  match nextWakeup with
  | some w => if y.wakes.contains w then y else { y with wakes := w :: y.wakes }
  | none => y

/-- `nextWakeup = MIN( nextWakeup, w )`. -/
def earliest (nextWakeup : Option Nat) (w : Nat) : Option Nat :=
  match nextWakeup with
  | some v => some (min v w)
  | none => some w

section Functions
variable (mem : TimedMemory p M)

/-- "Give refresh priority": the first half of a round of `NextIssuable`, where `handle` is `HandleRefresh`. -/
def refreshPriority (handle : Awake p M → Except Stop (Awake p M)) (y : Awake p M) (nextWakeup : Option Nat)
    (a : Address p) : Except Stop (Awake p M × Option Nat) := do
  let need ← y.ctl.needRefresh a.bank a.rank
  if need && y.ctl.isRefreshBankQueueEmpty a then
    if y.ctl.lastIssueCycle ≠ y.ctl.cycle then do
      let y ← handle y
      pure (y, nextWakeup)
    else pure (y, some (y.ctl.cycle + 1))
  else pure (y, nextWakeup)

/-- A round of `NextIssuable`. -/
def lookAtBank (handle : Awake p M → Except Stop (Awake p M)) (z : Awake p M × Option Nat) (a : Address p) :
    Except Stop (Awake p M × Option Nat) := do
  let (y, nextWakeup) ← refreshPriority handle z.1 z.2 a
  match y.ctl.commandQueues (getCommandQueueId a) with
  | [] => pure (y, nextWakeup)
  | queueHead :: _ => pure (y, earliest nextWakeup (mem.nextIssuable y.sys.mem queueHead))

/-- `NextIssuable` of the controller. -/
def nextIssuable (handle : Awake p M → Except Stop (Awake p M)) (y : Awake p M) : Except Stop (Awake p M × Option Nat) := do
  let (y, nextWakeup) ← (Controller.allBanks p).foldlM (lookAtBank mem handle) (y, none)
  pure (y, nextWakeup.map fun w => if w ≤ y.ctl.cycle then y.ctl.cycle + 1 else w)

/-- `ScheduleCommandWake`. -/
def scheduleWith (handle : Awake p M → Except Stop (Awake p M)) (y : Awake p M) : Except Stop (Awake p M) := do
  let (y, nextWakeup) ← nextIssuable mem handle y
  pure (y.insert nextWakeup)

/-- `HandleRefresh` with the wake-up at its end. -/
def handleRefresh : Nat → Awake p M → Except Stop (Awake p M)
  | 0, _ => .error .outOfFuel
  | depth + 1, y => do
    let (ctl, queued) ← y.ctl.handleRefresh
    let y := y.withCtl ctl
    if queued then scheduleWith mem (handleRefresh depth) y else pure y

variable (depth : Nat)

/-- `IssueMemoryCommands` with the wake-up at its end. -/
def issueMemoryCommands (y : Awake p M) (r : Request p) : Except Stop (Awake p M) := do
  let cached := y.ctl.takesCachedPath mem.toMemory y.sys.mem r
  let (ctl, queued) ← y.ctl.issueMemoryCommands mem.toMemory y.sys.mem r
  let y := y.withCtl ctl
  if queued && !cached then scheduleWith mem (handleRefresh mem depth) y else pure y

def cycleCommandQueues (y : Awake p M) : Except Stop (Awake p M) := do
  let sys ← y.sys.cycleCommandQueues mem.toMemory
  pure { y with sys := sys }

/-- `Cycle` of a scheduler. -/
def cycle (pol : Policy) (y : Awake p M) : Except Stop (Awake p M) := do
  match ← pol.take mem.toMemory y.sys.mem y.ctl with
  | (ctl, some r) => do
    let y ← issueMemoryCommands mem depth (y.withCtl ctl) r
    cycleCommandQueues mem y
  | (ctl, none) => cycleCommandQueues mem (y.withCtl ctl)

/-- `CommandQueueCallback`, whose event is deleted afterwards. -/
def commandQueueCallback (y : Awake p M) : Except Stop (Awake p M) := do
  let (y, nextWakeup) ← nextIssuable mem (handleRefresh mem depth) y
  let y ← cycleCommandQueues mem (y.insert nextWakeup)
  pure { y with wakes := y.wakes.filter fun w => w != y.ctl.cycle }

/-- `RefreshCallback`. -/
def refreshCallback (y : Awake p M) (rank group : Nat) : Except Stop (Awake p M) := do
  let ctl ← y.ctl.processRefreshPulse (group * p.banksPerRefresh) rank
  handleRefresh mem depth (y.withCtl ctl)

inductive Op (p : Params) where
  | issueCommand (id : Nat) (write : Bool) (a : Address p)
  | cycle
  | commandQueueCallback
  | refreshCallback (rank : Fin p.ranks) (group : Fin p.refreshBankNum)
  | requestComplete (id : Nat) (paused cancelled : Bool)
  | drain
  | tick

def step (pol : Policy) (y : Awake p M) : Op p → Except Stop (Awake p M)
  | .issueCommand id write a =>
    let r := arrival id write a
    .ok (if pol.isIssuable y.ctl r then y.withCtl (pol.enqueue y.ctl r) else y)
  | .cycle => cycle mem depth pol y
  | .commandQueueCallback => if y.wakes.contains y.ctl.cycle then commandQueueCallback mem depth y else .ok y
  | .refreshCallback rank group => if p.useRefresh then refreshCallback mem depth y rank group else .ok y
  | .requestComplete id paused cancelled => .ok { y with sys := y.sys.requestComplete pol id paused cancelled }
  | .drain => .ok (y.withCtl (pol.drain y.ctl))
  -- all events of a cycle come before the next cycle
  | .tick => .ok (if y.wakes.contains y.ctl.cycle then y else y.withCtl y.ctl.tick)

end Functions

end Awake

end Nvm
