import Gem5Nvmain.Lib.Clocks
import Gem5Nvmain.Nvm.EventQueueSpec
import Mathlib.Data.Rat.Floor
import Mathlib.Logic.Function.Basic

/- The global event queue (`GlobalEventQueue`).

  Each subsystem has an event queue that counts in its own clock. `Cycle(steps)` calls `Loop` on the queue of the next
  event, moves the global clock to that event, and lets `Sync` bring the other queues to the global clock. A call of
  `Loop` stops at each handler, as in the queue itself, so that `Cycle` is a sequence of steps: `go` is what `Cycle`
  does up to the next call of `Loop` or behind it, and `call` what the running handler does.

  `AddSystem` asserts that no subsystem is faster than the global queue; `Frequencies` carries that. The frequencies
  are exact here, and the queues are visited in the order of their numbers.

  `times` is the history: the global time of each event when it was processed. `counts` holds the differences that
  `Cycle` and `Sync` compute for `Loop`, and whether `Loop` was called with them. -/
namespace Nvm
open Lib Function

structure Frequencies where
  frequency : ℚ
  count : Nat
  sub : Nat → ℚ
  pos : ∀ i < count, 0 < sub i
  le : ∀ i < count, sub i ≤ frequency

namespace Frequencies

/-- `frequencyMultiplier`. -/
def multiplier (f : Frequencies) (i : Nat) : ℚ := f.frequency / f.sub i

variable {f : Frequencies} {i : Nat}

theorem one_le_multiplier (hi : i < f.count) : 1 ≤ f.multiplier i := (one_le_div (f.pos i hi)).mpr (f.le i hi)

theorem multiplier_pos (hi : i < f.count) : 0 < f.multiplier i := zero_lt_one.trans_le (one_le_multiplier hi)

end Frequencies

/-- A difference `target - clock`, and whether it is an argument of `Loop`. -/
structure StepCount where
  target : Nat
  clock : Nat
  given : Bool
  deriving DecidableEq, Repr

/-- Where `Cycle` stands: at the top of its loop, in `Loop` of the next queue, in `Sync` at the queue `j`, or in
  `Loop` of that queue. `last` says that `Cycle` breaks out of its loop after `Sync`. -/
inductive GlobalControl where
  | idle
  | cycling (steps iterationSteps : Nat)
  | looping (steps iterationSteps globalQueueSteps i : Nat)
  | syncing (steps iterationSteps : Nat) (last : Bool) (j : Nat)
  | syncLoop (steps iterationSteps : Nat) (last : Bool) (j : Nat)
  deriving DecidableEq, Repr

structure GlobalEventQueue where
  queues : Nat → QueueRun := fun _ => {}
  currentCycle : Nat := 0
  control : GlobalControl := .idle
  times : List Nat := []
  counts : List StepCount := []

namespace GlobalEventQueue
variable (f : Frequencies)

/-- The global time of the cycle `c` of a queue. -/
def globalCycle (i c : Nat) : Nat := toGlobal (f.multiplier i) c

/-- `setCycle` of `Sync`, as an `ncycle_t`. -/
def setCycle (s : GlobalEventQueue) (j : Nat) : Nat := toLocal (f.multiplier j) s.currentCycle

/-- One iteration of the loop of `GetNextEvent`. A global time that is not an `ncycle_t` is not the next one. -/
def closer (s : GlobalEventQueue) (best : Nat × Option Nat) (i : Nat) : Nat × Option Nat :=
  if (s.queues i).queue.nextEventCycle = maxCycle then best
  else if globalCycle f i (s.queues i).queue.nextEventCycle < best.1 then
    (globalCycle f i (s.queues i).queue.nextEventCycle, some i)
  else best

/-- `GetNextEvent`: the global time of the next event and its queue. -/
def getNextEvent (s : GlobalEventQueue) : Nat × Option Nat :=
  (List.range f.count).foldl (s.closer f) (maxCycle, none)

/-- The queue `i` after a step of its own. -/
def setQueue (s : GlobalEventQueue) (i : Nat) (q : QueueRun) : GlobalEventQueue :=
  { s with
    queues := update s.queues i q
    times := s.times ++
      (q.processed.drop (s.queues i).processed.length).map fun d => globalCycle f i d.clock }

/-- A step of the queue `i`. -/
def onQueue (s : GlobalEventQueue) (i : Nat) (r : Except Stop QueueRun) : Except Stop GlobalEventQueue := do
  let q ← r
  pure (s.setQueue f i q)

/-- `globalQueueSteps`. -/
def globalSteps (s : GlobalEventQueue) (nextEvent : Nat) : Nat :=
  if s.currentCycle < nextEvent then subCycles nextEvent s.currentCycle else 0

/-- The body of the loop of `Cycle`, up to the call of `Loop`. -/
def pick (s : GlobalEventQueue) (steps iterationSteps : Nat) : Except Stop GlobalEventQueue :=
  let next := s.getNextEvent f
  let globalQueueSteps := s.globalSteps next.1
  if subCycles steps iterationSteps < globalQueueSteps then
    .ok { s with
      currentCycle := addCycles s.currentCycle (subCycles steps iterationSteps)
      control := .syncing steps iterationSteps true 0 }
  else
    match next.2 with
    | none => .error .outOfRange
    | some i =>
      let q := (s.queues i).queue
      let s' : GlobalEventQueue := { s with
        control := .looping steps iterationSteps globalQueueSteps i
        counts := s.counts ++ [⟨q.nextEventCycle, q.currentCycle, true⟩] }
      s'.onQueue f i ((s.queues i).loopSteps (subCycles q.nextEventCycle q.currentCycle))

/-- The body of the loop of `Sync`. -/
def sync (s : GlobalEventQueue) (steps iterationSteps : Nat) (last : Bool) (j : Nat) : Except Stop GlobalEventQueue :=
  let clock := (s.queues j).queue.currentCycle
  if clock < s.setCycle f j then
    let s' : GlobalEventQueue := { s with
      control := .syncLoop steps iterationSteps last j
      counts := s.counts ++ [⟨s.setCycle f j, clock, true⟩] }
    s'.onQueue f j ((s.queues j).loopSteps (subCycles (s.setCycle f j) clock))
  else
    .ok { s with
      control := .syncing steps iterationSteps last (j + 1)
      counts := s.counts ++ [⟨s.setCycle f j, clock, false⟩] }

/-- What `Cycle` does next, when no handler runs. -/
def go (s : GlobalEventQueue) : Except Stop GlobalEventQueue :=
  match s.control with
  | .idle => .error .assertFailed
  | .cycling steps iterationSteps =>
    if iterationSteps < steps then s.pick f steps iterationSteps else .ok { s with control := .idle }
  | .looping steps iterationSteps globalQueueSteps i => do
    require ((s.queues i).control == .idle)
    pure { s with
      currentCycle := addCycles s.currentCycle globalQueueSteps
      control := .syncing steps (addCycles iterationSteps globalQueueSteps) false 0 }
  | .syncing steps iterationSteps last j =>
    if j < f.count then s.sync f steps iterationSteps last j
    else .ok { s with control := if last then .idle else .cycling steps iterationSteps }
  | .syncLoop steps iterationSteps last j => do
    require ((s.queues j).control == .idle)
    pure { s with control := .syncing steps iterationSteps last (j + 1) }

/-- The queue whose `Loop` is going on. -/
def active (s : GlobalEventQueue) : Option Nat :=
  match s.control with
  | .looping _ _ _ i => some i
  | .syncLoop _ _ _ j => some j
  | _ => none

inductive Op where
  /-- An event is inserted or removed while no call of `Cycle` is going on. -/
  | outside (i : Nat) (op : QueueRun.Op)
  | cycle (steps : Nat)
  | call (op : QueueRun.Op)
  | go

/-- The operation inserts or removes an event. -/
def request : QueueRun.Op → Bool
  | .insertEvent .. | .insertMade .. | .insertCallback .. | .removeEvent .. => true
  | .loop | .loopSteps _ | .handlerReturns => false

def step (s : GlobalEventQueue) (op : Op) : Except Stop GlobalEventQueue :=
  match op with
  | .outside i op => do
    require (s.control == .idle && decide (i < f.count) && request op)
    s.onQueue f i ((s.queues i).step op)
  | .cycle steps => do
    require (s.control == .idle)
    pure { s with control := .cycling steps 0 }
  | .call op =>
    match s.active with
    | none => .error .assertFailed
    | some i => do
      require (decide ((s.queues i).control ≠ .idle))
      s.onQueue f i ((s.queues i).step op)
  | .go => s.go f

end GlobalEventQueue

end Nvm
