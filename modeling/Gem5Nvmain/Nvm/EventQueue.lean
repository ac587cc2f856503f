import Gem5Nvmain.Lib.Cursor
import Gem5Nvmain.Lib.Exec

/- The event queue (`EventQueue`).

  `eventMap` is a map from cycles to lists of events. It is one list here, the lists of the map one after the other in
  the order of their cycles: a list of the map is never empty, so that `eventMap.count(when)` is whether an event of
  that cycle is there, and `eventMap.begin()` is the cycle of the first one.

  `Process` runs the handlers of one list, and a handler can insert and remove events before it returns. So a call of
  `Loop` is not one step: it stops at each handler (`Control.handling`), the calls that the handler makes are steps of
  their own, and `handlerReturns` goes on. A handled event is deleted, but it stays in the list until the whole list
  is erased. What `InsertEvent` reads as the priority of a deleted event is up to the environment (`freed`).

  Every insertion makes an event of its own here, with the number of insertions before it as its `id`:
  an `Event` that is inserted again after it was removed counts as another one.

  `inserted`, `removed`, `processed` and `behind` are the history. An event is `behind` when a handler put it into the
  list at or before the event that runs: the iterator does not come to it, and it is erased with the list. -/
namespace Nvm
open Lib

/-- The largest `ncycle_t`, which is what `nextEventCycle` holds when there is no event. -/
def maxCycle : Nat := 2 ^ 64 - 1

/-- `a + b` and `a - b` on `ncycle_t`. -/
def addCycles (a b : Nat) : Nat := (a + b) % 2 ^ 64

def subCycles (a b : Nat) : Nat := (a + 2 ^ 64 - b) % 2 ^ 64

theorem addCycles_le (a b : Nat) : addCycles a b ≤ a + b := Nat.mod_le _ _

theorem addCycles_of_le {a b : Nat} (h : a + b ≤ maxCycle) : addCycles a b = a + b := by
  unfold maxCycle at h
  exact Nat.mod_eq_of_lt (by omega)

theorem addCycles_le_maxCycle (a b : Nat) : addCycles a b ≤ maxCycle := by
  unfold addCycles maxCycle
  omega

theorem subCycles_of_le {a b : Nat} (hb : b ≤ a) (ha : a ≤ maxCycle) : subCycles a b = a - b := by
  unfold maxCycle at ha
  unfold subCycles
  omega

-- With the lemmas above, a comparison of terms need not look into the arithmetic of the word.
attribute [irreducible] addCycles subCycles

inductive EventType where
  | unknown
  | cycle
  | idle
  | request
  | response
  | callback
  deriving DecidableEq, Repr

/-- `Event`; the pointers are numbers, and only their equality is looked at. -/
structure Event where
  id : Nat := 0
  type : EventType := .unknown
  recipient : Option Nat := none
  request : Option Nat := none
  data : Option Nat := none
  method : Option Nat := none
  cycle : Nat := 0
  priority : Int := 0
  deriving DecidableEq, Repr

/-- What `Process` calls for an event. -/
inductive Call where
  | cycle (recipient : Option Nat) (steps : Nat)
  | requestComplete (recipient request : Option Nat)
  | callback (recipient method data : Option Nat)
  deriving DecidableEq, Repr

def Event.call (e : Event) (steps : Nat) : Option Call :=
  match e.type with
  | .cycle => some (.cycle e.recipient steps)
  | .response => some (.requestComplete e.recipient e.request)
  | .callback => some (.callback e.recipient e.method e.data)
  | .idle | .request | .unknown => none

structure EventQueue where
  eventMap : List Event := []
  nextEventCycle : Nat := maxCycle
  lastEventCycle : Nat := 0
  currentCycle : Nat := 0
  deriving DecidableEq, Repr

namespace EventQueue

/-- `eventMap.count(when)`. -/
def count (q : EventQueue) (t : Nat) : Bool := q.eventMap.any fun e => e.cycle == t

/-- `eventMap.begin()->first`, or the largest cycle when the map is empty. -/
def firstCycle : List Event → Nat
  | [] => maxCycle
  | e :: _ => e.cycle

/-- The event stands behind one of cycle `t` that is inserted with the priority `prio`; `read` is what `GetPriority()` returns. -/
def comesAfter (read : Event → Int) (t : Nat) (prio : Int) (e : Event) : Bool :=
  decide (t < e.cycle) || (e.cycle == t && decide (prio < read e))

/-- Where `InsertEvent` puts an event. -/
def place (q : EventQueue) (read : Event → Int) (t : Nat) (prio : Int) : Nat :=
  q.eventMap.findIdx (comesAfter read t prio)

/-- `InsertEvent(Event *, ncycle_t, int)`. -/
def insertEvent (q : EventQueue) (read : Event → Int) (e : Event) (t : Nat) (prio : Int) : EventQueue :=
  { q with
    nextEventCycle := if t < q.nextEventCycle then t else q.nextEventCycle
    eventMap := q.eventMap.insertIdx (q.place read t prio) { e with cycle := t } }

/-- The place of the event in the list of its cycle. -/
def find (q : EventQueue) (id t : Nat) : Option Nat := q.eventMap.findIdx? fun e => e.cycle == t && e.id == id

def removeEvent (q : EventQueue) (id t : Nat) : EventQueue × Bool :=
  if q.count t then
    match q.find id t with
    | some j => ({ q with eventMap := q.eventMap.eraseIdx j, nextEventCycle := firstCycle (q.eventMap.eraseIdx j) }, true)
    | none => ({ q with nextEventCycle := firstCycle q.eventMap }, false)
  else (q, false)

/-- `FindEvent`: the last event that matches, as the loop has no break. -/
def findEvent (q : EventQueue) (type : EventType) (recipient request : Option Nat) (t : Nat) : Option Event :=
  (q.eventMap.filter fun e =>
    e.cycle == t && e.type == type && e.recipient == recipient && e.request == request).getLast?

def findCallback (q : EventQueue) (recipient method : Option Nat) (t : Nat) (data : Option Nat) (prio : Int) : Option Event :=
  q.eventMap.find? fun e =>
    e.cycle == t && e.recipient == recipient && e.method == method && e.data == data && e.priority == prio

/-- The end of `Process`: the list is erased, and the next cycle is that of the first list left. -/
def erase (q : EventQueue) : EventQueue :=
  let rest := q.eventMap.filter fun e => e.cycle != q.nextEventCycle
  { q with eventMap := rest, lastEventCycle := q.nextEventCycle, nextEventCycle := firstCycle rest }

end EventQueue

/-- The call of `Loop` that `Process` returns to: `Loop()`, or `Loop(steps)` with the steps that are left. -/
inductive Caller where
  | loop
  | steps (stepCycles : Nat)
  deriving DecidableEq, Repr

/-- No call of `Loop` is going on, or one is at the event at `it`, in the list of the cycle `list`. -/
inductive Control where
  | idle
  | handling (list it : Nat) (caller : Caller)
  deriving DecidableEq, Repr

/-- An event that `Process` came to, the clock at that time and the call that it made. -/
structure Handled where
  event : Event
  clock : Nat
  call : Option Call
  deriving DecidableEq, Repr

structure QueueRun where
  queue : EventQueue := {}
  control : Control := .idle
  inserted : List Event := []
  removed : List Event := []
  behind : List Event := []
  processed : List Handled := []
  deriving DecidableEq, Repr

namespace QueueRun
open EventQueue

/-- The event was deleted, and its list not yet erased. -/
def isDeleted (s : QueueRun) (e : Event) : Bool :=
  match s.control with
  | .idle => false
  | .handling _ it _ => (s.queue.eventMap.take it).any fun d => d.id == e.id

/-- `GetPriority()`, of a deleted event whatever its freed storage holds. -/
def priorityOf (s : QueueRun) (freed : Nat → Int) (e : Event) : Int := if s.isDeleted e then freed e.id else e.priority

/-- An insertion at `j`; the iterator of a running `Process` stays at its event. -/
def insert (s : QueueRun) (freed : Nat → Int) (e : Event) (t : Nat) (prio : Int) : QueueRun :=
  let e := { e with id := s.inserted.length, cycle := t }
  let j := s.queue.place (s.priorityOf freed) t prio
  let s' := { s with queue := s.queue.insertEvent (s.priorityOf freed) e t prio, inserted := s.inserted ++ [e] }
  match s.control with
  | .idle => s'
  | .handling list it caller =>
    if j ≤ it then { s' with control := .handling list (it + 1) caller, behind := s.behind ++ [e] } else s'

/-- `RemoveEvent`. To erase the event that runs leaves `Process` with an iterator that is not valid. -/
def remove (s : QueueRun) (id t : Nat) : Except Stop QueueRun :=
  let s' := { s with queue := (s.queue.removeEvent id t).1 }
  match s.queue.find id t with
  | none => .ok s'
  | some j =>
    let e := (s.queue.eventMap[j]?).toList
    match s.control with
    | .idle => .ok { s' with removed := s.removed ++ e }
    | .handling list it caller =>
      if j = it then .error .outOfRange
      else if it < j then .ok { s' with removed := s.removed ++ e }
      else
        -- The place is before the iterator: the event was handled, or it is one that the iterator did not come to.
        let lost := e.filter fun e => decide (e ∈ s.behind)
        .ok { s' with
          control := .handling list (it - 1) caller
          removed := s.removed ++ lost
          behind := s.behind.diff lost }

/-- `Process` comes to the event at `it`. -/
def handle (s : QueueRun) (list it : Nat) (caller : Caller) : Except Stop QueueRun := do
  let e ← index s.queue.eventMap it
  let call := e.call (subCycles s.queue.nextEventCycle s.queue.lastEventCycle)
  pure { s with
    control := .handling list it caller
    processed := s.processed ++ [⟨e, s.queue.currentCycle, call⟩] }

/-- The beginning of `Process`. -/
def process (s : QueueRun) (caller : Caller) : Except Stop QueueRun := do
  require (s.queue.count s.queue.nextEventCycle)
  s.handle s.queue.nextEventCycle (s.queue.eventMap.findIdx fun e => e.cycle == s.queue.nextEventCycle) caller

/-- No call of `Loop` is left, and the clock is at `t`. -/
def stopAt (s : QueueRun) (t : Nat) : QueueRun :=
  { s with queue := { s.queue with currentCycle := t }, control := .idle }

/-- `while( stepCycles > 0 )` in `Loop(steps)`. -/
def loopWhile (s : QueueRun) (stepCycles : Nat) : Except Stop QueueRun :=
  if stepCycles = 0 then .ok (s.stopAt s.queue.currentCycle)
  else if addCycles s.queue.currentCycle stepCycles < s.queue.nextEventCycle then
    .ok (s.stopAt (addCycles s.queue.currentCycle stepCycles))
  else
    let currentSteps := subCycles s.queue.nextEventCycle s.queue.currentCycle
    let t := addCycles s.queue.currentCycle currentSteps
    (s.stopAt t).process (.steps (subCycles stepCycles currentSteps))

/-- `Loop()`. -/
def loop (s : QueueRun) : Except Stop QueueRun :=
  if s.queue.nextEventCycle = s.queue.currentCycle then s.process .loop
  else .ok (s.stopAt (addCycles s.queue.currentCycle 1))

/-- `Loop(steps)`. -/
def loopSteps (s : QueueRun) (steps : Nat) : Except Stop QueueRun :=
  if steps = 0 ∧ s.queue.nextEventCycle = s.queue.currentCycle then s.process (.steps 0)
  else s.loopWhile steps

/-- `Process` has come to the end of the list. -/
def finish (s : QueueRun) (caller : Caller) : Except Stop QueueRun :=
  let s := { s with queue := s.queue.erase }
  match caller with
  | .loop => .ok (s.stopAt (addCycles s.queue.currentCycle 1))
  | .steps stepCycles => s.loopWhile stepCycles

/-- The event at `it` is deleted, and `Process` goes on to the next one of the list. -/
def advance (s : QueueRun) (list it : Nat) (caller : Caller) : Except Stop QueueRun :=
  match s.queue.eventMap[it + 1]? with
  | some e => if e.cycle = list then s.handle list (it + 1) caller else s.finish caller
  | none => s.finish caller

inductive Op where
  | insertEvent (type : EventType) (recipient request : Option Nat) (t : Nat) (data : Option Nat) (prio : Int)
      (freed : Nat → Int)
  /-- An `Event` that the caller made; its own priority is not that of the call. -/
  | insertMade (e : Event) (t : Nat) (prio : Int) (freed : Nat → Int)
  | insertCallback (recipient method : Option Nat) (t : Nat) (data : Option Nat) (prio : Int) (freed : Nat → Int)
  | removeEvent (id t : Nat)
  | loop
  | loopSteps (steps : Nat)
  | handlerReturns

/-- The event, the cycle and the priority of an insertion. -/
def Op.insertion : Op → Option (Event × Nat × Int × (Nat → Int))
  | .insertEvent type recipient request t data prio freed => some ({ type, recipient, request, data }, t, prio, freed)
  | .insertMade e t prio freed => some (e, t, prio, freed)
  | .insertCallback recipient method t data prio freed =>
    some ({ type := .callback, recipient, method, data, priority := prio }, t, prio, freed)
  | _ => none

def step (s : QueueRun) (op : Op) : Except Stop QueueRun :=
  match op with
  | .insertEvent type recipient request t data prio freed => .ok (s.insert freed { type, recipient, request, data } t prio)
  | .insertMade e t prio freed => .ok (s.insert freed e t prio)
  | .insertCallback recipient method t data prio freed =>
    .ok (s.insert freed { type := .callback, recipient, method, data, priority := prio } t prio)
  | .removeEvent id t => s.remove id t
  | .loop => do
    require (s.control == .idle)
    s.loop
  | .loopSteps steps => do
    require (s.control == .idle)
    s.loopSteps steps
  | .handlerReturns =>
    match s.control with
    | .idle => .error .assertFailed
    | .handling list it caller => s.advance list it caller

/-- The events that no call has come to. -/
def pending (s : QueueRun) : List Event :=
  match s.control with
  | .idle => s.queue.eventMap
  | .handling _ it _ => s.queue.eventMap.drop (it + 1)

end QueueRun

end Nvm
