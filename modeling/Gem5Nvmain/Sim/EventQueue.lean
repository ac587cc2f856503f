import Mathlib.Data.Prod.Lex
import Mathlib.Logic.Function.Basic
import Gem5Nvmain.Lib.Exec
import Gem5Nvmain.Lib.Bins

/- The event queue (sim/eventq.cc, sim/eventq_impl.hh).

  An event is known by a number, which stands for its pointer, and `nextBin` and `nextInBin` are such numbers. Loops
  over the pointers have fuel: the number of events that are scheduled is always enough. What an event does
  (`process`) comes as the next operations of the queue. Left out: the queues of other threads, checkpoints, and the
  deletion of an event after it was served, which no pointer leads to any more. -/
namespace Gem5.Sim
open Lib Function

structure Event where
  nextBin : Option Nat := none
  nextInBin : Option Nat := none
  _when : Nat := 0
  _priority : Int := 0
  /-- flag Scheduled -/
  scheduled : Bool := false
  /-- flag Squashed -/
  squashed : Bool := false
  deriving DecidableEq, Repr

namespace Event

def lt (l r : Event) : Bool := decide (l._when < r._when) || (l._when == r._when && decide (l._priority < r._priority))
def le (l r : Event) : Bool := decide (l._when < r._when) || (l._when == r._when && decide (l._priority ≤ r._priority))
def eq (l r : Event) : Bool := l._when == r._when && l._priority == r._priority

/-- What the comparisons look at, the time first. -/
def key (e : Event) : Nat ×ₗ Int := toLex (e._when, e._priority)

/-- Sets the pointers of the event, which is the top of its bin then. -/
def insertBefore (events : Nat → Event) (event : Nat) (curr : Option Nat) : Nat → Event :=
  match curr with
  | none => update events event { events event with nextBin := none, nextInBin := none }
  | some curr =>
    if (events event).lt (events curr) then update events event { events event with nextBin := some curr, nextInBin := none }
    else update events event { events event with nextBin := (events curr).nextBin, nextInBin := some curr }

/-- The loop of `removeItem`: the element above the event. -/
def findItem (events : Nat → Event) (event : Nat) : Nat → Nat → Option Nat → Except Stop Nat
  | _, _, none => .error (.fatal "event not found!")
  | fuel, curr, some next =>
    if event = next then pure curr
    else
      match fuel with
      | 0 => .error .outOfFuel
      | fuel + 1 => findItem events event fuel next (events next).nextInBin

/-- The new top of the bin. -/
def removeItem (fuel : Nat) (events : Nat → Event) (event top : Nat) : Except Stop ((Nat → Event) × Option Nat) :=
  if event = top then
    match (events top).nextInBin with
    | none => pure (events, (events top).nextBin)
    | some next => pure (update events next { events next with nextBin := (events top).nextBin }, some next)
  else do
    let curr ← findItem events event fuel top (events top).nextInBin
    pure (update events curr { events curr with nextInBin := (events event).nextInBin }, some top)

end Event

structure EventQueue where
  events : Nat → Event
  head : Option Nat := none
  _curTick : Nat := 0

namespace EventQueue

/-- The loop of `insert` and `remove`: the bin before, and the first bin that is not before the event. -/
def findBin (events : Nat → Event) (event : Nat) : Nat → Nat → Option Nat → Except Stop (Nat × Option Nat)
  | _, prev, none => pure (prev, none)
  | fuel, prev, some curr =>
    if (events curr).lt (events event) then
      match fuel with
      | 0 => .error .outOfFuel
      | fuel + 1 => findBin events event fuel curr (events curr).nextBin
    else pure (prev, some curr)

def insert (fuel : Nat) (q : EventQueue) (event : Nat) : Except Stop EventQueue :=
  match q.head with
  | none => pure { q with events := Event.insertBefore q.events event none, head := some event }
  | some head =>
    if (q.events event).le (q.events head) then
      pure { q with events := Event.insertBefore q.events event (some head), head := some event }
    else do
      let (prev, curr) ← findBin q.events event fuel head (q.events head).nextBin
      let events := Event.insertBefore q.events event curr
      pure { q with events := update events prev { events prev with nextBin := some event } }

def remove (fuel : Nat) (q : EventQueue) (event : Nat) : Except Stop EventQueue :=
  match q.head with
  | none => .error (.fatal "event not found!")
  | some head =>
    if (q.events head).eq (q.events event) then do
      let (events, top) ← Event.removeItem fuel q.events event head
      pure { q with events := events, head := top }
    else do
      let (prev, curr) ← findBin q.events event fuel head (q.events head).nextBin
      match curr with
      | none => .error (.fatal "event not found!")
      | some curr =>
        if (q.events curr).eq (q.events event) then do
          let (events, top) ← Event.removeItem fuel q.events event curr
          pure { q with events := update events prev { events prev with nextBin := top } }
        else .error (.fatal "event not found!")

def setScheduled (q : EventQueue) (event : Nat) (scheduled : Bool) : EventQueue :=
  { q with events := update q.events event { q.events event with scheduled := scheduled } }

def setSquashed (q : EventQueue) (event : Nat) (squashed : Bool) : EventQueue :=
  { q with events := update q.events event { q.events event with squashed := squashed } }

def setWhen (q : EventQueue) (event when' : Nat) : EventQueue :=
  { q with events := update q.events event { q.events event with _when := when' } }

def schedule (fuel : Nat) (q : EventQueue) (event when' : Nat) : Except Stop EventQueue := do
  require (decide (when' ≥ q._curTick))
  require (!(q.events event).scheduled)
  let q ← (q.setWhen event when').insert fuel event
  pure (q.setScheduled event true)

def deschedule (fuel : Nat) (q : EventQueue) (event : Nat) : Except Stop EventQueue := do
  require (q.events event).scheduled
  let q ← q.remove fuel event
  pure ((q.setSquashed event false).setScheduled event false)

def reschedule (fuel : Nat) (q : EventQueue) (event when' : Nat) (always : Bool) : Except Stop EventQueue := do
  require (decide (when' ≥ q._curTick))
  require (always || (q.events event).scheduled)
  let q ← if (q.events event).scheduled then q.remove fuel event else pure q
  let q ← (q.setWhen event when').insert fuel event
  pure ((q.setSquashed event false).setScheduled event true)

/-- The part of `serviceOne` that takes the head out of its bin. -/
def popHead (q : EventQueue) (event : Nat) : EventQueue :=
  match (q.events event).nextInBin with
  | some next =>
    { q with events := update q.events next { q.events next with nextBin := (q.events event).nextBin }, head := some next }
  | none => { q with head := (q.events event).nextBin }

/-- The event that was taken from the head, and whose turn it is now unless it is squashed. -/
def serviceOne (q : EventQueue) : Except Stop (Nat × EventQueue) :=
  match q.head with
  | none => .error .outOfRange
  | some event =>
    let q := (q.setScheduled event false).popHead event
    if (q.events event).squashed then pure (event, q.setSquashed event false)
    else pure (event, { q with _curTick := (q.events event)._when })

end EventQueue

end Gem5.Sim
