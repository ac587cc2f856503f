import Gem5Nvmain.Lib.Exec
import Gem5Nvmain.Lib.Stable
import Mathlib.Data.Nat.Basic

/- The queue of a port (mem/packet_queue.cc), which sends packets when they are ready.

  `PacketQueue` is the object. `System` puts it where it is used: its event, the receiver of its packets and whoever
  adds packets. A call of `sendTiming` stays open (`sending`) until the receiver answers, and packets can be added
  meanwhile. `calls`, `sent`, `refused`, `retryOwed` and `headSince` are the history, which the queue does not have.

  The packets are of any type `α`. A slave queue never sends snoop responses, and no queue sends express snoops: its
  callers see to both. Left out: `checkFunctional` and the label. -/
namespace Gem5.Mem
open Lib

structure DeferredPacket (α : Type) where
  tick : Nat
  pkt : α
  sendAsSnoop : Bool := false
  deriving DecidableEq, Repr

structure PacketQueue (α : Type) where
  transmitList : List (DeferredPacket α) := []
  /-- the tick that the event is scheduled at -/
  sendEvent : Option Nat := none
  drainManager : Bool := false
  waitingOnRetry : Bool := false
  deriving DecidableEq, Repr

namespace PacketQueue

variable {α : Type}

def MaxTick : Nat := 0xffffffffffffffff

def deferredPacketReady (q : PacketQueue α) (curTick : Nat) : Bool := q.transmitList.head?.any (·.tick ≤ curTick)

def deferredPacketReadyTime (q : PacketQueue α) : Nat := (q.transmitList.head?.map (·.tick)).getD MaxTick

/-- `schedule`, or `reschedule` of an event that is scheduled, with the assertion of both. -/
def schedule (q : PacketQueue α) (curTick «when» : Nat) : Except Stop (PacketQueue α) := do
  require (decide («when» ≥ curTick))
  pure { q with sendEvent := some «when» }

def schedSendEvent (q : PacketQueue α) (curTick «when» : Nat) : Except Stop (PacketQueue α) :=
  if q.waitingOnRetry then do
    require q.sendEvent.isNone
    pure q
  else match q.sendEvent with
    | none => q.schedule curTick «when»
    | some n => if n > «when» then q.schedule curTick «when» else pure q

def schedSendTiming (q : PacketQueue α) (curTick : Nat) (d : DeferredPacket α) : Except Stop (PacketQueue α) := do
  require (decide (d.tick ≥ curTick))
  if q.transmitList.length > 100 then
    throw (.fatal "Packet queue has grown beyond 100 packets")
  match q.transmitList with
  | [] => ({ q with transmitList := [d] } : PacketQueue α).schedSendEvent curTick d.tick
  | front :: rest =>
    if d.tick < front.tick then ({ q with transmitList := d :: front :: rest } : PacketQueue α).schedSendEvent curTick d.tick
    else if d.tick ≥ (q.transmitList.getLastD front).tick then pure { q with transmitList := q.transmitList ++ [d] }
    -- the insertion sort begins behind the front
    else pure { q with transmitList := front :: insertAfter (·.tick) d rest }

/-- `trySendTiming` up to the call of `sendTiming`, with the packet that it is called for. -/
def trySendTiming (q : PacketQueue α) (slave : Bool) (curTick : Nat) : Except Stop (DeferredPacket α) := do
  require (q.deferredPacketReady curTick)
  let dp ← index q.transmitList 0
  -- the assertion of a slave queue in `sendTiming`
  require (!(slave && dp.sendAsSnoop))
  pure dp

/-- `scheduleSend(MaxTick)`. -/
def scheduleSend (q : PacketQueue α) (curTick : Nat) : Except Stop (PacketQueue α) :=
  let nextReady := max (min q.deferredPacketReadyTime MaxTick) ((curTick + 1) % 2 ^ 64)
  if nextReady ≠ MaxTick then
    match q.sendEvent with
    | none => q.schedule curTick nextReady
    | some n => if nextReady < n then q.schedule curTick nextReady else pure q
  else if q.drainManager ∧ q.transmitList = [] ∧ q.sendEvent = none then pure { q with drainManager := false }
  else pure q

/-- `sendDeferredPacket` after `sendTiming` has returned. -/
def sendDone (q : PacketQueue α) (curTick : Nat) (accepted : Bool) : Except Stop (PacketQueue α) :=
  let q := { q with waitingOnRetry := !accepted }
  if !q.waitingOnRetry then
    { q with transmitList := q.transmitList.tail }.scheduleSend curTick
  else pure q

def drain (q : PacketQueue α) : PacketQueue α := if q.transmitList = [] then q else { q with drainManager := true }

/-! ## The queue in its system -/

structure System (α : Type) where
  queue : PacketQueue α := {}
  curTick : Nat := 0
  /-- the packet that `sendTiming` is called for -/
  sending : Option (DeferredPacket α) := none
  /-- the calls of `schedSendTiming`, the oldest first -/
  calls : List (DeferredPacket α) := []
  /-- the packets that the receiver took, and when -/
  sent : List (DeferredPacket α × Nat) := []
  /-- the last packet that it refused -/
  refused : Option (DeferredPacket α) := none
  retryOwed : Bool := false
  /-- when the packet at the head became that -/
  headSince : Nat := 0
  deriving DecidableEq, Repr

inductive QueueOp (α : Type) where
  | schedSendTiming (d : DeferredPacket α)
  | processSendEvent
  | retry
  | answer (accepted : Bool)
  | drain
  | advance (curTick : Nat)
  deriving DecidableEq, Repr

namespace System

/-- The head of the list is another one than before. -/
def newHead (s : System α) (q : PacketQueue α) : System α := { s with queue := q, headSince := s.curTick }

/-- Packets are added for a tick that is not over, up to the limit of the queue, the receiver retries after it
  refused, and events are not missed. -/
def allowed (slave : Bool) (s : System α) : QueueOp α → Bool
  | .schedSendTiming d =>
    decide (s.curTick ≤ d.tick) && decide (d.tick ≤ MaxTick) && decide (s.queue.transmitList.length ≤ 100) &&
      !(slave && d.sendAsSnoop)
  | .processSendEvent => s.sending.isNone && s.queue.sendEvent == some s.curTick
  | .retry => s.retryOwed && s.sending.isNone
  | .answer _ => s.sending.isSome
  | .drain => s.sending.isNone
  | .advance n => s.sending.isNone && decide (s.curTick ≤ n) && decide (n ≤ MaxTick) && s.queue.sendEvent.all (n ≤ ·)

/-- `MaxTick`, which stands for no tick at all, is not reached. -/
def inTime (s : System α) : QueueOp α → Bool
  | .schedSendTiming d => decide (d.tick < MaxTick)
  | .answer accepted => !accepted || decide (s.curTick + 1 < MaxTick)
  | _ => true

def step (slave : Bool) (s : System α) : QueueOp α → Except Stop (System α)
  | .schedSendTiming d => do
    let q ← s.queue.schedSendTiming s.curTick d
    let s := { s with calls := s.calls ++ [d] }
    -- the new packet is at the head
    if s.queue.transmitList.head?.all (d.tick < ·.tick) then pure (s.newHead q) else pure { s with queue := q }
  | .processSendEvent => do
    -- an event is taken out of the queue of events before it is processed
    let q := { s.queue with sendEvent := none }
    require (!q.waitingOnRetry)
    let dp ← q.trySendTiming slave s.curTick
    pure { s with queue := q, sending := some dp }
  | .retry => do
    require s.queue.waitingOnRetry
    let dp ← s.queue.trySendTiming slave s.curTick
    pure { s with sending := some dp, retryOwed := false }
  | .answer accepted => do
    let q ← s.queue.sendDone s.curTick accepted
    if accepted then
      pure ({ s with sending := none, sent := s.sent ++ s.sending.toList.map (·, s.curTick) }.newHead q)
    else pure { s with queue := q, sending := none, refused := s.sending, retryOwed := true }
  | .drain => pure { s with queue := s.queue.drain }
  | .advance n => pure { s with curTick := n }

end System

end PacketQueue

end Gem5.Mem
