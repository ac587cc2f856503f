import Gem5Nvmain.Lib.Exec
import Mathlib.Algebra.Order.Floor.Div

/- A layer of a crossbar (mem/xbar.cc): the flow control in front of one port.

  `Layer` is the object, with its operations. `System` puts it where it is called: the ports, the peer behind the
  layer, the clock of the crossbar and the event of the layer. An operation that calls `sendRetry`, and a packet that
  `tryTiming` let through, leave a `Call` open, and whatever else happens before it returns is a step of its own.

  The ports are of any type `P`. The callers are those of mem/coherent_xbar.cc, of which only the times they compute
  are kept. Ticks are unbounded, and the clock period does not change. -/
namespace Gem5.Mem.XBarLayer
open Lib

/-! ## The layer -/

inductive LayerState where
  | idle
  | busy
  | retry
  deriving DecidableEq, Repr

structure Layer (P : Type) where
  state : LayerState := .idle
  drainManager : Bool := false
  waitingForLayer : List P := []
  waitingForPeer : Option P := none
  /-- the tick that the release is scheduled at -/
  releaseEvent : Option Nat := none
  deriving DecidableEq, Repr

namespace Layer
variable {P : Type} [DecidableEq P]

def occupyLayer (l : Layer P) (curTick «until» : Nat) : Except Stop (Layer P) := do
  require (l.state == .busy)
  require («until» != 0)
  -- the assertions of `schedule`
  require (decide («until» ≥ curTick) && l.releaseEvent.isNone)
  pure { l with releaseEvent := some «until» }

def tryTiming (l : Layer P) (src_port : P) : Except Stop (Bool × Layer P) :=
  if l.state = .busy ∨ l.waitingForPeer.isSome then do
    require (!l.waitingForLayer.contains src_port)
    pure (false, { l with waitingForLayer := l.waitingForLayer ++ [src_port] })
  else pure (true, { l with state := .busy })

def succeededTiming (l : Layer P) (curTick busy_time : Nat) : Except Stop (Layer P) := do
  require (l.state == .busy)
  l.occupyLayer curTick busy_time

def failedTiming (l : Layer P) (src_port : P) (curTick busy_time : Nat) : Except Stop (Layer P) := do
  require l.waitingForPeer.isNone
  let l := { l with waitingForPeer := some src_port }
  require (l.state == .busy)
  l.occupyLayer curTick busy_time

/-- `retryWaiting` up to the call of `sendRetry`, with the port that it is called on. -/
def retryWaiting (l : Layer P) : Except Stop (P × Layer P) := do
  match l.waitingForLayer with
  | [] => .error .assertFailed
  | retryingPort :: rest =>
    require (l.state == .idle)
    pure (retryingPort, { l with state := .retry, waitingForLayer := rest })

/-- `retryWaiting` after the call of `sendRetry`. -/
def retried (l : Layer P) (curTick nextEdge : Nat) : Except Stop (Layer P) :=
  if l.state = .retry then { l with state := .busy }.occupyLayer curTick nextEdge else pure l

/-- With the port that `sendRetry` is called on, if it is. -/
def releaseLayer (l : Layer P) : Except Stop (Option P × Layer P) := do
  require (l.state == .busy)
  require l.releaseEvent.isNone
  let l := { l with state := .idle }
  if l.waitingForLayer ≠ [] then
    if l.waitingForPeer.isNone then do
      let (p, l) ← l.retryWaiting
      pure (some p, l)
    else pure (none, l)
  else if l.waitingForPeer.isNone ∧ l.drainManager then pure (none, { l with drainManager := false })
  else pure (none, l)

/-- With the port that `sendRetry` is called on, if it is. -/
def recvRetry (l : Layer P) : Except Stop (Option P × Layer P) :=
  match l.waitingForPeer with
  | none => .error .assertFailed
  | some p =>
    let l := { l with waitingForLayer := p :: l.waitingForLayer, waitingForPeer := none }
    if l.state = .idle then do
      let (p, l) ← l.retryWaiting
      pure (some p, l)
    else do
      require (l.state == .busy)
      pure (none, l)

def drain (l : Layer P) : Layer P := if l.state ≠ .idle then { l with drainManager := true } else l

end Layer

/-! ## The clock -/

/-- The parameters of the crossbar. -/
structure XBarParams where
  headerCycles : Nat := 1
  width : Nat := 8
  clockPeriod : Nat

/-- `ClockedObject::update`: the clock edge that is not before this tick. -/
def updateTick (period tick curTick : Nat) : Nat :=
  if tick ≥ curTick then tick
  else
    let tick := tick + period
    if tick ≥ curTick then tick else tick + (curTick - tick) ⌈/⌉ period * period

/-! ## The layer in its system -/

/-- A call that has not returned yet. -/
inductive Call (P : Type) where
  /-- the packet that `tryTiming` let through is being sent to the peer -/
  | forward (p : P)
  | sendRetry (p : P)
  deriving DecidableEq, Repr

/-- What the ports and the peer see of the layer. -/
inductive Event (P : Type) where
  /-- by the layer -/
  | refused (p : P)
  | refusedByPeer (p : P)
  | peerRetry
  /-- the port got its `sendRetry` -/
  | retried (p : P)
  deriving DecidableEq, Repr

structure System (P : Type) where
  layer : Layer P := {}
  curTick : Nat := 0
  /-- the clock edge of the crossbar -/
  tick : Nat := 0
  /-- the last one made first -/
  calls : List (Call P) := []
  /-- the oldest first -/
  history : List (Event P) := []
  deriving DecidableEq, Repr

/-- A packet of `size` bytes of data that the snoop filter took `latency` cycles for is sent, or the peer refuses it.
  -/
inductive LayerOp (P : Type) where
  | request (p : P)
  | succeeded (size latency : Nat)
  | failed
  | returned
  | release
  | recvRetry
  | drain
  | advance (curTick : Nat)
  deriving DecidableEq, Repr

variable {P : Type} [DecidableEq P]

def Event.isOf (p : P) : Event P → Bool
  | .refused q | .refusedByPeer q | .retried q => q == p
  | .peerRetry => false

def Event.isOfPeer : Event P → Bool
  | .refusedByPeer _ | .peerRetry => true
  | _ => false

/-- The last that the port heard is that it was refused. -/
def stillRefused (h : List (Event P)) (p : P) : Bool :=
  match h.reverse.find? (Event.isOf p) with
  | none | some (.retried _) => false
  | some _ => true

/-- The peer has refused a packet and has not sent its retry. -/
def peerOwesRetry (h : List (Event P)) : Bool :=
  match h.reverse.find? Event.isOfPeer with
  | some (.refusedByPeer _) => true
  | _ => false

namespace System

/-- A refused port waits for its `sendRetry`, the peer retries after it refused, calls return in their order and
  events are not missed. -/
def allowed (s : System P) : LayerOp P → Bool
  | .request p => !stillRefused s.history p
  | .succeeded _ _ | .failed =>
    match s.calls with
    | .forward _ :: _ => true
    | _ => false
  | .returned =>
    match s.calls with
    | .sendRetry _ :: _ => true
    | _ => false
  | .release => s.calls == [] && s.layer.releaseEvent == some s.curTick
  | .recvRetry => peerOwesRetry s.history
  | .drain => s.calls == []
  | .advance n => s.calls == [] && decide (s.curTick ≤ n) && s.layer.releaseEvent.all (n ≤ ·)

/-- `clockEdge(cycles)`, once the clock is up to date. -/
def clockEdge (x : XBarParams) (s : System P) (cycles : Nat) : Nat := s.tick + x.clockPeriod * cycles

def update (x : XBarParams) (s : System P) : System P := { s with tick := updateTick x.clockPeriod s.tick s.curTick }

/-- `packetFinishTime`: what `calcPacketTiming` computes, and the snoop filter. -/
def packetFinishTime (x : XBarParams) (s : System P) (size latency : Nat) : Nat :=
  let offset := s.clockEdge x 0 - s.curTick
  let lastWordDelay := (x.headerCycles + size ⌈/⌉ x.width) * x.clockPeriod + offset
  lastWordDelay + s.curTick + latency * x.clockPeriod

/-- No port calls while a packet of its own is on its way to the peer. -/
def patient (s : System P) : LayerOp P → Bool
  | .request p => !s.calls.contains (.forward p)
  | _ => true

/-- A packet occupies the layer for some time, or it is not the first tick. -/
def takesTime (x : XBarParams) (s : System P) : LayerOp P → Bool
  | .succeeded size latency => s.curTick != 0 || x.headerCycles != 0 || size ⌈/⌉ x.width != 0 || latency != 0
  | .failed => s.curTick != 0 || x.headerCycles != 0
  | _ => true

/-- `sendRetry` is called, if there is a port for it. -/
def callRetry (s : System P) : Option P × Layer P → System P
  | (some p, l) => { s with layer := l, calls := .sendRetry p :: s.calls, history := s.history ++ [.retried p] }
  | (none, l) => { s with layer := l }

def step (x : XBarParams) (s : System P) : LayerOp P → Except Stop (System P)
  | .request p => do
    match ← s.layer.tryTiming p with
    | (true, l) => pure { s with layer := l, calls := .forward p :: s.calls }
    | (false, l) => pure { s with layer := l, history := s.history ++ [.refused p] }
  | .succeeded size latency => do
    let s := s.update x
    let l ← s.layer.succeededTiming s.curTick (s.packetFinishTime x size latency)
    pure { s with layer := l, calls := s.calls.tail }
  | .failed =>
    match s.calls with
    | .forward p :: rest => do
      let s := s.update x
      let l ← s.layer.failedTiming p s.curTick (s.clockEdge x x.headerCycles)
      pure { s with layer := l, calls := rest, history := s.history ++ [.refusedByPeer p] }
    | _ => pure s
  | .returned => do
    let s := s.update x
    let l ← s.layer.retried s.curTick (s.clockEdge x 1)
    pure { s with layer := l, calls := s.calls.tail }
  | .release => do
    -- an event is taken out of the queue before it is processed
    let r ← { s.layer with releaseEvent := none }.releaseLayer
    pure (s.callRetry r)
  | .recvRetry => do
    let r ← s.layer.recvRetry
    pure ({ s with history := s.history ++ [Event.peerRetry] }.callRetry r)
  | .drain => pure { s with layer := s.layer.drain }
  | .advance n => pure { s with curTick := n }

end System

end Gem5.Mem.XBarLayer
