import Gem5Nvmain.Lib.Words
import Gem5Nvmain.Mem.Packet
import Mathlib.Logic.Function.Basic

/- The snoop filter of a crossbar (mem/snoop_filter.cc), for one line.

  `SnoopItem` is what the filter has for the line, with the filter's operations. `System` puts it where it is called
  (mem/coherent_xbar.cc, in timing mode): `n` slave ports, each with a cache, and whatever is below. Only what a cache
  has of the line is kept of it: whether it holds a valid copy (also in its write buffer), and its request that was accepted and not answered. A step
  is a call of the crossbar, with the reaction of the caches that are snooped: which of them give up their copies, and
  which of them is going to answer.

  The filter creates an entry for a line at the first call, with no bits set. Left out: the latency and the statistics. -/
namespace Gem5.Mem.SnoopFilter
open Lib

/-- What the filter reads of a packet. -/
structure SnoopPacket where
  cmd : MemCmd
  memInhibitAsserted : Bool := false
  sharedAsserted : Bool := false
  deriving DecidableEq, Repr

namespace SnoopPacket

def needsResponse (pkt : SnoopPacket) : Bool := pkt.cmd.testCmdAttrib .needsResponse
def needsExclusive (pkt : SnoopPacket) : Bool := pkt.cmd.testCmdAttrib .needsExclusive
def isInvalidate (pkt : SnoopPacket) : Bool := pkt.cmd.testCmdAttrib .isInvalidate
def isRequest (pkt : SnoopPacket) : Bool := pkt.cmd.testCmdAttrib .isRequest
def isResponse (pkt : SnoopPacket) : Bool := pkt.cmd.testCmdAttrib .isResponse

end SnoopPacket

/-! ## The filter -/

structure SnoopItem where
  requested : BitVec 64 := 0
  holder : BitVec 64 := 0
  deriving DecidableEq, Repr

/-- `panic_if`. -/
def panicIf (c : Bool) (msg : String) : Except Stop Unit := if c then .error (.fatal msg) else .ok ()

def portToMask (id : Nat) : Except Stop (BitVec 64) := do
  require (decide (id < 64))
  pure (oneHot 64 id)

def maskToPortList (port_mask : BitVec 64) : List Nat → Except Stop (List Nat)
  | [] => pure []
  | port :: slavePorts => do
    let mask ← portToMask port
    let res ← maskToPortList port_mask slavePorts
    pure (if port_mask &&& mask ≠ 0 then port :: res else res)

namespace SnoopItem

/-! The ports of the crossbar are numbered from 0. -/

def lookupRequest (sf_item : SnoopItem) (n : Nat) (cpkt : SnoopPacket) (slave_port : Nat) : Except Stop (List Nat × SnoopItem) := do
  let req_port ← portToMask slave_port
  let interested := sf_item.holder ||| sf_item.requested
  let ports ← maskToPortList (interested &&& ~~~req_port) (List.range n)
  if cpkt.needsResponse then
    if !cpkt.memInhibitAsserted then do
      panicIf (decide (sf_item.requested &&& req_port ≠ 0)) "double request :("
      pure (ports, { sf_item with requested := sf_item.requested ||| req_port })
    else do
      panicIf (decide (sf_item.holder &&& req_port = 0)) "Need to hold the value!"
      pure (ports, sf_item)
  else pure (ports, sf_item)

def updateRequest (sf_item : SnoopItem) (cpkt : SnoopPacket) (slave_port : Nat) (will_retry : Bool) : Except Stop SnoopItem := do
  let req_port ← portToMask slave_port
  if will_retry then pure { sf_item with requested := sf_item.requested &&& ~~~req_port }
  else if !cpkt.needsResponse then
    if cpkt.cmd = .writeback then do
      panicIf (decide (sf_item.requested &&& req_port ≠ 0)) "double request :("
      panicIf (decide (sf_item.holder &&& req_port = 0)) "requester is not a holder :("
      pure { sf_item with holder := sf_item.holder &&& ~~~req_port }
    else .error .assertFailed
  else pure sf_item

def lookupSnoop (sf_item : SnoopItem) (n : Nat) (cpkt : SnoopPacket) : Except Stop (List Nat × SnoopItem) := do
  require cpkt.isRequest
  let interested := sf_item.holder ||| sf_item.requested
  require (cpkt.isInvalidate == cpkt.needsExclusive)
  let ports ← maskToPortList interested (List.range n)
  if cpkt.isInvalidate ∧ sf_item.requested = 0 then pure (ports, { sf_item with holder := 0 })
  else pure (ports, sf_item)

def updateSnoopResponse (sf_item : SnoopItem) (cpkt : SnoopPacket) (rsp_port req_port : Nat) : Except Stop SnoopItem := do
  let rsp_mask ← portToMask rsp_port
  let req_mask ← portToMask req_port
  require cpkt.isResponse
  require cpkt.memInhibitAsserted
  panicIf (decide (sf_item.holder &&& rsp_mask = 0)) "SF value does not have the line"
  panicIf (decide (sf_item.requested &&& req_mask = 0)) "SF value missing the original request"
  let sf_item := if cpkt.needsExclusive || !cpkt.sharedAsserted then { sf_item with holder := 0 } else sf_item
  require (decide (cpkt.cmd ≠ .writeback))
  pure { requested := sf_item.requested &&& ~~~req_mask, holder := sf_item.holder ||| req_mask }

def updateSnoopForward (sf_item : SnoopItem) (cpkt : SnoopPacket) (rsp_port : Nat) : Except Stop SnoopItem := do
  let _ ← portToMask rsp_port
  require cpkt.isResponse
  require cpkt.memInhibitAsserted
  pure (if cpkt.needsExclusive then { sf_item with holder := 0 } else sf_item)

def updateResponse (sf_item : SnoopItem) (cpkt : SnoopPacket) (slave_port : Nat) : Except Stop SnoopItem := do
  let slave_mask ← portToMask slave_port
  require cpkt.isResponse
  panicIf (decide (sf_item.requested &&& slave_mask = 0)) "SF value missing request bit"
  let sf_item := if cpkt.needsExclusive || !cpkt.sharedAsserted then { sf_item with holder := 0 } else sf_item
  pure { requested := sf_item.requested &&& ~~~slave_mask, holder := sf_item.holder ||| slave_mask }

end SnoopItem

/-! ## The filter in its system -/

/-- Who answers a request. -/
inductive Supplier where
  | below
  | cache (port : Nat)
  deriving DecidableEq, Repr

structure System where
  item : SnoopItem := {}
  valid : Nat → Bool := fun _ => false
  request : Nat → Option Supplier := fun _ => none
  /-- the caches that are going to answer a snoop from below -/
  forwards : List Nat := []

/-- `dropped` are the snooped caches that give up their copies at once, `supplier` is who is going to answer, and
  `keeps` tells whether the cache still has a copy once it has used the response. -/
inductive SnoopOp where
  | request (port : Nat) (pkt : SnoopPacket) (dropped : List Nat) (supplier : Supplier) (accepted : Bool)
  | response (port : Nat) (pkt : SnoopPacket) (keeps : Bool)
  | snoopResponse (rsp_port req_port : Nat) (pkt : SnoopPacket) (keeps : Bool)
  | snoop (pkt : SnoopPacket) (dropped : List Nat) (responder : Option Nat)
  | snoopForward (rsp_port : Nat) (pkt : SnoopPacket)
  | evict (port : Nat)
  deriving DecidableEq, Repr

namespace System

/-- A response to the port is in flight. -/
def inFlight (s : System) (port : Nat) : Bool := (s.request port).isSome

/-- The port has still to send a snoop response to the other one. -/
def owes (s : System) (port other : Nat) : Bool := s.request other == some (.cache port)

/-- The ports that a request is forwarded to. -/
def requestSnoops (n : Nat) (s : System) (pkt : SnoopPacket) (port : Nat) : List Nat :=
  match s.item.lookupRequest n pkt port with
  | .ok (ports, _) => ports
  | .error _ => []

/-- The ports that a snoop from below is forwarded to. -/
def snoopSnoops (n : Nat) (s : System) (pkt : SnoopPacket) : List Nat :=
  match s.item.lookupSnoop n pkt with
  | .ok (ports, _) => ports
  | .error _ => []

/-- A snooped cache answers if it has the line, or is going to have it. -/
def canSupply (s : System) (snooped : List Nat) (port : Nat) : Bool :=
  snooped.contains port && (s.valid port || s.inFlight port)

/-- What the caches and the crossbar do.

    A cache has one request at a time for the line, and writes back what it has. A request
    that was inhibited above its port was answered there, by a cache that has the line, and
    is never refused, and no request is refused that a snooped cache is going to answer.
    Only a request in flight is answered, by the one who is to answer it, who has the line
    by then. An invalidation from below takes all copies that it reaches, but for those
    whose cache waits for a response and defers it. -/
def allowed (n : Nat) (s : System) : SnoopOp → Bool
  | .request p pkt dropped supplier accepted =>
    decide (p < n) && pkt.isRequest && dropped.all ((s.requestSnoops n pkt p).contains ·) &&
    (if pkt.needsResponse then
      if pkt.memInhibitAsserted then s.valid p && supplier == .below && accepted
      else !s.inFlight p &&
        match supplier with
        | .below => true
        | .cache q => s.canSupply (s.requestSnoops n pkt p) q && accepted
    else pkt.cmd == .writeback && s.valid p && !s.inFlight p && supplier == .below)
  | .response p pkt _ => decide (p < n) && pkt.isResponse && s.request p == some .below
  | .snoopResponse q p pkt _ =>
    decide (p < n) && decide (q < n) && pkt.isResponse && pkt.memInhibitAsserted && s.owes q p && !s.inFlight q
  | .snoop pkt dropped responder =>
    pkt.isRequest && pkt.isInvalidate == pkt.needsExclusive && dropped.all ((s.snoopSnoops n pkt).contains ·) &&
    (!pkt.isInvalidate || (s.snoopSnoops n pkt).all fun q => !s.valid q || s.inFlight q || dropped.contains q) &&
    responder.all (s.canSupply (s.snoopSnoops n pkt))
  | .snoopForward q pkt => decide (q < n) && pkt.isResponse && pkt.memInhibitAsserted && s.forwards.contains q
  | .evict _ => true

def drop (s : System) (dropped : List Nat) : System := { s with valid := fun q => s.valid q && !dropped.contains q }

/-- The port owes no snoop response, or waits for a response itself. -/
def owesNothing (n : Nat) (s : System) (port : Nat) : Bool := (List.range n).all fun other => !s.owes port other || s.inFlight port

/-- No other port holds a copy, nor owes a snoop response to a third one. -/
def settled (n : Nat) (s : System) (port : Nat) : Bool :=
  (List.range n).all fun r => r == port ||
    (!s.valid r && (List.range n).all fun other => other == port || !s.owes r other || s.inFlight r)

/-- A response that makes its port the only holder arrives when no other one has a copy, and nobody writes the line
  back before its snoop responses. -/
def sound (n : Nat) (s : System) : SnoopOp → Bool
  | .request p pkt _ _ accepted => pkt.needsResponse || !accepted || s.owesNothing n p
  | .response p pkt _ | .snoopResponse _ p pkt _ => !(pkt.needsExclusive || !pkt.sharedAsserted) || s.settled n p
  | .snoopForward _ pkt => !pkt.needsExclusive || s.settled n n
  | _ => true

/-- The response has arrived at the cache of the port. -/
def answered (s : System) (item : SnoopItem) (port : Nat) (keeps : Bool) : System :=
  { s with item := item, valid := Function.update s.valid port keeps, request := Function.update s.request port none }

def step (n : Nat) (s : System) : SnoopOp → Except Stop System
  | .request p pkt dropped supplier accepted => do
    let (_, item) ← s.item.lookupRequest n pkt p
    let item ← item.updateRequest pkt p (!accepted)
    let s := { s.drop dropped with item := item }
    if accepted then
      if pkt.needsResponse then
        -- the filter does not see the response to an inhibited request
        if pkt.memInhibitAsserted then pure s else pure { s with request := Function.update s.request p (some supplier) }
      else pure { s with valid := Function.update s.valid p false }
    else pure s
  | .response p pkt keeps => do
    let item ← s.item.updateResponse pkt p
    pure (s.answered item p keeps)
  | .snoopResponse q p pkt keeps => do
    let item ← s.item.updateSnoopResponse pkt q p
    pure (s.answered item p keeps)
  | .snoop pkt dropped responder => do
    let (_, item) ← s.item.lookupSnoop n pkt
    pure { s.drop dropped with item := item, forwards := s.forwards ++ responder.toList }
  | .snoopForward q pkt => do
    let item ← s.item.updateSnoopForward pkt q
    pure { s with item := item, forwards := s.forwards.erase q }
  | .evict p => pure (s.drop [p])

end System

end Gem5.Mem.SnoopFilter
