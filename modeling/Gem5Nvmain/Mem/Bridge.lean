import Gem5Nvmain.Lib.Exec
import Mathlib.Data.List.Perm.Basic

/- A bridge between two crossbars (mem/bridge.cc), without its delay.

  A request is accepted only while there is room for it and for its response, so no response is ever refused. No
  assertion fails, a stalled port can be retried (`never_stalled`), and what comes is passed on once, in order, and
  back to where it came from (`passes_once`). -/
namespace Gem5.Mem.Bridge
open Lib List

/-- What the bridge reads of a packet. -/
structure Packet where
  id : Nat
  needsResponse : Bool := true
  memInhibitAsserted : Bool := false
  src : Nat := 0
  dest : Nat := 0
  /-- the `origSrc` of each `RequestState`, the last one pushed first -/
  senderState : List Nat := []

def expectsResponse (p : Packet) : Bool := p.needsResponse && !p.memInhibitAsserted

/-- As `schedTimingReq` queues it. -/
def pushed (p : Packet) : Packet := if expectsResponse p then { p with senderState := p.src :: p.senderState } else p

/-- What a `transmitList` waits for; `retry` is that of the peer, which refused its first packet. -/
inductive Awaits where
  | nothing
  | sendEvent
  | retry
  deriving DecidableEq

structure TransmitList where
  packets : List Packet := []
  awaits : Awaits := .nothing

namespace TransmitList
variable (q : TransmitList)

/-- The end of `schedTimingReq` and of `schedTimingResp`. -/
def sched (pkt : Packet) : Except Stop TransmitList :=
  if q.packets.isEmpty then do
    require (q.awaits != .sendEvent)
    pure { packets := [pkt], awaits := .sendEvent }
  else pure { q with packets := q.packets ++ [pkt] }

/-- `trySendTiming`, with the packet that the peer accepts. -/
def trySendTiming (accepted : Bool) : Except Stop (List Packet × TransmitList) :=
  match q.packets with
  | [] => .error .assertFailed
  | pkt :: rest =>
    if accepted then pure ([pkt], { packets := rest, awaits := if rest.isEmpty then .nothing else .sendEvent })
    else pure ([], { q with awaits := .retry })

end TransmitList

/-- The bridge, and what has passed it. -/
structure State where
  /-- of the master port -/
  requests : TransmitList := {}
  /-- of the slave port -/
  responses : TransmitList := {}
  outstandingResponses : Nat := 0
  retryReq : Bool := false
  accepted : List Packet := []
  forwarded : List Packet := []
  /-- the requests that were forwarded and wait for a response -/
  pending : List Packet := []
  answered : List Packet := []
  returned : List Packet := []

structure Params where
  reqQueueLimit : Nat
  respQueueLimit : Nat

inductive Op where
  | recvTimingReq (pkt : Packet)
  | sendTimingReq (accepted : Bool)
  /-- for the request at this place of `pending` -/
  | recvTimingResp (i : Nat)
  | sendTimingResp (accepted : Bool)

variable (x : Params) (s : State)

def reqQueueFull : Bool := s.requests.packets.length == x.reqQueueLimit

def respQueueFull : Bool := s.outstandingResponses == x.respQueueLimit

/-- A refused port waits for its retry, and the peers send theirs after a refusal. -/
def allowed : Op → Bool
  | .recvTimingReq _ => !s.retryReq
  | .sendTimingReq _ => s.requests.awaits != .nothing
  | .recvTimingResp i => decide (i < s.pending.length)
  | .sendTimingResp _ => s.responses.awaits != .nothing

def step : Op → Except Stop State
  | .recvTimingReq pkt => do
    require (!s.retryReq)
    if reqQueueFull x s || expectsResponse pkt && respQueueFull x s then pure { s with retryReq := true }
    else do
      let requests ← s.requests.sched (pushed pkt)
      require (!reqQueueFull x s)
      pure { s with
        requests
        outstandingResponses := s.outstandingResponses + (expectsResponse pkt).toNat
        accepted := s.accepted ++ [pkt] }
  | .sendTimingReq accepted => do
    let (sent, requests) ← s.requests.trySendTiming accepted
    pure { s with
      requests
      -- `retryStalledReq`
      retryReq := s.retryReq && !accepted
      forwarded := s.forwarded ++ sent
      pending := s.pending ++ sent.filter expectsResponse }
  | .recvTimingResp i => do
    let pkt ← index s.pending i
    match pkt.senderState with
    | [] => .error .assertFailed
    | origSrc :: senderState => do
      let pkt := { pkt with dest := origSrc, senderState }
      let responses ← s.responses.sched pkt
      pure { s with responses, pending := s.pending.eraseIdx i, answered := s.answered ++ [pkt] }
  | .sendTimingResp accepted => do
    let (sent, responses) ← s.responses.trySendTiming accepted
    require (!accepted || s.outstandingResponses != 0)
    pure { s with
      responses
      outstandingResponses := s.outstandingResponses - sent.length
      retryReq := s.retryReq && (!accepted || reqQueueFull x s)
      returned := s.returned ++ sent }

/-- A list waits for something as long as it has packets. -/
def Waits (q : TransmitList) : Prop := q.awaits = .nothing ↔ q.packets = []

namespace Waits
variable {q : TransmitList}

theorem sched (w : Waits q) (pkt : Packet) :
    ∃ q', q.sched pkt = .ok q' ∧ Waits q' ∧ q'.packets = q.packets ++ [pkt] := by
  unfold TransmitList.sched
  split
  next hp =>
    rw [List.isEmpty_iff] at hp
    rw [w.mpr hp, hp]
    exact ⟨_, rfl, by simp [Waits], rfl⟩
  next hp => exact ⟨_, rfl, by simpa [Waits, w.eq] using hp, rfl⟩

theorem trySend (w : Waits q) (ha : q.awaits ≠ .nothing) (accepted : Bool) : ∃ sent q',
    q.trySendTiming accepted = .ok (sent, q') ∧ Waits q' ∧ q.packets = sent ++ q'.packets ∧ sent.length = accepted.toNat := by
  obtain ⟨p, rest, hp⟩ := exists_cons_of_ne_nil (mt w.mpr ha)
  rw [TransmitList.trySendTiming, hp]
  cases accepted with
  | false => exact ⟨[], _, rfl, by simp [Waits], rfl, rfl⟩
  | true => exact ⟨[p], _, rfl, by cases rest <;> simp [Waits], rfl, rfl⟩

end Waits

variable {x s} {op : Op} {ops : List Op}

/-- A request, and the port that its response goes to. -/
def origin (p : Packet) : Nat × Option Nat := (p.id, p.senderState.head?)

structure Inv (x : Params) (s : State) : Prop where
  requests : Waits s.requests
  responses : Waits s.responses
  room : s.requests.packets.length ≤ x.reqQueueLimit
  reserved : s.outstandingResponses =
    s.pending.length + (s.requests.packets.filter expectsResponse).length + s.responses.packets.length
  limit : s.outstandingResponses ≤ x.respQueueLimit
  stalled : s.retryReq = true → reqQueueFull x s = true ∨ respQueueFull x s = true
  sent : s.accepted.map pushed = s.forwarded ++ s.requests.packets
  back : s.answered = s.returned ++ s.responses.packets
  once : (s.answered.map (fun p => (p.id, some p.dest)) ++ s.pending.map origin).Perm
    ((s.forwarded.filter expectsResponse).map origin)

theorem expectsResponse_pushed (p : Packet) : expectsResponse (pushed p) = expectsResponse p := by
  unfold pushed
  split <;> rfl

namespace Inv

theorem init : Inv x {} := by
  have hempty : Waits {} := by simp [Waits]
  exact ⟨hempty, hempty, Nat.zero_le _, rfl, Nat.zero_le _, fun hon => absurd hon Bool.false_ne_true, rfl, rfl, .refl _⟩

theorem recvTimingReq (i : Inv x s) (pkt : Packet) (ha : s.retryReq = false) :
    ∃ t, step x s (.recvTimingReq pkt) = .ok t ∧ Inv x t := by
  unfold step
  dsimp only
  rw [ha, Bool.not_false, require, if_pos rfl, bind_ok]
  split
  next hfull =>
    simp only [Bool.or_eq_true, Bool.and_eq_true] at hfull
    exact ⟨_, rfl, { i with stalled := fun _ => hfull.imp_right And.right }⟩
  next hroom =>
    simp [reqQueueFull, respQueueFull] at hroom
    obtain ⟨hreq, hresp⟩ := hroom
    obtain ⟨q, hq, hw, hpackets⟩ := i.requests.sched (pushed pkt)
    have hrequire : require (!reqQueueFull x s) = .ok () := by simpa [reqQueueFull] using hreq
    have hroom := i.room
    have hreserved := i.reserved
    have hlimit := i.limit
    have hkept := expectsResponse_pushed pkt
    rw [hq, bind_ok, hrequire, bind_ok]
    refine ⟨_, rfl, { i with
      requests := hw, room := ?_, reserved := ?_, limit := ?_, stalled := fun hon => absurd hon Bool.false_ne_true, sent := ?_ }⟩
    · rw [hpackets, length_append, length_singleton]
      omega
    · cases he : expectsResponse pkt <;> simp [hpackets, hkept, he] <;> omega
    · cases he : expectsResponse pkt <;> simp [he] at hresp ⊢ <;> omega
    · simp [hpackets, i.sent]

theorem sendTimingReq (i : Inv x s) (accepted : Bool) (ha : s.requests.awaits ≠ .nothing) :
    ∃ t, step x s (.sendTimingReq accepted) = .ok t ∧ Inv x t := by
  obtain ⟨sent, q, hq, hw, hpackets, hlength⟩ := i.requests.trySend ha accepted
  have ⟨_, _, hroom, hreserved, _, hstalled, hsent, _, honce⟩ := i
  rw [hpackets] at hroom hreserved hsent
  rw [step, hq, bind_ok]
  refine ⟨_, rfl, { i with requests := hw, room := ?_, reserved := ?_, stalled := ?_, sent := ?_, once := ?_ }⟩
  · exact Nat.le_trans (by simp) hroom
  · simpa [Nat.add_assoc] using hreserved
  · cases accepted <;> simp_all [reqQueueFull, respQueueFull]
  · rw [hsent, append_assoc]
  · simpa using honce.append_right ((sent.filter expectsResponse).map origin)

theorem recvTimingResp (i : Inv x s) {k : Nat} (hk : k < s.pending.length) :
    ∃ t, step x s (.recvTimingResp k) = .ok t ∧ Inv x t := by
  have hget : index s.pending k = .ok s.pending[k] := by simp [index, hk]
  obtain ⟨origSrc, rest, hstate⟩ : ∃ origSrc rest, s.pending[k].senderState = origSrc :: rest := by
    -- it is the request of a port, which is on top of its state
    obtain ⟨p, hp, heq⟩ := mem_map.mp (i.once.subset (mem_append_right _ (mem_map_of_mem (getElem_mem hk))))
    obtain ⟨hp, he⟩ := mem_filter.mp hp
    obtain ⟨a, -, rfl⟩ := mem_map.mp (i.sent ▸ mem_append_left _ hp)
    rw [expectsResponse_pushed] at he
    cases hs : s.pending[k].senderState with
    | nil => simp [origin, pushed, he, hs] at heq
    | cons origSrc rest => exact ⟨origSrc, rest, rfl⟩
  obtain ⟨q, hq, hw, hpackets⟩ := i.responses.sched { s.pending[k] with dest := origSrc, senderState := rest }
  have hreserved := i.reserved
  rw [step, hget, bind_ok, hstate]
  dsimp only
  rw [hq, bind_ok]
  refine ⟨_, rfl, { i with responses := hw, reserved := ?_, back := ?_, once := ?_ }⟩
  · simp [hpackets, length_eraseIdx, hk]
    omega
  · simp [i.back, hpackets]
  · refine Perm.trans ?_ i.once
    rw [map_append, append_assoc]
    apply Perm.append_left
    simpa [origin, hstate] using (getElem_cons_eraseIdx_perm hk).map origin

theorem sendTimingResp (i : Inv x s) (accepted : Bool) (ha : s.responses.awaits ≠ .nothing) :
    ∃ t, step x s (.sendTimingResp accepted) = .ok t ∧ Inv x t := by
  obtain ⟨sent, q, hq, hw, hpackets, hlength⟩ := i.responses.trySend ha accepted
  have ⟨_, _, _, hreserved, hlimit, hstalled, _, hback, _⟩ := i
  rw [hpackets] at hreserved hback
  rw [length_append, hlength] at hreserved
  have hrequire : require (!accepted || s.outstandingResponses != 0) = .ok () := by
    cases accepted <;> simp at hreserved ⊢
    omega
  rw [step, hq, bind_ok]
  dsimp only
  rw [hrequire, bind_ok, hlength]
  refine ⟨_, rfl, { i with responses := hw, reserved := ?_, limit := ?_, stalled := ?_, back := ?_ }⟩
  · dsimp only
    omega
  · exact Nat.le_trans (Nat.sub_le _ _) hlimit
  · cases accepted <;> simp_all [reqQueueFull, respQueueFull]
  · rw [hback, append_assoc]

theorem step (i : Inv x s) (ha : allowed s op = true) : ∃ t, step x s op = .ok t ∧ Inv x t := by
  cases op with
  | recvTimingReq pkt => exact i.recvTimingReq pkt (by simpa [allowed] using ha)
  | sendTimingReq accepted => exact i.sendTimingReq accepted (bne_iff_ne.mp ha)
  | recvTimingResp k => exact i.recvTimingResp (of_decide_eq_true ha)
  | sendTimingResp accepted => exact i.sendTimingResp accepted (bne_iff_ne.mp ha)

theorem run (hr : Exec (StepIf allowed (Mem.Bridge.step x)) {} ops s) : Inv x s := by
  refine hr.invariant init fun s op t i hs => ?_
  obtain ⟨u, hu, hi⟩ := i.step hs.1
  rw [hs.2] at hu
  cases hu
  exact hi

end Inv

/-- Requests and responses are passed on in order, none lost and none twice; a request that expects a
    response has been answered once, to the port it came from, or its answer is still owed. -/
theorem passes_once (hr : Exec (StepIf allowed (step x)) {} ops s) :
    s.accepted.map pushed = s.forwarded ++ s.requests.packets ∧ s.answered = s.returned ++ s.responses.packets ∧
    (s.answered.map (fun p => (p.id, some p.dest)) ++ s.pending.map origin).Perm
      ((s.forwarded.filter expectsResponse).map origin) :=
  ⟨(Inv.run hr).sent, (Inv.run hr).back, (Inv.run hr).once⟩

/-- The second request is refused, first for the first one and then for its response. -/
def relayed : List Op :=
  [.recvTimingReq { id := 0, src := 7 }, .recvTimingReq { id := 1 }, .sendTimingReq false, .sendTimingReq true,
    .recvTimingReq { id := 1 }, .recvTimingResp 0]

theorem passes_once_relayed : ∃ s, Exec (StepIf allowed (step ⟨1, 1⟩)) {} relayed s ∧
    s.answered.map (·.dest) = [7] ∧ s.answered = s.returned ++ s.responses.packets := by
  refine Exec.ends_withIf (p := fun s => s.answered.map (·.dest) == [7]) (by decide) fun s hr hdest => ?_
  exact ⟨beq_iff_eq.mp hdest, (passes_once hr).2.1⟩

end Gem5.Mem.Bridge
