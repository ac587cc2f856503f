import Gem5Nvmain.Lib.InFlight
import Gem5Nvmain.Mem.DramBursts

/- Reads of a DRAM controller are answered once.

  The pieces of a read that are not found in the write queue wait in the read queue and then in the response queue.
  Their burst helper knows how many of them are left (`Shared`), however the pieces of other packets come between
  them. So the read is answered by the piece that is served last, or at once if nothing had to wait (`ReadInv`). -/
namespace Gem5.Mem
open Lib List DramQueues Nat

variable {p : DRAMCtrl} {s t : DramQueues} {pkt : PacketPtr} {lat n c id : Nat} {d : DRAMPacket} {q q' added : List DRAMPacket}
  {helpers : List (Option BurstHelper)} {b : BurstHelper} {l m : DramQueues.ReadLoop} {xs : List (Nat × Nat)} {x : Nat × Nat}

/-! ## The operations -/

/-- The state after one more response. -/
def DramQueues.respond (s : DramQueues) (mem : AbstractMemory) (r : Response) : DramQueues :=
  { s with memory := mem, responses := s.responses ++ [r] }

theorem accessAndRespond_spec (h : s.accessAndRespond pkt lat = .ok t) : ∃ mem r, t = s.respond mem r ∧ r.pkt.id = pkt.id := by
  obtain ⟨a, -, h⟩ := of_bind h
  obtain ⟨_, -, h⟩ := of_bind h
  cases h
  exact ⟨_, _, rfl, rfl⟩

theorem decodeAddr_spec {addr size : Nat} {isRead : Bool} (h : p.decodeAddr pkt addr size isRead = .ok d) :
    d.pkt = pkt ∧ d.addr = addr ∧ d.size = size ∧ p.mapBurst (addr / p.burstSize) = .ok (d.rank, d.bank, d.row) := by
  obtain ⟨⟨rank, bank, row⟩, hmap, h⟩ := of_bind h
  obtain ⟨_, -, h⟩ := of_bind h
  obtain ⟨_, -, h⟩ := of_bind h
  obtain ⟨_, -, h⟩ := of_bind h
  obtain ⟨_, -, h⟩ := of_bind h
  cases h
  exact ⟨rfl, rfl, rfl, hmap⟩

/-- The loop of `addToReadQueue` after `n` rounds. -/
structure Reading (s : DramQueues) (pkt : PacketPtr) (c : Nat) (l : DramQueues.ReadLoop) (n : Nat) (added : List DRAMPacket) : Prop where
  queues : l.queues = { s with
    readQueue := s.readQueue ++ added
    helpers := if l.burst_helper = none then s.helpers else s.helpers ++ [some { burstCount := c, burstsServiced := 0 }] }
  mine : ∀ d ∈ added, d.pkt = pkt ∧ d.burstHelper = l.burst_helper
  rounds : added.length + l.pktsServicedByWrQ = n
  helper : l.burst_helper = if c > 1 ∧ added ≠ [] then some s.helpers.length else none

theorem Reading.init : Reading s pkt c { queues := s } 0 [] where
  queues := by simp
  mine d hd := absurd hd not_mem_nil
  rounds := rfl
  helper := by simp

/-- A helper is made for the first piece that waits. -/
theorem Reading.makeHelper (r : Reading s pkt c l n added) : (l.makeHelper c).queues = { s with
      readQueue := s.readQueue ++ added
      helpers := if c > 1 then s.helpers ++ [some { burstCount := c, burstsServiced := 0 }] else s.helpers } ∧
    (l.makeHelper c).burst_helper = (if c > 1 then some s.helpers.length else none) ∧
    (l.makeHelper c).pktsServicedByWrQ = l.pktsServicedByWrQ := by
  have hq := r.queues
  have hh := r.helper
  unfold DramQueues.ReadLoop.makeHelper
  by_cases hc : c > 1
  · by_cases ha : added = []
    · rw [if_neg fun h => h.2 ha] at hh
      rw [if_pos ⟨hc, hh⟩, if_pos hc, if_pos hc, hq, hh]
      exact ⟨rfl, rfl, rfl⟩
    · rw [if_pos ⟨hc, ha⟩] at hh
      rw [if_neg (by simp [hh]), if_pos hc, if_pos hc, hq, hh]
      exact ⟨rfl, rfl, rfl⟩
  · rw [if_neg fun h => hc h.1] at hh
    rw [if_neg fun h => hc h.1, if_neg hc, if_neg hc, hq, hh]
    exact ⟨rfl, rfl, rfl⟩

theorem Reading.round (r : Reading s pkt c l n added) (h : addReadBurst p pkt c l x = .ok m) :
    ∃ added, Reading s pkt c m (n + 1) added := by
  unfold addReadBurst at h
  split at h
  · cases h
    exact ⟨added, r.queues, r.mine, by rw [← r.rounds, add_assoc], r.helper⟩
  · obtain ⟨hq, hh, hs⟩ := r.makeHelper
    obtain ⟨d, hd, h⟩ := of_bind h
    obtain ⟨_, -, h⟩ := of_bind h
    cases h
    obtain ⟨hpkt, -⟩ := decodeAddr_spec hd
    refine ⟨added ++ [{ d with burstHelper := (l.makeHelper c).burst_helper }], ?_, ?_, ?_, ?_⟩
    · rw [hq, hh]
      by_cases hc : c > 1 <;> simp [hc]
    · intro e he
      rcases mem_append.mp he with he | he
      · refine ⟨(r.mine e he).1, ?_⟩
        rw [(r.mine e he).2, r.helper, hh]
        by_cases hc : c > 1 <;> simp [hc, ne_nil_of_mem he]
      · rw [mem_singleton.mp he]
        exact ⟨hpkt, rfl⟩
    · rw [hs, length_append, ← r.rounds, length_singleton]
      omega
    · rw [hh]
      simp

theorem Reading.loop (r : Reading s pkt c l n added) (h : xs.foldlM (addReadBurst p pkt c) l = .ok m) :
    ∃ added, Reading s pkt c m (n + xs.length) added := by
  induction xs generalizing l n added with
  | nil =>
    cases h
    exact ⟨added, r⟩
  | cons x xs ih =>
    obtain ⟨l', hl, h⟩ := of_bind h
    obtain ⟨_, r'⟩ := r.round hl
    obtain ⟨_, r''⟩ := ih r' h
    exact ⟨_, by rw [length_cons, add_comm xs.length, ← add_assoc]; exact r''⟩

theorem modify_last {α : Type} (as : List α) (a : α) (f : α → α) : (as ++ [a]).modify as.length f = as ++ [f a] := by
  induction as with
  | nil => rfl
  | cons b as ih => simp [ih]

/-- A read is answered from the write queue, or some of its pieces wait. -/
inductive Queued (s : DramQueues) (pkt : PacketPtr) (c : Nat) : DramQueues → Prop where
  | answered (mem : AbstractMemory) (r : Response) (hid : r.pkt.id = pkt.id) : Queued s pkt c (s.respond mem r)
  | waiting (added : List DRAMPacket) (served : Nat) (hne : added ≠ []) (hsum : added.length + served = c)
      (hadded : ∀ d ∈ added, d.pkt = pkt ∧ d.burstHelper = if c > 1 then some s.helpers.length else none) :
      Queued s pkt c { s with
        readQueue := s.readQueue ++ added
        helpers := if c > 1 then s.helpers ++ [some { burstCount := c, burstsServiced := served }] else s.helpers }

theorem addToReadQueue_spec (h : s.addToReadQueue p pkt c = .ok t) : Queued s pkt c t := by
  obtain ⟨_, -, h⟩ := of_bind h
  obtain ⟨_, -, h⟩ := of_bind h
  obtain ⟨l, hl, h⟩ := of_bind h
  obtain ⟨added, r⟩ := Reading.init.loop hl
  rw [bursts_length, zero_add] at r
  have hq := r.queues
  have hh := r.helper
  have hsum := r.rounds
  split at h
  · have hnil : added = [] := eq_nil_of_length_eq_zero (by omega)
    obtain ⟨mem, resp, rfl, hid⟩ := accessAndRespond_spec h
    rw [if_neg fun h => h.2 hnil] at hh
    rw [hh, if_pos rfl, hnil, append_nil] at hq
    rw [hq]
    exact Queued.answered mem resp hid
  · rename_i hsome
    have hne : added ≠ [] := by
      rintro rfl
      rw [length_nil, zero_add] at hsum
      exact hsome hsum
    by_cases hc : c > 1
    · rw [if_pos ⟨hc, hne⟩] at hh
      have hadded := r.mine
      rw [hh] at h hq hadded
      cases h
      have hw := Queued.waiting added l.pktsServicedByWrQ hne hsum (by rw [if_pos hc]; exact hadded)
      rw [if_pos hc] at hw
      rw [hq]
      rw [if_neg (Option.some_ne_none _), modify_last]
      exact hw
    · rw [if_neg fun h => hc h.1] at hh
      have hadded := r.mine
      rw [hh] at h hq hadded
      cases h
      have hw := Queued.waiting (s := s) added l.pktsServicedByWrQ hne hsum (by rw [if_neg hc]; exact hadded)
      rw [if_neg hc] at hw
      rw [hq]
      exact hw

/-- What can come of a packet. -/
inductive Received (p : DRAMCtrl) (s : DramQueues) (pkt : PacketPtr) : Bool → DramQueues → Prop where
  | dropped (hinh : pkt.packet.memInhibitAsserted = true) : Received p s pkt true s
  | refused (rd wr : Bool) : Received p s pkt false { s with retryRdReq := rd, retryWrReq := wr }
  | read (u : DramQueues) (hread : DramSystem.isReadReq pkt.packet = true) (hroom : s.readQueueFull p (p.dramPktCount pkt.packet) = false)
      (hq : Queued s pkt (p.dramPktCount pkt.packet) u) : Received p s pkt true u
  | write (hwrite : DramSystem.isWriteReq pkt.packet = true) (hsize : 1 ≤ pkt.packet.size)
      (hroom : s.writeQueueFull p (p.dramPktCount pkt.packet) = false) (writeQueue : List DRAMPacket) (mem : AbstractMemory) (r : Response)
      (hid : r.pkt.id = pkt.id)
      (hloop : (DramSystem.burstsOf p pkt.packet).foldlM (addWriteBurst p pkt) s.writeQueue = .ok writeQueue) :
      Received p s pkt true ({ s with writeQueue := writeQueue }.respond mem r)
  | other (hread : pkt.packet.isRead = false) (hwrite : pkt.packet.isWrite = false) (mem : AbstractMemory) (r : Response) (hid : r.pkt.id = pkt.id) :
      Received p s pkt true (s.respond mem r)

theorem recvTimingReq_spec {accepted : Bool} (h : s.recvTimingReq p pkt = .ok (accepted, t)) : Received p s pkt accepted t := by
  unfold recvTimingReq at h
  split at h
  · rename_i hinh
    cases h
    exact Received.dropped hinh
  · rename_i hinh
    dsimp only at h
    split at h
    · rename_i hread
      obtain ⟨_, -, h⟩ := of_bind h
      split at h
      · cases h
        exact Received.refused true s.retryWrReq
      · rename_i hroom
        obtain ⟨u, hu, h⟩ := of_bind h
        cases h
        exact Received.read _ (by simp [DramSystem.isReadReq, hinh, hread]) (Bool.eq_false_iff.mpr hroom) (addToReadQueue_spec hu)
    · rename_i hread
      have hread := Bool.eq_false_iff.mpr hread
      split at h
      · rename_i hwrite
        obtain ⟨_, hsize, h⟩ := of_bind h
        have hsize : pkt.packet.size ≠ 0 := by simpa using require_eq_ok.mp hsize
        split at h
        · cases h
          exact Received.refused s.retryRdReq true
        · rename_i hroom
          obtain ⟨u, hu, h⟩ := of_bind h
          cases h
          obtain ⟨_, -, hu⟩ := of_bind hu
          obtain ⟨writeQueue, hloop, hu⟩ := of_bind hu
          obtain ⟨mem, r, rfl, hid⟩ := accessAndRespond_spec hu
          exact Received.write (by simp [DramSystem.isWriteReq, hinh, hread, hwrite]) (pos_of_ne_zero hsize) (Bool.eq_false_iff.mpr hroom)
            writeQueue mem r hid hloop
      · rename_i hwrite
        obtain ⟨u, hu, h⟩ := of_bind h
        cases h
        obtain ⟨mem, r, rfl, hid⟩ := accessAndRespond_spec hu
        exact Received.other hread (Bool.eq_false_iff.mpr hwrite) mem r hid

/-! ## The helpers -/

/-- The pieces of a packet that wait. -/
def outstanding (q : List DRAMPacket) (id : Nat) : Nat := q.countP (·.pkt.id == id)

/-- A helper is for the pieces of one packet, and knows how many are left. -/
structure Shared (q : List DRAMPacket) (helpers : List (Option BurstHelper)) : Prop where
  single : ∀ d ∈ q, d.burstHelper = none → outstanding q d.pkt.id = 1
  split : ∀ d ∈ q, ∀ h, d.burstHelper = some h →
    ∃ b, helpers[h]? = some (some b) ∧ b.burstCount = b.burstsServiced + outstanding q d.pkt.id
  same : ∀ d ∈ q, ∀ e ∈ q, d.pkt.id = e.pkt.id → d.burstHelper = e.burstHelper
  apart : ∀ d ∈ q, ∀ e ∈ q, ∀ h, d.burstHelper = some h → e.burstHelper = some h → d.pkt.id = e.pkt.id

theorem outstanding_perm (h : q.Perm q') : outstanding q id = outstanding q' id := h.countP_eq _

theorem outstanding_cons : outstanding (d :: q) id = outstanding q id + if d.pkt.id = id then 1 else 0 := by
  simp [outstanding, countP_cons]

theorem outstanding_pos (hd : d ∈ q) : 0 < outstanding q d.pkt.id := countP_pos_iff.mpr ⟨d, hd, by simp⟩

theorem outstanding_eq_zero : outstanding q id = 0 ↔ ∀ d ∈ q, d.pkt.id ≠ id := by
  simp [outstanding]

theorem Shared.perm (h : Shared q helpers) (hp : q.Perm q') : Shared q' helpers := by
  have hmem (d : DRAMPacket) (hd : d ∈ q') : d ∈ q := hp.mem_iff.mpr hd
  refine ⟨fun d hd => ?_, fun d hd => ?_, fun d hd e he => h.same d (hmem d hd) e (hmem e he), fun d hd e he => h.apart d (hmem d hd) e (hmem e he)⟩
  · rw [← outstanding_perm hp]
    exact h.single d (hmem d hd)
  · rw [← outstanding_perm hp]
    exact h.split d (hmem d hd)

/-- The pieces of a new packet. -/
theorem Shared.add {served : Nat} (h : Shared q helpers) (hnew : ∀ d ∈ q, d.pkt.id ≠ pkt.id) (hsum : added.length + served = c) (hne : added ≠ [])
    (hadded : ∀ d ∈ added, d.pkt = pkt ∧ d.burstHelper = if c > 1 then some helpers.length else none) :
    Shared (added ++ q) (if c > 1 then helpers ++ [some { burstCount := c, burstsServiced := served }] else helpers) := by
  have hids : ∀ d ∈ added, d.pkt.id = pkt.id := fun d hd => congrArg PacketPtr.id (hadded d hd).1
  have hsplit (id : Nat) : outstanding (added ++ q) id = outstanding added id + outstanding q id := countP_append
  have hmine : outstanding (added ++ q) pkt.id = added.length := by
    rw [hsplit, outstanding_eq_zero.mpr hnew, add_zero]
    exact countP_eq_length.mpr fun d hd => beq_iff_eq.mpr (hids d hd)
  have hothers : ∀ d ∈ q, outstanding (added ++ q) d.pkt.id = outstanding q d.pkt.id := by
    intro d hd
    rw [hsplit, add_eq_right]
    exact outstanding_eq_zero.mpr fun e he heq => hnew d hd (heq.symm.trans (hids e he))
  -- the helpers of the others are in the old part of the list
  have hold : ∀ d ∈ q, ∀ h, d.burstHelper = some h → h < helpers.length := by
    intro d hd k hk
    obtain ⟨b, hb, -⟩ := h.split d hd k hk
    exact (List.getElem?_eq_some_iff.mp hb).1
  refine ⟨fun d hd hnone => ?_, fun d hd k hk => ?_, fun d hd e he heq => ?_, fun d hd e he k hk hk' => ?_⟩
  · rcases mem_append.mp hd with hd | hd
    · rw [(hadded d hd).2] at hnone
      have hpos := length_pos_iff.mpr hne
      rw [hids d hd, hmine]
      split at hnone
      · cases hnone
      · omega
    · rw [hothers d hd]
      exact h.single d hd hnone
  · rcases mem_append.mp hd with hd | hd
    · rw [(hadded d hd).2] at hk
      split at hk
      · rename_i hc
        cases hk
        refine ⟨_, by rw [if_pos hc, getElem?_concat_length], ?_⟩
        rw [hids d hd, hmine]
        dsimp only
        omega
      · cases hk
    · obtain ⟨b, hb, hcount⟩ := h.split d hd k hk
      refine ⟨b, ?_, by rw [hothers d hd]; exact hcount⟩
      split
      · rw [getElem?_append_left (hold d hd k hk)]
        exact hb
      · exact hb
  · rcases mem_append.mp hd with hd | hd <;> rcases mem_append.mp he with he | he
    · rw [(hadded d hd).2, (hadded e he).2]
    · exact absurd (heq.symm.trans (hids d hd)) (hnew e he)
    · exact absurd (heq.trans (hids e he)) (hnew d hd)
    · exact h.same d hd e he heq
  · -- a new piece has the new helper, whose index the others do not have
    have hfresh : ∀ d ∈ added, ∀ e ∈ q, d.burstHelper = some k → e.burstHelper ≠ some k := by
      intro d hd e he hk hk'
      rw [(hadded d hd).2] at hk
      split at hk
      · cases hk
        exact absurd (hold e he _ hk') (lt_irrefl _)
      · cases hk
    rcases mem_append.mp hd with hd | hd <;> rcases mem_append.mp he with he | he
    · rw [hids d hd, hids e he]
    · exact absurd hk' (hfresh d hd e he hk)
    · exact absurd hk (hfresh e he d hd hk')
    · exact h.apart d hd e he k hk hk'

/-- The piece that is served: the last of a packet, or one of several. -/
theorem Shared.served (h : Shared (d :: q) helpers) :
    (d.burstHelper = none ∧ outstanding q d.pkt.id = 0 ∧ Shared q helpers) ∨
    ∃ k b, d.burstHelper = some k ∧ helpers[k]? = some (some b) ∧
      (b.burstsServiced + 1 = b.burstCount ↔ outstanding q d.pkt.id = 0) ∧
      Shared q (helpers.set k (if outstanding q d.pkt.id = 0 then none else some { b with burstsServiced := b.burstsServiced + 1 })) := by
  have hmem : d ∈ d :: q := mem_cons_self
  have hin (e : DRAMPacket) (he : e ∈ q) : e ∈ d :: q := mem_cons_of_mem d he
  have hself : outstanding (d :: q) d.pkt.id = outstanding q d.pkt.id + 1 := by rw [outstanding_cons, if_pos rfl]
  have hother (e : DRAMPacket) (hne : d.pkt.id ≠ e.pkt.id) : outstanding (d :: q) e.pkt.id = outstanding q e.pkt.id := by
    rw [outstanding_cons, if_neg hne]
    rfl
  cases hk : d.burstHelper with
  | none =>
    left
    have hzero : outstanding q d.pkt.id = 0 := by
      have := h.single d hmem hk
      omega
    have hne (e : DRAMPacket) (he : e ∈ q) : d.pkt.id ≠ e.pkt.id := (outstanding_eq_zero.mp hzero e he).symm
    refine ⟨rfl, hzero, fun e he hnone => ?_, fun e he k' hk' => ?_, fun e he f hf => h.same e (hin e he) f (hin f hf),
      fun e he f hf => h.apart e (hin e he) f (hin f hf)⟩
    · rw [← hother e (hne e he)]
      exact h.single e (hin e he) hnone
    · rw [← hother e (hne e he)]
      exact h.split e (hin e he) k' hk'
  | some k =>
    right
    obtain ⟨b, hb, hcount⟩ := h.split d hmem k hk
    refine ⟨k, b, rfl, hb, by omega, fun e he hnone => ?_, fun e he k' hk' => ?_, fun e he f hf => h.same e (hin e he) f (hin f hf),
      fun e he f hf => h.apart e (hin e he) f (hin f hf)⟩
    · have hne : d.pkt.id ≠ e.pkt.id := by
        intro heq
        have := h.same d hmem e (hin e he) heq
        rw [hk, hnone] at this
        cases this
      rw [← hother e hne]
      exact h.single e (hin e he) hnone
    · obtain ⟨b', hb', hcount'⟩ := h.split e (hin e he) k' hk'
      by_cases heq : d.pkt.id = e.pkt.id
      · -- another piece of the packet
        have hsame := h.same d hmem e (hin e he) heq
        rw [hk, hk'] at hsame
        cases hsame
        have hpos := outstanding_pos he
        rw [← heq] at hpos ⊢
        rw [if_neg (ne_of_gt hpos), List.getElem?_set_self (List.getElem?_eq_some_iff.mp hb).1]
        exact ⟨_, rfl, by dsimp only; omega⟩
      · have hne : k ≠ k' := by
          rintro rfl
          exact heq (h.apart d hmem e (hin e he) k hk hk')
        rw [getElem?_set_ne hne, ← hother e heq]
        exact ⟨b', hb', hcount'⟩

/-! ## The steps -/

namespace DramSystem

variable {s t : DramSystem} {op : DramOp} {ops : List DramOp} {packet : Packet} {mem : AbstractMemory}

/-- The pieces that wait, in the read queue or for their response. -/
def queued (s : DramSystem) : List DRAMPacket := s.queues.readQueue ++ s.queues.respQueue

/-- How often a read was answered. -/
def answers (s : DramSystem) (id : Nat) : Nat := s.queues.responses.countP (·.pkt.id == id)

structure ReadInv (p : DRAMCtrl) (s : DramSystem) : Prop where
  room : s.queues.readQueue.length + s.queues.respQueue.length ≤ p.readBufferSize
  shared : Shared s.queued s.queues.helpers
  known : ∀ d ∈ s.queued, d.pkt.id ∈ s.reads
  arrived : (∀ id ∈ s.reads, id < s.arrived) ∧ ∀ r ∈ s.queues.responses, r.pkt.id < s.arrived
  answered : ∀ id ∈ s.reads, s.answers id = if outstanding s.queued id = 0 then 1 else 0

theorem ReadInv.init : ReadInv p { queues := { memory := mem } } where
  room := zero_le _
  shared := ⟨fun _ h => absurd h not_mem_nil, fun _ h => absurd h not_mem_nil, fun _ h => absurd h not_mem_nil,
    fun _ h => absurd h not_mem_nil⟩
  known _ h := absurd h not_mem_nil
  arrived := ⟨fun _ h => absurd h not_mem_nil, fun _ h => absurd h not_mem_nil⟩
  answered _ h := absurd h not_mem_nil

theorem ReadInv.answers_fresh (i : ReadInv p s) : s.answers s.arrived = 0 :=
  countP_eq_zero.mpr fun r hr heq => absurd (beq_iff_eq.mp heq) (Nat.ne_of_lt (i.arrived.2 r hr))

theorem ReadInv.queued_fresh (i : ReadInv p s) : ∀ d ∈ s.queued, d.pkt.id ≠ s.arrived :=
  fun d hd => Nat.ne_of_lt (i.arrived.1 _ (i.known d hd))

theorem answers_respond {r : Response} (h : t.queues.responses = s.queues.responses ++ [r]) :
    t.answers id = s.answers id + if r.pkt.id = id then 1 else 0 := by
  unfold answers
  rw [h, countP_append, countP_singleton]
  simp

/-- A packet that the read queue is not concerned with. -/
theorem ReadInv.passed (i : ReadInv p s) (hrq : t.queues.readQueue = s.queues.readQueue) (hpq : t.queues.respQueue = s.queues.respQueue)
    (hh : t.queues.helpers = s.queues.helpers) (hreads : t.reads = s.reads) (harr : t.arrived = s.arrived + 1)
    (hresp : t.queues.responses = s.queues.responses ∨ ∃ r, t.queues.responses = s.queues.responses ++ [r] ∧ r.pkt.id = s.arrived) :
    ReadInv p t := by
  have hqueued : t.queued = s.queued := by
    unfold queued
    rw [hrq, hpq]
  refine ⟨by rw [hrq, hpq]; exact i.room, by rw [hqueued, hh]; exact i.shared, by rw [hqueued, hreads]; exact i.known, ⟨?_, ?_⟩, ?_⟩
  · rw [hreads, harr]
    exact fun id hid => lt_succ_of_lt (i.arrived.1 id hid)
  · rw [harr]
    intro r hr
    rcases hresp with hresp | ⟨r', hresp, hid⟩
    · rw [hresp] at hr
      exact lt_succ_of_lt (i.arrived.2 r hr)
    · rw [hresp] at hr
      rcases mem_append.mp hr with hr | hr
      · exact lt_succ_of_lt (i.arrived.2 r hr)
      · rw [mem_singleton.mp hr, hid]
        exact lt_succ_self _
  · intro id hid
    rw [hreads] at hid
    rw [hqueued, ← i.answered id hid]
    rcases hresp with hresp | ⟨r, hresp, hr⟩
    · unfold answers
      rw [hresp]
    · rw [answers_respond hresp, if_neg, add_zero]
      rw [hr]
      exact ne_of_gt (i.arrived.1 id hid)

variable {queues : DramQueues} {parts : List (List (Nat × Nat))}

/-- A read that is accepted. -/
theorem ReadInv.accepted (i : ReadInv p s) (hid : pkt.id = s.arrived)
    (hroom : s.queues.readQueueFull p c = false) (hq : Queued s.queues pkt c queues) :
    ReadInv p { queues := queues, arrived := s.arrived + 1, reads := s.reads ++ [s.arrived], parts := parts } := by
  have harrived : ∀ id ∈ s.reads ++ [s.arrived], id < s.arrived + 1 := by
    intro id hid
    rcases mem_append.mp hid with hid | hid
    · exact lt_succ_of_lt (i.arrived.1 id hid)
    · rw [mem_singleton.mp hid]
      exact lt_succ_self _
  have hne : ∀ id ∈ s.reads, s.arrived ≠ id := fun id hid => ne_of_gt (i.arrived.1 id hid)
  cases hq with
  | answered mem r hr =>
    rw [hid] at hr
    have hanswers (id : Nat) : answers { queues := s.queues.respond mem r, arrived := s.arrived + 1, reads := s.reads ++ [s.arrived], parts := parts } id =
        s.answers id + if r.pkt.id = id then 1 else 0 := answers_respond rfl
    refine ⟨i.room, i.shared, fun d hd => mem_append_left _ (i.known d hd), ⟨harrived, fun r' hr' => ?_⟩, fun id hid => ?_⟩
    · rcases mem_append.mp hr' with hr' | hr'
      · exact lt_succ_of_lt (i.arrived.2 r' hr')
      · rw [mem_singleton.mp hr', hr]
        exact lt_succ_self _
    · show answers _ id = if outstanding s.queued id = 0 then 1 else 0
      rw [hanswers, hr]
      rcases mem_append.mp hid with hid | hid
      · rw [if_neg (hne id hid), add_zero]
        exact i.answered id hid
      · rw [mem_singleton.mp hid, if_pos rfl, i.answers_fresh, if_pos (outstanding_eq_zero.mpr i.queued_fresh)]
  | waiting added served hnil hsum hadded =>
    have hperm : (added ++ s.queued).Perm (s.queues.readQueue ++ added ++ s.queues.respQueue) := by
      unfold queued
      rw [← append_assoc]
      exact perm_append_comm.append_right _
    have hids : ∀ d ∈ added, d.pkt.id = s.arrived := fun d hd => (congrArg PacketPtr.id (hadded d hd).1).trans hid
    have hfresh : ∀ d ∈ s.queued, d.pkt.id ≠ pkt.id := hid ▸ i.queued_fresh
    refine ⟨?_, (i.shared.add hfresh hsum hnil hadded).perm hperm, fun d hd => ?_, ⟨harrived, fun r hr => lt_succ_of_lt (i.arrived.2 r hr)⟩,
      fun id hid => ?_⟩
    · have := of_decide_eq_false hroom
      dsimp only
      rw [length_append]
      omega
    · rcases mem_append.mp (hperm.mem_iff.mpr hd) with hd | hd
      · rw [hids d hd]
        exact mem_append_right _ (mem_singleton_self _)
      · exact mem_append_left _ (i.known d hd)
    · show s.answers id = if outstanding (s.queues.readQueue ++ added ++ s.queues.respQueue) id = 0 then 1 else 0
      rw [← outstanding_perm hperm]
      rcases mem_append.mp hid with hid | hid
      · have hzero : outstanding added id = 0 := outstanding_eq_zero.mpr fun d hd => by rw [hids d hd]; exact hne id hid
        have hsame : outstanding (added ++ s.queued) id = outstanding s.queued id := by
          rw [outstanding, countP_append]
          unfold outstanding at hzero ⊢
          rw [hzero, zero_add]
        rw [hsame]
        exact i.answered id hid
      · obtain ⟨d, hd⟩ := exists_mem_of_ne_nil added hnil
        have hpos := outstanding_pos (mem_append_left s.queued hd)
        rw [hids d hd] at hpos
        rw [mem_singleton.mp hid, i.answers_fresh, if_neg (ne_of_gt hpos)]

theorem isReadReq_of_write (h : isWriteReq packet = true) : isReadReq packet = false := by
  simp only [isWriteReq, Bool.and_eq_true, Bool.not_eq_true'] at h
  simp [isReadReq, h.1.2]

theorem ReadInv.moved (i : ReadInv p s) (hperm : s.queued.Perm t.queued) (hh : t.queues.helpers = s.queues.helpers)
    (hresp : t.queues.responses = s.queues.responses) (hreads : t.reads = s.reads) (harr : t.arrived = s.arrived) : ReadInv p t := by
  refine ⟨?_, hh ▸ i.shared.perm hperm, fun d hd => hreads ▸ i.known d (hperm.mem_iff.mpr hd), ?_, fun id hid => ?_⟩
  · have hlen := hperm.length_eq
    have hroom := i.room
    unfold queued at hlen
    rw [length_append, length_append] at hlen
    omega
  · rw [hreads, harr, hresp]
    exact i.arrived
  · rw [← outstanding_perm hperm, ← i.answered id (hreads ▸ hid)]
    unfold answers
    rw [hresp]

theorem ReadInv.serveRead {k : Nat} (i : ReadInv p s) (h : s.queues.serveRead p k = .ok queues) :
    ReadInv p { s with queues := queues } := by
  obtain ⟨d, hd, h⟩ := of_bind h
  obtain ⟨_, -, h⟩ := of_bind h
  obtain ⟨l₁, l₂, hsplit, herase, -⟩ := split_at (index_eq_ok.mp hd)
  have hqueues : queues.readQueue = l₁ ++ l₂ ∧ queues.respQueue = s.queues.respQueue ++ [d] ∧ queues.helpers = s.queues.helpers ∧
      queues.responses = s.queues.responses := by
    cases h
    unfold retryWrites
    split <;> exact ⟨herase, rfl, rfl, rfl⟩
  obtain ⟨hrq, hpq, hh, hresp⟩ := hqueues
  refine i.moved ?_ hh hresp rfl rfl
  unfold queued
  rw [hrq, hpq, hsplit, append_assoc, cons_append, ← append_assoc (l₁ ++ l₂), append_assoc l₁]
  exact perm_middle.trans (perm_append_singleton d _).symm

theorem ReadInv.serveWrite {k : Nat} (i : ReadInv p s)
    (h : s.queues.serveWrite p k = .ok queues) : ReadInv p { s with queues := queues, parts := parts } := by
  obtain ⟨d, hd, h⟩ := of_bind h
  obtain ⟨_, -, h⟩ := of_bind h
  have hqueues : queues.readQueue = s.queues.readQueue ∧ queues.respQueue = s.queues.respQueue ∧ queues.helpers = s.queues.helpers ∧
      queues.responses = s.queues.responses := by
    cases h
    unfold retryWrites
    split <;> exact ⟨rfl, rfl, rfl, rfl⟩
  obtain ⟨hrq, hpq, hh, hresp⟩ := hqueues
  refine i.moved (List.Perm.of_eq ?_) hh hresp rfl rfl
  unfold queued
  rw [hrq, hpq]

/-- The piece at the front of the response queue: it answers its packet if it is the last one. -/
theorem burstServiced_spec {s t : DramQueues} (hd : Shared (d :: q) s.helpers) (h : s.burstServiced p d = .ok t) :
    Shared q t.helpers ∧ t.readQueue = s.readQueue ∧ t.respQueue = s.respQueue ∧
    if outstanding q d.pkt.id = 0 then ∃ r, t.responses = s.responses ++ [r] ∧ r.pkt.id = d.pkt.id else t.responses = s.responses := by
  unfold burstServiced at h
  rcases hd.served with ⟨hnone, hzero, hshared⟩ | ⟨k, b, hsome, hb, hlast, hshared⟩
  · rw [hnone] at h
    obtain ⟨mem, r, rfl, hid⟩ := accessAndRespond_spec h
    rw [if_pos hzero]
    exact ⟨hshared, rfl, rfl, r, rfl, hid⟩
  · rw [hsome] at h
    dsimp only at h
    rw [hb] at h
    dsimp only at h
    split at h
    · rename_i hcount
      have hzero := hlast.mp hcount
      obtain ⟨u, hu, h⟩ := of_bind h
      obtain ⟨mem, r, rfl, hid⟩ := accessAndRespond_spec hu
      cases h
      rw [if_pos hzero] at hshared ⊢
      exact ⟨hshared, rfl, rfl, r, rfl, hid⟩
    · rename_i hcount
      have hzero : outstanding q d.pkt.id ≠ 0 := fun hzero => hcount (hlast.mpr hzero)
      cases h
      rw [if_neg hzero] at hshared ⊢
      exact ⟨hshared, rfl, rfl, rfl⟩

theorem ReadInv.processRespondEvent (i : ReadInv p s) (h : s.queues.processRespondEvent p = .ok queues) :
    ReadInv p { s with queues := queues } := by
  unfold DramQueues.processRespondEvent at h
  cases hpq : s.queues.respQueue with
  | nil =>
    rw [hpq] at h
    cases h
  | cons d rest =>
    rw [hpq] at h
    obtain ⟨u, hu, h⟩ := of_bind h
    cases h
    have hperm : s.queued.Perm (d :: (s.queues.readQueue ++ rest)) := by
      unfold queued
      rw [hpq]
      exact perm_middle
    obtain ⟨hshared, hrq, -, hresp⟩ := burstServiced_spec (i.shared.perm hperm) hu
    have hmem : d ∈ s.queued := hperm.mem_iff.mpr mem_cons_self
    refine ⟨?_, ?_, fun e he => ?_, ⟨i.arrived.1, ?_⟩, fun id hid => ?_⟩
    · have := i.room
      rw [hpq, length_cons] at this
      dsimp only
      rw [hrq]
      omega
    · show Shared (u.readQueue ++ rest) u.helpers
      rw [hrq]
      exact hshared
    · refine i.known e (hperm.mem_iff.mpr (mem_cons_of_mem d ?_))
      rw [← hrq]
      exact he
    · intro r hr
      split at hresp
      · obtain ⟨r', hresp, hid⟩ := hresp
        change r ∈ u.responses at hr
        rw [hresp] at hr
        rcases mem_append.mp hr with hr | hr
        · exact i.arrived.2 r hr
        · rw [mem_singleton.mp hr, hid]
          exact i.arrived.1 _ (i.known d hmem)
      · change r ∈ u.responses at hr
        rw [hresp] at hr
        exact i.arrived.2 r hr
    · show u.responses.countP (·.pkt.id == id) = if outstanding (u.readQueue ++ rest) id = 0 then 1 else 0
      have hold := i.answered id hid
      rw [outstanding_perm hperm, outstanding_cons] at hold
      unfold answers at hold
      rw [hrq]
      by_cases heq : d.pkt.id = id
      · subst heq
        rw [if_pos rfl, if_neg (succ_ne_zero _)] at hold
        split at hresp
        · rename_i hzero
          obtain ⟨r, hresp, hr⟩ := hresp
          rw [hresp, countP_append, hold, if_pos hzero]
          simp [hr]
        · rename_i hzero
          rw [hresp, hold, if_neg hzero]
      · rw [if_neg heq, add_zero] at hold
        split at hresp
        · obtain ⟨r, hresp, hr⟩ := hresp
          rw [hresp, countP_append, hold]
          simp [hr, heq]
        · rw [hresp, hold]

theorem ReadInv.step (i : ReadInv p s) (h : step p s op = .ok t) : ReadInv p t := by
  cases op with
  | recvTimingReq packet =>
    obtain ⟨⟨accepted, queues⟩, hq, h⟩ := of_bind h
    cases h
    cases recvTimingReq_spec hq with
    | dropped hinh =>
      have hread : isReadReq packet = false := by simp [isReadReq, show packet.memInhibitAsserted = true from hinh]
      exact i.passed rfl rfl rfl (by simp [hread]) rfl (.inl rfl)
    | refused rd wr => exact i.passed rfl rfl rfl rfl rfl (.inl rfl)
    | read u hread hroom hq =>
      rw [hread]
      exact i.accepted rfl hroom hq
    | write hwrite hsize hroom writeQueue mem r hid hloop =>
      have hread : isReadReq packet = false := isReadReq_of_write hwrite
      exact i.passed rfl rfl rfl (by simp [hread]) rfl (.inr ⟨r, rfl, hid⟩)
    | other hread hwrite mem r hid =>
      have hread : isReadReq packet = false := by simp [isReadReq, show packet.isRead = false from hread]
      exact i.passed rfl rfl rfl (by simp [hread]) rfl (.inr ⟨r, rfl, hid⟩)
  | serveRead k =>
    obtain ⟨queues, hq, h⟩ := of_bind h
    cases h
    exact i.serveRead hq
  | serveWrite k =>
    obtain ⟨queues, hq, h⟩ := of_bind h
    cases h
    exact i.serveWrite hq
  | processRespondEvent =>
    obtain ⟨queues, hq, h⟩ := of_bind h
    cases h
    exact i.processRespondEvent hq

abbrev CtrlStep (p : DRAMCtrl) : DramSystem → DramOp → DramSystem → Prop := StepOf (step p)

theorem ReadInv.run (hr : Exec (CtrlStep p) { queues := { memory := mem } } ops s) : ReadInv p s :=
  hr.invariant ReadInv.init fun _ _ _ i hs => i.step hs

/-! ## The assertions on the room -/

variable {pre post : List (Nat × Nat)} {burst : Nat × Nat}

theorem read_room {l : DramQueues.ReadLoop}
    (hroom : queues.readQueueFull p (p.dramPktCount packet) = false) (hsplit : burstsOf p packet = pre ++ burst :: post)
    (hloop : pre.foldlM (addReadBurst p pkt (p.dramPktCount packet)) { queues := queues } = .ok l) :
    l.queues.readQueueFull p 1 = false := by
  obtain ⟨added, r⟩ := Reading.init.loop hloop
  have hlen := congrArg length hsplit
  unfold burstsOf at hlen
  rw [bursts_length, length_append, length_cons] at hlen
  have hrounds := r.rounds
  have hroom := of_decide_eq_false hroom
  unfold readQueueFull
  rw [r.queues]
  simp only [length_append, decide_eq_false_iff_not]
  omega

theorem mergeWrite_length {B addr size : Nat} (h : mergeWrite B addr size q = some q') : q'.length = q.length := by
  induction q generalizing q' with
  | nil => cases h
  | cons w q ih =>
    unfold mergeWrite at h
    split at h
    · cases h
      rfl
    · obtain ⟨r, hr, rfl⟩ := Option.map_eq_some_iff.mp h
      rw [length_cons, ih hr, length_cons]

theorem addWriteBurst_length (h : addWriteBurst p pkt q x = .ok q') : q'.length ≤ q.length + 1 := by
  unfold addWriteBurst at h
  split at h
  · rename_i hmerge
    cases h
    rw [mergeWrite_length hmerge]
    exact le_succ _
  · obtain ⟨d, -, h⟩ := of_bind h
    obtain ⟨_, -, h⟩ := of_bind h
    cases h
    rw [length_append]
    rfl

theorem addWriteBursts_length (h : xs.foldlM (addWriteBurst p pkt) q = .ok q') : q'.length ≤ q.length + xs.length := by
  induction xs generalizing q with
  | nil =>
    cases h
    rfl
  | cons x xs ih =>
    obtain ⟨r, hr, h⟩ := of_bind h
    have := addWriteBurst_length hr
    have := ih h
    rw [length_cons]
    omega

theorem write_room
    (hroom : queues.writeQueueFull p (p.dramPktCount packet) = false) (hsplit : burstsOf p packet = pre ++ burst :: post)
    (hloop : pre.foldlM (addWriteBurst p pkt) queues.writeQueue = .ok q) : q.length < p.writeBufferSize := by
  have hlen := congrArg length hsplit
  unfold burstsOf at hlen
  rw [bursts_length, length_append, length_cons] at hlen
  have hle := addWriteBursts_length hloop
  have hroom := of_decide_eq_false hroom
  omega

variable {k : Nat}

/-- Every read that is accepted is answered once, when the last of its pieces is served, and there is room for all
  that wait. The pieces are right exactly if no number wraps around. -/
theorem reads_split_and_answered (hB : p.burstSize = 2 ^ k) (hk : k < 32) (hr : Exec (CtrlStep p) { queues := { memory := mem } } ops s) :
    (∀ id ∈ s.reads, s.answers id = if outstanding s.queued id = 0 then 1 else 0) ∧
    s.queues.readQueue.length + s.queues.respQueue.length ≤ p.readBufferSize ∧
    (∀ pkt pre burst post l, s.queues.readQueueFull p (p.dramPktCount pkt.packet) = false → burstsOf p pkt.packet = pre ++ burst :: post →
      pre.foldlM (addReadBurst p pkt (p.dramPktCount pkt.packet)) { queues := s.queues } = .ok l →
      l.queues.readQueueFull p 1 = false) ∧
    (∀ pkt pre burst post q, s.queues.writeQueueFull p (p.dramPktCount pkt.packet) = false → burstsOf p pkt.packet = pre ++ burst :: post →
      pre.foldlM (addWriteBurst p pkt) s.queues.writeQueue = .ok q → q.length < p.writeBufferSize) ∧
    ∀ packet : Packet, packet.addr < 2 ^ 64 → 1 ≤ packet.size → (Split p packet (burstsOf p packet) ↔ Fits p packet) := by
  have i := ReadInv.run hr
  refine ⟨i.answered, i.room, ?_, ?_, ?_⟩
  · intro pkt pre burst post l hroom hsplit hloop
    exact read_room hroom hsplit hloop
  · intro pkt pre burst post q hroom hsplit hloop
    exact write_room hroom hsplit hloop
  · intro packet ha hsize
    exact split_iff_fits hB hk ha hsize

/-- Bursts of 64 bytes, rows of 16 bursts and 8 banks. -/
def small : DRAMCtrl :=
  { burstSize := 64, columnsPerRowBuffer := 16, columnsPerStripe := 1, ranksPerChannel := 1, banksPerRank := 8, channels := 1,
    rowsPerBank := 4, readBufferSize := 4, writeBufferSize := 4, addrMapping := .RoCoRaBaCh, frontendLatency := 10, backendLatency := 10 }

def packetAt (cmd : MemCmd) (addr size : Nat) : Packet :=
  { cmd := cmd, req := { paddr := addr, size := size, masterId := 0 }, addr := addr, size := size }

def emptyMemory : AbstractMemory := { range := AddrRange.RangeIn 0 (2 ^ 64 - 1), mem := fun _ => 0 }

/-- The middle of three pieces is in the write queue, and the last one is served first. -/
theorem reads_split_and_answered_three : ∃ s, Exec (CtrlStep small) { queues := { memory := emptyMemory } }
      [.recvTimingReq (packetAt .writeReq 64 64), .recvTimingReq (packetAt .readReq 16 128), .serveRead 1, .processRespondEvent,
        .serveRead 0, .processRespondEvent] s ∧
    s.reads = [1] ∧ outstanding s.queued 1 = 0 ∧ s.answers 1 = 1 ∧
    Split small (packetAt .readReq 16 128) (burstsOf small (packetAt .readReq 16 128)) := by
  refine Exec.ends_with (p := fun s => decide (s.reads = [1] ∧ outstanding s.queued 1 = 0)) (by decide) fun s hr hend => ?_
  obtain ⟨hreads, hzero⟩ := of_decide_eq_true hend
  obtain ⟨hanswered, -, -, -, hsplit⟩ := reads_split_and_answered (k := 6) rfl (by decide) hr
  refine ⟨hreads, hzero, ?_, (hsplit _ (by decide) (by decide)).mpr (by decide)⟩
  have hone := hanswered 1 (hreads ▸ mem_singleton_self 1)
  rw [hzero, if_pos rfl] at hone
  exact hone

/-- Eight bytes of the last burst of the addresses become a piece of 64. -/
theorem last_burst_not_split : burstsOf small (packetAt .readReq (2 ^ 64 - 64) 8) = [(2 ^ 64 - 64, 64)] ∧
    ¬ Split small (packetAt .readReq (2 ^ 64 - 64) 8) (burstsOf small (packetAt .readReq (2 ^ 64 - 64) 8)) := by
  have hpieces : burstsOf small (packetAt .readReq (2 ^ 64 - 64) 8) = [(2 ^ 64 - 64, 64)] := by decide
  refine ⟨hpieces, fun h => ?_⟩
  have hbytes := h.bytes
  exact absurd (congrArg length hbytes) (by decide)

end DramSystem

end Gem5.Mem
