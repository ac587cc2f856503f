import Gem5Nvmain.Mem.SnoopFilter

/- The snoop filter has no false negatives, as long as its guesses are sound.

  The filter takes the port of a response for the only holder of the line when the response is exclusive or not marked
  as shared, and it takes a port that wrote the line back for one that has nothing to send any more. Where both are so
  (`System.sound`), a port with a copy is a holder, and a port has its bit in `requested` as long as its request is in
  flight (`Inv`). Then every port that matters is snooped and the filter does not panic (`no_false_negatives`). Where
  they are not, it loses a copy or panics (`false_negatives`). -/
namespace Gem5.Mem.SnoopFilter
open Lib List Bool System

variable {n p q r : Nat} {pkt : SnoopPacket} {item item' : SnoopItem} {s t : System} {op : SnoopOp} {m : BitVec 64}

/-! ## Masks -/

theorem panicIf_has {msg : String} (hp : p < 64) (h : m.getLsbD p = true) : panicIf (decide (m &&& oneHot 64 p = 0)) msg = .ok () := by
  have hne : m &&& oneHot 64 p ≠ 0 := (and_oneHot_ne_zero hp).mpr h
  rw [decide_eq_false hne]
  rfl

theorem panicIf_hasNot {msg : String} (hp : p < 64) (h : m.getLsbD p = false) :
    panicIf (decide (m &&& oneHot 64 p ≠ 0)) msg = .ok () := by
  have heq : m &&& oneHot 64 p = 0 := (and_oneHot_eq_zero hp).mpr h
  rw [decide_eq_false (not_not.mpr heq)]
  rfl

theorem portToMask_eq (hp : p < 64) : portToMask p = .ok (oneHot 64 p) := by
  unfold portToMask
  rw [decide_eq_true hp]
  rfl

theorem maskToPortList_eq {ports : List Nat} (h : ∀ p ∈ ports, p < 64) :
    maskToPortList m ports = .ok (ports.filter (m.getLsbD ·)) := by
  induction ports with
  | nil => rfl
  | cons p ports ih =>
    have hp : p < 64 := h p mem_cons_self
    have hrest : ∀ q ∈ ports, q < 64 := fun q hq => h q (mem_cons_of_mem p hq)
    unfold maskToPortList
    rw [portToMask_eq hp, bind_ok, ih hrest, bind_ok, filter_cons]
    simp only [and_oneHot_ne_zero hp]
    rfl

theorem maskToPortList_range (hn : n ≤ 64) : maskToPortList m (range n) = .ok ((range n).filter (m.getLsbD ·)) :=
  maskToPortList_eq fun _ hp => (mem_range.mp hp).trans_le hn

/-! ## The calls of the filter

   Each of them on a port in range, where it does not panic. -/

/-- Whether the filter has the port. -/
def SnoopItem.interested (item : SnoopItem) (p : Nat) : Bool := item.holder.getLsbD p || item.requested.getLsbD p

/-- The filter takes the port of this response for the only holder. -/
def SnoopPacket.onlyHolder (pkt : SnoopPacket) : Bool := pkt.needsExclusive || !pkt.sharedAsserted

theorem lookupRequest_eq (hn : n ≤ 64) (hp : p < n)
    (hnew : pkt.needsResponse = true → pkt.memInhibitAsserted = false → item.requested.getLsbD p = false)
    (hhold : pkt.needsResponse = true → pkt.memInhibitAsserted = true → item.holder.getLsbD p = true) :
    item.lookupRequest n pkt p = .ok ((range n).filter fun q => item.interested q && decide (q ≠ p),
      if pkt.needsResponse && !pkt.memInhibitAsserted then { item with requested := item.requested ||| oneHot 64 p } else item) := by
  have hp64 := hp.trans_le hn
  have hports : (range n).filter ((item.holder ||| item.requested) &&& ~~~oneHot 64 p).getLsbD =
      (range n).filter fun q => item.interested q && decide (q ≠ p) := by
    apply filter_congr
    intro q _
    rw [getLsbD_remove hp64, BitVec.getLsbD_or]
    rfl
  unfold SnoopItem.lookupRequest
  rw [portToMask_eq hp64, bind_ok]
  dsimp only
  rw [maskToPortList_range hn, bind_ok, hports]
  cases hresp : pkt.needsResponse with
  | false => rfl
  | true =>
    cases hinh : pkt.memInhibitAsserted with
    | false => exact bind_eq_ok.mpr ⟨(), panicIf_hasNot hp64 (hnew hresp hinh), rfl⟩
    | true => exact bind_eq_ok.mpr ⟨(), panicIf_has hp64 (hhold hresp hinh), rfl⟩

theorem updateRequest_retry (hp : p < 64) :
    item.updateRequest pkt p true = .ok { item with requested := item.requested &&& ~~~oneHot 64 p } := by
  unfold SnoopItem.updateRequest
  rw [portToMask_eq hp, bind_ok, if_pos rfl]
  rfl

theorem updateRequest_response (hp : p < 64) (hresp : pkt.needsResponse = true) : item.updateRequest pkt p false = .ok item := by
  unfold SnoopItem.updateRequest
  rw [portToMask_eq hp, bind_ok, hresp]
  rfl

theorem updateRequest_writeback (hp : p < 64) (hcmd : pkt.cmd = .writeback) (hreq : item.requested.getLsbD p = false)
    (hhold : item.holder.getLsbD p = true) :
    item.updateRequest pkt p false = .ok { item with holder := item.holder &&& ~~~oneHot 64 p } := by
  have hresp : pkt.needsResponse = false := by
    unfold SnoopPacket.needsResponse
    rw [hcmd]
    rfl
  unfold SnoopItem.updateRequest
  rw [portToMask_eq hp, bind_ok, hresp, if_neg Bool.false_ne_true, if_pos (by rfl), if_pos hcmd, panicIf_hasNot hp hreq, bind_ok,
    panicIf_has hp hhold]
  rfl

theorem lookupSnoop_eq (hn : n ≤ 64) (hreq : pkt.isRequest = true) (hexcl : (pkt.isInvalidate == pkt.needsExclusive) = true) :
    item.lookupSnoop n pkt = .ok ((range n).filter item.interested,
      if pkt.isInvalidate ∧ item.requested = 0 then { item with holder := 0 } else item) := by
  have hports : (range n).filter (item.holder ||| item.requested).getLsbD = (range n).filter item.interested := by
    apply filter_congr
    intro q _
    rw [BitVec.getLsbD_or]
    rfl
  unfold SnoopItem.lookupSnoop
  rw [hreq, hexcl]
  dsimp only
  rw [maskToPortList_range hn, hports, bind_ok]
  by_cases hc : pkt.isInvalidate ∧ item.requested = 0
  · rw [if_pos hc, if_pos hc]
    rfl
  · rw [if_neg hc, if_neg hc]
    rfl

/-- What a response to a port leaves of the line. -/
def SnoopItem.respond (item : SnoopItem) (pkt : SnoopPacket) (p : Nat) : SnoopItem where
  requested := item.requested &&& ~~~oneHot 64 p
  holder := (if pkt.onlyHolder then 0 else item.holder) ||| oneHot 64 p

theorem updateResponse_eq (hp : p < 64) (hresp : pkt.isResponse = true) (hreq : item.requested.getLsbD p = true) :
    item.updateResponse pkt p = .ok (item.respond pkt p) := by
  unfold SnoopItem.updateResponse SnoopItem.respond
  rw [portToMask_eq hp, bind_ok, hresp, panicIf_has hp hreq]
  cases hc : pkt.onlyHolder <;> simp only [SnoopPacket.onlyHolder] at hc <;> rw [hc] <;> rfl

theorem updateSnoopResponse_eq (hp : p < 64) (hq : q < 64) (hresp : pkt.isResponse = true) (hinh : pkt.memInhibitAsserted = true)
    (hhold : item.holder.getLsbD q = true) (hreq : item.requested.getLsbD p = true) :
    item.updateSnoopResponse pkt q p = .ok (item.respond pkt p) := by
  have hcmd : decide (pkt.cmd ≠ .writeback) = true := by
    rw [decide_eq_true_iff]
    intro hcmd
    unfold SnoopPacket.isResponse at hresp
    rw [hcmd] at hresp
    cases hresp
  unfold SnoopItem.updateSnoopResponse SnoopItem.respond
  rw [portToMask_eq hp, portToMask_eq hq, bind_ok, bind_ok, hresp, hinh, panicIf_has hq hhold, panicIf_has hp hreq, hcmd]
  cases hc : pkt.onlyHolder <;> simp only [SnoopPacket.onlyHolder] at hc <;> rw [hc] <;> rfl

theorem respond_requested (hp : p < 64) : (item.respond pkt p).requested.getLsbD r = (item.requested.getLsbD r && decide (r ≠ p)) :=
  getLsbD_remove hp

theorem respond_holder (hp : p < 64) :
    (item.respond pkt p).holder.getLsbD r = ((!pkt.onlyHolder && item.holder.getLsbD r) || decide (r = p)) := by
  unfold SnoopItem.respond
  rw [getLsbD_add hp]
  cases pkt.onlyHolder <;> simp

/-! ## The invariant -/

structure Inv (n : Nat) (s : System) : Prop where
  validPort : ∀ p, s.valid p = true → p < n
  flightPort : ∀ p, s.inFlight p = true → p < n
  holder : ∀ p, s.valid p = true → s.item.holder.getLsbD p = true
  requested : ∀ p, s.item.requested.getLsbD p = s.inFlight p
  /-- who owes a snoop response has the line, or will have it -/
  debts : ∀ q p, s.owes q p = true → q < n ∧ (s.item.holder.getLsbD q = true ∨ s.inFlight q = true)

theorem Inv.init : Inv n {} where
  validPort := by simp
  flightPort := by simp [inFlight]
  holder := by simp
  requested := by simp [inFlight]
  debts := by simp [owes]

theorem Inv.drop {dropped : List Nat} (i : Inv n s) : Inv n (s.drop dropped) := by
  have hvalid : ∀ p, (s.drop dropped).valid p = true → s.valid p = true := fun p hp => (and_eq_true_iff.mp hp).1
  exact ⟨fun p hp => i.validPort p (hvalid p hp), i.flightPort, fun p hp => i.holder p (hvalid p hp), i.requested, i.debts⟩

theorem settled_spec (h : s.settled n p = true) (hr : r < n) (hne : r ≠ p) :
    s.valid r = false ∧ ∀ o < n, o ≠ p → s.owes r o = true → s.inFlight r = true := by
  have hr := all_eq_true.mp h r (mem_range.mpr hr)
  rw [or_eq_true, beq_iff_eq, or_iff_right hne, and_eq_true, not_eq_true'] at hr
  refine ⟨hr.1, fun o ho hop howes => ?_⟩
  have ho := all_eq_true.mp hr.2 o (mem_range.mpr ho)
  rw [or_eq_true, or_eq_true, beq_iff_eq, howes] at ho
  simpa [hop] using ho

theorem owes_inFlight (h : s.owes q p = true) : s.inFlight p = true := by
  unfold inFlight
  rw [beq_iff_eq.mp h]
  rfl

theorem Inv.answered {keeps : Bool} (hn : n ≤ 64) (i : Inv n s) (hp : p < n)
    (hs : pkt.onlyHolder = true → s.settled n p = true) : Inv n (s.answered (s.item.respond pkt p) p keeps) := by
  have hp64 := hp.trans_le hn
  have hflight (r : Nat) : (s.answered (s.item.respond pkt p) p keeps).inFlight r = (s.inFlight r && decide (r ≠ p)) := by
    by_cases hr : r = p
    · simp [System.answered, System.inFlight, hr]
    · simp [System.answered, System.inFlight, hr]
  refine ⟨fun r hr => ?_, fun r hr => ?_, fun r hr => ?_, fun r => ?_, fun q o howes => ?_⟩
  · by_cases heq : r = p
    · exact heq ▸ hp
    · exact i.validPort r (by simpa [System.answered, heq] using hr)
  · rw [hflight, and_eq_true] at hr
    exact i.flightPort r hr.1
  · by_cases heq : r = p
    · simp [System.answered, respond_holder hp64, heq]
    · -- another port with a copy: the response was not exclusive
      have hvalid : s.valid r = true := by simpa [System.answered, heq] using hr
      have honly : pkt.onlyHolder = false := by
        by_contra hc
        have := (settled_spec (hs (eq_true_of_not_eq_false hc)) (i.validPort r hvalid) heq).1
        rw [hvalid] at this
        cases this
      simp [System.answered, respond_holder hp64, honly, i.holder r hvalid]
  · rw [hflight, ← i.requested]
    exact respond_requested hp64
  · have ho : o ≠ p ∧ s.owes q o = true := by
      by_cases heq : o = p
      · simp [System.answered, System.owes, heq] at howes
      · exact ⟨heq, by simpa [System.answered, System.owes, heq] using howes⟩
    obtain ⟨hq, hdebt⟩ := i.debts q o ho.2
    refine ⟨hq, ?_⟩
    rw [hflight]
    by_cases hqp : q = p
    · simp [System.answered, respond_holder hp64, hqp]
    · rcases hdebt with hhold | hin
      · cases honly : pkt.onlyHolder with
        | false =>
          left
          simp [System.answered, respond_holder hp64, honly, hhold]
        | true =>
          right
          have hin := (settled_spec (hs honly) hq hqp).2 o (i.flightPort o (owes_inFlight ho.2)) ho.1 ho.2
          simp [hin, hqp]
      · right
        simp [hin, hqp]

/-! ## The steps -/

variable {dropped : List Nat} {supplier : Supplier} {accepted keeps : Bool} {responder : Option Nat}

/-- A request that is sent down: it is in flight, until it is answered. -/
theorem Inv.requested_sent (dropped : List Nat) (supplier : Supplier) (hn : n ≤ 64) (i : Inv n s) (hp : p < n)
    (hq : ∀ q, supplier = .cache q → s.valid q = true ∨ s.inFlight q = true) : Inv n { s.drop dropped with
      item := { s.item with requested := s.item.requested ||| oneHot 64 p }
      request := Function.update s.request p (some supplier) } where
  validPort := i.drop.validPort
  flightPort r hr := by
    by_cases heq : r = p
    · exact heq ▸ hp
    · exact i.flightPort r (by simpa [inFlight, heq] using hr)
  holder := i.drop.holder
  requested r := by
    rw [getLsbD_add (hp.trans_le hn), i.requested]
    by_cases heq : r = p <;> simp [inFlight, heq]
  debts q o howes := by
    have hin (r : Nat) (hr : s.inFlight r = true) : (Function.update s.request p (some supplier) r).isSome = true := by
      by_cases heq : r = p
      · simp [heq]
      · rw [Function.update_of_ne heq]
        exact hr
    by_cases heq : o = p
    · have hsupp : supplier = .cache q := by simpa [owes, heq] using howes
      rcases hq q hsupp with hvalid | hflight
      · exact ⟨i.validPort q hvalid, .inl (i.holder q hvalid)⟩
      · exact ⟨i.flightPort q hflight, .inr (hin q hflight)⟩
    · have howes : s.owes q o = true := by simpa [owes, heq] using howes
      obtain ⟨hlt, hdebt⟩ := i.debts q o howes
      exact ⟨hlt, hdebt.imp id (hin q)⟩

/-- The line is written back, and its cache owes it to nobody. -/
theorem Inv.wroteBack (dropped : List Nat) (hn : n ≤ 64) (i : Inv n s) (hp : p < n) (hclear : ∀ o, s.owes p o = false) :
    Inv n { s.drop dropped with
      item := { s.item with holder := s.item.holder &&& ~~~oneHot 64 p }
      valid := Function.update (s.drop dropped).valid p false } where
  validPort r hr := by
    by_cases heq : r = p
    · exact heq ▸ hp
    · exact i.drop.validPort r (by simpa [heq] using hr)
  flightPort := i.flightPort
  holder r hr := by
    by_cases heq : r = p
    · simp [heq] at hr
    · have hr : (s.drop dropped).valid r = true := by simpa [heq] using hr
      rw [getLsbD_remove (hp.trans_le hn), decide_eq_true heq, Bool.and_true]
      exact i.drop.holder r hr
  requested := i.requested
  debts q o howes := by
    obtain ⟨hq, hdebt⟩ := i.debts q o howes
    refine ⟨hq, hdebt.imp (fun hhold => ?_) id⟩
    rw [getLsbD_remove (hp.trans_le hn), hhold, Bool.true_and, decide_eq_true_iff]
    rintro rfl
    have howes : s.owes q o = true := howes
    rw [hclear] at howes
    cases howes

section
variable (hn : n ≤ 64)
include hn

theorem Inv.lookup (i : Inv n s) (ha : s.allowed n (.request p pkt dropped supplier accepted) = true) :
    s.item.lookupRequest n pkt p = .ok ((range n).filter fun q => s.item.interested q && decide (q ≠ p),
      if pkt.needsResponse && !pkt.memInhibitAsserted then { s.item with requested := s.item.requested ||| oneHot 64 p } else s.item) := by
  simp only [allowed, and_eq_true, decide_eq_true_eq] at ha
  obtain ⟨⟨⟨hp, -⟩, -⟩, hcond⟩ := ha
  apply lookupRequest_eq hn hp
  · intro hresp hinh
    rw [hresp, hinh, if_pos rfl, if_neg Bool.false_ne_true, Bool.and_eq_true, Bool.not_eq_true'] at hcond
    exact (i.requested p).trans hcond.1
  · intro hresp hinh
    rw [hresp, hinh, if_pos rfl, if_pos rfl, and_eq_true, and_eq_true] at hcond
    exact i.holder p hcond.1.1

theorem Inv.request (i : Inv n s) (ha : s.allowed n (.request p pkt dropped supplier accepted) = true)
    (hs : s.sound n (.request p pkt dropped supplier accepted) = true) :
    ∃ t, s.step n (.request p pkt dropped supplier accepted) = .ok t ∧ Inv n t := by
  have hl := i.lookup hn ha
  simp only [allowed, and_eq_true, decide_eq_true_eq] at ha
  obtain ⟨⟨⟨hp, -⟩, -⟩, hcond⟩ := ha
  have hp64 := hp.trans_le hn
  cases hresp : pkt.needsResponse with
  | true =>
    rw [hresp, if_pos rfl] at hcond
    cases hinh : pkt.memInhibitAsserted with
    | true =>
      -- answered above the port
      rw [hinh, if_pos rfl] at hcond
      simp only [and_eq_true] at hcond
      obtain ⟨-, rfl⟩ := hcond
      rw [hresp, hinh] at hl
      refine ⟨{ s.drop dropped with item := s.item }, ?_, i.drop⟩
      refine bind_eq_ok.mpr ⟨_, hl, bind_eq_ok.mpr ⟨_, updateRequest_response hp64 hresp, ?_⟩⟩
      rw [if_pos rfl, if_pos hresp, if_pos hinh]
      rfl
    | false =>
      rw [hinh, if_neg Bool.false_ne_true, Bool.and_eq_true, Bool.not_eq_true'] at hcond
      obtain ⟨hnew, hsupp⟩ := hcond
      rw [hresp, hinh] at hl
      cases accepted with
      | true =>
        refine ⟨_, ?_, i.requested_sent dropped supplier hn hp fun q hq => ?_⟩
        · refine bind_eq_ok.mpr ⟨_, hl, bind_eq_ok.mpr ⟨_, updateRequest_response hp64 hresp, ?_⟩⟩
          rw [if_pos rfl, if_pos hresp, if_neg (by simp [hinh])]
          rfl
        · rw [hq] at hsupp
          simp only [canSupply, and_eq_true, or_eq_true] at hsupp
          exact hsupp.1.2
      | false =>
        -- refused: the request will come again
        refine ⟨_, bind_eq_ok.mpr ⟨_, hl, bind_eq_ok.mpr ⟨_, updateRequest_retry hp64, rfl⟩⟩, ?_⟩
        refine ⟨i.drop.validPort, i.flightPort, i.drop.holder, fun r => ?_, i.debts⟩
        have hr : s.item.requested.getLsbD r = s.inFlight r := i.requested r
        show ((s.item.requested ||| oneHot 64 p) &&& ~~~oneHot 64 p).getLsbD r = s.inFlight r
        rw [getLsbD_remove hp64, getLsbD_add hp64, hr]
        by_cases heq : r = p
        · simp [heq, hnew]
        · simp [heq]
  | false =>
    rw [hresp, if_neg Bool.false_ne_true] at hcond
    simp only [and_eq_true, beq_iff_eq, not_eq_true'] at hcond
    obtain ⟨⟨⟨hcmd, hvalid⟩, hnew⟩, -⟩ := hcond
    rw [hresp] at hl
    cases accepted with
    | true =>
      have hclear : ∀ o, s.owes p o = false := by
        intro o
        by_contra howes
        have howes := eq_true_of_not_eq_false howes
        simp only [sound, hresp] at hs
        have := all_eq_true.mp hs o (mem_range.mpr (i.flightPort o (owes_inFlight howes)))
        rw [howes, hnew] at this
        cases this
      have hu := updateRequest_writeback hp64 hcmd ((i.requested p).trans hnew) (i.holder p hvalid)
      refine ⟨_, ?_, i.wroteBack dropped hn hp hclear⟩
      refine bind_eq_ok.mpr ⟨_, hl, bind_eq_ok.mpr ⟨_, hu, ?_⟩⟩
      rw [if_pos rfl, if_neg (by simp [hresp])]
      rfl
    | false =>
      refine ⟨_, bind_eq_ok.mpr ⟨_, hl, bind_eq_ok.mpr ⟨_, updateRequest_retry hp64, rfl⟩⟩, ?_⟩
      refine ⟨i.drop.validPort, i.flightPort, i.drop.holder, fun r => ?_, i.debts⟩
      show (s.item.requested &&& ~~~oneHot 64 p).getLsbD r = s.inFlight r
      rw [getLsbD_remove hp64, i.requested]
      by_cases heq : r = p
      · simp [heq, hnew]
      · simp [heq]

theorem Inv.response (i : Inv n s) (ha : s.allowed n (.response p pkt keeps) = true)
    (hs : s.sound n (.response p pkt keeps) = true) : ∃ t, s.step n (.response p pkt keeps) = .ok t ∧ Inv n t := by
  simp only [allowed, and_eq_true, decide_eq_true_eq, beq_iff_eq] at ha
  obtain ⟨⟨hp, hresp⟩, hreq⟩ := ha
  have hflight : s.item.requested.getLsbD p = true := by
    rw [i.requested, inFlight, hreq]
    rfl
  refine ⟨_, bind_eq_ok.mpr ⟨_, updateResponse_eq (hp.trans_le hn) hresp hflight, rfl⟩, i.answered hn hp fun honly => ?_⟩
  rw [sound, show (pkt.needsExclusive || !pkt.sharedAsserted) = true from honly] at hs
  exact hs

theorem Inv.snoopResponse (i : Inv n s) (ha : s.allowed n (.snoopResponse q p pkt keeps) = true)
    (hs : s.sound n (.snoopResponse q p pkt keeps) = true) : ∃ t, s.step n (.snoopResponse q p pkt keeps) = .ok t ∧ Inv n t := by
  simp only [allowed, and_eq_true, decide_eq_true_eq, not_eq_true'] at ha
  obtain ⟨⟨⟨⟨⟨hp, hq⟩, hresp⟩, hinh⟩, howes⟩, hdone⟩ := ha
  have hflight : s.item.requested.getLsbD p = true := (i.requested p).trans (owes_inFlight howes)
  have hhold : s.item.holder.getLsbD q = true := by
    rcases (i.debts q p howes).2 with hhold | hin
    · exact hhold
    · rw [hdone] at hin
      cases hin
  refine ⟨_, bind_eq_ok.mpr ⟨_, updateSnoopResponse_eq (hp.trans_le hn) (hq.trans_le hn) hresp hinh hhold hflight, rfl⟩,
    i.answered hn hp fun honly => ?_⟩
  rw [sound, show (pkt.needsExclusive || !pkt.sharedAsserted) = true from honly] at hs
  exact hs

theorem snoopSnoops_eq (hreq : pkt.isRequest = true) (hexcl : (pkt.isInvalidate == pkt.needsExclusive) = true) :
    s.snoopSnoops n pkt = (range n).filter s.item.interested := by
  unfold snoopSnoops
  rw [lookupSnoop_eq hn hreq hexcl]

theorem Inv.snoop (i : Inv n s) (ha : s.allowed n (.snoop pkt dropped responder) = true) :
    ∃ t, s.step n (.snoop pkt dropped responder) = .ok t ∧ Inv n t := by
  simp only [allowed, and_eq_true] at ha
  obtain ⟨⟨⟨⟨hreq, hexcl⟩, -⟩, hinval⟩, -⟩ := ha
  refine ⟨_, bind_eq_ok.mpr ⟨_, lookupSnoop_eq hn hreq hexcl, rfl⟩, ?_⟩
  by_cases hc : pkt.isInvalidate ∧ s.item.requested = 0
  · -- nothing is in flight, and the snoop reached all copies
    have hflight (r : Nat) : s.inFlight r = false := by
      rw [← i.requested, hc.2]
      exact BitVec.getLsbD_zero
    have hnone (r : Nat) : (s.drop dropped).valid r = false := by
      by_contra hr
      have hr := eq_true_of_not_eq_false hr
      obtain ⟨hvalid, hkept⟩ := and_eq_true_iff.mp hr
      rw [hc.1, Bool.not_true, Bool.false_or, snoopSnoops_eq hn hreq hexcl] at hinval
      have hmem : r ∈ (range n).filter s.item.interested := by
        refine mem_filter.mpr ⟨mem_range.mpr (i.validPort r hvalid), ?_⟩
        rw [SnoopItem.interested, i.holder r hvalid, Bool.true_or]
      have hdropped := all_eq_true.mp hinval r hmem
      rw [hvalid, hflight, Bool.not_true, Bool.false_or, Bool.false_or] at hdropped
      rw [hdropped] at hkept
      cases hkept
    rw [if_pos hc]
    refine ⟨fun r hr => ?_, i.flightPort, fun r hr => ?_, i.requested, fun q o howes => ?_⟩
    · exact i.drop.validPort r hr
    · rw [hnone] at hr
      cases hr
    · have := owes_inFlight (s := s) howes
      rw [hflight] at this
      cases this
  · rw [if_neg hc]
    exact ⟨i.drop.validPort, i.flightPort, i.drop.holder, i.requested, i.debts⟩

theorem Inv.snoopForward (i : Inv n s) (ha : s.allowed n (.snoopForward q pkt) = true)
    (hs : s.sound n (.snoopForward q pkt) = true) : ∃ t, s.step n (.snoopForward q pkt) = .ok t ∧ Inv n t := by
  simp only [allowed, and_eq_true, decide_eq_true_eq] at ha
  obtain ⟨⟨⟨hq, hresp⟩, hinh⟩, -⟩ := ha
  have hu : s.item.updateSnoopForward pkt q = .ok (if pkt.needsExclusive then { s.item with holder := 0 } else s.item) := by
    unfold SnoopItem.updateSnoopForward
    rw [portToMask_eq (hq.trans_le hn), hresp, hinh]
    rfl
  refine ⟨_, bind_eq_ok.mpr ⟨_, hu, rfl⟩, ?_⟩
  cases hexcl : pkt.needsExclusive with
  | false => exact ⟨i.validPort, i.flightPort, i.holder, i.requested, i.debts⟩
  | true =>
    simp only [sound, hexcl, Bool.not_true, Bool.false_or] at hs
    refine ⟨i.validPort, i.flightPort, fun r hr => ?_, i.requested, fun r o howes => ?_⟩
    · have := (settled_spec hs (i.validPort r hr) (i.validPort r hr).ne).1
      rw [hr] at this
      cases this
    · obtain ⟨hr, -⟩ := i.debts r o howes
      have ho := i.flightPort o (owes_inFlight howes)
      exact ⟨hr, .inr ((settled_spec hs hr hr.ne).2 o ho ho.ne howes)⟩

theorem Inv.step (i : Inv n s) (ha : s.allowed n op = true) (hs : s.sound n op = true) : ∃ t, s.step n op = .ok t ∧ Inv n t := by
  cases op with
  | request p pkt dropped supplier accepted => exact i.request hn ha hs
  | response p pkt keeps => exact i.response hn ha hs
  | snoopResponse q p pkt keeps => exact i.snoopResponse hn ha hs
  | snoop pkt dropped responder => exact i.snoop hn ha
  | snoopForward q pkt => exact i.snoopForward hn ha hs
  | evict p => exact ⟨_, rfl, i.drop⟩

end

/-! ## The runs -/

abbrev FilterStep (n : Nat) : System → SnoopOp → System → Prop :=
  StepIf (fun s op => s.allowed n op && s.sound n op) (step n)

variable {ops : List SnoopOp}

theorem Inv.run (hn : n ≤ 64) (hr : Exec (FilterStep n) {} ops s) : Inv n s := by
  refine hr.invariant Inv.init fun t op u i hs => ?_
  obtain ⟨hc, hs⟩ := hs
  rw [and_eq_true] at hc
  obtain ⟨v, hv, hinv⟩ := i.step hn hc.1 hc.2
  rw [hs] at hv
  cases hv
  exact hinv

theorem Inv.interested (i : Inv n s) (h : s.valid p = true ∨ s.inFlight p = true) : s.item.interested p = true := by
  unfold SnoopItem.interested
  rcases h with hvalid | hflight
  · rw [i.holder p hvalid, Bool.true_or]
  · rw [i.requested, hflight, Bool.or_true]

theorem Inv.lt (i : Inv n s) (h : s.valid p = true ∨ s.inFlight p = true) : p < n := h.elim (i.validPort p) (i.flightPort p)

theorem Inv.snooped (hn : n ≤ 64) (i : Inv n s) (ha : s.allowed n (.request q pkt dropped supplier accepted) = true)
    (h : s.valid p = true ∨ s.inFlight p = true) (hne : p ≠ q) : p ∈ s.requestSnoops n pkt q := by
  unfold requestSnoops
  rw [i.lookup hn ha]
  refine mem_filter.mpr ⟨mem_range.mpr (i.lt h), ?_⟩
  rw [i.interested h, Bool.true_and]
  exact decide_eq_true hne

theorem Inv.snooped_below (hn : n ≤ 64) (i : Inv n s) (ha : s.allowed n (.snoop pkt dropped responder) = true)
    (h : s.valid p = true ∨ s.inFlight p = true) : p ∈ s.snoopSnoops n pkt := by
  simp only [allowed, and_eq_true] at ha
  rw [snoopSnoops_eq hn ha.1.1.1.1 ha.1.1.1.2]
  exact mem_filter.mpr ⟨mem_range.mpr (i.lt h), i.interested h⟩

/-- As long as its guesses are sound, the filter does not panic, it has every port with a copy or with a response in
  flight, and whatever is snooped reaches these ports. -/
theorem no_false_negatives (hn : n ≤ 64) (hr : Exec (FilterStep n) {} ops s) :
    (∀ op, s.allowed n op = true → s.sound n op = true → ∃ t, s.step n op = .ok t) ∧
    (∀ p, s.valid p = true ∨ s.inFlight p = true → s.item.interested p = true) ∧
    (∀ q pkt dropped supplier accepted, s.allowed n (.request q pkt dropped supplier accepted) = true →
      ∀ p, s.valid p = true ∨ s.inFlight p = true → p ≠ q → p ∈ s.requestSnoops n pkt q) ∧
    ∀ pkt dropped responder, s.allowed n (.snoop pkt dropped responder) = true →
      ∀ p, s.valid p = true ∨ s.inFlight p = true → p ∈ s.snoopSnoops n pkt := by
  have i := Inv.run hn hr
  refine ⟨fun op ha hs => ?_, fun p => i.interested, fun q pkt dropped supplier accepted ha p => i.snooped hn ha,
    fun pkt dropped responder ha p => i.snooped_below hn ha⟩
  obtain ⟨t, ht, -⟩ := i.step hn ha hs
  exact ⟨t, ht⟩

def readReq : SnoopPacket := { cmd := .readReq }
def readExReq : SnoopPacket := { cmd := .readExReq }
def readResp (shared : Bool) : SnoopPacket := { cmd := .readResp, sharedAsserted := shared }
def readExResp : SnoopPacket := { cmd := .readExResp }
def writeback : SnoopPacket := { cmd := .writeback }

/-- A port has the line to write it, a second one reads it from there, and a third one takes it from both. -/
theorem no_false_negatives_three : ∃ s : System, s.valid 2 = true ∧ s.item = { holder := 4 } ∧
    (∀ op, s.allowed 3 op = true → s.sound 3 op = true → ∃ t, s.step 3 op = .ok t) ∧
    (∀ p, s.valid p = true ∨ s.inFlight p = true → s.item.interested p = true) ∧
    (∀ q pkt dropped supplier accepted, s.allowed 3 (.request q pkt dropped supplier accepted) = true →
      ∀ p, s.valid p = true ∨ s.inFlight p = true → p ≠ q → p ∈ s.requestSnoops 3 pkt q) ∧
    ∀ pkt dropped responder, s.allowed 3 (.snoop pkt dropped responder) = true →
      ∀ p, s.valid p = true ∨ s.inFlight p = true → p ∈ s.snoopSnoops 3 pkt := by
  have hrun : endsInIf (fun s op => s.allowed 3 op && s.sound 3 op) (step 3) {}
      [.request 0 readExReq [] .below false, .request 0 readExReq [] .below true, .response 0 readExResp true,
        .request 1 readReq [] (.cache 0) true, .snoopResponse 0 1 { readResp true with memInhibitAsserted := true } true,
        .request 2 readExReq [0, 1] (.cache 0) true, .snoopResponse 0 2 { readExResp with memInhibitAsserted := true } true]
      (fun s => s.valid 2 && s.item == { holder := 4 }) = true := by decide
  obtain ⟨s, hr, hs⟩ := Exec.of_endsInIf hrun
  obtain ⟨hvalid, hitem⟩ := and_eq_true_iff.mp hs
  exact ⟨s, hvalid, beq_iff_eq.mp hitem, no_false_negatives (by decide) hr⟩

/-- A cache writes the line back before it has sent a snoop response for it: the filter panics at the response. And
  the response of the first of two reads comes after that of the second, which had the line as shared: the filter
  forgets the port of the second. -/
theorem false_negatives :
    (∃ (ops : List SnoopOp) (s : System), Exec (StepIf (allowed 2) (step 2)) {} ops s ∧
      s.allowed 2 (.snoopResponse 0 1 { readResp true with memInhibitAsserted := true } true) = true ∧
      s.step 2 (.snoopResponse 0 1 { readResp true with memInhibitAsserted := true } true) =
        .error (.fatal "SF value does not have the line")) ∧
    ∃ (ops : List SnoopOp) (s : System), Exec (StepIf (allowed 2) (step 2)) {} ops s ∧ s.valid 1 = true ∧ s.item.interested 1 = false := by
  have hpanic : endsInIf (allowed 2) (step 2) {}
      [.request 0 readExReq [] .below true, .response 0 readExResp true, .request 1 readReq [] (.cache 0) true,
        .request 0 writeback [] .below true]
      (fun s => s.allowed 2 (.snoopResponse 0 1 { readResp true with memInhibitAsserted := true } true) &&
        (s.step 2 (.snoopResponse 0 1 { readResp true with memInhibitAsserted := true } true) matches
          .error (.fatal "SF value does not have the line"))) = true := by decide
  have hlost : endsInIf (allowed 2) (step 2) {}
      [.request 0 readReq [] .below true, .request 1 readReq [] .below true, .response 1 (readResp true) true,
        .response 0 (readResp false) true]
      (fun s => s.valid 1 && !s.item.interested 1) = true := by decide
  obtain ⟨s, hr, hs⟩ := Exec.of_endsInIf hpanic
  obtain ⟨t, hr', ht⟩ := Exec.of_endsInIf hlost
  rw [and_eq_true] at hs
  rw [and_eq_true, not_eq_true'] at ht
  refine ⟨⟨_, s, hr, hs.1, ?_⟩, _, t, hr', ht⟩
  have hs := hs.2
  split at hs
  · assumption
  · cases hs

end Gem5.Mem.SnoopFilter
