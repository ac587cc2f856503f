import Gem5Nvmain.Cpu.LSQSpec

/- How the stores get to memory.

  Between two stores the memory has what the stores that were sent have written. While the packets of a store are on
  their way it differs from that within the store only, and has the rest once they have arrived (`Carries`). -/
namespace Gem5.Cpu.LSQ
open Lib Function List LSQUnit SQEntry

variable {p : Params} {phys : Nat → Nat} {memory m : Nat → UInt8} {x : Run} {u u' v : LSQUnit} {L : List DynInst}
  {S : List SQEntry} {wb k j : Nat} {old W : List Stored} {e e' : SQEntry} {pkt : Packet} {pkts : List Packet}

theorem put_phys (hphys : Injective phys) (pkt : Packet) (m : Nat → UInt8) (a : Nat) : pkt.put phys m (phys a) =
    if pkt.addr ≤ a ∧ a < pkt.addr + pkt.size then pkt.data (a - pkt.addr) else m (phys a) := by
  unfold Packet.put
  split
  · rename_i i hi
    have hlt := mem_range.mp (mem_of_find?_eq_some hi)
    have heq : pkt.addr + i = a := hphys (by simpa using find?_some hi)
    rw [if_pos (by omega), ← heq, Nat.add_sub_cancel_left]
  · rename_i hnone
    have hnot := find?_eq_none.mp hnone
    rw [if_neg]
    rintro ⟨hle, hlt⟩
    apply hnot (a - pkt.addr) (mem_range.mpr (by omega))
    rw [Nat.add_sub_cancel' hle]
    exact beq_self_eq_true _

theorem put_in {a : Nat} (hphys : Injective phys) (pkt : Packet) (hle : pkt.addr ≤ a) (hlt : a < pkt.addr + pkt.size) :
    pkt.put phys m (phys a) = pkt.data (a - pkt.addr) := by
  rw [put_phys hphys, if_pos ⟨hle, hlt⟩]

theorem put_out {a : Nat} (hphys : Injective phys) (pkt : Packet) (hout : ¬(pkt.addr ≤ a ∧ a < pkt.addr + pkt.size)) :
    pkt.put phys m (phys a) = m (phys a) := by
  rw [put_phys hphys, if_neg hout]

def putAll (phys : Nat → Nat) (pkts : List Packet) (m : Nat → UInt8) : Nat → UInt8 :=
  pkts.foldl (fun m pkt => pkt.put phys m) m

/-- The packets complete the store in the memory, which has the stores `W` outside. -/
structure Carries (phys : Nat → Nat) (memory m : Nat → UInt8) (pkts : List Packet) (W : List Stored) (e : SQEntry) :
    Prop where
  within : ∀ pkt ∈ pkts, e.inst.effAddr ≤ pkt.addr ∧ pkt.addr + pkt.size ≤ e.inst.effAddr + e.size
  outside : ∀ a, e.byteAt a = none → m (phys a) = content phys memory W a
  inside : ∀ a b, e.byteAt a = some b → putAll phys pkts m (phys a) = b

theorem byteAt_eq_some {a : Nat} (he : e.size ≠ 0) (ha : e.inst.effAddr ≤ a) (hlt : a < e.inst.effAddr + e.size) :
    e.byteAt a = some (storeData e (a - e.inst.effAddr)) := if_pos ⟨he, ha, hlt⟩

theorem of_byteAt {a : Nat} {b : UInt8} (h : e.byteAt a = some b) :
    e.inst.effAddr ≤ a ∧ a < e.inst.effAddr + e.size ∧ b = storeData e (a - e.inst.effAddr) := by
  unfold byteAt at h
  split at h
  · rename_i hin
    cases h
    exact ⟨hin.2.1, hin.2.2, rfl⟩
  · cases h

namespace Carries

theorem step (hphys : Injective phys) (he : e.size ≠ 0) (h : Carries phys memory m (pkt :: pkts) W e) :
    Carries phys memory (pkt.put phys m) pkts W e := by
  refine ⟨fun q hq => h.within q (mem_cons_of_mem _ hq), fun a ha => ?_, h.inside⟩
  rw [put_out hphys pkt, h.outside a ha]
  rintro ⟨hle, hlt⟩
  obtain ⟨hfirst, hlast⟩ := h.within pkt mem_cons_self
  rw [byteAt_eq_some he (by omega) (by omega)] at ha
  cases ha

theorem done (h : Carries phys memory m [] W e) (a : Nat) : m (phys a) = content phys memory (W ++ [e.stored]) a := by
  unfold content
  rw [youngest_concat]
  change m (phys a) = ((e.byteAt a).or (youngest W a)).getD (memory (phys a))
  cases ha : e.byteAt a with
  | none => exact h.outside a ha
  | some b => exact h.inside a b ha

theorem whole (hphys : Injective phys) (hm : ∀ a, m (phys a) = content phys memory W a) :
    Carries phys memory m [packet e] W e := by
  refine ⟨fun q hq => ?_, fun a _ => hm a, fun a b hab => ?_⟩
  · rw [mem_singleton.mp hq]
    exact ⟨Nat.le_refl _, Nat.le_refl _⟩
  · obtain ⟨hle, hlt, rfl⟩ := of_byteAt hab
    exact put_in hphys (packet e) hle hlt

theorem halves {low : Nat} (hphys : Injective phys) (hlow : low ≤ e.size)
    (hm : ∀ a, m (phys a) = content phys memory W a) :
    Carries phys memory m [lowPacket e low, highPacket e low] W e := by
  refine ⟨fun q hq => ?_, fun a _ => hm a, fun a b hab => ?_⟩
  · rcases mem_cons.mp hq with rfl | hq
    · exact ⟨Nat.le_refl _, Nat.add_le_add_left hlow _⟩
    · rw [mem_singleton.mp hq]
      dsimp only [highPacket]
      omega
  · obtain ⟨hle, hlt, rfl⟩ := of_byteAt hab
    change (highPacket e low).put phys ((lowPacket e low).put phys m) (phys a) = _
    by_cases hhigh : e.inst.effAddr + low ≤ a
    · have hend : a < e.inst.effAddr + low + (e.size - low) := by omega
      rw [put_in hphys (highPacket e low) hhigh hend]
      change storeData e (low + (a - (e.inst.effAddr + low))) = _
      congr 1
      omega
    · have hend : a < e.inst.effAddr + low := Nat.lt_of_not_le hhigh
      rw [put_out hphys (highPacket e low) fun h => hhigh h.1]
      exact put_in hphys (lowPacket e low) hle hend

end Carries

/-- The packets that the cache has not taken yet. -/
def LSQUnit.unsent (u : LSQUnit) : List Packet :=
  (match u.retryPkt with
    | some (pkt, rest) => pkt :: rest.toList
    | none => []) ++ u.pendingPkt.toList

/-- The stores that were sent. -/
def sentStores (old : List Stored) (S : List SQEntry) (wb : Nat) : List Stored := old ++ (S.map stored).take wb

structure Delivers (phys : Nat → Nat) (memory : Nat → UInt8) (u : LSQUnit) (S : List SQEntry) (wb : Nat)
    (old : List Stored) : Prop where
  idle : u.unsent = [] → ∀ a, u.dcache.memory (phys a) = content phys memory (sentStores old S wb) a
  busy : u.unsent ≠ [] → ∃ e, S[wb]? = some e ∧ e.committed = true ∧ e.canWB = true ∧ e.size ≠ 0 ∧
    Carries phys memory u.dcache.memory u.unsent (sentStores old S wb) e
  one : u.pendingPkt ≠ none → u.retryPkt = none

theorem Delivers.of_port (h : Delivers phys memory u S wb old) (hp : u'.port = u.port) :
    Delivers phys memory u' S wb old := by
  have hm : u'.dcache.memory = u.dcache.memory := congrArg Prod.fst hp
  have hr : u'.retryPkt = u.retryPkt := congrArg (fun q => q.2.1) hp
  have hq : u'.pendingPkt = u.pendingPkt := congrArg (fun q => q.2.2) hp
  have hu : u'.unsent = u.unsent := by
    unfold unsent
    rw [hr, hq]
  obtain ⟨hidle, hbusy, hone⟩ := h
  refine ⟨?_, ?_, ?_⟩
  · rwa [hu, hm]
  · rwa [hu, hm]
  · rwa [hr, hq]

theorem sentStores_succ (hk : S[wb]? = some e) : sentStores old S (wb + 1) = sentStores old S wb ++ [e.stored] := by
  unfold sentStores
  rw [take_add_one, getElem?_map, hk, append_assoc]
  rfl

/-- The queues and the memory agree with the program. -/
def Held (p : Params) (phys : Nat → Nat) (memory : Nat → UInt8) (x : Run) (L : List DynInst) (u : LSQUnit) : Prop :=
  ∃ S wb old, Book p { x with unit := u } L S wb old ∧ Delivers phys memory u S wb old

/-! ## The entries change -/

theorem Book.recore (hb : Book p { x with unit := u } L S wb old) (h : v.core = u.core) :
    Book p { x with unit := v } L S wb old := hb.of_core h

theorem map_set_of_eq {α β : Type} {f : α → β} {l : List α} {y z : α} (hk : l[k]? = some y) (hf : f z = f y) :
    (l.set k z).map f = l.map f := by
  apply ext_getElem?
  intro i
  rw [getElem?_map, getElem?_map]
  by_cases hik : k = i
  · subst hik
    rw [getElem?_set_self (RingQueue.lt_of_getElem? hk), hk, Option.map_some, Option.map_some, hf]
  · rw [getElem?_set_ne hik]

/-- An entry changes, and with it the store of the program. -/
theorem Book.setStore (hb : Book p { x with unit := u } L S wb old) (hk : S[k]? = some e)
    (hok : EntryOk p { x with unit := u } L wb k e') (hseq : e'.inst.seqNum = e.inst.seqNum) : Book p { x with
      unit := { u with storeQueue := update u.storeQueue (ringSlot p.sqEntries u.storeHead k) (some e') }
      program := old ++ (S.set k e').map stored } L (S.set k e') wb old := by
  have hlt := RingQueue.lt_of_getElem? hk
  have hnums : seqNums (S.set k e') = seqNums S := map_set_of_eq hk hseq
  have hkeys : (old ++ (S.set k e').map stored).map Stored.seqNum = x.program.map Stored.seqNum := by
    have hprog : x.program = old ++ S.map stored := hb.program
    rw [hprog, map_append, map_append, map_map, map_map]
    exact congrArg (old.map Stored.seqNum ++ ·) hnums
  refine ⟨⟨hb.queues.loads, hb.queues.loads_eq, hb.queues.stores.set hlt e', ?_⟩, hb.wbIdx, ?_, hb.violator, rfl, ?_,
    fun s hs => ?_, hb.done_lt, hb.settled, hb.loads_sorted, fun i y hi => ?_, fun ld hld => ?_⟩
  · rw [length_set]
    exact hb.queues.stores_eq
  · rw [length_set]
    exact hb.wb_le
  · rw [hkeys]
    exact hb.sorted
  · have hmem := mem_map_of_mem (f := Stored.seqNum) hs
    rw [hkeys] at hmem
    obtain ⟨s', hs', heq⟩ := mem_map.mp hmem
    rw [← heq]
    exact hb.fresh s' hs'
  · by_cases hki : k = i
    · subst hki
      rw [getElem?_set_self hlt] at hi
      cases hi
      exact hok.congr rfl rfl
    · rw [getElem?_set_ne hki] at hi
      exact (hb.entries i y hi).congr rfl rfl
  · have ho := hb.loads ld hld
    exact ⟨ho.waits, ho.fresh, by rw [hnums]; exact ho.none, by rw [hnums]; exact ho.some, ho.valid⟩

theorem Book.mark (hb : Book p { x with unit := u } L S wb old) (hk : S[k]? = some e)
    (hok : EntryOk p { x with unit := u } L wb k e') (hstored : e'.stored = e.stored) :
    Book p { x with unit := { u with
      storeQueue := update u.storeQueue (ringSlot p.sqEntries u.storeHead k) (some e') } } L (S.set k e') wb old := by
  have hset := hb.setStore hk hok (congrArg Stored.seqNum hstored)
  have hprog : x.program = old ++ S.map stored := hb.program
  rw [map_set_of_eq hk hstored, ← hprog] at hset
  exact hset

/-- A store was sent. -/
theorem Book.advance (hb : Book p { x with unit := u } L S wb old) (hk : S[wb]? = some e) (hcan : e.canWB = true) :
    Book p { x with unit := { u with storeWBIdx := ringNext p.sqEntries u.storeWBIdx } } L S (wb + 1) old := by
  have hlt := RingQueue.lt_of_getElem? hk
  have hroom := hb.queues.stores.room
  refine ⟨⟨hb.queues.loads, hb.queues.loads_eq, hb.queues.stores, hb.queues.stores_eq⟩, ?_, hlt, hb.violator, hb.program,
    hb.sorted, hb.fresh, hb.done_lt, hb.settled, hb.loads_sorted, fun i y hi => ?_, fun ld hld => ?_⟩
  · have hwb : u.storeWBIdx = ringSlot p.sqEntries u.storeHead wb := hb.wbIdx
    change ringNext p.sqEntries u.storeWBIdx = ringSlot p.sqEntries u.storeHead (wb + 1)
    rw [hwb]
    exact ringNext_slot hb.queues.stores.head_lt (Nat.lt_trans hlt hroom)
  · have ho := hb.entries i y hi
    refine ⟨ho.canWB, fun hlt => ?_, fun hle => ho.waits (by omega), fun hlt => ho.unsent (by omega), ho.blank, ho.fits,
      ho.split, ho.place⟩
    rcases Nat.lt_succ_iff_lt_or_eq.mp hlt with hlt | rfl
    · exact ho.sent hlt
    · rw [hk] at hi
      cases hi
      exact hcan
  · have ho := hb.loads ld hld
    exact ⟨ho.waits, ho.fresh, fun h => Nat.le_succ_of_le (ho.none h), ho.some, ho.valid⟩

/-! ## Sending -/

theorem core_storePostSend (h : u.storePostSend p = .ok u') :
    u'.core = { u.core with storeWBIdx := ringNext p.sqEntries u.storeWBIdx } ∧ u'.port = u.port := by
  obtain ⟨e, -, h⟩ := of_bind h
  cases h
  refine ⟨?_, port_unstall u e⟩
  have hidx : (u.unstall e).storeWBIdx = u.storeWBIdx := by
    unfold unstall
    split <;> rfl
  change { (u.unstall e).core with storeWBIdx := ringNext p.sqEntries (u.unstall e).storeWBIdx } = _
  rw [core_unstall, hidx]

theorem storePostSend_held (hb : Book p { x with unit := u } L S wb old) (hk : S[wb]? = some e) (hcan : e.canWB = true)
    (hr : u.retryPkt = none) (hq : u.pendingPkt = none)
    (hc : Carries phys memory u.dcache.memory [] (sentStores old S wb) e) (h : u.storePostSend p = .ok u') :
    Held p phys memory x L u' := by
  obtain ⟨hcore, hport⟩ := core_storePostSend h
  have hdel : Delivers phys memory u S (wb + 1) old := by
    have hunsent : u.unsent = [] := by
      unfold unsent
      rw [hr, hq]
      rfl
    refine ⟨fun _ a => ?_, absurd hunsent, absurd hq⟩
    rw [sentStores_succ hk]
    exact hc.done a
  exact ⟨S, wb + 1, old, (hb.advance hk hcan).of_core hcore, hdel.of_port hport⟩

theorem sendLast_held (hphys : Injective phys) (hb : Book p { x with unit := u } L S wb old) (hk : S[wb]? = some e)
    (hcom : e.committed = true) (hcan : e.canWB = true) (he : e.size ≠ 0) (hr : u.retryPkt = none)
    (hq : u.pendingPkt = none) (hc : Carries phys memory u.dcache.memory [pkt] (sentStores old S wb) e)
    (h : u.sendLast p phys pkt = .ok u') : Held p phys memory x L u' := by
  obtain ⟨⟨v, sent⟩, hsend, h⟩ := of_bind h
  unfold sendStore at hsend
  split at hsend
  · cases hsend
    have hb' : Book p { x with unit := { u with
        dcache := { u.dcache.next with memory := pkt.put phys u.dcache.memory } } } L S wb old := hb.recore rfl
    exact storePostSend_held hb' hk hcan hr hq (hc.step hphys he) h
  · obtain ⟨_, -, hsend⟩ := of_bind hsend
    cases hsend
    cases h
    refine ⟨S, wb, old, hb.recore rfl, ⟨fun hnil => ?_, fun _ => ?_, absurd hq⟩⟩
    · cases hnil
    · refine ⟨e, hk, hcom, hcan, he, ?_⟩
      rw [hq]
      exact hc

theorem writebackPendingStore_held (hphys : Injective phys) (hh : Held p phys memory x L u)
    (h : u.writebackPendingStore p phys = .ok u') : Held p phys memory x L u' := by
  obtain ⟨S, wb, old, hb, hd⟩ := hh
  unfold writebackPendingStore at h
  cases hq : u.pendingPkt with
  | none =>
    rw [hq] at h
    cases h
    exact ⟨S, wb, old, hb, hd⟩
  | some pkt =>
    rw [hq] at h
    have hr : u.retryPkt = none := hd.one (by rw [hq]; exact nofun)
    have hunsent : u.unsent = [pkt] := by
      unfold unsent
      rw [hr, hq]
      rfl
    obtain ⟨e, hk, hcom, hcan, he, hc⟩ := hd.busy (by rw [hunsent]; exact cons_ne_nil _ _)
    rw [hunsent] at hc
    have hb' : Book p { x with unit := { u with pendingPkt := none } } L S wb old := hb.recore rfl
    exact sendLast_held hphys hb' hk hcom hcan he hr rfl hc h

theorem Book.at_wb (hb : Book p { x with unit := u } L S wb old) (hcell : u.storeQueue u.storeWBIdx = some e)
    (htail : u.storeWBIdx ≠ u.storeTail) : S[wb]? = some e := by
  have hwb : u.storeWBIdx = ringSlot p.sqEntries u.storeHead wb := hb.wbIdx
  have hlt : wb < S.length := by
    apply Nat.lt_of_le_of_ne hb.wb_le
    intro heq
    apply htail
    rw [hwb]
    exact (hb.queues.stores.slot_eq_tail hb.wb_le).mpr heq
  have hS := getElem?_eq_getElem hlt
  have hcell' : u.storeQueue (ringSlot p.sqEntries u.storeHead wb) = some S[wb] := hb.queues.stores.cell hS
  rw [hwb, hcell'] at hcell
  rw [hS, hcell]

theorem writebackStore_held (hphys : Injective phys) (hb : Book p { x with unit := u } L S wb old)
    (hd : Delivers phys memory u S wb old) (hk : S[wb]? = some e) (hcan : e.canWB = true) (he : e.size ≠ 0)
    (h : u.writebackStore p phys e = .ok u') : Held p phys memory x L u' := by
  obtain ⟨_, hcom, h⟩ := of_bind h
  have hcom : e.committed = false := by simpa using hcom
  have hunsent : u.unsent = [] := by
    by_contra hne
    obtain ⟨e', hk', hcom', -⟩ := hd.busy hne
    rw [hk] at hk'
    cases hk'
    rw [hcom] at hcom'
    cases hcom'
  obtain ⟨hretry, hpend⟩ : u.retryPkt = none ∧ u.pendingPkt = none := by
    obtain ⟨hr, hq⟩ := append_eq_nil_iff.mp hunsent
    constructor
    · split at hr
      · cases hr
      · assumption
    · exact Option.toList_eq_nil_iff.mp hq
  have hmem := hd.idle hunsent
  have hent := hb.entries wb e hk
  have hwb : u.storeWBIdx = ringSlot p.sqEntries u.storeHead wb := hb.wbIdx
  have hlt := RingQueue.lt_of_getElem? hk
  have hok : EntryOk p { x with unit := u } L wb wb { e with committed := true } := ⟨hent.canWB, hent.sent, hent.waits,
    fun hlt => absurd hlt (Nat.lt_irrefl wb), hent.blank, hent.fits, hent.split, hent.place⟩
  have hmark := hb.mark hk hok rfl
  rw [← hwb] at hmark
  have hk' : (S.set wb { e with committed := true })[wb]? = some { e with committed := true } :=
    getElem?_set_self hlt
  have hsent : sentStores old (S.set wb { e with committed := true }) wb = sentStores old S wb := by
    have hstored : stored { e with committed := true } = e.stored := rfl
    unfold sentStores
    rw [map_set_of_eq hk hstored]
  have hused : ∀ n, Book p { x with unit := { u with
      usedPorts := n
      storeQueue := update u.storeQueue u.storeWBIdx (some { e with committed := true }) } } L
      (S.set wb { e with committed := true }) wb old := fun n => hmark.recore rfl
  dsimp only at h
  split at h
  · refine sendLast_held hphys (hused _) hk' rfl hcan he hretry hpend ?_ h
    rw [hsent]
    exact Carries.whole (e := { e with committed := true }) hphys hmem
  · rename_i low hlow
    have hc : Carries phys memory u.dcache.memory [lowPacket e low, highPacket e low]
        (sentStores old (S.set wb { e with committed := true }) wb) { e with committed := true } := by
      rw [hsent]
      exact Carries.halves (e := { e with committed := true }) hphys (hent.split low hlow) hmem
    obtain ⟨⟨v, sent⟩, hsend, h⟩ := of_bind h
    unfold sendStore at hsend
    split at hsend
    · cases hsend
      have hc' := Carries.step (e := { e with committed := true }) hphys he hc
      have hsent : ∀ n, Book p { x with unit := { u with
          usedPorts := n
          storeQueue := update u.storeQueue u.storeWBIdx (some { e with committed := true })
          dcache := { u.dcache.next with memory := (lowPacket e low).put phys u.dcache.memory } } } L
          (S.set wb { e with committed := true }) wb old := fun n => hmark.recore rfl
      simp only [Bool.not_true, Bool.false_eq_true, if_false] at h
      split at h
      · exact sendLast_held hphys (hsent _) hk' rfl hcan he hretry hpend hc' h
      · obtain ⟨_, -, h⟩ := of_bind h
        cases h
        refine ⟨_, wb, old, hmark.recore rfl, ⟨fun hnil => ?_, fun _ => ?_, fun _ => hretry⟩⟩
        · cases (append_eq_nil_iff.mp hnil).2
        · refine ⟨_, hk', rfl, hcan, he, ?_⟩
          rw [hretry]
          exact hc'
    · obtain ⟨_, -, hsend⟩ := of_bind hsend
      cases hsend
      cases h
      refine ⟨_, wb, old, hmark.recore rfl, ⟨fun hnil => ?_, fun _ => ?_, absurd hpend⟩⟩
      · cases hnil
      · refine ⟨_, hk', rfl, hcan, he, ?_⟩
        rw [hpend]
        exact hc

/-! ## Completion -/

/-- The entries at the head that were sent are older than a load. -/
theorem Book.below_sent {ld : DynInst} {m : Nat} (hb : Book p x L S wb old) (hld : ld ∈ L) (hm : m ≤ wb) :
    below (seqNums S) ld.seqNum = m + below (seqNums (S.drop m)) ld.seqNum := by
  have hlen : m ≤ (seqNums S).length := by
    unfold seqNums
    rw [length_map]
    exact Nat.le_trans hm hb.wb_le
  have hdrop : seqNums (S.drop m) = (seqNums S).drop m := map_drop
  rw [hdrop]
  apply below_drop hlen
  intro s hs
  obtain ⟨i, hi⟩ := mem_iff_getElem?.mp hs
  rw [getElem?_take] at hi
  split at hi
  · obtain ⟨e, he, rfl⟩ : ∃ e, S[i]? = some e ∧ e.inst.seqNum = s := by
      unfold seqNums at hi
      rwa [getElem?_map, Option.map_eq_some_iff] at hi
    have hent := hb.entries i e he
    exact Nat.lt_of_le_of_lt (hent.canWB (hent.sent (by omega))).1 (hb.loads ld hld).waits
  · cases hi

/-- A store is complete, and complete stores at the head have left. -/
theorem Book.complete {c : Nat} {q : Nat → Option SQEntry} {m : Nat} (hb : Book p { x with unit := u } L S wb old)
    (hk : S[k]? = some e) (hkw : k < wb) (hm : m ≤ S.length)
    (hall : ∀ y ∈ (S.set k { e with completed := true }).take m, y.completed = true)
    (hq : Queues p v L ((S.set k { e with completed := true }).drop m)) (hcore : v.core = { u.core with
      storeQueue := q, storeHead := ringSlot p.sqEntries u.storeHead m, stores := c }) :
    m ≤ wb ∧ Book p { x with unit := v } L ((S.set k { e with completed := true }).drop m) (wb - m)
      (old ++ (S.map stored).take m) := by
  have hroom := hb.queues.stores.room
  have hwb := hb.wb_le
  have hstored : stored { e with completed := true } = e.stored := rfl
  have hmap := map_set_of_eq hk hstored
  have hseq : seqNums (S.set k { e with completed := true }) = seqNums S := map_set_of_eq hk rfl
  have hset : ∀ i y, (S.set k { e with completed := true })[i]? = some y → ∃ y', S[i]? = some y' ∧
      (y = y' ∨ i = k ∧ y = { y' with completed := true }) := by
    intro i y hi
    by_cases hki : k = i
    · subst hki
      rw [getElem?_set_self (RingQueue.lt_of_getElem? hk)] at hi
      cases hi
      exact ⟨e, hk, .inr ⟨rfl, rfl⟩⟩
    · rw [getElem?_set_ne hki] at hi
      exact ⟨y, hi, .inl rfl⟩
  have hmwb : m ≤ wb := by
    by_contra hlt
    have hS : S[wb]? = some S[wb] := getElem?_eq_getElem (by omega)
    have hmem : S[wb] ∈ (S.set k { e with completed := true }).take m := by
      apply mem_iff_getElem?.mpr
      refine ⟨wb, ?_⟩
      rw [getElem?_take, if_pos (by omega), getElem?_set_ne (Nat.ne_of_lt hkw), hS]
    have hwaits := (hb.entries wb _ hS).waits (Nat.le_refl wb)
    rw [hall _ hmem] at hwaits
    cases hwaits
  refine ⟨hmwb, ?_⟩
  have hw : Book p { x with unit := { u with
      storeQueue := q, storeHead := ringSlot p.sqEntries u.storeHead m, stores := c } } L
      ((S.set k { e with completed := true }).drop m) (wb - m) (old ++ (S.map stored).take m) := by
    refine ⟨hq.of_core hcore.symm, ?_, ?_, hb.violator, ?_, hb.sorted, hb.fresh, hb.done_lt, fun s hs => ?_,
      hb.loads_sorted, fun i y hi => ?_, fun ld hld => ?_⟩
    · have hidx : u.storeWBIdx = ringSlot p.sqEntries u.storeHead wb := hb.wbIdx
      change u.storeWBIdx = ringSlot p.sqEntries (ringSlot p.sqEntries u.storeHead m) (wb - m)
      rw [ringSlot_add hb.queues.stores.head_lt (by omega), hidx]
      congr 1
      omega
    · rw [length_drop, length_set]
      omega
    · have hprog : x.program = old ++ S.map stored := hb.program
      change x.program = _
      rw [hprog, map_drop, hmap, append_assoc, take_append_drop]
    · rcases mem_append.mp hs with hs | hs
      · exact hb.settled s hs
      · obtain ⟨i, hi⟩ := mem_iff_getElem?.mp hs
        rw [getElem?_take] at hi
        split at hi
        · rw [getElem?_map, Option.map_eq_some_iff] at hi
          obtain ⟨y, hy, rfl⟩ := hi
          have hent := hb.entries i y hy
          exact (hent.canWB (hent.sent (by omega))).1
        · cases hi
    · rw [getElem?_drop] at hi
      obtain ⟨y', hy', hcase⟩ := hset _ y hi
      have ho := hb.entries _ y' hy'
      rcases hcase with rfl | ⟨hik, rfl⟩
      · exact ⟨ho.canWB, fun h => ho.sent (by omega), fun h => ho.waits (by omega), fun h => ho.unsent (by omega), ho.blank,
          ho.fits, ho.split, ho.place⟩
      · exact ⟨ho.canWB, fun h => ho.sent (by omega), fun h => absurd h (by omega), fun h => ho.unsent (by omega), ho.blank,
          ho.fits, ho.split, ho.place⟩
    · have ho := hb.loads ld hld
      have hdrop := hb.below_sent hld hmwb
      have hle := below_le S ld.seqNum
      have hseqd : seqNums ((S.set k { e with completed := true }).drop m) = seqNums (S.drop m) := by
        rw [seqNums, map_drop]
        change (seqNums (S.set k { e with completed := true })).drop m = _
        rw [hseq, seqNums, seqNums, map_drop]
      refine ⟨ho.waits, ho.fresh, fun hn => ?_, fun i hi => ?_, ho.valid⟩
      · have hnone := ho.none hn
        rw [hseqd]
        omega
      · have hidx : i = ringSlot p.sqEntries u.storeHead (below (seqNums S) ld.seqNum) := ho.some i hi
        change i = ringSlot p.sqEntries (ringSlot p.sqEntries u.storeHead m) _
        rw [hseqd, ringSlot_add hb.queues.stores.head_lt (by omega), ← hdrop, hidx]
  exact hw.recore hcore

theorem sentStores_complete {m : Nat} (hk : S[k]? = some e) (hm : m ≤ wb) :
    sentStores (old ++ (S.map stored).take m) ((S.set k { e with completed := true }).drop m) (wb - m) =
      sentStores old S wb := by
  have hstored : stored { e with completed := true } = e.stored := rfl
  unfold sentStores
  rw [map_drop, map_set_of_eq hk hstored, append_assoc, ← take_add, Nat.add_sub_cancel' hm]

theorem Delivers.complete {m : Nat} (hd : Delivers phys memory u S wb old) (hk : S[k]? = some e) (hkw : k < wb)
    (hm : m ≤ wb) : Delivers phys memory u ((S.set k { e with completed := true }).drop m) (wb - m)
      (old ++ (S.map stored).take m) := by
  have hsent : sentStores (old ++ (S.map stored).take m) ((S.set k { e with completed := true }).drop m) (wb - m) =
      sentStores old S wb := sentStores_complete hk hm
  refine ⟨fun hnil => ?_, fun hne => ?_, hd.one⟩
  · rw [hsent]
    exact hd.idle hnil
  · obtain ⟨y, hy, hcom, hcan, hsize, hc⟩ := hd.busy hne
    refine ⟨y, ?_, hcom, hcan, hsize, ?_⟩
    · rw [getElem?_drop, Nat.add_sub_cancel' hm, getElem?_set_ne (Nat.ne_of_lt hkw), hy]
    · rw [hsent]
      exact hc

theorem Book.executed_of_completed (hb : Book p { x with unit := u } L S wb old) :
    ∀ y ∈ S, y.completed = true → y.inst.executed = true := by
  intro y hy hcomp
  obtain ⟨i, hi⟩ := mem_iff_getElem?.mp hy
  have hent := hb.entries i y hi
  have hlt : i < wb := by
    by_contra hge
    rw [hent.waits (Nat.le_of_not_lt hge)] at hcomp
    cases hcomp
  exact (hent.canWB (hent.sent hlt)).2

theorem storeResponse_held {storeIdx : Nat} (hh : Held p phys memory x L u) (h : u.storeResponse p storeIdx = .ok u') :
    Held p phys memory x L u' := by
  obtain ⟨S, wb, old, hb, hd⟩ := hh
  obtain ⟨e, he, h⟩ := of_bind h
  obtain ⟨_, hguard, h⟩ := of_bind h
  rw [deref_eq_ok] at he
  rw [require_eq_ok, Bool.and_eq_true, Bool.and_eq_true, Bool.not_eq_true', bne_iff_ne] at hguard
  obtain ⟨⟨hcom, hcomp⟩, hidx⟩ := hguard
  rcases hb.queues.stores.only he with hstale | ⟨k, hk, rfl⟩
  · rw [hstale.1] at hcomp
    cases hcomp
  have hent := hb.entries k e hk
  have hkw : k < wb := by
    by_contra hge
    rcases Nat.lt_or_eq_of_le (Nat.le_of_not_lt hge) with hlt | rfl
    · rw [hent.unsent hlt] at hcom
      cases hcom
    · exact hidx hb.wbIdx.symm
  obtain ⟨m, c, hcore, hport, hq, hm, hall⟩ := completeStore_spec hb.queues hk (hent.canWB (hent.sent hkw)).2
    hb.executed_of_completed h
  obtain ⟨hmwb, hb'⟩ := hb.complete hk hkw hm hall hq hcore
  exact ⟨_, _, _, hb', (hd.complete hk hkw hmwb).of_port hport⟩

/-- The unit with another write-back index. -/
def LSQUnit.setWB (u : LSQUnit) (storeIdx : Nat) : LSQUnit := { u with storeWBIdx := storeIdx }

theorem core_setWB (u : LSQUnit) (storeIdx : Nat) : (u.setWB storeIdx).core = u.core.setWB storeIdx := rfl

/-- A store without data is complete at once. -/
theorem skip_held (hb : Book p { x with unit := u } L S wb old) (hd : Delivers phys memory u S wb old)
    (hk : S[wb]? = some e) (hcan : e.canWB = true) (he : e.size = 0) (h : u.completeStore p u.storeWBIdx = .ok u') :
    Held p phys memory x L { u' with storeWBIdx := ringNext p.sqEntries u'.storeWBIdx } := by
  have hwb : u.storeWBIdx = ringSlot p.sqEntries u.storeHead wb := hb.wbIdx
  have hent := hb.entries wb e hk
  have hbefore := hb.advance hk hcan
  rw [hwb] at h
  obtain ⟨m, c, hcore, hport, hq, hm, hall⟩ := completeStore_spec hb.queues hk (hent.canWB hcan).2
    hb.executed_of_completed h
  have hidx : u'.core.storeWBIdx = u.storeWBIdx := by
    rw [hcore]
    rfl
  have hcore' : (u'.setWB (ringNext p.sqEntries u'.storeWBIdx)).core =
      { (u.setWB (ringNext p.sqEntries u.storeWBIdx)).core with
        storeQueue := update u.storeQueue (ringSlot p.sqEntries u.storeHead wb) (some { e with completed := true })
        storeHead := ringSlot p.sqEntries u.storeHead m
        stores := c } := by
    have hnext : u'.storeWBIdx = u.storeWBIdx := hidx
    rw [core_setWB, core_setWB, hcore, hnext]
    rfl
  have hq' : Queues p (u'.setWB (ringNext p.sqEntries u'.storeWBIdx)) L ((S.set wb { e with completed := true }).drop m) :=
    ⟨hq.loads, hq.loads_eq, hq.stores, hq.stores_eq⟩
  obtain ⟨hmwb, hb'⟩ := hbefore.complete hk (Nat.lt_succ_self wb) hm hall hq' hcore'
  have hnil : u.unsent = [] := by
    by_contra hne
    obtain ⟨y, hy, -, -, hsize, -⟩ := hd.busy hne
    rw [hk] at hy
    cases hy
    exact hsize he
  have hnext : Delivers phys memory u S (wb + 1) old := by
    refine ⟨fun _ a => ?_, absurd hnil, hd.one⟩
    have hbyte : e.stored.byteAt a = none := if_neg fun h => h.1 he
    rw [hd.idle hnil a, sentStores_succ hk, content, content, youngest_concat, hbyte]
    rfl
  exact ⟨_, _, _, hb', (hnext.complete hk (Nat.lt_succ_self wb) hmwb).of_port hport⟩

/-! ## The loop -/

theorem writebackLoop_held {fuel : Nat} (hphys : Injective phys) (hh : Held p phys memory x L u)
    (h : writebackLoop p phys fuel u = .ok u') : Held p phys memory x L u' := by
  induction fuel generalizing u with
  | zero => cases h
  | succ fuel ih =>
    rw [writebackLoop] at h
    split at h
    · cases h
      exact hh
    · rename_i e hcell
      split at h
      · rename_i hguard
        simp only [Bool.and_eq_true, bne_iff_ne] at hguard
        obtain ⟨⟨⟨⟨⟨-, htail⟩, hcan⟩, -⟩, -⟩, -⟩ := hguard
        obtain ⟨S, wb, old, hb, hd⟩ := hh
        have hk := hb.at_wb hcell htail
        split at h
        · rename_i hsize
          obtain ⟨v, hv, h⟩ := of_bind h
          exact ih (skip_held hb hd hk hcan hsize hv) h
        · rename_i hsize
          obtain ⟨v, hv, h⟩ := of_bind h
          exact ih (writebackStore_held hphys hb hd hk hcan hsize hv) h
      · cases h
        exact hh

theorem Held.of_eq (hh : Held p phys memory x L u) (hcore : u'.core = u.core) (hport : u'.port = u.port) :
    Held p phys memory x L u' := by
  obtain ⟨S, wb, old, hb, hd⟩ := hh
  exact ⟨S, wb, old, hb.recore hcore, hd.of_port hport⟩

theorem writebackStores_held (hphys : Injective phys) (hh : Held p phys memory x L u)
    (h : u.writebackStores p phys = .ok u') : Held p phys memory x L u' := by
  obtain ⟨v, hv, h⟩ := of_bind h
  obtain ⟨w, hw, h⟩ := of_bind h
  cases h
  have hpending := writebackPendingStore_held hphys hh hv
  exact (writebackLoop_held hphys hpending hw).of_eq rfl rfl

theorem recvRetry_held (hphys : Injective phys) (hh : Held p phys memory x L u) (h : u.recvRetry p phys = .ok u') :
    Held p phys memory x L u' := by
  unfold recvRetry at h
  split at h
  · cases h
    exact hh
  obtain ⟨⟨pkt, rest⟩, hretry, h⟩ := of_bind h
  rw [deref_eq_ok] at hretry
  dsimp only at h
  split at h
  · cases h
    exact hh.of_eq rfl rfl
  obtain ⟨S, wb, old, hb, hd⟩ := hh
  have hpend : u.pendingPkt = none := by
    by_contra hne
    rw [hd.one hne] at hretry
    cases hretry
  have hunsent : u.unsent = pkt :: rest.toList := by
    unfold unsent
    rw [hretry, hpend]
    exact append_nil _
  obtain ⟨e, hk, hcom, hcan, hsize, hc⟩ := hd.busy (by rw [hunsent]; exact cons_ne_nil _ _)
  rw [hunsent] at hc
  have hc := hc.step hphys hsize
  have hb' : Book p { x with unit := { u with
      dcache := { u.dcache.next with memory := pkt.put phys u.dcache.memory }
      retryPkt := none
      isStoreBlocked := false } } L S wb old := hb.recore rfl
  cases rest with
  | none => exact storePostSend_held hb' hk hcan rfl hpend hc h
  | some rest => exact sendLast_held hphys hb' hk hcom hcan hsize rfl hpend hc h

end Gem5.Cpu.LSQ
