import Gem5Nvmain.Cpu.LSQUnit
import Gem5Nvmain.Lib.OrderedKeys
import Mathlib.Data.List.Induction

/- What the functions of the load/store queue do to the loads and stores that it holds.

  `Queues p u L S` says that the rings hold the loads `L` and the stores `S`, the oldest first. Each loop of the code
  is described by what it does to these lists (`core` has no more of the state), and to what is on its way to the
  cache (`port`). -/
namespace Gem5.Cpu.LSQ
open Lib Function List LSQUnit

variable {p : Params} {u u' : LSQUnit} {L : List DynInst} {S : List SQEntry} {fuel j n wb : Nat}

/-- An entry that the queue has left behind. -/
def Stale (e : SQEntry) : Prop := e.completed = true ∧ e.inst.executed = true

structure Queues (p : Params) (u : LSQUnit) (L : List DynInst) (S : List SQEntry) : Prop where
  loads : RingQueue p.lqEntries (fun _ => False) u.loadQueue u.loadHead u.loadTail L
  loads_eq : u.loads = L.length
  stores : RingQueue p.sqEntries Stale u.storeQueue u.storeHead u.storeTail S
  stores_eq : u.stores = S.length

namespace LSQUnit

/-- The queues alone, without counters and stalls, the cache and what is on its way there. -/
def core (u : LSQUnit) : LSQUnit :=
  { u with
    storesToWB := 0
    usedPorts := 0
    stalled := false
    stallingStoreIsn := 0
    stallingLoadIdx := 0
    retryPkt := none
    isStoreBlocked := false
    storeInFlight := false
    pendingPkt := none
    dcache := { memory := fun _ => 0 } }

/-- The memory, and what is on its way there. -/
def port (u : LSQUnit) : (Nat → UInt8) × Option (Packet × Option Packet) × Option Packet :=
  (u.dcache.memory, u.retryPkt, u.pendingPkt)

end LSQUnit

theorem Queues.of_core (hq : Queues p u L S) (h : u'.core = u.core) : Queues p u' L S := by
  have hcore : Queues p u.core L S := ⟨hq.loads, hq.loads_eq, hq.stores, hq.stores_eq⟩
  rw [← h] at hcore
  exact ⟨hcore.loads, hcore.loads_eq, hcore.stores, hcore.stores_eq⟩

/-! ## Searches -/

/-- `checkViolations` names the first of the loads that clash with the store. -/
theorem checkViolations_spec {inst : DynInst} (hq : Queues p u L S) (hv : u.memDepViolator = none) (hj : j ≤ L.length)
    (h : u.checkViolations p inst fuel (ringSlot p.lqEntries u.loadHead j) = .ok u') :
    u' = { u with memDepViolator := ((L.drop j).find? (clashes p inst)).map DynInst.seqNum } := by
  induction fuel generalizing j with
  | zero => cases h
  | succ fuel ih =>
    rw [checkViolations] at h
    split at h
    · rename_i htail
      obtain rfl := (hq.loads.slot_eq_tail hj).mp htail
      cases h
      rw [drop_length]
      exact congrArg (fun v => { u with memDepViolator := v }) hv
    · rename_i htail
      have hlt : j < L.length := Nat.lt_of_le_of_ne hj fun heq => htail ((hq.loads.slot_eq_tail hj).mpr heq)
      obtain ⟨load, hload, h⟩ := of_bind h
      rw [deref_eq_ok, hq.loads.cell (getElem?_eq_getElem hlt)] at hload
      cases hload
      rw [drop_eq_getElem_cons hlt]
      split at h
      · rename_i hclash
        rw [find?_cons_of_pos hclash]
        simp only [hv] at h
        cases h
        rfl
      · rename_i hclash
        rw [find?_cons_of_neg hclash]
        have hroom := hq.loads.room
        rw [ringNext_slot hq.loads.head_lt (by omega)] at h
        exact ih hlt h

/-- The store has nothing of the request. -/
def Harmless (a : Access) (e : SQEntry) : Prop := e.size = 0 ∨ coverage a e = .nothing

/-- What `read` finds between the stores that were sent and the place of the load. -/
theorem searchStores_spec {a : Access} {found : LSQUnit.Found} (hq : Queues p u L S)
    (hwb : u.storeWBIdx = ringSlot p.sqEntries u.storeHead wb) (hle : wb ≤ j) (hj : j ≤ S.length)
    (h : u.searchStores p a fuel (ringSlot p.sqEntries u.storeHead j) = .ok found) :
    (found = .none → ∀ k e, wb ≤ k → k < j → S[k]? = some e → Harmless a e) ∧
    ∀ e, found = .forward e → ∃ k, wb ≤ k ∧ k < j ∧ S[k]? = some e ∧ e.size ≠ 0 ∧ coverage a e = .all ∧
      ∀ k' e', k < k' → k' < j → S[k']? = some e' → Harmless a e' := by
  have hroom := hq.stores.room
  induction fuel generalizing j with
  | zero => cases h
  | succ fuel ih =>
    rw [searchStores] at h
    split at h
    · rename_i hidx
      rw [hwb] at hidx
      have hjwb : j = wb := ringSlot_inj (by omega) (by omega) hidx
      cases h
      exact ⟨fun _ k e hk hkj _ => absurd hkj (by omega), nofun⟩
    · rename_i hidx
      obtain ⟨i, rfl⟩ : ∃ i, j = i + 1 := by
        cases j with
        | zero =>
          obtain rfl : wb = 0 := by omega
          exact absurd hwb.symm hidx
        | succ i => exact ⟨i, rfl⟩
      have hwbi : wb ≤ i := by
        by_contra hlt
        obtain rfl : wb = i + 1 := by omega
        exact hidx hwb.symm
      rw [ringPrev_slot (by omega)] at h
      obtain ⟨e, he, h⟩ := of_bind h
      have hSi : S[i]? = some S[i] := getElem?_eq_getElem hj
      rw [deref_eq_ok, hq.stores.cell hSi] at he
      cases he
      -- a store without data, or outside the request, is passed by
      have hskip : Harmless a S[i] → u.searchStores p a fuel (ringSlot p.sqEntries u.storeHead i) = .ok found →
          (found = .none → ∀ k e, wb ≤ k → k < i + 1 → S[k]? = some e → Harmless a e) ∧
          ∀ e, found = .forward e → ∃ k, wb ≤ k ∧ k < i + 1 ∧ S[k]? = some e ∧ e.size ≠ 0 ∧
            coverage a e = .all ∧ ∀ k' e', k < k' → k' < i + 1 → S[k']? = some e' → Harmless a e' := by
        intro hharm hrest
        obtain ⟨hnone, hforward⟩ := ih hwbi (Nat.le_of_lt hj) hrest
        have hlast : ∀ k e, k < i + 1 → (k < i → S[k]? = some e → Harmless a e) → S[k]? = some e → Harmless a e := by
          intro k e hk hbefore hSk
          rcases Nat.lt_succ_iff_lt_or_eq.mp hk with hk | rfl
          · exact hbefore hk hSk
          · rw [hSi] at hSk
            cases hSk
            exact hharm
        refine ⟨fun hn k e hwk hk hSk => hlast k e hk (hnone hn k e hwk) hSk, fun e hf => ?_⟩
        obtain ⟨k, hwk, hk, hSk, hsize, hall, hlater⟩ := hforward e hf
        refine ⟨k, hwk, Nat.lt_succ_of_lt hk, hSk, hsize, hall, fun k' e' hkk' hk' hSk' => ?_⟩
        exact hlast k' e' hk' (hlater k' e' hkk') hSk'
      split at h
      · rename_i hsize
        exact hskip (.inl hsize) h
      · rename_i hsize
        obtain ⟨_, -, h⟩ := of_bind h
        split at h
        · rename_i hall
          cases h
          refine ⟨nofun, fun e he => ?_⟩
          cases he
          exact ⟨i, hwbi, Nat.lt_succ_self i, hSi, hsize, hall, fun k' e' hk hk' => absurd hk' (by omega)⟩
        · cases h
          exact ⟨nofun, nofun⟩
        · rename_i hnothing
          exact hskip (.inr hnothing) h

/-! ## Commit -/

/-- `commitLoads` takes the oldest loads, up to the first that is too young. -/
theorem commitLoads_spec (hq : Queues p u L S) (h : commitLoads p n L.length u = .ok u') :
    ∃ m q c, m ≤ L.length ∧ u' = { u with loadQueue := q, loadHead := ringSlot p.lqEntries u.loadHead m, loads := c } ∧
      Queues p u' (L.drop m) S ∧ (∀ x ∈ L.take m, x.seqNum ≤ n) ∧ ∀ x, (L.drop m).head? = some x → n < x.seqNum := by
  induction L generalizing u with
  | nil =>
    cases h
    refine ⟨0, u'.loadQueue, u'.loads, Nat.le_refl _, ?_, hq, nofun, nofun⟩
    rw [ringSlot_zero hq.loads.head_lt]
  | cons x L ih =>
    obtain ⟨load, hload, h⟩ := of_bind h
    rw [deref_eq_ok, hq.loads.head_cell] at hload
    cases hload
    split at h
    · rename_i hle
      have hroom := hq.loads.room
      rw [length_cons] at hroom
      have hpop : Queues p { u with
          loadQueue := update u.loadQueue u.loadHead none
          loadHead := ringNext p.lqEntries u.loadHead
          loads := L.length } L S := by
        refine ⟨hq.loads.pop (fun i hi => update_of_ne hi ..) (fun y hy => ?_), rfl, hq.stores, hq.stores_eq⟩
        dsimp only at hy
        rw [update_self] at hy
        cases hy
      obtain ⟨m, q, c, hm, rfl, hq', htake, hhead⟩ := ih hpop h
      refine ⟨m + 1, q, c, Nat.succ_le_succ hm, ?_, hq', fun y hy => ?_, hhead⟩
      · rw [ringSlot_next hq.loads.head_lt (by omega)]
      · rcases mem_cons.mp hy with rfl | hy
        · exact hle
        · exact htake y hy
    · rename_i hgt
      cases h
      refine ⟨0, u'.loadQueue, u'.loads, Nat.zero_le _, ?_, hq, nofun, fun y hy => ?_⟩
      · rw [ringSlot_zero hq.loads.head_lt]
      · cases hy
        exact Nat.lt_of_not_le hgt

/-- Stores up to `n` were marked as able to write back. -/
def Marked (n : Nat) (S S' : List SQEntry) : Prop :=
  S'.length = S.length ∧ ∀ (k : Nat) (e' : SQEntry), S'[k]? = some e' → ∃ e : SQEntry, S[k]? = some e ∧
    (e' = e ∨ e.inst.seqNum ≤ n ∧ e' = { e with canWB := true })

theorem Marked.refl (n : Nat) (S : List SQEntry) : Marked n S S := ⟨rfl, fun _ e h => ⟨e, h, .inl rfl⟩⟩

theorem Marked.trans {S' S'' : List SQEntry} (h : Marked n S S') (h' : Marked n S' S'') : Marked n S S'' := by
  refine ⟨h'.1.trans h.1, fun k e'' hk => ?_⟩
  obtain ⟨e', he', hcase'⟩ := h'.2 k e'' hk
  obtain ⟨e, he, hcase⟩ := h.2 k e' he'
  refine ⟨e, he, ?_⟩
  rcases hcase' with rfl | ⟨hle', rfl⟩
  · exact hcase
  · rcases hcase with rfl | ⟨hle, rfl⟩
    · exact .inr ⟨hle', rfl⟩
    · exact .inr ⟨hle, rfl⟩

theorem Marked.set {e : SQEntry} (hj : S[j]? = some e) (hle : e.inst.seqNum ≤ n) :
    Marked n S (S.set j { e with canWB := true }) := by
  refine ⟨length_set, fun k e' hk => ?_⟩
  by_cases hkj : j = k
  · subst hkj
    rw [getElem?_set_self (RingQueue.lt_of_getElem? hj)] at hk
    cases hk
    exact ⟨e, hj, .inr ⟨hle, rfl⟩⟩
  · rw [getElem?_set_ne hkj] at hk
    exact ⟨e', hk, .inl rfl⟩

theorem commitStores_spec (hq : Queues p u L S) (hj : j ≤ S.length)
    (h : commitStores p n fuel (ringSlot p.sqEntries u.storeHead j) u = .ok u') :
    ∃ S' q c, u' = { u with storeQueue := q, storesToWB := c } ∧ Queues p u' L S' ∧ Marked n S S' := by
  induction fuel generalizing j u S with
  | zero => cases h
  | succ fuel ih =>
    rw [commitStores] at h
    split at h
    · cases h
      exact ⟨S, u'.storeQueue, u'.storesToWB, rfl, hq, .refl n S⟩
    · rename_i htail
      have hlt : j < S.length := Nat.lt_of_le_of_ne hj fun heq => htail ((hq.stores.slot_eq_tail hj).mpr heq)
      have hroom := hq.stores.room
      have hSj : S[j]? = some S[j] := getElem?_eq_getElem hlt
      obtain ⟨e, he, h⟩ := of_bind h
      rw [deref_eq_ok, hq.stores.cell hSj] at he
      cases he
      rw [ringNext_slot hq.stores.head_lt (by omega)] at h
      split at h
      · exact ih hq hlt h
      · split at h
        · cases h
          exact ⟨S, u'.storeQueue, u'.storesToWB, rfl, hq, .refl n S⟩
        · rename_i hle
          have hset : Queues p { u with
              storeQueue := update u.storeQueue (ringSlot p.sqEntries u.storeHead j) (some { S[j] with canWB := true })
              storesToWB := u.storesToWB + 1 } L (S.set j { S[j] with canWB := true }) := by
            refine ⟨hq.loads, hq.loads_eq, hq.stores.set hlt _, ?_⟩
            rw [length_set]
            exact hq.stores_eq
          obtain ⟨S', q, c, rfl, hq', hmarked⟩ := ih hset (by rw [length_set]; exact hlt) h
          exact ⟨S', q, c, rfl, hq', (Marked.set hSj (Nat.le_of_not_lt hle)).trans hmarked⟩

/-! ## Completion -/

/-- The head leaves, and with it the stores behind it that are complete. -/
theorem popCompleted_spec {e : SQEntry} (hq : Queues p u L (e :: S)) (he : Stale e)
    (hS : ∀ x ∈ S, x.completed = true → x.inst.executed = true) : ∃ m c, (∀ x ∈ S.take m, x.completed = true) ∧
      popCompleted p (S.length + 1) u =
        { u with storeHead := ringSlot p.sqEntries u.storeHead (m + 1), stores := c } ∧
      Queues p (popCompleted p (S.length + 1) u) L (S.drop m) ∧ m ≤ S.length := by
  induction S generalizing u e with
  | nil =>
    have hpop := hq.stores.pop (fun _ _ => rfl) fun y hy => by
      rw [hq.stores.head_cell] at hy
      cases hy
      exact he
    have hstop : popCompleted p 1 u =
        { u with storeHead := ringNext p.sqEntries u.storeHead, stores := 0 } := by
      simp [popCompleted]
    refine ⟨0, 0, nofun, ?_, ?_, Nat.le_refl 0⟩
    · rw [length_nil, hstop, ringSlot_one hq.stores.head_lt]
    · rw [length_nil, hstop]
      exact ⟨hq.loads, hq.loads_eq, hpop, rfl⟩
  | cons x S ih =>
    have hroom := hq.stores.room
    rw [length_cons, length_cons] at hroom
    have hpop : Queues p
        { u with storeHead := ringNext p.sqEntries u.storeHead, stores := S.length + 1 } L (x :: S) := by
      refine ⟨hq.loads, hq.loads_eq, hq.stores.pop (fun _ _ => rfl) (fun y hy => ?_), rfl⟩
      rw [hq.stores.head_cell] at hy
      cases hy
      exact he
    have hhead := hpop.stores.head_cell
    have htail : ringNext p.sqEntries u.storeHead ≠ u.storeTail := by
      have hne := hpop.stores.slot_eq_tail (Nat.zero_le _)
      rw [ringSlot_zero hpop.stores.head_lt] at hne
      exact fun heq => absurd (hne.mp heq) (by rw [length_cons]; omega)
    rw [length_cons, popCompleted]
    rw [hhead]
    simp only [Option.any_some, bne_iff_ne, ne_eq, htail, not_false_eq_true, Bool.and_eq_true, and_true]
    by_cases hx : x.completed = true
    · rw [if_pos hx]
      obtain ⟨m, c, hall, heq, hrest, hm⟩ := ih hpop ⟨hx, hS x mem_cons_self hx⟩
        fun y hy => hS y (mem_cons_of_mem _ hy)
      refine ⟨m + 1, c, fun y hy => ?_, ?_, hrest, Nat.succ_le_succ hm⟩
      · rcases mem_cons.mp hy with rfl | hy
        · exact hx
        · exact hall y hy
      · rw [heq]
        rw [ringSlot_next hq.stores.head_lt (by omega)]
    · rw [if_neg hx]
      exact ⟨0, S.length + 1, nofun, by rw [ringSlot_one hq.stores.head_lt], hpop, Nat.zero_le _⟩

theorem core_unstall (u : LSQUnit) (e : SQEntry) : (u.unstall e).core = u.core := by
  unfold unstall
  split <;> rfl

theorem port_unstall (u : LSQUnit) (e : SQEntry) : (u.unstall e).port = u.port := by
  unfold unstall
  split <;> rfl

/-- `completeStore` marks a store; complete stores at the head leave. -/
theorem completeStore_spec {k : Nat} {e : SQEntry} (hq : Queues p u L S) (hk : S[k]? = some e)
    (he : e.inst.executed = true) (hS : ∀ x ∈ S, x.completed = true → x.inst.executed = true)
    (h : u.completeStore p (ringSlot p.sqEntries u.storeHead k) = .ok u') : ∃ m c, u'.core = { u.core with
        storeQueue := update u.storeQueue (ringSlot p.sqEntries u.storeHead k) (some { e with completed := true })
        storeHead := ringSlot p.sqEntries u.storeHead m
        stores := c } ∧ u'.port = u.port ∧
      Queues p u' L ((S.set k { e with completed := true }).drop m) ∧ m ≤ S.length ∧
      ∀ x ∈ (S.set k { e with completed := true }).take m, x.completed = true := by
  have hlt := RingQueue.lt_of_getElem? hk
  obtain ⟨e', he', h⟩ := of_bind h
  rw [deref_eq_ok, hq.stores.cell hk] at he'
  cases he'
  have hset : Queues p { u with
      storeQueue := update u.storeQueue (ringSlot p.sqEntries u.storeHead k) (some { e with completed := true })
      storesToWB := u.storesToWB - 1 } L (S.set k { e with completed := true }) := by
    refine ⟨hq.loads, hq.loads_eq, hq.stores.set hlt _, ?_⟩
    rw [length_set]
    exact hq.stores_eq
  cases h
  split
  · rename_i hhead
    obtain rfl : k = 0 := by
      by_contra hne
      have hslot := hq.stores.slot_ne (Nat.le_of_lt hlt) (Nat.zero_le _) hne
      rw [ringSlot_zero hq.stores.head_lt] at hslot
      exact hslot hhead
    cases S with
    | nil => cases hk
    | cons x S =>
      obtain ⟨m, c, hall, heq, hrest, hm⟩ := popCompleted_spec hset ⟨rfl, he⟩
        fun y hy => hS y (mem_cons_of_mem _ hy)
      have hstores : u.stores = S.length + 1 := hq.stores_eq
      rw [hstores] at heq hrest ⊢
      refine ⟨m + 1, c, ?_, ?_, hrest.of_core (core_unstall _ _), Nat.succ_le_succ hm, fun y hy => ?_⟩
      · refine (core_unstall _ _).trans ?_
        rw [heq]
        rfl
      · refine (port_unstall _ _).trans ?_
        rw [heq]
        rfl
      · rcases mem_cons.mp hy with rfl | hy
        · rfl
        · exact hall y hy
  · refine ⟨0, u.stores, ?_, port_unstall _ _, ?_, Nat.zero_le _, nofun⟩
    · refine (core_unstall _ _).trans ?_
      rw [ringSlot_zero hq.stores.head_lt]
      rfl
    · exact hset.of_core (core_unstall _ _)

/-! ## Squashes -/

/-- `squash` takes the youngest loads, down to the first that is old enough. -/
theorem squashLoads_spec (hq : Queues p u L S) (h : squashLoads p n L.length u = .ok u') :
    ∃ m q c t, m ≤ L.length ∧ u'.core = { u.core with loadQueue := q, loads := c, loadTail := t } ∧ u'.port = u.port ∧
      Queues p u' (L.take m) S ∧ (∀ x ∈ L.drop m, n < x.seqNum) ∧ ∀ x, (L.take m).getLast? = some x → x.seqNum ≤ n := by
  induction L using reverseRecOn generalizing u with
  | nil =>
    cases h
    exact ⟨0, u'.loadQueue, u'.loads, u'.loadTail, Nat.le_refl 0, rfl, rfl, hq, nofun, nofun⟩
  | append_singleton L x ih =>
    have hlen : (L ++ [x]).length = L.length + 1 := length_append
    rw [hlen, squashLoads] at h
    obtain ⟨load, hload, h⟩ := of_bind h
    rw [deref_eq_ok, hq.loads.last_cell] at hload
    cases hload
    split at h
    · rename_i hgt
      obtain ⟨v, hv, hcore, hport⟩ : ∃ v, v = (if (u.stalled && ringPrev p.lqEntries u.loadTail == u.stallingLoadIdx) = true
          then { u with stalled := false, stallingStoreIsn := 0, stallingLoadIdx := 0 } else u) ∧
          v.core = u.core ∧ v.port = u.port := by
        refine ⟨_, rfl, ?_, ?_⟩
        all_goals split <;> rfl
      rw [← hv] at h
      have hqv := hq.of_core hcore
      have htail : v.core.loadTail = u.core.loadTail := by rw [hcore]
      have htail : v.loadTail = u.loadTail := htail
      have hpop : Queues p { v with
          loadQueue := update v.loadQueue (ringPrev p.lqEntries u.loadTail) none
          loads := L.length
          loadTail := ringPrev p.lqEntries u.loadTail } L S := by
        rw [← htail]
        exact ⟨hqv.loads.popLast, rfl, hqv.stores, hqv.stores_eq⟩
      obtain ⟨m, q, c, t, hm, heq, hport', hq', hdrop, hlast⟩ := ih hpop h
      refine ⟨m, q, c, t, by omega, ?_, hport'.trans hport, ?_, fun y hy => ?_, ?_⟩
      · calc u'.core = { v.core with loadQueue := q, loads := c, loadTail := t } := heq
          _ = _ := by rw [hcore]
      · rwa [take_append_of_le_length hm]
      · rw [drop_append_of_le_length hm] at hy
        rcases mem_append.mp hy with hy | hy
        · exact hdrop y hy
        · rw [mem_singleton.mp hy]
          exact hgt
      · rwa [take_append_of_le_length hm]
    · rename_i hle
      cases h
      refine ⟨L.length + 1, u'.loadQueue, u'.loads, u'.loadTail, Nat.le_of_eq hlen.symm, rfl, rfl, ?_, ?_, ?_⟩
      · rwa [← hlen, take_length]
      · rw [← hlen, drop_length]
        exact nofun
      · rw [← hlen, take_length, getLast?_concat]
        intro y hy
        cases hy
        exact Nat.le_of_not_lt hle

theorem squashStores_spec (hq : Queues p u L S) (h : squashStores p n S.length u = .ok u') :
    ∃ m q c t, m ≤ S.length ∧ u' = { u with storeQueue := q, stores := c, storeTail := t } ∧
      Queues p u' L (S.take m) ∧ (∀ x ∈ S.drop m, n < x.inst.seqNum ∧ x.canWB = false) ∧
      ∀ x, (S.take m).getLast? = some x → x.inst.seqNum ≤ n ∨ x.canWB = true := by
  induction S using reverseRecOn generalizing u with
  | nil =>
    cases h
    exact ⟨0, u'.storeQueue, u'.stores, u'.storeTail, Nat.le_refl 0, rfl, hq, nofun, nofun⟩
  | append_singleton S x ih =>
    have hlen : (S ++ [x]).length = S.length + 1 := length_append
    rw [hlen, squashStores] at h
    obtain ⟨e, he, h⟩ := of_bind h
    rw [deref_eq_ok, hq.stores.last_cell] at he
    cases he
    split at h
    · rename_i hgt
      rw [Bool.and_eq_true, decide_eq_true_eq, Bool.not_eq_true'] at hgt
      split at h
      · cases h
      have hpop : Queues p { u with
          storeQueue := update u.storeQueue (ringPrev p.sqEntries u.storeTail) none
          stores := S.length
          storeTail := ringPrev p.sqEntries u.storeTail } L S :=
        ⟨hq.loads, hq.loads_eq, hq.stores.popLast, rfl⟩
      obtain ⟨m, q, c, t, hm, heq, hq', hdrop, hlast⟩ := ih hpop h
      refine ⟨m, q, c, t, by omega, heq, ?_, fun y hy => ?_, ?_⟩
      · rwa [take_append_of_le_length hm]
      · rw [drop_append_of_le_length hm] at hy
        rcases mem_append.mp hy with hy | hy
        · exact hdrop y hy
        · rw [mem_singleton.mp hy]
          exact hgt
      · rwa [take_append_of_le_length hm]
    · rename_i hstay
      cases h
      refine ⟨S.length + 1, u'.storeQueue, u'.stores, u'.storeTail, Nat.le_of_eq hlen.symm, rfl, ?_, ?_, ?_⟩
      · rwa [← hlen, take_length]
      · rw [← hlen, drop_length]
        exact nofun
      · rw [← hlen, take_length, getLast?_concat]
        intro y hy
        cases hy
        rw [Bool.and_eq_true, decide_eq_true_eq, Bool.not_eq_true', not_and_or, Nat.not_lt, Bool.not_eq_false] at hstay
        exact hstay

end Gem5.Cpu.LSQ
