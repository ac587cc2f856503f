import Gem5Nvmain.Cpu.LSQWriteback

/- What a load gets.

  The memory has the stores that were sent, and the load looks at those between them and its place. If none of these
  has a byte of the request, memory has what the load must get (`Book.memory_value`); if the youngest that has one has
  them all, it has what the load must get (`Book.stored_value`). -/
namespace Gem5.Cpu.LSQ
open Lib Function List LSQUnit

variable {p : Params} {phys : Nat → Nat} {memory : Nat → UInt8} {x y : Run} {u u' : LSQUnit} {L : List DynInst}
  {S : List SQEntry} {wb k j i b : Nat} {old : List Stored} {e : SQEntry} {ld ld' : DynInst} {a : Access}

/-! ## Coverage -/

theorem add64_eq {m n : Nat} (h : m + n ≤ 2 ^ 64) : add64 m n = if m + n < 2 ^ 64 then m + n else 0 := by
  unfold add64
  split <;> omega

section Coverage
variable (hc : comparable a e = true) (he : e.inst.effAddr + e.size ≤ 2 ^ 64)
include hc he

theorem coverage_all (h : coverage a e = .all) :
    e.inst.effAddr ≤ a.vaddr ∧ a.vaddr + a.size ≤ e.inst.effAddr + e.size := by
  have hfits := a.fits
  unfold comparable at hc
  unfold coverage at h
  dsimp only at h
  split at h
  · rename_i hin
    rw [Bool.and_eq_true, decide_eq_true_eq, decide_eq_true_eq, add64_eq hfits, add64_eq he] at hin
    obtain ⟨hlower, hupper⟩ := hin
    refine ⟨hlower, ?_⟩
    split at hc
    · rename_i hend
      rw [if_pos hend] at hupper
      split at hupper
      · exact hupper
      · omega
    · have := of_decide_eq_true hc
      omega
  · split at h
    · cases h
    · cases h

/-- The ranges do not meet. -/
theorem coverage_nothing (h : coverage a e = .nothing) :
    a.vaddr + a.size ≤ e.inst.effAddr ∨ e.inst.effAddr + e.size ≤ a.vaddr := by
  have hfits := a.fits
  unfold comparable at hc
  unfold coverage at h
  dsimp only at h
  split at h
  · cases h
  rename_i hin
  split at h
  · cases h
  rename_i hpart
  simp only [Bool.and_eq_true, decide_eq_true_eq, not_and] at hin
  simp only [Bool.or_eq_true, Bool.and_eq_true, decide_eq_true_eq, not_or, not_and] at hpart
  rw [add64_eq hfits, add64_eq he] at hin hpart
  split at hc
  · rename_i hend
    rcases of_decide_eq_true hc with hstore | hbehind
    · -- without a sum that is cut off, ranges that meet have a part in common
      have hmeet := hpart.2
      rw [if_pos hend, if_pos hstore] at hmeet
      by_contra hnot
      apply hmeet
      · omega
      · omega
    · exact .inl hbehind
  · rename_i hend
    obtain ⟨hstore, hlower⟩ := of_decide_eq_true hc
    have hupper := hin hlower
    rw [if_neg hend] at hupper
    exact absurd (Nat.zero_le _) hupper

end Coverage

theorem Harmless.byteAt (he : e.size ≠ 0 → e.inst.effAddr + e.size ≤ 2 ^ 64) (hc : e.size ≠ 0 → comparable a e = true)
    (h : Harmless a e) (hi : i < a.size) : e.byteAt (a.vaddr + i) = none := by
  apply if_neg
  rintro ⟨hsize, hle, hlt⟩
  rcases h with hzero | hnothing
  · exact hsize hzero
  · have := coverage_nothing (hc hsize) (he hsize) hnothing
    omega

/-! ## Values -/

/-- Stores that do not cover the byte do not count, from a place on. -/
theorem content_take (l : List Stored) (S : List SQEntry) (a : Nat) (hkj : k ≤ j)
    (h : ∀ i e, k ≤ i → i < j → S[i]? = some e → e.byteAt a = none) :
    youngest (sentStores l S j) a = youngest (sentStores l S k) a := by
  have hsplit : sentStores l S j = sentStores l S k ++ ((S.map SQEntry.stored).take j).drop k := by
    have htake : (S.map SQEntry.stored).take k = ((S.map SQEntry.stored).take j).take k := by
      rw [take_take, Nat.min_eq_left hkj]
    unfold sentStores
    rw [htake, append_assoc, take_append_drop]
  rw [hsplit]
  apply youngest_append_of_none
  intro s hs
  obtain ⟨n, hn⟩ := mem_iff_getElem?.mp hs
  rw [getElem?_drop, getElem?_take] at hn
  split at hn
  · rename_i hlt
    rw [getElem?_map, Option.map_eq_some_iff] at hn
    obtain ⟨e, he, rfl⟩ := hn
    exact h (k + n) e (Nat.le_add_right k n) hlt he
  · cases hn

namespace Book

/-- The memory has what the load must get. -/
theorem memory_value (hb : Book p x L S wb old) (hd : Delivers phys memory x.unit S wb old) (hld : ld ∈ L)
    (hnone : ∀ i e, wb ≤ i → i < below (seqNums S) ld.seqNum → S[i]? = some e → e.byteAt b = none) :
    x.unit.dcache.memory (phys b) = x.expected phys memory ld.seqNum b := by
  have hwb := hb.wb_le_below hld
  have hmem : x.unit.dcache.memory (phys b) = content phys memory (sentStores old S wb) b := by
    by_cases hnil : x.unit.unsent = []
    · exact hd.idle hnil b
    · -- the store that is on its way does not cover the byte
      obtain ⟨e, he, -, hcan, -, hc⟩ := hd.busy hnil
      have hdone := ((hb.entries wb e he).canWB hcan).1
      have hlt := (lt_iff_lt_below hb.stores_sorted (seqNum_mem he)).mp (Nat.lt_of_le_of_lt hdone (hb.loads ld hld).waits)
      exact hc.outside b (hnone wb e (Nat.le_refl wb) hlt he)
  rw [hmem, Run.expected, hb.older_eq hld]
  change content phys memory (sentStores old S wb) b =
    content phys memory (sentStores old S (below (seqNums S) ld.seqNum)) b
  rw [content, content, content_take old S b hwb hnone]

theorem stored_value {v : UInt8} (hb : Book p x L S wb old) (hld : ld ∈ L) (hk : S[k]? = some e)
    (hkj : k < below (seqNums S) ld.seqNum) (hv : e.byteAt b = some v)
    (hnone : ∀ i e, k < i → i < below (seqNums S) ld.seqNum → S[i]? = some e → e.byteAt b = none) :
    x.expected phys memory ld.seqNum b = v := by
  rw [Run.expected, hb.older_eq hld]
  change content phys memory (sentStores old S (below (seqNums S) ld.seqNum)) b = v
  have hstored : e.stored.byteAt b = some v := hv
  rw [content, content_take old S b hkj hnone, sentStores_succ hk, youngest_concat, hstored]
  rfl

/-- A load changes. -/
theorem setLoad (hb : Book p { x with unit := u } L S wb old) (hk : L[k]? = some ld)
    (hok : LoadOk p { x with unit := u } S wb ld') (hseq : ld'.seqNum = ld.seqNum) : Book p { x with unit := { u with
      loadQueue := update u.loadQueue (ringSlot p.lqEntries u.loadHead k) (some ld') } } (L.set k ld') S wb old := by
  have hlt := RingQueue.lt_of_getElem? hk
  have hnums : (L.set k ld').map DynInst.seqNum = L.map DynInst.seqNum := map_set_of_eq hk hseq
  refine ⟨⟨hb.queues.loads.set hlt ld', ?_, hb.queues.stores, hb.queues.stores_eq⟩, hb.wbIdx, hb.wb_le, hb.violator,
    hb.program, hb.sorted, hb.fresh, hb.done_lt, hb.settled, ?_, fun i e hi => ?_, fun y hy => ?_⟩
  · rw [length_set]
    exact hb.queues.loads_eq
  · rw [hnums]
    exact hb.loads_sorted
  · have ho := hb.entries i e hi
    exact ⟨ho.canWB, ho.sent, ho.waits, ho.unsent, ho.blank, ho.fits, ho.split, by rw [hnums]; exact ho.place⟩
  · rcases mem_or_eq_of_mem_set hy with hy | rfl
    · exact (hb.loads y hy).congr rfl rfl rfl
    · exact hok.congr rfl rfl rfl

theorem excuse (hb : Book p x L S wb old) (f : Nat → Bool) : Book p { x with excused := f } L S wb old :=
  ⟨hb.queues, hb.wbIdx, hb.wb_le, hb.violator, hb.program, hb.sorted, hb.fresh, hb.done_lt, hb.settled, hb.loads_sorted,
    fun k e he => (hb.entries k e he).congr rfl rfl, fun ld hld => (hb.loads ld hld).congr rfl rfl rfl⟩

end Book

/-! ## Execution -/

/-- The queues and the memory agree with the program, and the loads have got what they must. -/
def Sound (p : Params) (phys : Nat → Nat) (memory : Nat → UInt8) (x : Run) : Prop :=
  ∃ L, Held p phys memory x L x.unit ∧ Values phys memory x L

/-- What `read` finds. -/
theorem found_spec {found : LSQUnit.Found} (hb : Book p { x with unit := u } L S wb old) (hld : ld ∈ L)
    (h : u.findStore p a ld = .ok found) :
    (found = .none → ∀ k e, wb ≤ k → k < below (seqNums S) ld.seqNum → S[k]? = some e → Harmless a e) ∧
    ∀ e, found = .forward e → ∃ k, wb ≤ k ∧ k < below (seqNums S) ld.seqNum ∧ S[k]? = some e ∧ e.size ≠ 0 ∧
      coverage a e = .all ∧
      ∀ k' e', k < k' → k' < below (seqNums S) ld.seqNum → S[k']? = some e' → Harmless a e' := by
  have hok := hb.loads ld hld
  have hwb := hb.wb_le_below hld
  unfold findStore at h
  split at h
  · rename_i hnone
    cases h
    have hle := hok.none hnone
    exact ⟨fun _ k e hk hkj => absurd hkj (by omega), nofun⟩
  · rename_i storeIdx hsome
    have hidx : storeIdx = ringSlot p.sqEntries u.storeHead (below (seqNums S) ld.seqNum) := hok.some storeIdx hsome
    rw [hidx] at h
    obtain ⟨hnone, hforward⟩ := searchStores_spec hb.queues hb.wbIdx hwb (Book.below_le S ld.seqNum) h
    exact ⟨hnone, hforward⟩

theorem waiting_sound (hb : Book p { x with unit := u } L S wb old) (hd : Delivers phys memory u S wb old)
    (hk : L[k]? = some ld) (hex : ld.executed = false) (hv : Values phys memory x L) :
    Sound p phys memory (x.loaded (ringSlot p.lqEntries u.loadHead k) u) := by
  have hcell : u.loadQueue (ringSlot p.lqEntries u.loadHead k) = some ld := hb.queues.loads.cell hk
  have heq : x.loaded (ringSlot p.lqEntries u.loadHead k) u = { x with unit := u } := by
    unfold Run.loaded
    rw [hcell]
    dsimp only
    rw [hex, if_neg Bool.false_ne_true]
  rw [heq]
  exact ⟨L, ⟨S, wb, old, hb, hd⟩, hv⟩

/-- A load that has its data. -/
theorem loaded_sound {data : Nat → UInt8} (hb : Book p { x with unit := u } L S wb old)
    (hd : Delivers phys memory u S wb old) (hk : L[k]? = some ld) (hex : ld.executed = false)
    (hvalid : ld.effAddrValid = true ∧ ld.effAddr + ld.effSize ≤ 2 ^ 64) (hv : Values phys memory x L)
    (hdata : ∀ i < ld.effSize, data i = x.expected phys memory ld.seqNum (ld.effAddr + i)) :
    Sound p phys memory (x.loaded (ringSlot p.lqEntries u.loadHead k)
      (u.setData (ringSlot p.lqEntries u.loadHead k) ld data)) := by
  have hmem := mem_of_getElem? hk
  have ho := hb.loads ld hmem
  have hok : LoadOk p { x with unit := u } S wb { ld with executed := true, memData := data } :=
    ⟨ho.waits, ho.fresh, ho.none, ho.some, fun _ => hvalid⟩
  have hset := hb.setLoad hk hok rfl
  have hunit : (x.loaded (ringSlot p.lqEntries u.loadHead k)
      (u.setData (ringSlot p.lqEntries u.loadHead k) ld data)) = { x with
        unit := u.setData (ringSlot p.lqEntries u.loadHead k) ld data
        excused := update x.excused ld.seqNum false } := by
    unfold Run.loaded setData
    dsimp only
    rw [update_self]
    rfl
  rw [hunit]
  refine ⟨_, ⟨S, wb, old, hset.excuse _, hd.of_port rfl⟩, fun y hy hyex hyexc => ?_⟩
  rcases mem_or_eq_of_mem_set hy with hy | rfl
  · have hne : y.seqNum ≠ ld.seqNum := by
      intro heq
      rw [eq_of_key_eq hb.loads_sorted hy hmem heq, hex] at hyex
      cases hyex
    dsimp only at hyexc
    rw [update_of_ne hne] at hyexc
    exact hv y hy hyex hyexc
  · exact hdata

theorem core_stall {v : LSQUnit} {storeEntry : SQEntry} {loadIdx : Nat} (h : u.stall storeEntry ld loadIdx = .ok v) :
    v.core = u.core ∧ v.port = u.port := by
  unfold stall at h
  split at h
  · cases h
  obtain ⟨oldest, -, h⟩ := of_bind h
  cases h
  split
  · exact ⟨rfl, rfl⟩
  · exact ⟨rfl, rfl⟩

theorem of_forwarded (hc : comparable a e = true) (hfits : e.inst.effAddr + e.size ≤ 2 ^ 64) (he : e.size ≠ 0)
    (hall : coverage a e = .all) (hi : i < a.size) : e.byteAt (a.vaddr + i) =
      some (if e.isAllZeros then 0 else e.data (a.vaddr - e.inst.effAddr + i)) := by
  obtain ⟨hfirst, hlast⟩ := coverage_all hc hfits hall
  have hat : a.vaddr + i - e.inst.effAddr = a.vaddr - e.inst.effAddr + i := by omega
  rw [byteAt_eq_some he (by omega) (by omega), hat]
  rfl

/-- Whatever the cache does, the load waits or has got what the memory has. -/
theorem readCache_cases (p : Params) (phys : Nat → Nat) (u : LSQUnit) (a : Access) (loadIdx : Nat) (load : DynInst) :
    ∃ v : LSQUnit, v.core = u.core ∧ v.port = u.port ∧ (u.readCache p phys a loadIdx load = v ∨
      u.readCache p phys a loadIdx load = v.setData loadIdx load fun i => u.dcache.memory (phys (a.vaddr + i))) := by
  have hone : ∃ v : LSQUnit, v = { u with usedPorts := u.usedPorts + 1, dcache := u.dcache.next } := ⟨_, rfl⟩
  have htwo : ∃ v : LSQUnit, v = { u with usedPorts := u.usedPorts + 1 + 1, dcache := u.dcache.next.next } := ⟨_, rfl⟩
  obtain ⟨v, hv⟩ := hone
  obtain ⟨w, hw⟩ := htwo
  unfold readCache
  dsimp only
  split
  · exact ⟨v, by rw [hv]; rfl, by rw [hv]; rfl, .inl hv.symm⟩
  · split
    · split
      · exact ⟨w, by rw [hw]; rfl, by rw [hw]; rfl, .inr (by rw [hw]; rfl)⟩
      · exact ⟨w, by rw [hw]; rfl, by rw [hw]; rfl, .inl hw.symm⟩
    · exact ⟨v, by rw [hv]; rfl, by rw [hv]; rfl, .inr (by rw [hv]; rfl)⟩

theorem read_sound (hb : Book p { x with unit := u } L S wb old) (hk : L[k]? = some ld)
    (hc : ∀ k e, wb ≤ k → k < below (seqNums S) ld.seqNum → S[k]? = some e → e.size ≠ 0 → comparable a e = true)
    (hd : Delivers phys memory u S wb old) (hex : ld.executed = false)
    (hvalid : ld.effAddrValid = true) (haddr : ld.effAddr = a.vaddr) (hsize : ld.effSize = a.size)
    (hv : Values phys memory x L) (h : u.read p phys a (ringSlot p.lqEntries u.loadHead k) = .ok u') :
    Sound p phys memory (x.loaded (ringSlot p.lqEntries u.loadHead k) u') := by
  have hmem := mem_of_getElem? hk
  have hvalid : ld.effAddrValid = true ∧ ld.effAddr + ld.effSize ≤ 2 ^ 64 := by
    rw [haddr, hsize]
    exact ⟨hvalid, a.fits⟩
  obtain ⟨load, hload, h⟩ := of_bind h
  rw [deref_eq_ok, hb.queues.loads.cell hk] at hload
  cases hload
  obtain ⟨_, -, h⟩ := of_bind h
  obtain ⟨found, hfound, h⟩ := of_bind h
  obtain ⟨hnone, hforward⟩ := found_spec hb hmem hfound
  cases found with
  | forward e =>
    obtain ⟨i, hwi, hij, hi, hne, hall, hlater⟩ := hforward e rfl
    dsimp only at h
    split at h
    · cases h
    cases h
    refine loaded_sound hb hd hk hex hvalid hv fun n hn => ?_
    rw [hsize] at hn
    rw [haddr]
    symm
    apply hb.stored_value hmem hi hij
    · exact of_forwarded (hc i e hwi hij hi hne) ((hb.entries i e hi).fits hne) hne hall hn
    · intro i' e' hlt hlt' hi'
      have hwi' : wb ≤ i' := Nat.le_trans hwi (Nat.le_of_lt hlt)
      exact (hlater i' e' hlt hlt' hi').byteAt (hb.entries i' e' hi').fits (hc i' e' hwi' hlt' hi') hn
  | part e =>
    obtain ⟨hcore, hport⟩ := core_stall h
    have hhead : u'.core.loadHead = u.core.loadHead := by rw [hcore]
    have hhead : u'.loadHead = u.loadHead := hhead
    rw [← hhead]
    exact waiting_sound (hb.recore hcore) (hd.of_port hport) hk hex hv
  | none =>
    cases h
    obtain ⟨v, hcore, hport, hcase⟩ := readCache_cases p phys u a (ringSlot p.lqEntries u.loadHead k) ld
    have hhead : v.core.loadHead = u.core.loadHead := by rw [hcore]
    have hhead : v.loadHead = u.loadHead := hhead
    have hb' : Book p { x with unit := v } L S wb old := hb.recore hcore
    have hd' := hd.of_port hport
    rcases hcase with heq | heq
    · rw [heq, ← hhead]
      exact waiting_sound hb' hd' hk hex hv
    · rw [heq, ← hhead]
      refine loaded_sound hb' hd' hk hex hvalid hv fun n hn => ?_
      rw [hsize] at hn
      rw [haddr]
      apply hb.memory_value hd hmem
      intro i e hle hlt hi
      exact (hnone rfl i e hle hlt hi).byteAt (hb.entries i e hi).fits (hc i e hle hlt hi) hn

/-- A load looks at the stores between those that were sent and its place. -/
theorem comparable_of_place {loadIdx : Nat} (hb : Book p x L S wb old) (hload : x.unit.loadQueue loadIdx = some ld)
    (hc : x.unit.comparable p loadIdx a = true) (hwk : wb ≤ k) (hk : k < below (seqNums S) ld.seqNum)
    (he : S[k]? = some e) (hsize : e.size ≠ 0) : comparable a e = true := by
  have ho := hb.entries k e he
  have hroom := hb.queues.stores.room
  have hlen := RingQueue.lt_of_getElem? he
  have hlt := (lt_iff_lt_below hb.stores_sorted (Book.seqNum_mem he)).mpr hk
  have hlooks : x.unit.looksAt ld (ringSlot p.sqEntries x.unit.storeHead k) e = true := by
    have hunsent : (!e.committed || ringSlot p.sqEntries x.unit.storeHead k == x.unit.storeWBIdx) = true := by
      rcases Nat.lt_or_eq_of_le hwk with hgt | rfl
      · rw [ho.unsent hgt]
        rfl
      · rw [← hb.wbIdx, beq_self_eq_true, Bool.or_true]
    unfold looksAt
    rw [hunsent, ho.waits hwk, decide_eq_true hlt, bne_iff_ne.mpr hsize]
    rfl
  unfold LSQUnit.comparable at hc
  rw [hload, Option.all_some, all_eq_true] at hc
  have hcell := hc _ (mem_range.mpr (ringSlot_lt hb.queues.stores.head_lt (Nat.lt_trans hlen hroom)))
  rw [hb.queues.stores.cell he, Option.all_some, hlooks] at hcell
  exact hcell

theorem executeLoad_sound {loadIdx : Nat} {answers : List Bool} (ha : a.small = true)
    (hc : x.unit.comparable p loadIdx a = true) (hs : Sound p phys memory x)
    (h : x.step p phys (.executeLoad loadIdx a answers) = .ok y) : Sound p phys memory y := by
  obtain ⟨u, hu, hy⟩ := of_bind h
  cases hy
  obtain ⟨L, ⟨S, wb, old, hb, hd⟩, hv⟩ := hs
  have hbyte : toByte a.size = a.size := Nat.mod_eq_of_lt (of_decide_eq_true ha)
  have hb : Book p { x with unit := x.asks answers } L S wb old := hb.recore rfl
  have hd : Delivers phys memory (x.asks answers) S wb old := hd.of_port rfl
  have hc : (x.asks answers).comparable p loadIdx a = true := hc
  generalize x.asks answers = w at hu hb hd hc
  obtain ⟨load, hload, hread⟩ := of_bind hu
  rw [deref_eq_ok] at hload
  rcases hb.queues.loads.only hload with hstale | ⟨k, hk, rfl⟩
  · exact hstale.elim
  have hex : load.executed = false := by
    obtain ⟨load', hload', hrest⟩ := of_bind hread
    obtain ⟨_, hex, -⟩ := of_bind hrest
    dsimp only at hload'
    rw [update_self] at hload'
    cases hload'
    simpa using hex
  -- the load gets its address
  have ho := hb.loads load (mem_of_getElem? hk)
  have hok : LoadOk p { x with unit := w } S wb
      { load with effAddr := a.vaddr, effSize := toByte a.size, effAddrValid := true } :=
    ⟨ho.waits, ho.fresh, ho.none, ho.some, fun hexec => by rw [hex] at hexec; cases hexec⟩
  have hset := hb.setLoad hk hok rfl
  have hset' := getElem?_set_self (a := ({ load with
    effAddr := a.vaddr, effSize := toByte a.size, effAddrValid := true } : DynInst)) (RingQueue.lt_of_getElem? hk)
  have hv' : Values phys memory x
      (L.set k { load with effAddr := a.vaddr, effSize := toByte a.size, effAddrValid := true }) := by
    intro y hy hyex
    rcases mem_or_eq_of_mem_set hy with hy | rfl
    · exact hv y hy hyex
    · rw [hex] at hyex
      cases hyex
  have hcmp : ∀ i e, wb ≤ i → i < below (seqNums S) load.seqNum → S[i]? = some e → e.size ≠ 0 → comparable a e = true :=
    fun i e hwi hi he => comparable_of_place hb hload hc hwi hi he
  have hsound := read_sound hset hset' hcmp (hd.of_port rfl) hex rfl rfl hbyte hv' hread
  exact hsound

end Gem5.Cpu.LSQ
