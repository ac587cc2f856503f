import Gem5Nvmain.Cpu.LSQStores

/- Runs of the load/store queue.

  Each step keeps the queues, the memory and the values of the loads in agreement with the program (`Sound`), in
  whatever order loads and stores execute, commit, are sent and are squashed (`loads_read_youngest`). -/
namespace Gem5.Cpu.LSQ
open Lib Function List DynInst SQEntry

variable {p : Params} {phys : Nat → Nat} {memory : Nat → UInt8} {x y : Run} {u : LSQUnit} {L : List DynInst}
  {S S' : List SQEntry} {wb k n seqNum : Nat} {old : List Stored} {e : SQEntry} {ld : DynInst}

/-! ## Insertion -/

theorem init_sound (memory : Nat → UInt8) : Sound p phys memory (Run.init memory) := by
  have hqueues : Queues p (Run.init memory).unit [] [] :=
    ⟨RingQueue.empty p.lqEntries_pos, rfl, RingQueue.empty p.sqEntries_pos, rfl⟩
  have hbook : Book p (Run.init memory) [] [] 0 [] :=
    ⟨hqueues, (ringSlot_zero p.sqEntries_pos).symm, Nat.le_refl 0, rfl, rfl, List.Pairwise.nil, nofun, Nat.zero_lt_one,
      nofun, List.Pairwise.nil, nofun, nofun⟩
  exact ⟨[], ⟨[], 0, [], hbook, ⟨fun _ _ => rfl, absurd rfl, absurd rfl⟩⟩, nofun⟩

namespace Book

theorem below_stores (hb : Book p x L S wb old) (h : x.nextSeqNum ≤ n) : below (seqNums S) n = S.length := by
  have hlen : (seqNums S).length = S.length := length_map _
  rw [← hlen]
  apply below_eq_length
  intro s hs
  obtain ⟨e, he, rfl⟩ := mem_map.mp hs
  have hmem : e.stored ∈ x.program := by
    rw [hb.program]
    exact mem_append_right _ (mem_map_of_mem he)
  exact Nat.lt_of_lt_of_le (hb.fresh _ hmem) h

theorem below_loads (hb : Book p x L S wb old) (h : x.nextSeqNum ≤ n) :
    below (L.map DynInst.seqNum) n = L.length := by
  have hlen : (L.map seqNum).length = L.length := length_map _
  rw [← hlen]
  apply below_eq_length
  intro s hs
  obtain ⟨ld, hld, rfl⟩ := mem_map.mp hs
  exact Nat.lt_of_lt_of_le (hb.loads ld hld).fresh h

theorem below_concat {keys : List Nat} {b : Nat} (h : b ≤ n) : below (keys ++ [n]) b = below keys b := by
  rw [below_append, below_cons, if_neg (Nat.not_lt_of_le h)]
  rfl

theorem entry_fresh (hb : Book p x L S wb old) (he : e ∈ S) : e.inst.seqNum < x.nextSeqNum := by
  have hmem : e.stored ∈ x.program := by
    rw [hb.program]
    exact mem_append_right _ (mem_map_of_mem he)
  exact hb.fresh _ hmem

theorem pushLoad {inst : DynInst} (hb : Book p x L S wb old) (hnext : x.nextSeqNum ≤ inst.seqNum)
    (hfull : ringNext p.lqEntries x.unit.loadTail ≠ x.unit.loadHead)
    (hidx : inst.sqIdx = if x.unit.stores = 0 then none else some x.unit.storeTail) (hex : inst.executed = false) :
    Book p { x with
      unit := { x.unit with
        loadQueue := update x.unit.loadQueue x.unit.loadTail (some inst)
        loadTail := ringNext p.lqEntries x.unit.loadTail
        loads := x.unit.loads + 1 }
      nextSeqNum := inst.seqNum + 1 } (L ++ [inst]) S wb old := by
  have hpush := hb.queues.loads.push (hb.queues.loads.room_of_ne hfull) inst
  have hdone : x.doneSeqNum < x.nextSeqNum := hb.done_lt
  have hstores : x.unit.stores = S.length := hb.queues.stores_eq
  have hbelow : below (seqNums S) inst.seqNum = S.length := hb.below_stores hnext
  refine ⟨⟨hpush, ?_, hb.queues.stores, hb.queues.stores_eq⟩, hb.wbIdx, hb.wb_le, hb.violator, hb.program, hb.sorted,
    fun s hs => ?_, ?_, hb.settled, ?_, fun i e hi => ?_, fun ld hld => ?_⟩
  · rw [length_append]
    exact congrArg (· + 1) hb.queues.loads_eq
  · have := hb.fresh s hs
    exact Nat.lt_succ_of_lt (Nat.lt_of_lt_of_le this hnext)
  · exact Nat.lt_succ_of_lt (Nat.lt_of_lt_of_le hdone hnext)
  · rw [map_append]
    refine pairwise_append.mpr ⟨hb.loads_sorted, pairwise_singleton _ _, fun m hm n hn => ?_⟩
    obtain ⟨ld, hld, rfl⟩ := mem_map.mp hm
    rw [mem_singleton.mp hn]
    exact Nat.lt_of_lt_of_le (hb.loads ld hld).fresh hnext
  · have ho := hb.entries i e hi
    refine ⟨ho.canWB, ho.sent, ho.waits, ho.unsent, ho.blank, ho.fits, ho.split, fun hnot => ?_⟩
    have hlt := hb.entry_fresh (mem_of_getElem? hi)
    have hle : e.inst.seqNum ≤ inst.seqNum := Nat.le_trans (Nat.le_of_lt hlt) hnext
    rw [map_append]
    change e.inst.lqIdx = ringSlot p.lqEntries x.unit.loadHead (below (L.map seqNum ++ [inst.seqNum]) e.inst.seqNum)
    rw [below_concat hle]
    exact ho.place hnot
  · rcases mem_append.mp hld with hld | hld
    · have ho := hb.loads ld hld
      exact ⟨ho.waits, Nat.lt_succ_of_lt (Nat.lt_of_lt_of_le ho.fresh hnext), ho.none, ho.some, ho.valid⟩
    · obtain rfl : ld = inst := mem_singleton.mp hld
      refine ⟨Nat.lt_of_lt_of_le hdone hnext, Nat.lt_succ_self _, fun hnone => ?_, fun i hi => ?_, fun hexec => ?_⟩
      · rw [hidx] at hnone
        split at hnone
        · rename_i hzero
          rw [hbelow, ← hstores, hzero]
          exact Nat.zero_le _
        · cases hnone
      · rw [hidx] at hi
        split at hi
        · cases hi
        · rw [hbelow, ← Option.some.inj hi]
          exact hb.queues.stores.tail_eq
      · rw [hex] at hexec
        cases hexec

theorem pushStore (hb : Book p x L S wb old) (inst : DynInst) (hnext : x.nextSeqNum ≤ inst.seqNum)
    (hfull : ringNext p.sqEntries x.unit.storeTail ≠ x.unit.storeHead) (hidx : inst.lqIdx = x.unit.loadTail) :
    Book p { x with
      unit := { x.unit with
        storeQueue := update x.unit.storeQueue x.unit.storeTail (some { inst := inst })
        storeTail := ringNext p.sqEntries x.unit.storeTail
        stores := x.unit.stores + 1 }
      nextSeqNum := inst.seqNum + 1
      program := x.program ++ [{ seqNum := inst.seqNum }] } L (S ++ [{ inst := inst }]) wb old := by
  have hpush := hb.queues.stores.push (hb.queues.stores.room_of_ne hfull) { inst := inst }
  have hdone : x.doneSeqNum < x.nextSeqNum := hb.done_lt
  have hblank : stored { inst := inst } = { seqNum := inst.seqNum } := by
    have hnone : byteAt { inst := inst } = fun _ => none := by
      funext a
      exact if_neg fun h => h.1 rfl
    unfold stored
    rw [hnone]
  refine ⟨⟨hb.queues.loads, hb.queues.loads_eq, hpush, ?_⟩, hb.wbIdx, ?_, hb.violator, ?_, ?_,
    fun s hs => ?_, ?_, hb.settled, hb.loads_sorted, fun i e hi => ?_, fun ld hld => ?_⟩
  · rw [length_append]
    exact congrArg (· + 1) hb.queues.stores_eq
  · rw [length_append]
    exact Nat.le_succ_of_le hb.wb_le
  · rw [map_append, map_singleton, hblank, ← append_assoc, ← hb.program]
  · rw [map_append]
    refine pairwise_append.mpr ⟨hb.sorted, pairwise_singleton _ _, fun m hm n hn => ?_⟩
    obtain ⟨s, hs, rfl⟩ := mem_map.mp hm
    rw [mem_singleton.mp hn]
    exact Nat.lt_of_lt_of_le (hb.fresh s hs) hnext
  · rcases mem_append.mp hs with hs | hs
    · exact Nat.lt_succ_of_lt (Nat.lt_of_lt_of_le (hb.fresh s hs) hnext)
    · rw [mem_singleton.mp hs]
      exact Nat.lt_succ_self _
  · exact Nat.lt_succ_of_lt (Nat.lt_of_lt_of_le hdone hnext)
  · by_cases hlt : i < S.length
    · rw [getElem?_append_left hlt] at hi
      exact (hb.entries i e hi).congr rfl rfl
    · rw [getElem?_append_right (Nat.le_of_not_lt hlt)] at hi
      obtain rfl : e = { inst := inst } := mem_singleton.mp (mem_of_getElem? hi)
      have hwb := hb.wb_le
      refine ⟨nofun, fun h => absurd h (by omega), fun _ => rfl, fun _ => rfl, fun _ => rfl, absurd rfl, nofun,
        fun _ => ?_⟩
      rw [hb.below_loads hnext]
      exact hidx.trans hb.queues.loads.tail_eq
  · have ho := hb.loads ld hld
    have hle : ld.seqNum ≤ inst.seqNum := Nat.le_trans (Nat.le_of_lt ho.fresh) hnext
    have hbelow : below (seqNums (S ++ [{ inst := inst }])) ld.seqNum = below (seqNums S) ld.seqNum := by
      unfold seqNums
      rw [map_append]
      exact below_concat hle
    exact ⟨ho.waits, Nat.lt_succ_of_le hle, by rw [hbelow]; exact ho.none, by rw [hbelow]; exact ho.some, ho.valid⟩

end Book

theorem insertLoad_sound (hs : Sound p phys memory x) (h : x.step p phys (.insertLoad seqNum) = .ok y) :
    Sound p phys memory y := by
  obtain ⟨L, ⟨S, wb, old, hb, hd⟩, hv⟩ := hs
  obtain ⟨_, hnext, h⟩ := of_bind h
  obtain ⟨u, hu, h⟩ := of_bind h
  cases h
  have hnext : x.nextSeqNum ≤ seqNum := by simpa using hnext
  obtain ⟨_, hfull, hu⟩ := of_bind hu
  obtain ⟨_, -, hu⟩ := of_bind hu
  rw [require_eq_ok, bne_iff_ne] at hfull
  cases hu
  refine ⟨_, ⟨S, wb, old, hb.pushLoad hnext hfull rfl rfl, hd.of_port rfl⟩, fun ld hld hex hexc => ?_⟩
  rcases mem_append.mp hld with hld | hld
  · exact hv ld hld hex hexc
  · rw [mem_singleton.mp hld] at hex
    cases hex

theorem insertStore_sound (hs : Sound p phys memory x) (h : x.step p phys (.insertStore seqNum) = .ok y) :
    Sound p phys memory y := by
  obtain ⟨L, ⟨S, wb, old, hb, hd⟩, hv⟩ := hs
  obtain ⟨_, hnext, h⟩ := of_bind h
  obtain ⟨u, hu, h⟩ := of_bind h
  cases h
  have hnext : x.nextSeqNum ≤ seqNum := by simpa using hnext
  obtain ⟨_, hfull, hu⟩ := of_bind hu
  obtain ⟨_, -, hu⟩ := of_bind hu
  rw [require_eq_ok, bne_iff_ne] at hfull
  cases hu
  have hpush := hb.pushStore { seqNum := seqNum, lqIdx := x.unit.loadTail, sqIdx := some x.unit.storeTail } hnext hfull rfl
  have hwb := hb.wb_le
  refine ⟨L, ⟨_, wb, old, hpush, (hd.congr ?_ fun e he _ => ?_).of_port rfl⟩, fun ld hld hex hexc i hi => ?_⟩
  · rw [map_append, take_append_of_le_length (by rw [length_map]; exact hwb)]
  · rw [getElem?_append_left (RingQueue.lt_of_getElem? he), he]
  · rw [hv ld hld hex hexc i hi]
    -- the new store is younger than the load
    have hlt : ¬seqNum < ld.seqNum := Nat.not_lt_of_le (Nat.le_trans (Nat.le_of_lt (hb.loads ld hld).fresh) hnext)
    unfold Run.expected
    rw [filter_append, filter_singleton, decide_eq_false hlt]
    exact congrArg (content phys memory · _) (append_nil _).symm

/-! ## Commit -/

theorem committable_iff : Run.committable p u n = true ↔
    (∀ i < p.lqEntries, ∀ ld, u.loadQueue i = some ld → ld.seqNum ≤ n → ld.executed = true) ∧
    ∀ i < p.sqEntries, ∀ e, u.storeQueue i = some e → e.inst.seqNum ≤ n → e.inst.executed = true := by
  simp only [Run.committable, Bool.and_eq_true, all_eq_true, mem_range, Option.all_eq_true, Bool.or_eq_true,
    decide_eq_true_eq, ← Nat.not_le, or_iff_not_imp_left, not_not]

theorem Marked.map_stored (h : Marked n S S') : S'.map stored = S.map stored := by
  apply ext_getElem?
  intro i
  rw [getElem?_map, getElem?_map]
  by_cases hi : i < S'.length
  · obtain ⟨e, he, hcase⟩ := h.2 i S'[i] (getElem?_eq_getElem hi)
    rw [getElem?_eq_getElem hi, he]
    rcases hcase with heq | ⟨-, heq⟩
    · rw [heq]
    · rw [heq]
      rfl
  · rw [getElem?_eq_none (Nat.le_of_not_lt hi), getElem?_eq_none (by rw [← h.1]; exact Nat.le_of_not_lt hi)]

theorem Marked.seqNums (h : Marked n S S') : seqNums S' = seqNums S := by
  have hmap := congrArg (map Stored.seqNum) h.map_stored
  rwa [map_map, map_map] at hmap

theorem Book.commit {v : LSQUnit} {q : Nat → Option SQEntry} {q' : Nat → Option DynInst} {c m : Nat}
    (hb : Book p x L S wb old) (hn : n < x.nextSeqNum)
    (hex : ∀ (k : Nat) (e : SQEntry), S[k]? = some e → e.inst.seqNum ≤ n → e.inst.executed = true)
    (hmark : Marked n S S') (hm : m ≤ L.length) (hfirst : ∀ ld ∈ L.take m, ld.seqNum ≤ n)
    (hrest : ∀ ld ∈ L.drop m, n < ld.seqNum) (hq : Queues p v (L.drop m) S') (hcore : v.core = { x.unit.core with
      storeQueue := q, loadQueue := q', loadHead := ringSlot p.lqEntries x.unit.loadHead m, loads := c }) :
    Book p { x with unit := v, doneSeqNum := max x.doneSeqNum n } (L.drop m) S' wb old := by
  have hw : Book p { x with
      unit := { x.unit with
        storeQueue := q, loadQueue := q', loadHead := ringSlot p.lqEntries x.unit.loadHead m, loads := c }
      doneSeqNum := max x.doneSeqNum n } (L.drop m) S' wb old := by
    refine ⟨hq.of_core hcore.symm, hb.wbIdx, by rw [hmark.1]; exact hb.wb_le, hb.violator, ?_, hb.sorted, hb.fresh,
      Nat.max_lt.mpr ⟨hb.done_lt, hn⟩, fun s hs => Nat.le_trans (hb.settled s hs) (Nat.le_max_left _ _), ?_,
      fun i e' hi => ?_, fun ld hld => ?_⟩
    · rw [hmark.map_stored]
      exact hb.program
    · rw [map_drop]
      exact hb.loads_sorted.sublist (drop_sublist _ _)
    · obtain ⟨e, he, hcase⟩ := hmark.2 i e' hi
      have ho := hb.entries i e he
      have hplace : e.inst.executed = false → e.inst.lqIdx = ringSlot p.lqEntries
          (ringSlot p.lqEntries x.unit.loadHead m) (below ((L.drop m).map seqNum) e.inst.seqNum) := by
        intro hnot
        have hlt : n < e.inst.seqNum := by
          by_contra hle
          rw [hex i e he (Nat.le_of_not_lt hle)] at hnot
          cases hnot
        have hkeys : m ≤ (L.map seqNum).length := by rwa [length_map]
        have hbelow : below (L.map seqNum) e.inst.seqNum =
            m + below ((L.map seqNum).drop m) e.inst.seqNum := by
          apply below_drop hkeys
          intro s hs
          rw [← map_take] at hs
          obtain ⟨ld, hld, rfl⟩ := mem_map.mp hs
          exact Nat.lt_of_le_of_lt (hfirst ld hld) hlt
        have hlen : below (L.map seqNum) e.inst.seqNum ≤ (L.map seqNum).length := countP_le_length
        have hroom := hb.queues.loads.room
        rw [length_map] at hlen
        rw [map_drop, ringSlot_add hb.queues.loads.head_lt (by omega), ← hbelow]
        exact ho.place hnot
      rcases hcase with rfl | ⟨hle, rfl⟩
      · exact ⟨fun hcan => ⟨Nat.le_trans (ho.canWB hcan).1 (Nat.le_max_left _ _), (ho.canWB hcan).2⟩, ho.sent, ho.waits,
          ho.unsent, ho.blank, ho.fits, ho.split, hplace⟩
      · exact ⟨fun _ => ⟨Nat.le_trans hle (Nat.le_max_right _ _), hex i e he hle⟩, fun _ => rfl, ho.waits, ho.unsent,
          ho.blank, ho.fits, ho.split, hplace⟩
    · have hmem := mem_of_mem_drop hld
      have ho := hb.loads ld hmem
      refine ⟨Nat.max_lt.mpr ⟨ho.waits, hrest ld hld⟩, ho.fresh, ?_, ?_, ho.valid⟩
      · rw [hmark.seqNums]
        exact ho.none
      · rw [hmark.seqNums]
        exact ho.some
  exact hw.of_core hcore

theorem Marked.at_canWB (h : Marked n S S') (he : S[k]? = some e) (hcan : e.canWB = true) : S'[k]? = some e := by
  have hlt : k < S'.length := by
    rw [h.1]
    exact RingQueue.lt_of_getElem? he
  obtain ⟨e₀, he₀, hcase⟩ := h.2 k S'[k] (getElem?_eq_getElem hlt)
  rw [he] at he₀
  obtain rfl : e = e₀ := Option.some.inj he₀
  rw [getElem?_eq_getElem hlt]
  rcases hcase with heq | ⟨-, heq⟩
  · rw [heq]
  · rw [heq, ← hcan]

theorem commit_sound (hs : Sound p phys memory x) (h : x.step p phys (.commit n) = .ok y) : Sound p phys memory y := by
  obtain ⟨L, ⟨S, wb, old, hb, hd⟩, hv⟩ := hs
  obtain ⟨_, hready, h⟩ := of_bind h
  rw [require_eq_ok, Bool.and_eq_true, decide_eq_true_eq, committable_iff] at hready
  obtain ⟨hn, -, hex⟩ := hready
  obtain ⟨v, hstores, h⟩ := of_bind h
  obtain ⟨w, hloads, h⟩ := of_bind h
  cases h
  have hhead : x.unit.storeHead = ringSlot p.sqEntries x.unit.storeHead 0 :=
    (ringSlot_zero hb.queues.stores.head_lt).symm
  rw [hhead] at hstores
  obtain ⟨S', q, c, hveq, hq, hmark⟩ := commitStores_spec hb.queues (Nat.zero_le _) hstores
  have hlen : v.loads = L.length := hq.loads_eq
  rw [hlen] at hloads
  obtain ⟨m, q', c', hm, hweq, hq', hfirst, hhead'⟩ := commitLoads_spec hq hloads
  have hsorted : ((L.drop m).map seqNum).Pairwise (· < ·) := by
    rw [map_drop]
    exact hb.loads_sorted.sublist (drop_sublist _ _)
  have hcore : w.core = { x.unit.core with
      storeQueue := q, loadQueue := q', loadHead := ringSlot p.lqEntries x.unit.loadHead m, loads := c' } := by
    rw [hweq, hveq]
    rfl
  have hport : w.port = x.unit.port := by
    rw [hweq, hveq]
    rfl
  have hexec : ∀ (k : Nat) (e : SQEntry), S[k]? = some e → e.inst.seqNum ≤ n → e.inst.executed = true := by
    intro k e he
    have hroom := hb.queues.stores.room
    have hk := RingQueue.lt_of_getElem? he
    exact hex _ (ringSlot_lt hb.queues.stores.head_lt (by omega)) e (hb.queues.stores.cell he)
  have hbook := hb.commit hn hexec hmark hm hfirst (fun ld hld => lt_of_head hsorted hhead' hld) hq' hcore
  have hdel := hd.congr (by rw [hmark.map_stored]) fun e he hcan => hmark.at_canWB he hcan
  exact ⟨L.drop m, ⟨S', wb, old, hbook, hdel.of_port hport⟩, fun ld hld => hv ld (mem_of_mem_drop hld)⟩

/-! ## Squashes -/

/-- What is left of the program. -/
theorem filter_program {m : Nat} (hb : Book p x L S wb old) (hn : x.doneSeqNum ≤ n)
    (hkept : ∀ e ∈ S.take m, e.inst.seqNum ≤ n) (hgone : ∀ e ∈ S.drop m, n < e.inst.seqNum) :
    x.program.filter (fun s => s.seqNum ≤ n) = old ++ (S.take m).map stored := by
  have hold : old.filter (fun s => s.seqNum ≤ n) = old := by
    apply filter_eq_self.mpr
    intro s hs
    exact decide_eq_true (Nat.le_trans (hb.settled s hs) hn)
  have hfirst : ((S.take m).map stored).filter (fun s => s.seqNum ≤ n) = (S.take m).map stored := by
    apply filter_eq_self.mpr
    intro s hs
    obtain ⟨e, he, rfl⟩ := mem_map.mp hs
    exact decide_eq_true (hkept e he)
  have hlast : ((S.drop m).map stored).filter (fun s => s.seqNum ≤ n) = [] := by
    apply filter_eq_nil_iff.mpr
    intro s hs
    obtain ⟨e, he, rfl⟩ := mem_map.mp hs
    rw [decide_eq_true_eq]
    exact Nat.not_le_of_lt (hgone e he)
  calc x.program.filter (fun s => s.seqNum ≤ n)
      = (old ++ ((S.take m).map stored ++ (S.drop m).map stored)).filter (fun s => s.seqNum ≤ n) := by
        rw [← map_append, take_append_drop, ← hb.program]
    _ = old ++ (S.take m).map stored := by
        rw [filter_append, filter_append, hold, hfirst, hlast, append_nil]

theorem Book.squash {v : LSQUnit} {q : Nat → Option DynInst} {q' : Nat → Option SQEntry} {c c' t t' m m' : Nat}
    (hb : Book p x L S wb old) (hn : x.doneSeqNum ≤ n) (hwb : wb ≤ m')
    (hloads : ∀ ld ∈ L.take m, ld.seqNum ≤ n) (hloads' : ∀ ld ∈ L.drop m, n < ld.seqNum)
    (hstores : ∀ e ∈ S.take m', e.inst.seqNum ≤ n) (hstores' : ∀ e ∈ S.drop m', n < e.inst.seqNum)
    (hq : Queues p v (L.take m) (S.take m')) (hcore : v.core = { x.unit.core with
      loadQueue := q, loads := c, loadTail := t, storeQueue := q', stores := c', storeTail := t' }) :
    Book p { x with unit := v, program := x.program.filter fun s => s.seqNum ≤ n } (L.take m) (S.take m') wb old := by
  have hw : Book p { x with
      unit := { x.unit with
        loadQueue := q, loads := c, loadTail := t, storeQueue := q', stores := c', storeTail := t' }
      program := x.program.filter fun s => s.seqNum ≤ n } (L.take m) (S.take m') wb old := by
    refine ⟨hq.of_core hcore.symm, hb.wbIdx, ?_, hb.violator, filter_program hb hn hstores hstores', ?_,
      fun s hs => hb.fresh s (mem_filter.mp hs).1, hb.done_lt, hb.settled, ?_, fun i e hi => ?_, fun ld hld => ?_⟩
    · rw [length_take]
      exact Nat.le_min.mpr ⟨hwb, hb.wb_le⟩
    · exact hb.sorted.sublist (filter_sublist.map _)
    · rw [map_take]
      exact hb.loads_sorted.sublist (take_sublist _ _)
    · have hle := hstores e (mem_of_getElem? hi)
      rw [getElem?_take] at hi
      split at hi
      · have ho := hb.entries i e hi
        refine ⟨ho.canWB, ho.sent, ho.waits, ho.unsent, ho.blank, ho.fits, ho.split, fun hnot => ?_⟩
        have hbelow : below ((L.map seqNum).take m) e.inst.seqNum = below (L.map seqNum) e.inst.seqNum := by
          apply below_take
          intro s hs
          rw [← map_drop] at hs
          obtain ⟨ld, hld, rfl⟩ := mem_map.mp hs
          exact Nat.le_trans hle (Nat.le_of_lt (hloads' ld hld))
        rw [map_take, hbelow]
        exact ho.place hnot
      · cases hi
    · have ho := hb.loads ld (mem_of_mem_take hld)
      have hbelow : below (seqNums (S.take m')) ld.seqNum = below (seqNums S) ld.seqNum := by
        unfold seqNums
        rw [map_take]
        apply below_take
        intro s hs
        rw [← map_drop] at hs
        obtain ⟨e, he, rfl⟩ := mem_map.mp hs
        exact Nat.le_trans (hloads ld hld) (Nat.le_of_lt (hstores' e he))
      exact ⟨ho.waits, ho.fresh, by rw [hbelow]; exact ho.none, by rw [hbelow]; exact ho.some, ho.valid⟩
  exact hw.of_core hcore

theorem squash_sound (hs : Sound p phys memory x) (h : x.step p phys (.squash n) = .ok y) : Sound p phys memory y := by
  obtain ⟨L, ⟨S, wb, old, hb, hd⟩, hv⟩ := hs
  obtain ⟨_, hdone, h⟩ := of_bind h
  rw [require_eq_ok, decide_eq_true_eq] at hdone
  obtain ⟨u, hu, h⟩ := of_bind h
  cases h
  obtain ⟨v, hloads, hstores⟩ := of_bind hu
  have hlen : x.unit.loads = L.length := hb.queues.loads_eq
  rw [hlen] at hloads
  obtain ⟨m, q, c, t, hm, hcore, hport, hq, hgone, hlast⟩ := squashLoads_spec hb.queues hloads
  have hviol : v.core.memDepViolator = x.unit.memDepViolator := by
    rw [hcore]
    rfl
  have hviol : v.memDepViolator = none := hviol.trans hb.violator
  dsimp only at hstores
  rw [hviol, Option.any_none, if_neg Bool.false_ne_true, hq.stores_eq] at hstores
  obtain ⟨m', q', c', t', hm', hueq, hq', hgone', hlast'⟩ := squashStores_spec hq hstores
  have hcore' : u.core = { x.unit.core with
      loadQueue := q, loads := c, loadTail := t, storeQueue := q', stores := c', storeTail := t' } := by
    rw [hueq]
    calc ({ v with storeQueue := q', stores := c', storeTail := t' } : LSQUnit).core
        = { v.core with storeQueue := q', stores := c', storeTail := t' } := rfl
      _ = _ := by rw [hcore]
  have hport' : u.port = x.unit.port := by
    rw [hueq]
    exact hport
  have hwb : wb ≤ m' := by
    by_contra hlt
    have hlen : m' < S.length := Nat.lt_of_lt_of_le (Nat.lt_of_not_le hlt) hb.wb_le
    have hS : S[m']? = some S[m'] := getElem?_eq_getElem hlen
    have hmem : S[m'] ∈ S.drop m' := mem_iff_getElem?.mpr ⟨0, by rw [getElem?_drop, Nat.add_zero, hS]⟩
    have hcan := (hb.entries m' _ hS).sent (Nat.lt_of_not_le hlt)
    rw [(hgone' _ hmem).2] at hcan
    cases hcan
  have hkept : ∀ ld ∈ L.take m, ld.seqNum ≤ n := by
    intro ld hld
    have hsorted : ((L.take m).map seqNum).Pairwise (· < ·) := by
      rw [map_take]
      exact hb.loads_sorted.sublist (take_sublist _ _)
    exact le_of_last hsorted hlast hld
  have hkept' : ∀ e ∈ S.take m', e.inst.seqNum ≤ n := by
    intro e he
    have hsorted : ((S.take m').map fun e => e.inst.seqNum).Pairwise (· < ·) := by
      rw [map_take]
      exact hb.stores_sorted.sublist (take_sublist _ _)
    have hyoungest : ∀ y, (S.take m').getLast? = some y → y.inst.seqNum ≤ n := by
      intro y hy
      rcases hlast' y hy with hle | hcan
      · exact hle
      · obtain ⟨k, hk⟩ := mem_iff_getElem?.mp (mem_of_mem_take (mem_of_getLast? hy))
        exact Nat.le_trans ((hb.entries k y hk).canWB hcan).1 hdone
    have hle := le_of_last hsorted hyoungest he
    exact hle
  have hbook := hb.squash hdone hwb hkept hgone hkept' (fun e he => (hgone' e he).1) hq' hcore'
  refine ⟨L.take m, ⟨S.take m', wb, old, hbook, (hd.congr ?_ fun e he hcan => ?_).of_port hport'⟩,
    fun ld hld hex hexc i hi => ?_⟩
  · rw [map_take, take_take, Nat.min_eq_left hwb]
  · rw [getElem?_take, if_pos, he]
    -- the next store is on its way, so that it stays
    by_contra hge
    have hmem : e ∈ S.drop m' := by
      apply mem_iff_getElem?.mpr
      refine ⟨wb - m', ?_⟩
      rw [getElem?_drop, Nat.add_sub_cancel' (Nat.le_of_not_lt hge), he]
    rw [(hgone' e hmem).2] at hcan
    cases hcan
  · rw [hv ld (mem_of_mem_take hld) hex hexc i hi]
    have hfilter : (x.program.filter fun s => s.seqNum ≤ n).filter (fun s => s.seqNum < ld.seqNum) =
        x.program.filter fun s => s.seqNum < ld.seqNum := by
      rw [filter_filter]
      congr 1
      funext s
      have hle := hkept ld hld
      by_cases hlt : s.seqNum < ld.seqNum
      · rw [decide_eq_true hlt, decide_eq_true (Nat.le_trans (Nat.le_of_lt hlt) hle), Bool.and_self]
      · rw [decide_eq_false hlt, Bool.false_and]
    unfold Run.expected
    rw [hfilter]

/-! ## Writing back -/

theorem Held.sound (hh : Held p phys memory x L u) (hv : Values phys memory x L) :
    Sound p phys memory { x with unit := u } := ⟨L, hh, hv⟩

theorem Held.asks (hh : Held p phys memory x L x.unit) (answers : List Bool) : Held p phys memory x L (x.asks answers) :=
  hh.of_eq rfl rfl

theorem step_sound (hphys : Injective phys) {op : Op} (hplain : plain p x op = true) (hs : Sound p phys memory x)
    (h : x.step p phys op = .ok y) : Sound p phys memory y := by
  cases op with
  | insertLoad seqNum => exact insertLoad_sound hs h
  | insertStore seqNum => exact insertStore_sound hs h
  | executeLoad loadIdx a answers =>
    obtain ⟨hsmall, hcomparable⟩ := Bool.and_eq_true_iff.mp hplain
    exact executeLoad_sound hsmall hcomparable hs h
  | executeStore storeIdx w =>
    refine executeStore_sound (fun w' hw' => ?_) hs h
    rw [hw'] at hplain
    exact hplain
  | commit n => exact commit_sound hs h
  | squash n => exact squash_sound hs h
  | writebackStores answers =>
    obtain ⟨L, hh, hv⟩ := hs
    obtain ⟨u, hu, h⟩ := of_bind h
    cases h
    exact (writebackStores_held hphys (hh.asks answers) hu).sound hv
  | recvRetry answers =>
    obtain ⟨L, hh, hv⟩ := hs
    obtain ⟨u, hu, h⟩ := of_bind h
    cases h
    exact (recvRetry_held hphys (hh.asks answers) hu).sound hv
  | storeResponse storeIdx =>
    obtain ⟨L, hh, hv⟩ := hs
    obtain ⟨u, hu, h⟩ := of_bind h
    cases h
    exact (storeResponse_held hh hu).sound hv

/-- As long as the accesses are plain, a load that commits without excuse has executed, and has got of each byte the
  value of the youngest older store, or that of memory. -/
theorem loads_read_youngest (p : Params) (phys : Nat → Nat) (hphys : Injective phys) (memory : Nat → UInt8)
    {ops : List Op} {x y : Run} (hr : Exec (StepIf (plain p) (Run.step p phys)) (Run.init memory) ops x)
    (hs : x.step p phys (.commit n) = .ok y) {loadIdx : Nat} {ld : DynInst}
    (hld : x.unit.loadQueue loadIdx = some ld) (hle : ld.seqNum ≤ n) (hexc : x.excused ld.seqNum = false) :
    ld.executed = true ∧ ∀ i < ld.effSize, ld.memData i = x.expected phys memory ld.seqNum (ld.effAddr + i) := by
  have hsound : Sound p phys memory x :=
    hr.invariant (init_sound memory) fun x op y hx hstep => step_sound hphys hstep.1 hx hstep.2
  obtain ⟨L, ⟨S, wb, old, hb, hd⟩, hv⟩ := hsound
  obtain ⟨_, hready, -⟩ := of_bind hs
  rw [require_eq_ok, Bool.and_eq_true, decide_eq_true_eq, committable_iff] at hready
  rcases hb.queues.loads.only hld with hstale | ⟨k, hk, rfl⟩
  · exact hstale.elim
  have hroom := hb.queues.loads.room
  have hlt := RingQueue.lt_of_getElem? hk
  have hex := hready.2.1 _ (ringSlot_lt hb.queues.loads.head_lt (by omega)) ld hld hle
  exact ⟨hex, hv ld (mem_of_getElem? hk) hex hexc⟩

def smallQueues : Params := { lqEntries := 4, sqEntries := 4, lqEntries_pos := by decide, sqEntries_pos := by decide }

/-- A store of eight bytes, and a load of four of them that executes after it. -/
def storeThenLoad (w : Write) (a : Access) : List Op :=
  [.insertStore 1, .insertLoad 2, .executeStore 0 (some w), .executeLoad 0 a []]

/-- The load commits, and has this byte at its address. -/
def gets (v : UInt8) (x : Run) : Bool :=
  (match x.step smallQueues id (.commit 2) with
    | .ok _ => true
    | .error _ => false) &&
  (x.unit.loadQueue 0).any fun ld =>
    decide (ld.seqNum ≤ 2) && !x.excused ld.seqNum && ld.effSize == 4 && ld.memData 0 == v

theorem of_gets {v : UInt8} (h : gets v x = true) : (∃ y, x.step smallQueues id (.commit 2) = .ok y) ∧
    ∃ ld, x.unit.loadQueue 0 = some ld ∧ ld.seqNum ≤ 2 ∧ x.excused ld.seqNum = false ∧ ld.effSize = 4 ∧
      ld.memData 0 = v := by
  obtain ⟨hstep, hany⟩ := Bool.and_eq_true_iff.mp h
  constructor
  · split at hstep
    · rename_i y hy
      exact ⟨y, hy⟩
    · cases hstep
  · obtain ⟨ld, hld, hp⟩ := (Option.any_eq_true _ _).mp hany
    simp only [Bool.and_eq_true, decide_eq_true_eq, Bool.not_eq_true', beq_iff_eq] at hp
    exact ⟨ld, hld, hp.1.1.1, hp.1.1.2, hp.1.2, hp.2⟩

/-- A load of the upper half of a store. -/
theorem loads_read_youngest_forwarded : ∃ x ld,
    Exec (StepIf (plain smallQueues) (Run.step smallQueues id)) (Run.init fun _ => 0)
      (storeThenLoad { vaddr := 16, size := 8, pos := by decide, fits := by decide, data := UInt8.ofNat }
        { vaddr := 20, size := 4, pos := by decide, fits := by decide }) x ∧
    x.unit.loadQueue 0 = some ld ∧ ld.memData 0 = 4 ∧ ld.executed = true ∧
    ∀ i < ld.effSize, ld.memData i = x.expected id (fun _ => 0) ld.seqNum (ld.effAddr + i) := by
  have hrun : endsInIf (plain smallQueues) (Run.step smallQueues id) (Run.init fun _ => 0)
      (storeThenLoad { vaddr := 16, size := 8, pos := by decide, fits := by decide, data := UInt8.ofNat }
        { vaddr := 20, size := 4, pos := by decide, fits := by decide }) (gets 4) = true := by
    decide
  obtain ⟨x, hr, hx⟩ := Exec.of_endsInIf hrun
  obtain ⟨⟨y, hy⟩, ld, hld, hle, hexc, -, hdata⟩ := of_gets hx
  exact ⟨x, ld, hr, hld, hdata, loads_read_youngest smallQueues id Function.injective_id _ hr hy hld hle hexc⟩

/-- The store has ones in the last eight bytes of the address space, and the load of the first four of them gets zeros. -/
theorem reads_around_store : ∃ x y ld, Exec (StepOf (Run.step smallQueues id)) (Run.init fun _ => 0)
      (storeThenLoad { vaddr := 2 ^ 64 - 8, size := 8, pos := by decide, fits := by decide, data := fun _ => 1 }
        { vaddr := 2 ^ 64 - 8, size := 4, pos := by decide, fits := by decide }) x ∧
    x.step smallQueues id (.commit 2) = .ok y ∧ x.unit.loadQueue 0 = some ld ∧ ld.seqNum ≤ 2 ∧
    x.excused ld.seqNum = false ∧ 0 < ld.effSize ∧ ld.memData 0 ≠ x.expected id (fun _ => 0) ld.seqNum ld.effAddr := by
  have hrun : endsIn (Run.step smallQueues id) (Run.init fun _ => 0)
      (storeThenLoad { vaddr := 2 ^ 64 - 8, size := 8, pos := by decide, fits := by decide, data := fun _ => 1 }
        { vaddr := 2 ^ 64 - 8, size := 4, pos := by decide, fits := by decide })
      (fun x => gets 0 x && (x.unit.loadQueue 0).all fun ld => x.expected id (fun _ => 0) ld.seqNum ld.effAddr == 1) =
        true := by
    decide
  obtain ⟨x, hr, hx⟩ := Exec.of_endsIn hrun
  obtain ⟨hgets, hexpected⟩ := Bool.and_eq_true_iff.mp hx
  obtain ⟨⟨y, hy⟩, ld, hld, hle, hexc, hsize, hdata⟩ := of_gets hgets
  rw [hld, Option.all_some, beq_iff_eq] at hexpected
  refine ⟨x, y, ld, hr, hy, hld, hle, hexc, by rw [hsize]; exact Nat.succ_pos 3, ?_⟩
  rw [hdata, hexpected]
  decide

end Gem5.Cpu.LSQ
