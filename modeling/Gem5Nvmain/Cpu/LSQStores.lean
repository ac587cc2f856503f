import Gem5Nvmain.Cpu.LSQLoads

/- What the execution of a store does to the loads that have read.

  A younger load that has read a byte of the store has its range in a granule with the store, so that it or a load
  before it is named. The other loads have got what they must still, as the store has none of their bytes. -/
namespace Gem5.Cpu.LSQ
open Lib Function List LSQUnit DynInst SQEntry

variable {p : Params} {phys : Nat → Nat} {memory : Nat → UInt8} {x y : Run} {u u' : LSQUnit} {L : List DynInst}
  {S : List SQEntry} {wb k n b : Nat} {old : List Stored} {e e' : SQEntry} {ld inst : DynInst} {w : Option Write}

/-! ## The entry -/

/-- The bytes that an execution writes. -/
def written (w : Option Write) (a : Nat) : Option UInt8 := w.bind fun w => w.byteAt a

theorem splitRequest_le {a : Access} {low : Nat} (h : splitRequest p a = some low) : low ≤ a.size := by
  unfold splitRequest at h
  dsimp only at h
  split at h
  · cases h
    have hle : (a.vaddr + a.size - 1) / p.cacheLineSize * p.cacheLineSize ≤ a.vaddr + a.size - 1 :=
      Nat.div_mul_le_self _ _
    omega
  · cases h

/-- The entry has what the execution writes. -/
structure Executed (w : Option Write) (e e' : SQEntry) : Prop where
  seqNum : e'.inst.seqNum = e.inst.seqNum
  lqIdx : e'.inst.lqIdx = e.inst.lqIdx
  canWB : e'.canWB = e.canWB
  committed : e'.committed = e.committed
  completed : e'.completed = e.completed
  byteAt : ∀ a, e'.byteAt a = written w a
  fits : e'.size ≠ 0 → e'.inst.effAddr + e'.size ≤ 2 ^ 64
  split : ∀ low, e'.sreqLow = some low → low ≤ e'.size
  range : ∀ w', w = some w' → e'.size = w'.size ∧ e'.inst.effAddr = w'.vaddr ∧ e'.inst.effSize = w'.size

theorem initiateAcc_spec (he : e.size = 0) (hsplit : ∀ low, e.sreqLow = some low → low ≤ e.size)
    (hw : ∀ w', w = some w' → w'.small = true) (h : initiateAcc p e w = .ok e') :
    Executed w e { e' with inst := { e'.inst with executed := true } } := by
  cases w with
  | none =>
    cases h
    refine ⟨rfl, rfl, rfl, rfl, rfl, fun a => if_neg fun h => h.1 he, absurd he, hsplit, nofun⟩
  | some w =>
    have hbyte : toByte w.size = w.size := Nat.mod_eq_of_lt (of_decide_eq_true (hw w rfl))
    obtain ⟨_, -, h⟩ := of_bind h
    cases h
    refine ⟨rfl, rfl, rfl, rfl, rfl, fun a => ?_, fun _ => ?_, fun low hlow => ?_, fun w' hw' => ?_⟩
    · have hne : w.size ≠ 0 := Nat.ne_of_gt w.pos
      unfold byteAt written
      dsimp only [Option.bind_some]
      rw [hbyte, Write.byteAt]
      by_cases hin : w.vaddr ≤ a ∧ a < w.vaddr + w.size
      · have hlt : a - w.vaddr < w.size := by omega
        rw [if_pos ⟨hne, hin⟩, if_pos hin, storeData]
        dsimp only
        split
        · rfl
        · exact congrArg some (if_pos hlt)
      · rw [if_neg fun h => hin h.2, if_neg hin]
    · rw [hbyte]
      exact w.fits
    · rw [hbyte]
      exact splitRequest_le hlow
    · cases hw'
      exact ⟨hbyte, rfl, hbyte⟩

/-! ## Violations -/

theorem lastByte_eq (hpos : 0 < inst.effSize) (hend : inst.effAddr + inst.effSize ≤ 2 ^ 64) :
    inst.lastByte = inst.effAddr + inst.effSize - 1 := by
  unfold lastByte
  omega

/-- A load that has a byte of the store clashes with it. -/
theorem clashes_of_byte (hvalid : ld.effAddrValid = true) (hend : ld.effAddr + ld.effSize ≤ 2 ^ 64)
    (hend' : inst.effAddr + inst.effSize ≤ 2 ^ 64) (hb : ld.effAddr ≤ b ∧ b < ld.effAddr + ld.effSize)
    (hb' : inst.effAddr ≤ b ∧ b < inst.effAddr + inst.effSize) : clashes p inst ld = true := by
  have hlast : ld.lastByte = ld.effAddr + ld.effSize - 1 := lastByte_eq (by omega) hend
  have hlast' : inst.lastByte = inst.effAddr + inst.effSize - 1 := lastByte_eq (by omega) hend'
  have hmono : ∀ m n : Nat, m ≤ n → m >>> p.depCheckShift ≤ n >>> p.depCheckShift := by
    intro m n hmn
    rw [Nat.shiftRight_eq_div_pow, Nat.shiftRight_eq_div_pow]
    exact Nat.div_le_div_right hmn
  unfold clashes
  dsimp only
  rw [hvalid, hlast, hlast', Bool.true_and, Bool.and_eq_true, decide_eq_true_eq, decide_eq_true_eq]
  exact ⟨hmono _ _ (by omega), hmono _ _ (by omega)⟩

theorem named_of_clash {j : Nat} (hs : (L.map seqNum).Pairwise (· < ·)) (hld : ld ∈ L.drop j)
    (hclash : clashes p inst ld = true) :
    (((L.drop j).find? (clashes p inst)).map seqNum).any (fun v => decide (v ≤ ld.seqNum)) = true := by
  have hdrop : ((L.drop j).map seqNum).Pairwise (· < ·) := by
    rw [map_drop]
    exact hs.sublist (drop_sublist _ _)
  obtain ⟨c, hc, hle⟩ := exists_find?_le hdrop hld hclash
  rw [hc]
  exact decide_eq_true hle

theorem mem_drop_below (hs : (L.map seqNum).Pairwise (· < ·)) (hld : ld ∈ L) (hlt : n < ld.seqNum) :
    ld ∈ L.drop (below (L.map seqNum) n) := by
  obtain ⟨i, hi⟩ := mem_iff_getElem?.mp hld
  have hkey : (L.map seqNum)[i]? = some ld.seqNum := by
    rw [getElem?_map, hi]
    rfl
  have hge : below (L.map seqNum) n ≤ i := by
    apply Nat.le_of_not_lt
    intro hlt'
    have := (lt_iff_lt_below hs hkey).mpr hlt'
    omega
  apply mem_iff_getElem?.mpr
  refine ⟨i - below (L.map seqNum) n, ?_⟩
  rw [getElem?_drop, Nat.add_sub_cancel' hge, hi]

/-! ## The values -/

theorem youngest_map {l : List Stored} {f : Stored → Stored} (h : ∀ s ∈ l, (f s).byteAt b = s.byteAt b) :
    youngest (l.map f) b = youngest l b := by
  unfold youngest
  rw [← map_reverse, findSome?_map]
  induction l using reverseRecOn with
  | nil => rfl
  | append_singleton l s ih =>
    rw [reverse_append, reverse_singleton, singleton_append, findSome?_cons, findSome?_cons,
      ih fun t ht => h t (mem_append_left _ ht)]
    rw [comp_apply, h s (mem_append_right _ mem_cons_self)]

/-- A store that does not change a byte for a load does not change what it must get there. -/
theorem expected_wrote {seqNum : Nat}
    (h : ∀ s ∈ x.program, s.seqNum = seqNum → s.seqNum < n → written w b = s.byteAt b) :
    (x.wrote seqNum w).expected phys memory n b = x.expected phys memory n b := by
  have hfilter : (x.wrote seqNum w).program.filter (fun s => s.seqNum < n) =
      (x.program.filter fun s => s.seqNum < n).map fun s =>
        if s.seqNum = seqNum then { s with byteAt := written w } else s := by
    unfold Run.wrote
    rw [filter_map]
    congr 2
    funext s
    dsimp only [comp]
    split <;> rfl
  unfold Run.expected content
  rw [hfilter, youngest_map]
  intro s hs
  obtain ⟨hmem, hlt⟩ := mem_filter.mp hs
  split
  · rename_i heq
    exact h s hmem heq (of_decide_eq_true hlt)
  · rfl

/-- The store of the program gets what the entry writes. -/
theorem wrote_program (hb : Book p x L S wb old) (hk : S[k]? = some e) (hseq : e'.inst.seqNum = e.inst.seqNum)
    (hbyte : ∀ a, e'.byteAt a = written w a) :
    (x.wrote e.inst.seqNum w).program = old ++ (S.set k e').map stored := by
  have hat : x.program[old.length + k]? = some e.stored := by
    rw [hb.program, getElem?_append_right (Nat.le_add_right _ _), Nat.add_sub_cancel_left, getElem?_map, hk]
    rfl
  have hstored : e'.stored = { e.stored with byteAt := written w } := by
    have hfun : e'.byteAt = written w := funext hbyte
    unfold stored
    rw [hseq, hfun]
  calc (x.wrote e.inst.seqNum w).program
      = x.program.map fun s => if s.seqNum = e.stored.seqNum then { s with byteAt := written w } else s := rfl
    _ = x.program.set (old.length + k) { e.stored with byteAt := written w } := map_at_eq_set hb.sorted hat _
    _ = old ++ (S.map stored).set k e'.stored := by
        rw [hb.program, set_append_right _ _ (Nat.le_add_right _ _), Nat.add_sub_cancel_left, hstored]
    _ = old ++ (S.set k e').map stored := by rw [map_set]

theorem Delivers.congr {S' : List SQEntry} (hd : Delivers phys memory u S wb old)
    (htake : (S'.map stored).take wb = (S.map stored).take wb)
    (hat : ∀ e, S[wb]? = some e → e.canWB = true → S'[wb]? = some e) : Delivers phys memory u S' wb old := by
  have hsent : sentStores old S' wb = sentStores old S wb := congrArg (old ++ ·) htake
  refine ⟨fun hnil => ?_, fun hne => ?_, hd.one⟩
  · rw [hsent]
    exact hd.idle hnil
  · obtain ⟨e, he, hcom, hcan, hsize, hc⟩ := hd.busy hne
    rw [hsent]
    exact ⟨e, hat e he hcan, hcom, hcan, hsize, hc⟩

theorem executeStore_cases {storeIdx : Nat} (h : u.executeStore p storeIdx w = .ok u') : ∃ e e₁ e',
    u.storeQueue storeIdx = some e ∧ e.inst.executed = false ∧ initiateAcc p e w = .ok e₁ ∧
    e' = { e₁ with inst := { e₁.inst with executed := true } } ∧
    ∃ v : LSQUnit, v = { u with storeQueue := update u.storeQueue storeIdx (some e') } ∧
      (if e'.size = 0 then pure v else v.checkViolations p e'.inst (p.lqEntries + 1) e'.inst.lqIdx) = .ok u' := by
  obtain ⟨_, -, h⟩ := of_bind h
  obtain ⟨e, he, h⟩ := of_bind h
  obtain ⟨_, hex, h⟩ := of_bind h
  obtain ⟨e₁, he₁, h⟩ := of_bind h
  exact ⟨e, e₁, _, deref_eq_ok.mp he, by simpa using hex, he₁, rfl, _, rfl, h⟩

/-- A load that is not excused has no byte of the store. -/
theorem spared {i : Nat} (hs : (L.map seqNum).Pairwise (· < ·)) (hld : ld ∈ L) (hlt : n < ld.seqNum)
    (hvalid : ld.effAddrValid = true ∧ ld.effAddr + ld.effSize ≤ 2 ^ 64) (hx : Executed w e e')
    (hnone : (((L.drop (below (L.map seqNum) n)).find? (clashes p e'.inst)).map seqNum).any
      (fun v => decide (v ≤ ld.seqNum)) = false) (hi : i < ld.effSize) : written w (ld.effAddr + i) = none := by
  cases w with
  | none => rfl
  | some w =>
    obtain ⟨hsize, haddr, heff⟩ := hx.range w rfl
    apply if_neg
    rintro ⟨hle, hlt'⟩
    have hend : e'.inst.effAddr + e'.inst.effSize ≤ 2 ^ 64 := by
      have hfits := hx.fits (by rw [hsize]; exact Nat.ne_of_gt w.pos)
      rwa [heff, ← hsize]
    have hin : e'.inst.effAddr ≤ ld.effAddr + i ∧ ld.effAddr + i < e'.inst.effAddr + e'.inst.effSize := by
      rw [haddr, heff]
      exact ⟨hle, hlt'⟩
    have hclash : clashes p e'.inst ld = true :=
      clashes_of_byte hvalid.1 hvalid.2 hend ⟨Nat.le_add_right _ _, Nat.add_lt_add_left hi _⟩ hin
    rw [named_of_clash hs (mem_drop_below hs hld hlt) hclash] at hnone
    cases hnone

theorem no_violator (h : u.memDepViolator = none) : { u with memDepViolator := none } = u := by
  cases u
  cases h
  rfl

theorem executeStore_sound {storeIdx : Nat} (hw : ∀ w', w = some w' → w'.small = true) (hs : Sound p phys memory x)
    (h : x.step p phys (.executeStore storeIdx w) = .ok y) : Sound p phys memory y := by
  obtain ⟨L, ⟨S, wb, old, hb, hd⟩, hv⟩ := hs
  obtain ⟨e₀, he₀, hstep⟩ := of_bind h
  obtain ⟨u, hu, hy⟩ := of_bind hstep
  cases hy
  obtain ⟨e, e₁, e', he, hex, he₁, heq, v, hveq, hcheck⟩ := executeStore_cases hu
  rw [deref_eq_ok, he] at he₀
  obtain rfl : e = e₀ := Option.some.inj he₀
  rcases hb.queues.stores.only he with hstale | ⟨k, hk, rfl⟩
  · rw [hstale.2] at hex
    cases hex
  have ho := hb.entries k e hk
  have hcan : e.canWB = false := by
    apply Bool.eq_false_iff.mpr
    intro hcan
    rw [(ho.canWB hcan).2] at hex
    cases hex
  have hwb : wb ≤ k := by
    by_contra hlt
    rw [ho.sent (Nat.lt_of_not_le hlt)] at hcan
    cases hcan
  have hx := initiateAcc_spec (ho.blank hex) ho.split hw he₁
  rw [← heq] at hx
  have hdone : e'.inst.executed = true := by rw [heq]
  have hok : EntryOk p { x with unit := x.unit } L wb k e' := by
    refine ⟨fun hcan' => ?_, fun hlt => absurd hlt (Nat.not_lt_of_le hwb), fun hle => ?_, fun hlt => ?_, fun hnot => ?_,
      hx.fits, hx.split, fun hnot => ?_⟩
    · rw [hx.canWB, hcan] at hcan'
      cases hcan'
    · rw [hx.completed]
      exact ho.waits hle
    · rw [hx.committed]
      exact ho.unsent hlt
    · rw [hdone] at hnot
      cases hnot
    · rw [hdone] at hnot
      cases hnot
  have hset := hb.setStore hk hok hx.seqNum
  rw [← wrote_program hb hk hx.seqNum hx.byteAt] at hset
  rw [← hveq] at hset
  have hdv : Delivers phys memory v (S.set k e') wb old := by
    have hport : v.port = x.unit.port := by rw [hveq]; rfl
    refine (hd.of_port hport).congr (by rw [map_set, take_set_of_le hwb]) fun y hy hcany => ?_
    rw [getElem?_set_ne, hy]
    rintro rfl
    rw [hk] at hy
    cases hy
    rw [hcan] at hcany
    cases hcany
  -- the violator, if there is one
  obtain ⟨viol, rfl, hspared⟩ : ∃ viol, u = { v with memDepViolator := viol } ∧ ∀ ld ∈ L, e.inst.seqNum < ld.seqNum →
      ld.executed = true → viol.any (fun n => decide (n ≤ ld.seqNum)) = false →
      ∀ i < ld.effSize, written w (ld.effAddr + i) = none := by
    split at hcheck
    · rename_i hzero
      cases hcheck
      refine ⟨none, (no_violator hset.violator).symm, fun ld _ _ _ _ i _ => ?_⟩
      cases w with
      | none => rfl
      | some w => exact absurd ((hx.range w rfl).1 ▸ hzero) (Nat.ne_of_gt w.pos)
    · have hplace : e'.inst.lqIdx = ringSlot p.lqEntries v.loadHead (below (L.map seqNum) e.inst.seqNum) := by
        rw [hx.lqIdx, hveq]
        exact ho.place hex
      have hlen : below (L.map seqNum) e.inst.seqNum ≤ L.length := by
        have hle : below (L.map seqNum) e.inst.seqNum ≤ (L.map seqNum).length := countP_le_length
        rwa [length_map] at hle
      rw [hplace] at hcheck
      refine ⟨_, checkViolations_spec hset.queues hset.violator hlen hcheck, fun ld hld hlt hexec hnone i hi => ?_⟩
      exact spared hb.loads_sorted hld hlt ((hb.loads ld hld).valid hexec) hx hnone hi
  have hunit : (x.wrote e.inst.seqNum w).named { v with memDepViolator := viol } = { x with
      unit := v
      program := (x.wrote e.inst.seqNum w).program
      excused := fun s => x.excused s || viol.any fun n => decide (n ≤ s) } := by
    have hnone : v.memDepViolator = none := hset.violator
    calc (x.wrote e.inst.seqNum w).named { v with memDepViolator := viol }
        = { x with
            unit := { v with memDepViolator := none }
            program := (x.wrote e.inst.seqNum w).program
            excused := fun s => x.excused s || viol.any fun n => decide (n ≤ s) } := rfl
      _ = _ := by rw [no_violator hnone]
  rw [hunit]
  refine ⟨L, ⟨S.set k e', wb, old, hset.excuse _, hdv⟩, fun ld hld hexec hexc i hi => ?_⟩
  obtain ⟨hexc, hviol⟩ := Bool.or_eq_false_iff.mp hexc
  rw [hv ld hld hexec hexc i hi]
  symm
  refine expected_wrote fun s hs hseq hlt => ?_
  rw [hspared ld hld (hseq ▸ hlt) hexec hviol i hi]
  -- before, the store had written nothing
  have hstored : e.stored ∈ x.program := by
    have hprog : x.program = old ++ S.map stored := hb.program
    rw [hprog]
    exact mem_append_right _ (mem_map_of_mem (mem_of_getElem? hk))
  obtain rfl : s = e.stored := eq_of_key_eq hb.sorted hs hstored hseq
  symm
  exact if_neg fun h => h.1 (ho.blank hex)

end Gem5.Cpu.LSQ
