import Mathlib.Tactic.SplitIfs
import Gem5Nvmain.Cpu.MemDepSpec

/- Runs of the memory dependence unit.

  What a barrier in flight blocks waits for a barrier as young as that one, and barriers complete in order, so it is
  woken after all that block it (`barriers_order`). This holds as long as an instruction that is inserted finds the
  number of such a barrier. The unit keeps only one number of each kind, and the squash of the youngest barrier clears
  the flag although an older one is still in flight (`released_by_squash`). -/
namespace Gem5.Cpu
open Lib List Bool

section Lists
variable {l : List MemInst} {hash : List (Nat × Nat)} {i : MemInst} {k sn : Nat}

theorem mem_eraseP (hord : l.Pairwise fun a b => a.seqNum < b.seqNum) (hi : i ∈ l.eraseP fun j => decide (j.seqNum = sn)) :
    i ∈ l ∧ i.seqNum ≠ sn := by
  induction l with
  | nil => simp at hi
  | cons a l ih =>
    obtain ⟨hfirst, hrest⟩ := pairwise_cons.mp hord
    by_cases ha : a.seqNum = sn
    · rw [eraseP_cons_of_pos (by simpa using ha)] at hi
      have hlt := hfirst i hi
      exact ⟨mem_cons_of_mem _ hi, by omega⟩
    · rw [eraseP_cons_of_neg (by simpa using ha)] at hi
      obtain rfl | hi := mem_cons.mp hi
      · exact ⟨mem_cons_self, ha⟩
      · exact ⟨mem_cons_of_mem _ (ih hrest hi).1, (ih hrest hi).2⟩

theorem mem_eraseP_of_ne (hi : i ∈ l) (hne : i.seqNum ≠ sn) : i ∈ l.eraseP fun j => decide (j.seqNum = sn) :=
  (mem_eraseP_of_neg (by simpa using hne)).mpr hi

theorem lookup_filter_ne (hne : k ≠ sn) : (hash.filter fun e => !decide (e.1 = sn)).lookup k = hash.lookup k := by
  induction hash with
  | nil => rfl
  | cons e hash ih =>
    obtain ⟨a, p⟩ := e
    by_cases ha : a = sn
    · have hka : (k == a) = false := by simpa using fun h => hne (h.trans ha)
      rw [filter_cons_of_neg (by simpa using ha), ih, lookup_cons, hka]
    · rw [filter_cons_of_pos (by simpa using ha), lookup_cons, lookup_cons, ih]

theorem lookup_filter_self : (hash.filter fun e => !decide (e.1 = sn)).lookup sn = none := by
  induction hash with
  | nil => rfl
  | cons e hash ih =>
    obtain ⟨a, p⟩ := e
    by_cases ha : a = sn
    · rw [filter_cons_of_neg (by simpa using ha), ih]
    · have hka : (sn == a) = false := by simpa using fun h => ha h.symm
      rw [filter_cons_of_pos (by simpa using ha), lookup_cons, hka]
      exact ih

end Lists

namespace MemDepRun
open MemDepUnit
variable {s t : MemDepRun} {u : MemDepUnit} {inst b : MemInst} {n : Nat}

/-- A barrier of a kind is in flight under a number. -/
def InFlight (kind : MemInst → Bool) (s : MemDepUnit) (sn : Nat) : Prop :=
  ∃ b ∈ s.instList, b.isBarrier = true ∧ kind b = true ∧ b.seqNum = sn

def anyKind (_ : MemInst) : Bool := true

structure Inv (s : MemDepRun) : Prop where
  waits : Waits s.unit.instList s.unit
  below : ∀ i ∈ s.unit.insts, i.seqNum ≤ s.last
  sent : ∀ i ∈ s.unit.ready, i.seqNum ≤ s.last
  ordered : s.unit.instList.Pairwise fun a b => a.seqNum < b.seqNum
  pos : ∀ i ∈ s.unit.instList, 0 < i.seqNum
  hashed : ∀ i ∈ s.unit.instList, ∃ p, s.unit.memDepHash.lookup i.seqNum = some p ∧ s.unit.insts[p]? = some i
  keys : ∀ k p, s.unit.memDepHash.lookup k = some p → k ≤ s.last
  loads : s.unit.loadBarrier = true → InFlight MemInst.isMemBarrier s.unit s.unit.loadBarrierSN
  stores : s.unit.storeBarrier = true → InFlight anyKind s.unit s.unit.storeBarrierSN

theorem inv_start : Inv start := by
  refine ⟨waits_init, ?_, ?_, List.Pairwise.nil, ?_, ?_, ?_, ?_, ?_⟩ <;> simp [start, init, insts]

theorem blocks_older (h : b.blocks inst = true) : b.isBarrier = true ∧ b.seqNum < inst.seqNum := by
  obtain ⟨h, -⟩ := and_eq_true_iff.mp h
  obtain ⟨hb, hlt⟩ := and_eq_true_iff.mp h
  exact ⟨hb, of_decide_eq_true hlt⟩

theorem not_blocks_of_le (h : inst.seqNum ≤ b.seqNum) : b.blocks inst = false := by
  apply eq_false_iff.mpr
  intro hb
  have hlt := (blocks_older hb).2
  omega

theorem not_blocks_of_memRef (h : b.isMemRef = true) : b.blocks inst = false := by
  simp [MemInst.blocks, MemInst.isBarrier, h]

theorem Inv.listed (hi : Inv s) {i : MemInst} (h : i ∈ s.unit.instList) : i.seqNum ≤ s.last := by
  obtain ⟨p, -, hp⟩ := hi.hashed i h
  exact hi.below i (mem_of_getElem? hp)

theorem Inv.unique (hi : Inv s) {i j : MemInst} (h : i ∈ s.unit.instList) (hj : j ∈ s.unit.instList) (heq : i.seqNum = j.seqNum) :
    i = j := by
  obtain ⟨p, hp, hat⟩ := hi.hashed i h
  obtain ⟨q, hq, hat'⟩ := hi.hashed j hj
  rw [heq, hq] at hp
  cases hp
  rw [hat] at hat'
  exact Option.some.inj hat'

theorem Inv.kept (hi : Inv s) (hw : Waits s.unit.instList u) (hk : Kept s.unit u) : Inv { s with unit := u } := by
  obtain ⟨hinsts, hlist, hhash, hloads, hstores, hready⟩ := hk
  refine ⟨?_, ?_, ?_, ?_, ?_, ?_, ?_, ?_, ?_⟩
  · rw [hlist]
    exact hw
  · rw [hinsts]
    exact hi.below
  · intro i h
    obtain h | h := hready i h
    · exact hi.sent i h
    · exact hi.below i h
  · rw [hlist]
    exact hi.ordered
  · rw [hlist]
    exact hi.pos
  · rw [hlist, hhash, hinsts]
    exact hi.hashed
  · rw [hhash]
    exact hi.keys
  · unfold InFlight
    rw [hlist, hloads.1, hloads.2]
    exact hi.loads
  · unfold InFlight
    rw [hlist, hstores.1, hstores.2]
    exact hi.stores

variable {v : MemDepUnit}

theorem waits_congr {bs : List MemInst} {u : MemDepUnit} (hw : Waits bs u) (he : v.entries = u.entries) (hr : v.ready = u.ready) :
    Waits bs v := by
  have hinsts : v.insts = u.insts := by
    unfold insts
    rw [he]
  refine ⟨?_, ?_, ?_, ?_⟩
  · rw [he, hinsts]
    exact hw.waiting
  · rw [he]
    exact hw.valid
  · rw [he]
    exact hw.free
  · rw [hr]
    exact hw.ready

/-- A new entry, younger than everything in the unit. The flags are those of `v`. -/
theorem Inv.addEntry (hi : Inv s) (hlast : s.last < inst.seqNum) (he : v.entries = s.unit.entries)
    (hh : v.memDepHash = s.unit.memDepHash) (hl : v.instList = s.unit.instList) (hr : v.ready = s.unit.ready)
    (hloads : v.loadBarrier = true → InFlight MemInst.isMemBarrier s.unit v.loadBarrierSN ∨
      inst.isBarrier = true ∧ inst.isMemBarrier = true ∧ inst.seqNum = v.loadBarrierSN)
    (hstores : v.storeBarrier = true → InFlight anyKind s.unit v.storeBarrierSN ∨
      inst.isBarrier = true ∧ anyKind inst = true ∧ inst.seqNum = v.storeBarrierSN) :
    Inv ⟨v.addEntry inst, inst.seqNum⟩ := by
  have hinsts : v.insts = s.unit.insts := by
    unfold insts
    rw [he]
  have hinsts' : (v.addEntry inst).insts = s.unit.insts ++ [inst] := by
    rw [Waits.insts_addEntry, hinsts]
  have hnone : v.memDepHash.lookup inst.seqNum = none := by
    cases hlook : v.memDepHash.lookup inst.seqNum with
    | none => rfl
    | some p =>
      rw [hh] at hlook
      have hle := hi.keys _ _ hlook
      omega
  have hhash : (v.addEntry inst).memDepHash = (inst.seqNum, s.unit.entries.length) :: s.unit.memDepHash := by
    unfold MemDepUnit.addEntry
    rw [hnone, he, hh]
    rfl
  have hlist : (v.addEntry inst).instList = s.unit.instList ++ [inst] := by
    unfold MemDepUnit.addEntry
    rw [hl]
  have hflight : ∀ kind sn, InFlight kind s.unit sn ∨ inst.isBarrier = true ∧ kind inst = true ∧ inst.seqNum = sn →
      InFlight kind (v.addEntry inst) sn := by
    intro kind sn h
    unfold InFlight
    rw [hlist]
    obtain ⟨b, hb, hbar⟩ | hbar := h
    · exact ⟨b, mem_append_left _ hb, hbar⟩
    · exact ⟨inst, mem_append_right _ (mem_singleton.mpr rfl), hbar⟩
  have hbelow : ∀ i ∈ (v.addEntry inst).insts, i.seqNum ≤ inst.seqNum := by
    rw [hinsts']
    intro i hmem
    obtain hmem | hmem := mem_append.mp hmem
    · exact Nat.le_of_lt (Nat.lt_of_le_of_lt (hi.below i hmem) hlast)
    · exact Nat.le_of_eq (congrArg MemInst.seqNum (mem_singleton.mp hmem))
  refine ⟨?_, ?_, ?_, ?_, ?_, ?_, ?_, ?_, ?_⟩ <;> dsimp only
  · rw [hlist]
    apply Waits.snoc (waits_congr hi.waits he hr).addEntry
    · intro i hmem
      exact not_blocks_of_le (hbelow i hmem)
    · intro i hmem
      have hmem : i ∈ v.ready := hmem
      rw [hr] at hmem
      have hle := hi.sent i hmem
      exact not_blocks_of_le (by omega)
  · exact hbelow
  · intro i hmem
    have hmem : i ∈ v.ready := hmem
    rw [hr] at hmem
    have hle := hi.sent i hmem
    omega
  · rw [hlist]
    refine pairwise_append.mpr ⟨hi.ordered, pairwise_singleton _ _, ?_⟩
    intro a ha b hb
    rw [mem_singleton.mp hb]
    exact Nat.lt_of_le_of_lt (hi.listed ha) hlast
  · rw [hlist]
    intro i hmem
    obtain hmem | hmem := mem_append.mp hmem
    · exact hi.pos i hmem
    · rw [mem_singleton.mp hmem]
      omega
  · rw [hlist, hhash, hinsts']
    intro i hmem
    rw [lookup_cons]
    obtain hmem | hmem := mem_append.mp hmem
    · obtain ⟨p, hlook, hp⟩ := hi.hashed i hmem
      have hle := hi.listed hmem
      have hne : (i.seqNum == inst.seqNum) = false := by
        apply beq_false_of_ne
        omega
      rw [hne]
      exact ⟨p, hlook, List.getElem?_append_left (List.getElem?_eq_some_iff.mp hp).1 ▸ hp⟩
    · rw [mem_singleton.mp hmem]
      refine ⟨s.unit.entries.length, by simp, ?_⟩
      have hlen : s.unit.entries.length = s.unit.insts.length := by simp [insts]
      rw [hlen, getElem?_append_right (Nat.le_refl _), Nat.sub_self]
      rfl
  · rw [hhash]
    intro k p hlook
    rw [lookup_cons] at hlook
    split at hlook
    · rename_i hk
      exact Nat.le_of_eq (beq_iff_eq.mp hk)
    · have hle := hi.keys k p hlook
      omega
  · intro h
    exact hflight _ _ (hloads h)
  · intro h
    exact hflight _ _ (hstores h)

theorem producingStore_eq {c : Nat} : s.unit.producingStore inst c = (asks s.unit inst).getD c := by
  unfold producingStore asks
  split_ifs <;> rfl

theorem Inv.asked {sn : Nat} (hi : Inv s) (h : asks s.unit inst = some sn) : InFlight anyKind s.unit sn := by
  unfold asks at h
  split_ifs at h with hl hs
  · cases h
    obtain ⟨b, hb, hbar, -, hsn⟩ := hi.loads (and_eq_true_iff.mp hl).2
    exact ⟨b, hb, hbar, rfl, hsn⟩
  · cases h
    exact hi.stores (and_eq_true_iff.mp hs).2

/-- An insertion that asks a barrier as young as those that block the instruction. -/
theorem Inv.insert {readyToIssue : Bool} {checkInst : Nat} (hi : Inv s) (href : inst.isMemRef = true) (hlast : s.last < inst.seqNum)
    (hcov : s.covered (.insert inst readyToIssue checkInst) = true) (h : s.unit.insert inst readyToIssue checkInst = .ok u) :
    Inv ⟨u, inst.seqNum⟩ := by
  have hadd : Inv ⟨s.unit.addEntry inst, inst.seqNum⟩ :=
    hi.addEntry hlast rfl rfl rfl rfl (fun h => .inl (hi.loads h)) (fun h => .inl (hi.stores h))
  have hat : (s.unit.addEntry inst).insts[s.unit.entries.length]? = some inst := by
    have hlen : s.unit.entries.length = s.unit.insts.length := by simp [insts]
    rw [Waits.insts_addEntry, hlen, getElem?_append_right (Nat.le_refl _), Nat.sub_self]
    rfl
  -- a barrier in flight that blocks the instruction is not younger than the one that is asked
  have hblocked : ∀ b ∈ (s.unit.addEntry inst).instList, b.blocks inst = true → ∃ sn, asks s.unit inst = some sn ∧ b.seqNum ≤ sn := by
    intro b hb hblocks
    obtain hb | hb := mem_append.mp hb
    · have hc := all_eq_true.mp hcov b hb
      rw [hblocks] at hc
      cases hask : asks s.unit inst with
      | none =>
        rw [hask] at hc
        cases hc
      | some sn =>
        rw [hask] at hc
        exact ⟨sn, rfl, by simpa using hc⟩
    · rw [mem_singleton.mp hb, not_blocks_of_memRef href] at hblocks
      cases hblocks
  -- the entry of the barrier that is asked
  have hentry : ∀ sn, asks s.unit inst = some sn → sn ≠ 0 ∧ ∃ q b, (s.unit.addEntry inst).memDepHash.lookup sn = some q ∧
      (s.unit.addEntry inst).insts[q]? = some b ∧ b.isBarrier = true ∧ b.seqNum = sn := by
    intro sn hask
    obtain ⟨b, hb, hbar, -, rfl⟩ := hi.asked hask
    have hmem : b ∈ (s.unit.addEntry inst).instList := by
      exact mem_append_left _ hb
    obtain ⟨q, hlook, hq⟩ := hadd.hashed b hmem
    exact ⟨Nat.ne_of_gt (hi.pos b hb), q, b, hlook, hq, hbar, rfl⟩
  obtain ⟨v, hv, h⟩ := of_bind h
  have hu : u = v := by
    split at h
    · cases h
      rfl
    · cases h
  subst hu
  suffices hs : Waits (s.unit.addEntry inst).instList u ∧ Kept (s.unit.addEntry inst) u from hadd.kept hs.1 hs.2
  rw [producingStore_eq] at hv
  cases hask : asks s.unit inst with
  | none =>
    have hfree : ∀ b ∈ (s.unit.addEntry inst).instList, b.blocks inst = false := by
      intro b hb
      apply eq_false_iff.mpr
      intro hblocks
      obtain ⟨sn, hsome, -⟩ := hblocked b hb hblocks
      rw [hask] at hsome
      cases hsome
    cases hprod : (s.unit.addEntry inst).findProducer ((asks s.unit inst).getD checkInst) with
    | none =>
      rw [hprod] at hv
      exact independent_spec hadd.waits hat hfree hv
    | some q =>
      rw [hprod] at hv
      cases hv
      refine ⟨hadd.waits.dependent hat ?_, kept_dependent⟩
      intro e _ b hb hblocks
      rw [hfree b hb] at hblocks
      cases hblocks
  | some sn =>
    obtain ⟨hne, q, b, hlook, hq, hbar, hsn⟩ := hentry sn hask
    have hprod : (s.unit.addEntry inst).findProducer sn = some q := by
      unfold findProducer
      rw [if_pos hne, hlook]
    rw [hask, Option.getD_some, hprod] at hv
    cases hv
    refine ⟨hadd.waits.dependent hat ?_, kept_dependent⟩
    intro e he b' hb' hblocks
    obtain ⟨sn', hsn', hle⟩ := hblocked b' hb' hblocks
    rw [hask] at hsn'
    cases hsn'
    have hinst := insts_of_entry he
    rw [hq] at hinst
    cases hinst
    exact ⟨hbar, by omega⟩

theorem Inv.insertBarrier (hi : Inv s) (hbar : inst.isBarrier = true) (hlast : s.last < inst.seqNum) :
    Inv ⟨s.unit.insertBarrier inst, inst.seqNum⟩ := by
  unfold MemDepUnit.insertBarrier
  dsimp only
  split_ifs
  · rename_i hmem
    exact hi.addEntry hlast rfl rfl rfl rfl (fun _ => .inr ⟨hbar, hmem, rfl⟩) (fun _ => .inr ⟨hbar, rfl, rfl⟩)
  · exact hi.addEntry hlast rfl rfl rfl rfl (fun h => .inl (hi.loads h)) (fun _ => .inr ⟨hbar, rfl, rfl⟩)
  · exact hi.addEntry hlast rfl rfl rfl rfl (fun h => .inl (hi.loads h)) (fun h => .inl (hi.stores h))

theorem Inv.regsReady (hi : Inv s) (h : s.unit.regsReady inst = .ok u) : Inv { s with unit := u } := by
  obtain ⟨p, -, h⟩ := of_bind h
  obtain ⟨e, he, h⟩ := of_bind h
  have he := index_eq_ok.mp he
  have hmid : Waits s.unit.instList (s.unit.modify p fun e => { e with regsReady := true }) := by
    refine hi.waits.modify ?_ ?_ ?_
    · intro _
      rfl
    · intro _ _ hd
      exact hd
    · intro _ _ hr
      exact .inl hr
  have hkept : Kept s.unit (s.unit.modify p fun e => { e with regsReady := true }) := .modify fun _ => rfl
  split at h
  · rename_i hready
    refine hi.kept (hmid.moveToReady ?_ h) (hkept.trans (.moveToReady h))
    intro i hat b hb
    rw [hkept.insts] at hat
    obtain ⟨e', he', rfl⟩ := entry_of_insts hat
    rw [he] at he'
    cases he'
    exact hi.waits.free p e he hready b hb
  · cases h
    exact hi.kept hmid hkept

theorem Inv.wakeDependents (hi : Inv s) (href : inst.isMemRef = true) (hmem : inst ∈ s.unit.instList)
    (h : s.unit.wakeDependents inst = .ok u) : Inv { s with unit := u } := by
  have hs := wakeDependents_spec hi.waits ?_ h
  · exact hi.kept hs.1 hs.2
  · intro p e hp he d hd i hat b hb
    apply eq_false_iff.mpr
    intro hblocks
    obtain ⟨q, hlook, hq⟩ := hi.hashed inst hmem
    rw [hp] at hlook
    cases hlook
    have hinst := insts_of_entry he
    rw [hq] at hinst
    have hbar := (hi.waits.waiting p e he d hd i hat b hb hblocks).1
    rw [← Option.some.inj hinst] at hbar
    simp [MemInst.isBarrier, href] at hbar

variable {x : MemInst}

/-- The list and the hash without an instruction. The flags are those of `v`. -/
theorem Inv.remove (hi : Inv s) (hinsts : v.insts = s.unit.insts) (hready : ∀ i ∈ v.ready, i ∈ s.unit.ready ∨ i ∈ s.unit.insts)
    (hwaits : Waits v.instList v) (hlist : v.instList.Sublist s.unit.instList) (hne : ∀ i ∈ v.instList, i.seqNum ≠ x.seqNum)
    (hhash : v.memDepHash = s.unit.memDepHash.filter fun e => !decide (e.1 = x.seqNum))
    (hloads : v.loadBarrier = true → InFlight MemInst.isMemBarrier v v.loadBarrierSN)
    (hstores : v.storeBarrier = true → InFlight anyKind v v.storeBarrierSN) : Inv { s with unit := v } := by
  refine ⟨hwaits, ?_, ?_, hi.ordered.sublist hlist, ?_, ?_, ?_, hloads, hstores⟩
  · rw [hinsts]
    exact hi.below
  · intro i h
    obtain h | h := hready i h
    · exact hi.sent i h
    · exact hi.below i h
  · exact fun i h => hi.pos i (hlist.subset h)
  · intro i h
    rw [hhash, hinsts, lookup_filter_ne (hne i h)]
    exact hi.hashed i (hlist.subset h)
  · intro k p hlook
    rw [hhash] at hlook
    by_cases hk : k = x.seqNum
    · rw [hk, lookup_filter_self] at hlook
      cases hlook
    · rw [lookup_filter_ne hk] at hlook
      exact hi.keys k p hlook

theorem InFlight.of_ne {kind : MemInst → Bool} {sn : Nat} (h : InFlight kind s.unit sn)
    (hmem : ∀ i ∈ s.unit.instList, i.seqNum ≠ x.seqNum → i ∈ v.instList) (hne : sn ≠ x.seqNum) : InFlight kind v sn := by
  obtain ⟨b, hb, hbar, hkind, rfl⟩ := h
  exact ⟨b, hmem b hb hne, hbar, hkind, rfl⟩

theorem completed_spec (h : v.completed inst = .ok u) : u = v.remove inst.seqNum := by
  obtain ⟨_, -, h⟩ := of_bind h
  cases h
  rfl

theorem Inv.completed (hi : Inv s) (href : inst.isMemRef = true) (hmem : inst ∈ s.unit.instList) (h : s.unit.completed inst = .ok u) :
    Inv { s with unit := u } := by
  have hu := completed_spec h
  subst hu
  -- the barrier of a flag is another instruction
  have hflag : ∀ kind sn, InFlight kind s.unit sn → sn ≠ inst.seqNum := by
    rintro kind sn ⟨b, hb, hbar, -, rfl⟩ heq
    have hsame := hi.unique hb hmem heq
    subst hsame
    simp [MemInst.isBarrier, href] at hbar
  have hkeep : ∀ i ∈ s.unit.instList, i.seqNum ≠ inst.seqNum → i ∈ s.unit.instList.eraseP fun i => decide (i.seqNum = inst.seqNum) :=
    fun i hi' hne => mem_eraseP_of_ne hi' hne
  refine hi.remove rfl (fun i hi' => .inl hi') ?_ eraseP_sublist (fun i hi' => (mem_eraseP hi.ordered hi').2) rfl ?_ ?_
  · exact waits_congr (hi.waits.mono fun b hb => (mem_eraseP hi.ordered hb).1) rfl rfl
  · exact fun hl => (hi.loads hl).of_ne hkeep (hflag _ _ (hi.loads hl))
  · exact fun hl => (hi.stores hl).of_ne hkeep (hflag _ _ (hi.stores hl))

theorem clearBarrier_rest (s : MemDepUnit) (inst : MemInst) : (s.clearBarrier inst).entries = s.entries ∧
    (s.clearBarrier inst).ready = s.ready ∧ (s.clearBarrier inst).instList = s.instList ∧ (s.clearBarrier inst).memDepHash = s.memDepHash := by
  unfold clearBarrier
  split_ifs <;> exact ⟨rfl, rfl, rfl, rfl⟩

theorem clearBarrier_loads {s : MemDepUnit} (h : (s.clearBarrier inst).loadBarrier = true) :
    s.loadBarrier = true ∧ (s.clearBarrier inst).loadBarrierSN = s.loadBarrierSN ∧
    (inst.isMemBarrier = true → s.loadBarrierSN ≠ inst.seqNum) := by
  unfold clearBarrier at h ⊢
  by_cases hm : inst.isMemBarrier = true
  · rw [if_pos hm] at h ⊢
    obtain ⟨hf, hne⟩ := clearFlag_eq_true.mp h
    exact ⟨hf, rfl, fun _ => hne⟩
  · rw [if_neg hm] at h ⊢
    split_ifs at h ⊢ <;> exact ⟨h, rfl, fun hm' => absurd hm' hm⟩

theorem clearBarrier_stores {s : MemDepUnit} (hbar : inst.isBarrier = true) (h : (s.clearBarrier inst).storeBarrier = true) :
    s.storeBarrier = true ∧ (s.clearBarrier inst).storeBarrierSN = s.storeBarrierSN ∧ s.storeBarrierSN ≠ inst.seqNum := by
  unfold clearBarrier at h ⊢
  by_cases hm : inst.isMemBarrier = true
  · rw [if_pos hm] at h ⊢
    obtain ⟨hf, hne⟩ := clearFlag_eq_true.mp h
    exact ⟨hf, rfl, hne⟩
  · have hw : inst.isWriteBarrier = true := by
      simpa [hm] using (and_eq_true_iff.mp hbar).2
    rw [if_neg hm, if_pos hw] at h ⊢
    obtain ⟨hf, hne⟩ := clearFlag_eq_true.mp h
    exact ⟨hf, rfl, hne⟩

/-- The oldest barrier completes: what waits for it is blocked by no other. -/
theorem Inv.completeBarrier (hi : Inv s) (hlegal : s.legal (.completeBarrier inst) = true) (h : s.unit.completeBarrier inst = .ok u) :
    Inv { s with unit := u } := by
  obtain ⟨hlegal, holdest⟩ := and_eq_true_iff.mp hlegal
  obtain ⟨hbar, hmem⟩ := and_eq_true_iff.mp hlegal
  have hmem := of_decide_eq_true hmem
  have holdest : ∀ b ∈ s.unit.instList, b.isBarrier = true → inst.seqNum ≤ b.seqNum := by
    intro b hb hbb
    have hat := all_eq_true.mp holdest b hb
    simpa [hbb] using hat
  obtain ⟨v, hv, h⟩ := of_bind h
  obtain ⟨w, hw, h⟩ := of_bind h
  cases h
  have hlater : Waits (s.unit.instList.eraseP fun i => decide (i.seqNum = inst.seqNum)) s.unit :=
    hi.waits.mono fun b hb => (mem_eraseP hi.ordered hb).1
  have hs := wakeDependents_spec hlater ?_ hv
  · obtain ⟨hwaits, hkept⟩ := hs
    have hw' := completed_spec hw
    subst hw'
    have hkeep : ∀ i ∈ s.unit.instList, i.seqNum ≠ inst.seqNum →
        i ∈ s.unit.instList.eraseP fun i => decide (i.seqNum = inst.seqNum) := fun i hi' hne => mem_eraseP_of_ne hi' hne
    obtain ⟨he, hr, hl, hh⟩ := clearBarrier_rest (v.remove inst.seqNum) inst
    have hl : ((v.remove inst.seqNum).clearBarrier inst).instList = s.unit.instList.eraseP fun i => decide (i.seqNum = inst.seqNum) := by
      rw [hl, ← hkept.instList]
      rfl
    have hh : ((v.remove inst.seqNum).clearBarrier inst).memDepHash = s.unit.memDepHash.filter fun e => !decide (e.1 = inst.seqNum) := by
      rw [hh, ← hkept.memDepHash]
      rfl
    refine hi.remove ?_ ?_ ?_ ?_ ?_ hh ?_ ?_
    · unfold insts
      rw [he]
      exact hkept.insts
    · rw [hr]
      exact hkept.ready
    · rw [hl]
      exact waits_congr hwaits he hr
    · rw [hl]
      exact eraseP_sublist
    · rw [hl]
      exact fun i hi' => (mem_eraseP hi.ordered hi').2
    · intro hf
      obtain ⟨hf, hsn, hother⟩ := clearBarrier_loads hf
      rw [hsn]
      have hf : v.loadBarrier = true := hf
      rw [hkept.loads.1] at hf
      have hin := hi.loads hf
      change InFlight _ _ v.loadBarrierSN
      rw [hkept.loads.2]
      refine InFlight.of_ne hin (by rw [hl]; exact hkeep) ?_
      intro heq
      obtain ⟨b, hb, hbb, hkind, hbsn⟩ := hin
      have hsame := hi.unique hb hmem (hbsn.trans heq)
      subst hsame
      exact hother hkind (hkept.loads.2.trans heq)
    · intro hf
      obtain ⟨hf, hsn, hother⟩ := clearBarrier_stores hbar hf
      rw [hsn]
      have hf : v.storeBarrier = true := hf
      rw [hkept.stores.1] at hf
      change InFlight _ _ v.storeBarrierSN
      rw [hkept.stores.2]
      refine InFlight.of_ne (hi.stores hf) (by rw [hl]; exact hkeep) ?_
      intro heq
      exact hother (hkept.stores.2.trans heq)
  · intro p e hp he d hd i hat b hb
    apply eq_false_iff.mpr
    intro hblocks
    obtain ⟨hb', hne⟩ := mem_eraseP hi.ordered hb
    obtain ⟨q, hlook, hq⟩ := hi.hashed inst hmem
    rw [hp] at hlook
    cases hlook
    have hinst := insts_of_entry he
    rw [hq] at hinst
    have hle := (hi.waits.waiting p e he d hd i hat b hb' hblocks).2
    rw [← Option.some.inj hinst] at hle
    have hge := holdest b hb' (blocks_older hblocks).1
    omega

/-- The youngest instruction is squashed. -/
theorem Inv.squashInst {l : List MemInst} (hi : Inv s) (hlist : s.unit.instList = l ++ [inst]) (h : s.unit.squashInst inst = .ok u) :
    Inv { s with unit := u } ∧ u.instList = l := by
  obtain ⟨p, -, h⟩ := of_bind h
  cases h
  have hdrop : s.unit.instList.dropLast = l := by
    rw [hlist, dropLast_concat]
  have hordered := hi.ordered
  rw [hlist] at hordered
  have holder : ∀ i ∈ l, i.seqNum ≠ inst.seqNum := by
    intro i hmem
    have hlt := (pairwise_append.mp hordered).2.2 i hmem inst mem_cons_self
    omega
  have hkeep : ∀ i ∈ s.unit.instList, i.seqNum ≠ inst.seqNum → i ∈ s.unit.instList.dropLast := by
    intro i hmem hne
    rw [hdrop]
    rw [hlist] at hmem
    obtain hmem | hmem := mem_append.mp hmem
    · exact hmem
    · rw [mem_singleton.mp hmem] at hne
      exact absurd rfl hne
  have hwaits : Waits s.unit.instList.dropLast (s.unit.modify p fun e => { e with squashed := true }) := by
    refine Waits.modify (hi.waits.mono fun b hb => (dropLast_sublist _).subset hb) ?_ ?_ ?_
    · intro _
      rfl
    · intro _ _ hd
      exact hd
    · intro _ _ hr
      exact .inl hr
  refine ⟨?_, hdrop⟩
  refine hi.remove ?_ (fun i hmem => .inl hmem) (waits_congr hwaits rfl rfl) (dropLast_sublist _) ?_ rfl ?_ ?_
  · have hsame : (s.unit.modify p fun e => { e with squashed := true }).insts = s.unit.insts := insts_modify fun _ => rfl
    exact hsame
  · intro i hmem
    have hmem : i ∈ s.unit.instList.dropLast := hmem
    rw [hdrop] at hmem
    exact holder i hmem
  · intro hf
    obtain ⟨hf, hne⟩ := clearFlag_eq_true.mp hf
    exact (hi.loads hf).of_ne hkeep hne
  · intro hf
    obtain ⟨hf, hne⟩ := clearFlag_eq_true.mp hf
    exact (hi.stores hf).of_ne hkeep hne

theorem Inv.squashLoop {l : List MemInst} (hi : Inv s) (hlist : s.unit.instList.reverse = l) (h : MemDepUnit.squashLoop n l s.unit = .ok u) :
    Inv { s with unit := u } := by
  induction l generalizing s with
  | nil =>
    cases h
    exact hi
  | cons inst older ih =>
    unfold MemDepUnit.squashLoop at h
    split at h
    · obtain ⟨v, hv, h⟩ := of_bind h
      have hlist' : s.unit.instList = older.reverse ++ [inst] := by
        rw [← reverse_cons, ← hlist, reverse_reverse]
      obtain ⟨hnext, hleft⟩ := hi.squashInst hlist' hv
      have hrev : v.instList.reverse = older := by rw [hleft, reverse_reverse]
      exact ih (s := { s with unit := v }) hnext hrev h
    · cases h
      exact hi

theorem Inv.step {e : MemDepEvent} (hi : Inv s) (h : StepIf (fun s e => s.legal e && s.covered e) step s e t) : Inv t := by
  obtain ⟨hc, h⟩ := h
  obtain ⟨hlegal, hcov⟩ := and_eq_true_iff.mp hc
  obtain ⟨v, hv, h⟩ := of_bind h
  cases e with
  | insert inst readyToIssue checkInst =>
    cases h
    obtain ⟨href, hlast⟩ := and_eq_true_iff.mp hlegal
    exact hi.insert href (of_decide_eq_true hlast) hcov hv
  | insertBarrier inst =>
    cases h
    cases hv
    obtain ⟨hbar, hlast⟩ := and_eq_true_iff.mp hlegal
    exact hi.insertBarrier hbar (of_decide_eq_true hlast)
  | regsReady inst =>
    cases h
    exact hi.regsReady hv
  | completed inst =>
    cases h
    obtain ⟨href, hmem⟩ := and_eq_true_iff.mp hlegal
    exact hi.completed href (of_decide_eq_true hmem) hv
  | completeBarrier inst =>
    cases h
    exact hi.completeBarrier hlegal hv
  | wakeDependents inst =>
    cases h
    obtain ⟨href, hmem⟩ := and_eq_true_iff.mp hlegal
    exact hi.wakeDependents href (of_decide_eq_true hmem) hv
  | squash n =>
    cases h
    exact hi.squashLoop rfl hv

end MemDepRun

/-- In a run in which every load and store that barriers in flight block is inserted while the unit remembers a
  barrier as young as they are, no load is given to the ready list before each older memory barrier has completed, and
  no store before each older barrier has. -/
theorem barriers_order {t : MemDepRun} {es : List MemDepEvent}
    (hr : Exec (StepIf (fun s e => s.legal e && s.covered e) MemDepRun.step) MemDepRun.start es t) :
    ∀ i ∈ t.unit.ready, ∀ b ∈ t.unit.instList, b.isBarrier = true → b.seqNum < i.seqNum →
      (i.isLoad = true → b.isMemBarrier = false) ∧ (i.isStore = true → b.isMemBarrier = false ∧ b.isWriteBarrier = false) := by
  have hi : MemDepRun.Inv t := by
    apply hr.invariant MemDepRun.inv_start
    intro s e t hi hstep
    exact hi.step hstep
  intro i hmem b hb hbar hlt
  have hfree := hi.waits.ready i hmem b hb
  simp only [MemInst.blocks, hbar, hlt, decide_true, Bool.true_and, Bool.or_eq_false_iff] at hfree
  constructor
  · intro hload
    simpa [hload] using hfree.1
  · intro hstore
    simpa [hstore] using hfree.2

/-- A load behind a memory barrier is ready only when the barrier has completed. -/
theorem barriers_order_small : ∃ t, Exec (StepIf (fun s e => s.legal e && s.covered e) MemDepRun.step) MemDepRun.start
      [.insertBarrier ⟨1, false, false, true, false⟩, .insert ⟨2, true, false, false, false⟩ true 0,
        .insertBarrier ⟨3, false, false, true, false⟩, .completeBarrier ⟨1, false, false, true, false⟩] t ∧
    t.unit.ready = [⟨2, true, false, false, false⟩] ∧
    ∀ b ∈ t.unit.instList, b.isBarrier = true → b.seqNum < 2 → b.isMemBarrier = false := by
  refine Exec.ends_withIf (p := fun t => decide (t.unit.ready = [⟨2, true, false, false, false⟩]))
    (by decide) fun t hr ht => ?_
  have ht := of_decide_eq_true ht
  refine ⟨ht, fun b hb hbar hlt => ?_⟩
  have hin : (⟨2, true, false, false, false⟩ : MemInst) ∈ t.unit.ready := by
    rw [ht]
    exact mem_cons_self
  exact (barriers_order hr _ hin b hb hbar hlt).1 rfl

/-- Two memory barriers, the younger of them squashed: a load inserted then is ready although the older is in flight. -/
theorem released_by_squash : ∃ t, Exec (StepIf MemDepRun.legal MemDepRun.step) MemDepRun.start
      [.insertBarrier ⟨1, false, false, true, false⟩, .insertBarrier ⟨2, false, false, true, false⟩, .squash 1,
        .insert ⟨3, true, false, false, false⟩ true 0] t ∧
    (⟨3, true, false, false, false⟩ : MemInst) ∈ t.unit.ready ∧ (⟨1, false, false, true, false⟩ : MemInst) ∈ t.unit.instList := by
  refine Exec.ends_withIf (p := fun t => decide (t.unit.ready = [⟨3, true, false, false, false⟩]) &&
        decide (t.unit.instList = [⟨1, false, false, true, false⟩, ⟨3, true, false, false, false⟩]))
    (by decide) fun t hr ht => ?_
  obtain ⟨hready, hlist⟩ := and_eq_true_iff.mp ht
  exact ⟨by simp [of_decide_eq_true hready], by simp [of_decide_eq_true hlist]⟩

end Gem5.Cpu
