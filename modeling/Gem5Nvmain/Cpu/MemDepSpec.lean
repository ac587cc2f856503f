import Gem5Nvmain.Cpu.MemDepUnit

/- What the operations of the memory dependence unit keep.

  An instruction that is blocked by a barrier in flight waits for an entry that is itself a barrier and not older than
  any that blocks it (`Waits`). Waking keeps this when nothing blocks what is woken (`wakeDependents_spec`), and
  changes nothing else than what is ready (`Kept`). -/
namespace Gem5.Cpu
open Lib List

namespace MemDepUnit
variable {s t : MemDepUnit} {p q sn : Nat} {i inst : MemInst} {e : MemDepEntry} {f : MemDepEntry → MemDepEntry} {bs : List MemInst}

def insts (s : MemDepUnit) : List MemInst := s.entries.map MemDepEntry.inst

theorem insts_of_entry (h : s.entries[p]? = some e) : s.insts[p]? = some e.inst := by
  simp [insts, h]

theorem entry_of_insts (h : s.insts[p]? = some i) : ∃ e, s.entries[p]? = some e ∧ e.inst = i := by
  simpa [insts] using h

theorem entry_modify (h : (s.modify p f).entries[q]? = some e) :
    ∃ e₀, s.entries[q]? = some e₀ ∧ e = if p = q then f e₀ else e₀ := by
  unfold modify at h
  rw [getElem?_modify] at h
  obtain ⟨e₀, he₀, rfl⟩ := Option.map_eq_some_iff.mp h
  exact ⟨e₀, he₀, rfl⟩

theorem insts_modify (hf : ∀ e, (f e).inst = e.inst) : (s.modify p f).insts = s.insts := by
  unfold insts modify
  apply ext_getElem?
  intro j
  rw [getElem?_map, getElem?_map, getElem?_modify]
  cases s.entries[j]? with
  | none => rfl
  | some e => split <;> simp [hf]

theorem findInHash_spec {p : Nat} : s.findInHash sn = .ok p ↔ s.memDepHash.lookup sn = some p := by
  unfold findInHash
  cases s.memDepHash.lookup sn <;> simp

theorem moveToReady_spec (h : s.moveToReady p = .ok t) :
    ∃ e, s.entries[p]? = some e ∧ t = { s with ready := s.ready ++ [e.inst] } := by
  obtain ⟨e, he, h⟩ := of_bind h
  obtain ⟨_, -, h⟩ := of_bind h
  cases h
  exact ⟨e, index_eq_ok.mp he, rfl⟩

/-! What waits for what. -/

/-- With the barriers `bs` in flight: an instruction that one of them blocks only waits for a barrier that is not
  older than that one, is not said to have its memory dependences resolved, and has not been given to the queue. -/
structure Waits (bs : List MemInst) (s : MemDepUnit) : Prop where
  waiting : ∀ (q : Nat) (e : MemDepEntry), s.entries[q]? = some e → ∀ p ∈ e.dependInsts, ∀ i, s.insts[p]? = some i → ∀ b ∈ bs, b.blocks i = true →
    e.inst.isBarrier = true ∧ b.seqNum ≤ e.inst.seqNum
  valid : ∀ (q : Nat) (e : MemDepEntry), s.entries[q]? = some e → ∀ p ∈ e.dependInsts, p < s.entries.length
  free : ∀ (p : Nat) (e : MemDepEntry), s.entries[p]? = some e → e.memDepReady = true → ∀ b ∈ bs, b.blocks e.inst = false
  ready : ∀ i ∈ s.ready, ∀ b ∈ bs, b.blocks i = false

theorem waits_init : Waits [] init := by
  refine ⟨?_, ?_, ?_, ?_⟩ <;> simp [init]

namespace Waits

theorem mono {bs' : List MemInst} (h : Waits bs s) (hsub : ∀ b ∈ bs', b ∈ bs) : Waits bs' s :=
  ⟨fun q e he p hp i hi b hb => h.waiting q e he p hp i hi b (hsub b hb), h.valid,
    fun p e he hr b hb => h.free p e he hr b (hsub b hb), fun i hi b hb => h.ready i hi b (hsub b hb)⟩

/-- A change of an entry that keeps its instruction, adds no dependents, and resolves it only when nothing blocks it. -/
theorem modify (h : Waits bs s) (hinst : ∀ e, (f e).inst = e.inst) (hdeps : ∀ e, ∀ d ∈ (f e).dependInsts, d ∈ e.dependInsts)
    (hready : ∀ e, s.entries[p]? = some e → (f e).memDepReady = true → e.memDepReady = true ∨ ∀ b ∈ bs, b.blocks e.inst = false) :
    Waits bs (s.modify p f) := by
  refine ⟨?_, ?_, ?_, h.ready⟩
  · intro q e he d hd i hi b hb hblocks
    rw [insts_modify hinst] at hi
    obtain ⟨e₀, he₀, rfl⟩ := entry_modify he
    split at hd
    · rename_i hpq
      rw [if_pos hpq, hinst]
      exact h.waiting q e₀ he₀ d (hdeps e₀ d hd) i hi b hb hblocks
    · rename_i hpq
      rw [if_neg hpq]
      exact h.waiting q e₀ he₀ d hd i hi b hb hblocks
  · intro q e he d hd
    have hlen : (s.modify p f).entries.length = s.entries.length := length_modify ..
    rw [hlen]
    obtain ⟨e₀, he₀, rfl⟩ := entry_modify he
    split at hd
    · exact h.valid q e₀ he₀ d (hdeps e₀ d hd)
    · exact h.valid q e₀ he₀ d hd
  · intro q e he hr b hb
    obtain ⟨e₀, he₀, rfl⟩ := entry_modify he
    split at hr
    · rename_i hpq
      subst hpq
      rw [if_pos rfl, hinst]
      obtain hr | hfree := hready e₀ he₀ hr
      · exact h.free p e₀ he₀ hr b hb
      · exact hfree b hb
    · rename_i hpq
      rw [if_neg hpq]
      exact h.free q e₀ he₀ hr b hb

theorem moveToReady (h : Waits bs s) (hfree : ∀ i, s.insts[p]? = some i → ∀ b ∈ bs, b.blocks i = false)
    (hm : s.moveToReady p = .ok t) : Waits bs t := by
  obtain ⟨e, he, rfl⟩ := moveToReady_spec hm
  refine ⟨h.waiting, h.valid, h.free, ?_⟩
  intro i hi b hb
  obtain hi | hi := mem_append.mp hi
  · exact h.ready i hi b hb
  · rw [mem_singleton.mp hi]
    exact hfree e.inst (insts_of_entry he) b hb

theorem snoc {x : MemInst} (h : Waits bs s) (hinsts : ∀ i ∈ s.insts, x.blocks i = false) (hready : ∀ i ∈ s.ready, x.blocks i = false) :
    Waits (bs ++ [x]) s := by
  refine ⟨?_, h.valid, ?_, ?_⟩
  · intro q e he p hp i hi b hb hblocks
    obtain hb | hb := mem_append.mp hb
    · exact h.waiting q e he p hp i hi b hb hblocks
    · rw [mem_singleton.mp hb, hinsts i (mem_of_getElem? hi)] at hblocks
      cases hblocks
  · intro p e he hr b hb
    obtain hb | hb := mem_append.mp hb
    · exact h.free p e he hr b hb
    · rw [mem_singleton.mp hb]
      exact hinsts e.inst (mem_of_getElem? (insts_of_entry he))
  · intro i hi b hb
    obtain hb | hb := mem_append.mp hb
    · exact h.ready i hi b hb
    · rw [mem_singleton.mp hb]
      exact hready i hi

theorem insts_addEntry : (s.addEntry inst).insts = s.insts ++ [inst] := by
  simp [insts, MemDepUnit.addEntry]

theorem addEntry (h : Waits bs s) : Waits bs (s.addEntry inst) := by
  have hold : ∀ (q : Nat) (e : MemDepEntry), (s.addEntry inst).entries[q]? = some e →
      s.entries[q]? = some e ∨ e = ⟨inst, [], false, false, false⟩ := by
    intro q e he
    have he : (s.entries ++ [⟨inst, [], false, false, false⟩])[q]? = some e := he
    by_cases hq : q < s.entries.length
    · rw [getElem?_append_left hq] at he
      exact .inl he
    · rw [getElem?_append_right (by omega)] at he
      exact .inr (mem_singleton.mp (mem_of_getElem? he))
  refine ⟨?_, ?_, ?_, h.ready⟩
  · intro q e he p hp i hi b hb hblocks
    obtain he | rfl := hold q e he
    · have hlt : p < s.insts.length := by
        have hvalid := h.valid q e he p hp
        simpa [insts] using hvalid
      rw [insts_addEntry, getElem?_append_left hlt] at hi
      exact h.waiting q e he p hp i hi b hb hblocks
    · cases hp
  · intro q e he p hp
    have hlen : (s.addEntry inst).entries.length = s.entries.length + 1 := by
      simp [MemDepUnit.addEntry]
    obtain he | rfl := hold q e he
    · have hvalid := h.valid q e he p hp
      omega
    · cases hp
  · intro p e he hr b hb
    obtain he | rfl := hold p e he
    · exact h.free p e he hr b hb
    · cases hr

/-- An instruction is made to wait for an entry that outlasts whatever blocks it. -/
theorem dependent {readyToIssue : Bool} (h : Waits bs s) (hp : s.insts[p]? = some i)
    (hq : ∀ e, s.entries[q]? = some e → ∀ b ∈ bs, b.blocks i = true → e.inst.isBarrier = true ∧ b.seqNum ≤ e.inst.seqNum) :
    Waits bs (s.dependent p q readyToIssue) := by
  unfold MemDepUnit.dependent
  have hmid : Waits bs (if readyToIssue then s.modify p fun e => { e with regsReady := true } else s) := by
    split
    · exact h.modify (fun _ => rfl) (fun _ _ hd => hd) (fun _ _ hr => .inl hr)
    · exact h
  have hinsts : (if readyToIssue then s.modify p fun e => { e with regsReady := true } else s).insts = s.insts := by
    split
    · exact insts_modify fun _ => rfl
    · rfl
  generalize (if readyToIssue then s.modify p fun e => { e with regsReady := true } else s) = m at hmid hinsts
  have hq' : ∀ e, m.entries[q]? = some e → ∀ b ∈ bs, b.blocks i = true → e.inst.isBarrier = true ∧ b.seqNum ≤ e.inst.seqNum := by
    intro e he b hb hblocks
    have hat := insts_of_entry he
    rw [hinsts] at hat
    obtain ⟨e₀, he₀, heq⟩ := entry_of_insts hat
    rw [← heq]
    exact hq e₀ he₀ b hb hblocks
  have hplt : p < m.entries.length := by
    have hlt := (List.getElem?_eq_some_iff.mp hp).1
    rw [← hinsts] at hlt
    simpa [insts] using hlt
  refine ⟨?_, ?_, ?_, hmid.ready⟩
  · intro r e he d hd j hj b hb hblocks
    have hsame : (m.modify q fun e => { e with dependInsts := e.dependInsts ++ [p] }).insts = m.insts := insts_modify fun _ => rfl
    rw [hsame] at hj
    obtain ⟨e₀, he₀, rfl⟩ := entry_modify he
    split at hd
    · rename_i hqr
      subst hqr
      rw [if_pos rfl]
      obtain hd | hd := mem_append.mp hd
      · exact hmid.waiting q e₀ he₀ d hd j hj b hb hblocks
      · rw [mem_singleton.mp hd, hinsts, hp] at hj
        cases hj
        exact hq' e₀ he₀ b hb hblocks
    · rename_i hqr
      rw [if_neg hqr]
      exact hmid.waiting r e₀ he₀ d hd j hj b hb hblocks
  · intro r e he d hd
    have hlen : (m.modify q fun e => { e with dependInsts := e.dependInsts ++ [p] }).entries.length = m.entries.length :=
      length_modify ..
    rw [hlen]
    obtain ⟨e₀, he₀, rfl⟩ := entry_modify he
    split at hd
    · obtain hd | hd := mem_append.mp hd
      · exact hmid.valid r e₀ he₀ d hd
      · rw [mem_singleton.mp hd]
        exact hplt
    · exact hmid.valid r e₀ he₀ d hd
  · intro r e he hr b hb
    obtain ⟨e₀, he₀, rfl⟩ := entry_modify he
    split at hr
    · rename_i hqr
      rw [if_pos hqr]
      exact hmid.free r e₀ he₀ hr b hb
    · rename_i hqr
      rw [if_neg hqr]
      exact hmid.free r e₀ he₀ hr b hb

end Waits

/-! What stays when instructions are woken. -/

/-- The same instructions in the same places; what is new on the ready list was in the unit. -/
structure Kept (s t : MemDepUnit) : Prop where
  insts : t.insts = s.insts
  instList : t.instList = s.instList
  memDepHash : t.memDepHash = s.memDepHash
  loads : t.loadBarrier = s.loadBarrier ∧ t.loadBarrierSN = s.loadBarrierSN
  stores : t.storeBarrier = s.storeBarrier ∧ t.storeBarrierSN = s.storeBarrierSN
  ready : ∀ i ∈ t.ready, i ∈ s.ready ∨ i ∈ s.insts

namespace Kept
variable {u : MemDepUnit}

theorem refl (s : MemDepUnit) : Kept s s := ⟨rfl, rfl, rfl, ⟨rfl, rfl⟩, ⟨rfl, rfl⟩, fun _ hi => .inl hi⟩

theorem trans (h₁ : Kept s t) (h₂ : Kept t u) : Kept s u := by
  refine ⟨h₂.insts.trans h₁.insts, h₂.instList.trans h₁.instList, h₂.memDepHash.trans h₁.memDepHash,
    ⟨h₂.loads.1.trans h₁.loads.1, h₂.loads.2.trans h₁.loads.2⟩, ⟨h₂.stores.1.trans h₁.stores.1, h₂.stores.2.trans h₁.stores.2⟩, ?_⟩
  intro i hi
  obtain hi | hi := h₂.ready i hi
  · exact h₁.ready i hi
  · rw [h₁.insts] at hi
    exact .inr hi

theorem modify (hf : ∀ e, (f e).inst = e.inst) : Kept s (s.modify p f) :=
  ⟨insts_modify hf, rfl, rfl, ⟨rfl, rfl⟩, ⟨rfl, rfl⟩, fun _ hi => .inl hi⟩

theorem moveToReady (h : s.moveToReady p = .ok t) : Kept s t := by
  obtain ⟨e, he, rfl⟩ := moveToReady_spec h
  refine ⟨rfl, rfl, rfl, ⟨rfl, rfl⟩, ⟨rfl, rfl⟩, fun i hi => ?_⟩
  obtain hi | hi := mem_append.mp hi
  · exact .inl hi
  · rw [mem_singleton.mp hi]
    exact .inr (mem_of_getElem? (insts_of_entry he))

end Kept

theorem kept_dependent {readyToIssue : Bool} : Kept s (s.dependent p q readyToIssue) := by
  unfold dependent
  split
  · apply Kept.trans (t := s.modify p fun e => { e with regsReady := true })
    · exact .modify fun _ => rfl
    · exact .modify fun _ => rfl
  · exact .modify fun _ => rfl

/-- An instruction that nothing blocks may issue when its registers are ready. -/
theorem independent_spec {readyToIssue : Bool} (h : Waits bs s) (hp : s.insts[p]? = some i) (hfree : ∀ b ∈ bs, b.blocks i = false)
    (hs : s.independent p readyToIssue = .ok t) : Waits bs t ∧ Kept s t := by
  have hentry : ∀ e, s.entries[p]? = some e → ∀ b ∈ bs, b.blocks e.inst = false := by
    intro e he
    have hat := insts_of_entry he
    rw [hp] at hat
    cases hat
    exact hfree
  have hmid : Waits bs (s.modify p fun e => { e with memDepReady := true }) := by
    refine h.modify ?_ ?_ ?_
    · intro _
      rfl
    · intro _ _ hd
      exact hd
    · intro e he _
      exact .inr (hentry e he)
  have hkept : Kept s (s.modify p fun e => { e with memDepReady := true }) := .modify fun _ => rfl
  unfold independent at hs
  split at hs
  · have hregs : Kept (s.modify p fun e => { e with memDepReady := true })
        ((s.modify p fun e => { e with memDepReady := true }).modify p fun e => { e with regsReady := true }) := .modify fun _ => rfl
    refine ⟨Waits.moveToReady ?_ ?_ hs, (hkept.trans hregs).trans (.moveToReady hs)⟩
    · refine hmid.modify ?_ ?_ ?_
      · intro _
        rfl
      · intro _ _ hd
        exact hd
      · intro _ _ hr
        exact .inl hr
    · intro j hj
      rw [hregs.insts, hkept.insts, hp] at hj
      cases hj
      exact hfree
  · cases hs
    exact ⟨hmid, hkept⟩

theorem wake_spec (h : Waits bs s) (hfree : ∀ i, s.insts[p]? = some i → ∀ b ∈ bs, b.blocks i = false) (hw : s.wake p = .ok t) :
    Waits bs t ∧ Kept s t := by
  obtain ⟨e, he, hw⟩ := of_bind hw
  split at hw
  · exact ⟨h.moveToReady hfree hw, .moveToReady hw⟩
  · cases hw
    constructor
    · refine h.modify ?_ ?_ ?_
      · intro _
        rfl
      · intro _ _ hd
        exact hd
      · intro e₀ he₀ _
        exact .inr (hfree e₀.inst (insts_of_entry he₀))
    · exact .modify fun _ => rfl

theorem wakeAll_spec {ps : List Nat} (h : Waits bs s)
    (hfree : ∀ p ∈ ps, ∀ i, s.insts[p]? = some i → ∀ b ∈ bs, b.blocks i = false) (hw : wakeAll ps s = .ok t) :
    Waits bs t ∧ Kept s t := by
  induction ps generalizing s with
  | nil =>
    cases hw
    exact ⟨h, .refl _⟩
  | cons p ps ih =>
    obtain ⟨u, hu, hw⟩ := of_bind hw
    obtain ⟨hfirst, hrest⟩ := forall_mem_cons.mp hfree
    obtain ⟨hwaits, hkept⟩ := wake_spec h hfirst hu
    have hrest' : ∀ p ∈ ps, ∀ i, u.insts[p]? = some i → ∀ b ∈ bs, b.blocks i = false := by
      rw [hkept.insts]
      exact hrest
    obtain ⟨hwaits', hkept'⟩ := ih hwaits hrest' hw
    exact ⟨hwaits', hkept.trans hkept'⟩

/-- Waking what waits for an entry, when nothing blocks what waits for it. -/
theorem wakeDependents_spec (h : Waits bs s)
    (hfree : ∀ p e, s.memDepHash.lookup inst.seqNum = some p → s.entries[p]? = some e → ∀ d ∈ e.dependInsts,
      ∀ i, s.insts[d]? = some i → ∀ b ∈ bs, b.blocks i = false)
    (hw : s.wakeDependents inst = .ok t) : Waits bs t ∧ Kept s t := by
  unfold wakeDependents at hw
  split at hw
  · cases hw
    exact ⟨h, .refl _⟩
  · obtain ⟨p, hp, hw⟩ := of_bind hw
    obtain ⟨e, he, hw⟩ := of_bind hw
    obtain ⟨u, hu, hw⟩ := of_bind hw
    cases hw
    obtain ⟨hwaits, hkept⟩ := wakeAll_spec h (hfree p e (findInHash_spec.mp hp) (index_eq_ok.mp he)) hu
    constructor
    · refine hwaits.modify ?_ ?_ ?_
      · intro _
        rfl
      · intro _ d hd
        cases hd
      · intro _ _ hr
        exact .inl hr
    · exact hkept.trans (.modify fun _ => rfl)

end MemDepUnit

end Gem5.Cpu
