import Gem5Nvmain.Cpu.InstQueue

/- What one operation of the instruction queue does.

  `wakeChain_spec`, `addDependents_spec` and `removeSources_spec` say what the three loops over a chain or over
  operands come to; an instruction is changed only in its operands, its count of ready ones and its permission to
  issue. -/
namespace Gem5.Cpu
open Lib List DynInst

variable {n inst : Nat} {s t : InstructionQueue}

/-! Chains. -/

theorem removeFrom_eq {l : List Nat} (h : inst ∈ l) : removeFrom inst l = .ok (l.erase inst) := by
  induction l with
  | nil => cases h
  | cons c l ih =>
    unfold removeFrom
    by_cases hc : c = inst
    · rw [if_pos hc, hc, erase_cons_head]
    · have hmem : inst ∈ l := by
        cases mem_cons.mp h with
        | inl heq => exact absurd heq.symm hc
        | inr hmem => exact hmem
      rw [if_neg hc, ih hmem, erase_cons_tail (by simpa using hc)]
      rfl

theorem modify_between {α : Type} {f : α → α} {a : α} {l m : List α} : (l ++ a :: m).modify l.length f = l ++ f a :: m := by
  induction l with
  | nil => simp
  | cons b l ih => simp [ih]

namespace InstructionQueue

variable {f : DynInst → DynInst}

@[simp] theorem insts_modify_self : (s.modify inst f).insts inst = f (s.insts inst) :=
  Function.update_self ..

variable {c : Nat}

theorem insts_modify_ne (h : c ≠ inst) : (s.modify inst f).insts c = s.insts c :=
  Function.update_of_ne h ..

theorem signals_signal : (s.signal inst).signals c = s.signals c + if c = inst then 1 else 0 := by
  unfold signal signals
  have hone : [inst].count c = if c = inst then 1 else 0 := by
    by_cases h : c = inst
    · simp [h]
    · simp [h, Ne.symm h]
  split <;> simp only [count_append, hone] <;> omega

/-! Signals change nothing but the ready lists. -/

/-- Two queues that differ in what was signalled only. -/
structure SameBut (s t : InstructionQueue) : Prop where
  insts : t.insts = s.insts
  arrived : t.arrived = s.arrived
  instList : t.instList = s.instList
  dependGraph : t.dependGraph = s.dependGraph
  regScoreboard : t.regScoreboard = s.regScoreboard
  nonSpecInsts : t.nonSpecInsts = s.nonSpecInsts

theorem SameBut.signal : SameBut s (s.signal inst) := by
  unfold InstructionQueue.signal
  split <;> exact ⟨rfl, rfl, rfl, rfl, rfl, rfl⟩

theorem SameBut.addIfReady : SameBut s (s.addIfReady inst) := by
  unfold InstructionQueue.addIfReady
  split
  · exact SameBut.signal
  · exact ⟨rfl, rfl, rfl, rfl, rfl, rfl⟩

theorem signals_addIfReady :
    (s.addIfReady inst).signals c = s.signals c + if c = inst ∧ (s.insts inst).canIssue = true then 1 else 0 := by
  unfold addIfReady
  by_cases h : (s.insts inst).canIssue = true
  · rw [if_pos h, signals_signal]
    simp [h]
  · simp [h]

end InstructionQueue

/-! Waking a chain. -/

namespace DynInst

/-- An instruction of which `k` more operands have become ready. -/
def woken (k : Nat) (d : DynInst) : DynInst :=
  { d with
    readyRegs := d.readyRegs + k
    canIssue := d.canIssue || decide (0 < k ∧ d.readyRegs + k = d.srcs.length) }

@[simp] theorem woken_zero (d : DynInst) : d.woken 0 = d := by
  unfold woken
  simp

theorem markSrcRegReady_eq (d : DynInst) : d.markSrcRegReady = d.woken 1 := by
  unfold markSrcRegReady woken
  simp

theorem woken_woken {k m : Nat} {d : DynInst} (h : d.readyRegs + k + m ≤ d.srcs.length) : (d.woken k).woken m = d.woken (k + m) := by
  unfold woken
  simp only [mk.injEq, true_and, and_true]
  refine ⟨by omega, ?_⟩
  rw [Bool.or_assoc]
  congr 1
  apply Bool.eq_iff_iff.mpr
  simp only [Bool.or_eq_true, decide_eq_true_eq]
  by_cases hm : m = 0
  · subst hm
    simp only [Nat.lt_irrefl, false_and, or_false, Nat.add_zero]
  · omega

end DynInst

namespace InstructionQueue

/-- A chain wakes each instruction as often as it holds it, and signals it when that was the last operand. -/
theorem wakeChain_spec {l : List Nat}
    (h : ∀ c ∈ l, (s.insts c).canIssue = false ∧ (s.insts c).readyRegs + l.count c ≤ (s.insts c).srcs.length) :
    SameBut { s with insts := fun c => (s.insts c).woken (l.count c) } (wakeChain l s) ∧
    ∀ c, (wakeChain l s).signals c =
      s.signals c + if c ∈ l ∧ (s.insts c).readyRegs + l.count c = (s.insts c).srcs.length then 1 else 0 := by
  induction l generalizing s with
  | nil =>
    refine ⟨⟨?_, rfl, rfl, rfl, rfl, rfl⟩, ?_⟩
    · simp [wakeChain]
    · simp [wakeChain]
  | cons d l ih =>
    obtain ⟨hd, hle⟩ := h d (mem_cons_self ..)
    rw [count_cons_self] at hle
    have hsame : SameBut (s.modify d markSrcRegReady) ((s.modify d markSrcRegReady).addIfReady d) := .addIfReady
    have hcount : ∀ {c}, c ≠ d → (d :: l).count c = l.count c := by
      intro c hc
      rw [count_cons, if_neg (by simpa using Ne.symm hc), Nat.add_zero]
    have hself : ((s.modify d markSrcRegReady).addIfReady d).insts d = (s.insts d).woken 1 := by
      rw [hsame.insts, insts_modify_self, markSrcRegReady_eq]
    have hother : ∀ {c}, c ≠ d → ((s.modify d markSrcRegReady).addIfReady d).insts c = s.insts c := by
      intro c hc
      rw [hsame.insts, insts_modify_ne hc]
    have hnext := ih (s := (s.modify d markSrcRegReady).addIfReady d) ?_
    · obtain ⟨hrest, hsig⟩ := hnext
      refine ⟨⟨?_, ?_, ?_, ?_, ?_, ?_⟩, ?_⟩
      · rw [show wakeChain (d :: l) s = wakeChain l ((s.modify d markSrcRegReady).addIfReady d) from rfl, hrest.insts]
        funext c
        dsimp only
        by_cases hc : c = d
        · subst hc
          rw [hself, woken_woken (by omega), count_cons_self, Nat.add_comm 1]
        · rw [hother hc, hcount hc]
      · exact hrest.arrived.trans hsame.arrived
      · exact hrest.instList.trans hsame.instList
      · exact hrest.dependGraph.trans hsame.dependGraph
      · exact hrest.regScoreboard.trans hsame.regScoreboard
      · exact hrest.nonSpecInsts.trans hsame.nonSpecInsts
      · intro c
        rw [show wakeChain (d :: l) s = wakeChain l ((s.modify d markSrcRegReady).addIfReady d) from rfl, hsig,
          signals_addIfReady, insts_modify_self]
        have hsig' : (s.modify d markSrcRegReady).signals c = s.signals c := rfl
        rw [hsig']
        by_cases hc : c = d
        · subst hc
          rw [hself, count_cons_self]
          have hcan : ((s.insts c).markSrcRegReady).canIssue = decide ((s.insts c).readyRegs + 1 = (s.insts c).srcs.length) := by
            unfold markSrcRegReady
            rw [hd, Bool.false_or]
          simp only [hcan, woken, decide_eq_true_eq, true_and, mem_cons, true_or]
          -- the instruction is signalled when this was its last operand, or else further down the chain
          by_cases hmem : c ∈ l
          · have hpos : 0 < l.count c := count_pos_iff.mpr hmem
            rw [if_neg (show ¬(s.insts c).readyRegs + 1 = (s.insts c).srcs.length by omega)]
            simp only [hmem, true_and, Nat.add_zero]
            rw [show (s.insts c).readyRegs + 1 + l.count c = (s.insts c).readyRegs + (l.count c + 1) by omega]
          · have hzero : l.count c = 0 := count_eq_zero.mpr hmem
            simp only [hmem, false_and, if_false, hzero, Nat.add_zero]
        · rw [hother hc, hcount hc]
          simp only [hc, false_and, if_false, Nat.add_zero, mem_cons, false_or]
    · intro c hc
      by_cases hcd : c = d
      · subst hcd
        have hpos : 0 < l.count c := count_pos_iff.mpr hc
        rw [hself]
        refine ⟨?_, ?_⟩
        · unfold woken
          rw [hd, Bool.false_or]
          exact decide_eq_false (by omega)
        · change (s.insts c).readyRegs + 1 + l.count c ≤ (s.insts c).srcs.length
          omega
      · rw [hother hcd]
        have hc' := h c (mem_cons_of_mem _ hc)
        rw [hcount hcd] at hc'
        exact hc'

/-! Operands of a new instruction. -/

/-- The register became ready before the instruction reached the queue. -/
def met (n : Nat) (s : InstructionQueue) (o : SrcReg) : Bool := !o.ready && decide (o.reg < n) && s.regScoreboard o.reg

/-- The operand waits in the chain of `r`. -/
def lacks (n : Nat) (s : InstructionQueue) (r : Nat) (o : SrcReg) : Bool :=
  !o.ready && decide (o.reg < n) && !s.regScoreboard o.reg && decide (o.reg = r)

def settled (n : Nat) (s : InstructionQueue) (o : SrcReg) : SrcReg := if met n s o then { o with ready := true } else o

/-- The queue after a new instruction, with the operands `srcs`, has been linked to its producers. -/
structure Linked (n inst : Nat) (d : DynInst) (srcs : List SrcReg) (s t : InstructionQueue) : Prop where
  self : t.insts inst = d.woken (srcs.countP (met n s))
  others : ∀ c, c ≠ inst → t.insts c = s.insts c
  count : ∀ r c, (t.dependGraph r).count c = (s.dependGraph r).count c + if c = inst then srcs.countP (lacks n s r) else 0
  arrived : t.arrived = s.arrived
  instList : t.instList = s.instList
  regScoreboard : t.regScoreboard = s.regScoreboard
  nonSpecInsts : t.nonSpecInsts = s.nonSpecInsts
  readyInsts : t.readyInsts = s.readyInsts
  regsReady : t.regsReady = s.regsReady

variable {pre srcs : List SrcReg}

/-- One operand. -/
theorem addDependent_spec {o : SrcReg} (hsrcs : (s.insts inst).srcs = pre ++ o :: srcs) :
    Linked n inst { s.insts inst with srcs := pre ++ settled n s o :: srcs } [o] s (s.addDependent n inst pre.length o) := by
  have hself : { s.insts inst with srcs := pre ++ o :: srcs } = s.insts inst := by rw [← hsrcs]
  have hkeep : met n s o = false → (s.insts inst) = ({ s.insts inst with srcs := pre ++ settled n s o :: srcs }).woken ([o].countP (met n s)) := by
    intro hmet
    rw [countP_singleton, hmet, settled, hmet]
    simp [hself]
  have hstay : met n s o = false → (∀ r, lacks n s r o = false) →
      Linked n inst { s.insts inst with srcs := pre ++ settled n s o :: srcs } [o] s s := by
    intro hmet hlacks
    refine ⟨hkeep hmet, fun _ _ => rfl, ?_, rfl, rfl, rfl, rfl, rfl, rfl⟩
    intro r c
    simp [hlacks r]
  unfold addDependent
  by_cases hready : o.ready = true
  · rw [if_pos hready]
    apply hstay
    · simp [met, hready]
    · simp [lacks, hready]
  rw [if_neg hready]
  by_cases hmisc : n ≤ o.reg
  · have hlt : decide (o.reg < n) = false := decide_eq_false (by omega)
    rw [if_pos hmisc]
    apply hstay
    · simp [met, hlt]
    · simp [lacks, hlt]
  rw [if_neg hmisc]
  have hlt : decide (o.reg < n) = true := decide_eq_true (by omega)
  have hnot : o.ready = false := Bool.eq_false_iff.mpr hready
  by_cases hboard : s.regScoreboard o.reg = true
  · have hmet : met n s o = true := by simp [met, hnot, hlt, hboard]
    rw [if_pos hboard]
    refine ⟨?_, fun c hc => insts_modify_ne hc, ?_, rfl, rfl, rfl, rfl, rfl, rfl⟩
    · rw [insts_modify_self, countP_singleton, hmet, settled, hmet, if_pos rfl, if_pos rfl]
      unfold markSrcRegReadyAt
      rw [markSrcRegReady_eq, hsrcs, modify_between]
    · simp [lacks, hboard, modify]
  · have hmet : met n s o = false := by simp [met, hboard]
    rw [if_neg hboard]
    refine ⟨hkeep hmet, fun _ _ => rfl, ?_, rfl, rfl, rfl, rfl, rfl, rfl⟩
    intro r c
    unfold link setChain
    dsimp only
    have hlack : lacks n s r o = decide (o.reg = r) := by
      unfold lacks
      simp [hnot, hlt, hboard]
    rw [countP_singleton, hlack]
    by_cases hr : r = o.reg
    · subst hr
      by_cases hc : c = inst
      · simp [hc]
      · simp [hc, Ne.symm hc]
    · rw [Function.update_of_ne hr]
      simp [Ne.symm hr]

/-- The operands that became ready before the instruction reached the queue are marked, the others wait in the chains. -/
theorem addDependents_spec (hsrcs : (s.insts inst).srcs = pre ++ srcs)
    (hle : (s.insts inst).readyRegs + srcs.countP (met n s) ≤ (s.insts inst).srcs.length) :
    Linked n inst { s.insts inst with srcs := pre ++ srcs.map (settled n s) } srcs s (s.addDependents n inst pre.length srcs) := by
  induction srcs generalizing s pre with
  | nil =>
    refine ⟨?_, fun _ _ => rfl, ?_, rfl, rfl, rfl, rfl, rfl, rfl⟩
    · rw [countP_nil, woken_zero, map_nil, ← hsrcs]
      rfl
    · simp [addDependents]
  | cons o srcs ih =>
    have hone := addDependent_spec (n := n) hsrcs
    generalize hu : s.addDependent n inst pre.length o = u at hone
    have hmet : met n u = met n s := by
      funext o
      rw [met, met, hone.regScoreboard]
    have hlacks : lacks n u = lacks n s := by
      funext r o
      rw [lacks, lacks, hone.regScoreboard]
    have hsettled : settled n u = settled n s := by
      funext o
      rw [settled, settled, hmet]
    have hsrcs' : (u.insts inst).srcs = (pre ++ [settled n s o]) ++ srcs := by
      rw [hone.self, append_assoc]
      rfl
    have hlen : (u.insts inst).srcs.length = (s.insts inst).srcs.length := by
      rw [hsrcs', hsrcs]
      simp
    have hregs : (u.insts inst).readyRegs = (s.insts inst).readyRegs + [o].countP (met n s) := by
      rw [hone.self]
      rfl
    have hcount : ∀ p : SrcReg → Bool, (o :: srcs).countP p = [o].countP p + srcs.countP p := by
      intro p
      rw [← countP_append, singleton_append]
    have hmore := hcount (met n s)
    have hnext := ih hsrcs' (by rw [hmet, hlen, hregs]; omega)
    rw [hsettled] at hnext
    have hplace : (pre ++ [settled n s o]).length = pre.length + 1 := by simp
    rw [hplace] at hnext
    have hgo : s.addDependents n inst pre.length (o :: srcs) = u.addDependents n inst (pre.length + 1) srcs := by
      rw [← hu]
      rfl
    rw [hgo]
    refine ⟨?_, ?_, ?_, hnext.arrived.trans hone.arrived, hnext.instList.trans hone.instList,
      hnext.regScoreboard.trans hone.regScoreboard, hnext.nonSpecInsts.trans hone.nonSpecInsts,
      hnext.readyInsts.trans hone.readyInsts, hnext.regsReady.trans hone.regsReady⟩
    · rw [hnext.self, hone.self, hmet, hcount, ← woken_woken]
      · simp [woken]
      · simp only [length_append, length_map, length_cons]
        rw [hsrcs, length_append, length_cons] at hle
        omega
    · intro c hc
      rw [hnext.others c hc, hone.others c hc]
    · intro r c
      rw [hnext.count r c, hone.count r c, hlacks, hcount]
      split <;> omega

/-! Operands of a squashed instruction. -/

/-- The operand reads `r` and is not marked as ready. -/
def unready (r : Nat) (o : SrcReg) : Bool := !o.ready && decide (o.reg = r)

/-- An operand that is not marked is in its chain, or else the chain is empty. -/
theorem remove_spec {r k : Nat} (hcount : (s.dependGraph r).count inst = if s.regScoreboard r = true then 0 else k + 1)
    (hempty : s.regScoreboard r = true → s.dependGraph r = []) :
    ∃ g, s.remove r inst = .ok { s with dependGraph := g } ∧
      (g r).count inst = (if s.regScoreboard r = true then 0 else k) ∧ (∀ r', r' ≠ r → g r' = s.dependGraph r') ∧
      (s.regScoreboard r = true → g r = []) ∧ ∀ c, c ≠ inst → (g r).count c = (s.dependGraph r).count c := by
  unfold remove
  by_cases hboard : s.regScoreboard r = true
  · rw [if_pos (hempty hboard), if_pos hboard]
    refine ⟨s.dependGraph, rfl, ?_, fun _ _ => rfl, hempty, fun _ _ => rfl⟩
    rw [hempty hboard, count_nil]
  · rw [if_neg hboard] at hcount ⊢
    have hmem : inst ∈ s.dependGraph r := count_pos_iff.mp (by omega)
    have hne : s.dependGraph r ≠ [] := ne_nil_of_mem hmem
    rw [if_neg hne, removeFrom_eq hmem, bind_ok]
    refine ⟨_, rfl, ?_, ?_, fun h => absurd h hboard, ?_⟩
    · rw [Function.update_self, count_erase_self, hcount, Nat.add_sub_cancel]
    · intro r' hr'
      exact Function.update_of_ne hr' ..
    · intro c hc
      rw [Function.update_self, count_erase_of_ne hc]

theorem removeSources_spec
    (hcount : ∀ r, r < n → (s.dependGraph r).count inst = if s.regScoreboard r = true then 0 else srcs.countP (unready r))
    (hempty : ∀ r, s.regScoreboard r = true → s.dependGraph r = []) :
    ∃ g, s.removeSources n inst srcs = .ok { s with dependGraph := g } ∧ (∀ r, r < n → (g r).count inst = 0) ∧
      (∀ r, n ≤ r → g r = s.dependGraph r) ∧ ∀ r c, c ≠ inst → (g r).count c = (s.dependGraph r).count c := by
  induction srcs generalizing s with
  | nil =>
    refine ⟨s.dependGraph, rfl, ?_, fun _ _ => rfl, fun _ _ _ => rfl⟩
    intro r hr
    rw [hcount r hr, countP_nil, ite_self]
  | cons o srcs ih =>
    have hcons : ∀ r, (o :: srcs).countP (unready r) = srcs.countP (unready r) + if unready r o = true then 1 else 0 :=
      fun r => countP_cons ..
    unfold removeSources
    by_cases ho : (!o.ready && decide (o.reg < n)) = true
    · rw [if_pos ho]
      obtain ⟨hready, hlt⟩ := Bool.and_eq_true_iff.mp ho
      have hlt := of_decide_eq_true hlt
      have hself : unready o.reg o = true := by simp [unready, hready]
      have hown := hcount o.reg hlt
      rw [hcons, if_pos hself] at hown
      obtain ⟨g, hg, hinst, hother, hgone, hrest⟩ := remove_spec hown (hempty o.reg)
      rw [hg, bind_ok]
      have hnext := ih (s := { s with dependGraph := g }) ?_ ?_
      · obtain ⟨g', hg', hinst', hmisc', hrest'⟩ := hnext
        refine ⟨g', hg', hinst', ?_, ?_⟩
        · intro r hr
          rw [hmisc' r hr]
          exact hother r (by omega)
        intro r c hc
        rw [hrest' r c hc]
        dsimp only
        by_cases hr : r = o.reg
        · rw [hr, hrest c hc]
        · rw [hother r hr]
      · intro r hr
        dsimp only
        by_cases hro : r = o.reg
        · rw [hro, hinst]
        · have hnot : unready r o = false := by simp [unready, Ne.symm hro]
          rw [hother r hro, hcount r hr, hcons, hnot]
          rfl
      · intro r hboard
        dsimp only at hboard ⊢
        by_cases hro : r = o.reg
        · rw [hro]
          exact hgone (hro ▸ hboard)
        · rw [hother r hro]
          exact hempty r hboard
    · rw [if_neg ho]
      apply ih _ hempty
      intro r hr
      have hnot : unready r o = false := by
        apply Bool.eq_false_iff.mpr
        intro h
        obtain ⟨hready, hreg⟩ := Bool.and_eq_true_iff.mp h
        apply ho
        rw [hready, of_decide_eq_true hreg]
        simpa using hr
      rw [hcount r hr, hcons, hnot]
      rfl

end InstructionQueue

end Gem5.Cpu
