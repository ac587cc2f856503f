import Gem5Nvmain.Cpu.InstQueueSpec

/- What the instruction queue is for: which values have been produced, and which ones every instruction still awaits.

  `Tracks` relates a queue to a dataflow: a chain holds an instruction once for each operand that it awaits there, and
  ready bits and counts agree with that. `Signalled` says that what has been signalled is what awaits nothing. Both
  are kept when a chain is woken (`Woke.tracks`, `Woke.signalled`) and when a register is given to a new producer
  (`Tracks.addToProducers`). -/
namespace Gem5.Cpu
open Lib List Function

structure Dataflow where
  insts : Nat → RenamedInst
  produced : Nat → Bool
  awaited : Nat → List Nat
  squashed : Nat → Bool

namespace Dataflow

def init : Dataflow where
  insts _ := ⟨0, false, false, false, false, false, false, [], []⟩
  produced _ := false
  awaited _ := []
  squashed _ := false

def arrive (a : Dataflow) (inst : Nat) (i : RenamedInst) : Dataflow :=
  { a with insts := update a.insts inst i, squashed := update a.squashed inst false }

/-- An operand that is not ready and has not been produced. -/
def missing (n : Nat) (a : Dataflow) (o : SrcReg) : Bool := !o.ready && decide (o.reg < n) && !a.produced o.reg

/-- What a new instruction awaits. -/
def await (n : Nat) (a : Dataflow) (inst : Nat) (srcs : List SrcReg) : Dataflow :=
  { a with awaited := update a.awaited inst ((srcs.filter (missing n a)).map SrcReg.reg) }

/-- The register has a new producer. -/
def give (a : Dataflow) (r : Nat) : Dataflow := { a with produced := update a.produced r false }

/-- The producer of the register has completed. -/
def produce (a : Dataflow) (r : Nat) : Dataflow :=
  { a with
    produced := update a.produced r true
    awaited := fun c => (a.awaited c).filter fun q => !decide (q = r) }

/-- The instructions of a thread that are younger than `k` are squashed. -/
def squash (a : Dataflow) (tid k : Nat) : Dataflow :=
  { a with
    awaited := fun c => if (a.insts c).threadNumber = tid ∧ k < c then [] else a.awaited c
    squashed := fun c => a.squashed c || decide ((a.insts c).threadNumber = tid ∧ k < c) }

/-- The destinations that are renamed. -/
def written (n : Nat) (i : RenamedInst) : List Nat := i.destRegs.filter fun r => decide (r < n)

def step (n : Nat) (a : Dataflow) : IqEvent → Dataflow
  | .insert inst i _ => (written n i).foldl give ((a.arrive inst i).await n inst i.srcs)
  | .insertNonSpec inst i => (written n i).foldl give (a.arrive inst i)
  | .wakeDependents inst => (written n (a.insts inst)).foldl produce a
  | .doSquash tid k => a.squash tid k
  | _ => a

def after (n : Nat) (h : List IqEvent) : Dataflow := h.foldl (step n) init

end Dataflow

open InstructionQueue

variable {n inst : Nat} {s t : InstructionQueue} {a : Dataflow}

/-- The queue tracks the dataflow: chains, ready bits and counts show what is awaited. -/
structure Tracks (n : Nat) (s : InstructionQueue) (a : Dataflow) : Prop where
  destRegs : ∀ c, (s.insts c).destRegs = (a.insts c).destRegs
  thread : ∀ c, (s.insts c).threadNumber = (a.insts c).threadNumber
  produced : s.regScoreboard = a.produced
  chains : ∀ r c, (s.dependGraph r).count c = (a.awaited c).count r
  fed : ∀ r c, a.produced r = true → r ∉ a.awaited c
  renamed : ∀ c, ∀ r ∈ a.awaited c, r < n
  held : ∀ c, a.awaited c ≠ [] → c ∈ s.instList (s.insts c).threadNumber ∧ (s.insts c).issued = false ∧
    (s.insts c).canIssue = false ∧ (s.insts c).speculative = true
  unmarked : ∀ c, s.inQueue c = true → (s.insts c).speculative = true → ∀ r, r < n →
    (a.awaited c).count r = if a.produced r = true then 0 else (s.insts c).srcs.countP (unready r)
  counted : ∀ c, s.inQueue c = true → (s.insts c).speculative = true →
    (s.insts c).readyRegs + (a.awaited c).length = (s.insts c).srcs.length
  listed : ∀ tid, ∀ c ∈ s.instList tid, c ∈ s.arrived ∧ (s.insts c).threadNumber = tid ∧ (s.insts c).squashedInIQ = false
  ordered : ∀ tid, (s.instList tid).Pairwise (· < ·)

/-- What has been signalled is what awaits nothing. -/
structure Signalled (s : InstructionQueue) (a : Dataflow) : Prop where
  ready : ∀ c ∈ s.arrived, (s.insts c).speculative = true → a.squashed c = false →
    s.signals c = if a.awaited c = [] then 1 else 0
  once : ∀ c, s.signals c ≤ 1
  fresh : ∀ c, c ∉ s.arrived → s.signals c = 0
  live : ∀ c, a.awaited c ≠ [] → a.squashed c = false
  nonSpec : ∀ c ∈ s.nonSpecInsts, c ∈ s.arrived ∧ (s.insts c).speculative = false ∧ s.signals c = 0
  distinct : s.nonSpecInsts.Nodup

theorem tracks_init : Tracks n init Dataflow.init where
  destRegs _ := rfl
  thread _ := rfl
  produced := rfl
  chains _ _ := rfl
  fed _ _ h := by cases h
  renamed _ _ h := by cases h
  held _ h := absurd rfl h
  unmarked c h := by simp [inQueue, init] at h
  counted c h := by simp [inQueue, init] at h
  listed _ _ h := by cases h
  ordered _ := List.Pairwise.nil

theorem signalled_init : Signalled init Dataflow.init where
  ready _ h := by cases h
  once _ := Nat.zero_le 1
  fresh _ _ := rfl
  live _ _ := rfl
  nonSpec _ h := by cases h
  distinct := nodup_nil

namespace Tracks

theorem waiting (h : Tracks n s a) {c : Nat} (hne : a.awaited c ≠ []) : s.inQueue c = true := by
  obtain ⟨hmem, hissued, -⟩ := h.held c hne
  unfold inQueue DynInst.waiting
  simp [hmem, hissued]

theorem awaits (h : Tracks n s a) {r c : Nat} (hmem : c ∈ s.dependGraph r) : r ∈ a.awaited c := by
  apply count_pos_iff.mp
  rw [← h.chains r c]
  exact count_pos_iff.mpr hmem

theorem empty (h : Tracks n s a) {r : Nat} (hnone : ∀ c, r ∉ a.awaited c) : s.dependGraph r = [] := by
  apply eq_nil_iff_forall_not_mem.mpr
  intro c hc
  exact hnone c (h.awaits hc)

/-- Changes that keep the operands and the graph. -/
theorem keep (h : Tracks n s a) (hinst : ∀ c, (t.insts c).toRenamedInst = (s.insts c).toRenamedInst)
    (hregs : ∀ c, (t.insts c).readyRegs = (s.insts c).readyRegs) (harrived : t.arrived = s.arrived)
    (hgraph : t.dependGraph = s.dependGraph) (hboard : t.regScoreboard = s.regScoreboard)
    (hlist : ∀ tid, (t.instList tid).Sublist (s.instList tid)) (hqueue : ∀ c, t.inQueue c = true → s.inQueue c = true)
    (hheld : ∀ c, a.awaited c ≠ [] → c ∈ t.instList (s.insts c).threadNumber ∧ (t.insts c).issued = false ∧ (t.insts c).canIssue = false)
    (hsquashed : ∀ tid, ∀ c ∈ t.instList tid, (t.insts c).squashedInIQ = false) : Tracks n t a where
  destRegs c := by rw [hinst, h.destRegs]
  thread c := by rw [hinst, h.thread]
  produced := hboard.trans h.produced
  chains r c := by rw [hgraph, h.chains]
  fed := h.fed
  renamed := h.renamed
  held c hne := by
    obtain ⟨hmem, hissued, hcan⟩ := hheld c hne
    rw [hinst]
    exact ⟨hmem, hissued, hcan, (h.held c hne).2.2.2⟩
  unmarked c hq hspec := by
    rw [hinst] at hspec ⊢
    exact h.unmarked c (hqueue c hq) hspec
  counted c hq hspec := by
    rw [hinst] at hspec ⊢
    rw [hregs]
    exact h.counted c (hqueue c hq) hspec
  listed tid c hc := by
    obtain ⟨harr, hthread, -⟩ := h.listed tid c ((hlist tid).subset hc)
    rw [hinst, harrived]
    exact ⟨harr, hthread, hsquashed tid c hc⟩
  ordered tid := (h.ordered tid).sublist (hlist tid)

/-- A change of the status of one instruction. -/
theorem modify (h : Tracks n s a) {f : DynInst → DynInst} (hinst : (f (s.insts inst)).toRenamedInst = (s.insts inst).toRenamedInst)
    (hregs : (f (s.insts inst)).readyRegs = (s.insts inst).readyRegs)
    (hsquashed : (f (s.insts inst)).squashedInIQ = (s.insts inst).squashedInIQ)
    (hwaiting : (f (s.insts inst)).waiting = true → (s.insts inst).waiting = true)
    (hheld : a.awaited inst ≠ [] → (f (s.insts inst)).issued = false ∧ (f (s.insts inst)).canIssue = false) :
    Tracks n (s.modify inst f) a := by
  have hcase : ∀ {P : DynInst → DynInst → Prop}, P (f (s.insts inst)) (s.insts inst) → (∀ d, P d d) →
      ∀ c, P ((s.modify inst f).insts c) (s.insts c) := by
    intro P hself hsame c
    by_cases hc : c = inst
    · rw [hc, insts_modify_self]
      exact hself
    · rw [insts_modify_ne hc]
      exact hsame _
  have hinst' := hcase (P := fun d e => d.toRenamedInst = e.toRenamedInst) hinst fun _ => rfl
  refine h.keep hinst' (hcase (P := fun d e => d.readyRegs = e.readyRegs) hregs fun _ => rfl) rfl rfl rfl
    (fun _ => List.Sublist.refl _) ?_ ?_ ?_
  · intro c hq
    unfold inQueue at hq ⊢
    rw [hinst' c] at hq
    obtain ⟨hmem, hw⟩ := Bool.and_eq_true_iff.mp hq
    rw [Bool.and_eq_true_iff]
    exact ⟨hmem, hcase (P := fun d e => d.waiting = true → e.waiting = true) hwaiting (fun _ hw => hw) c hw⟩
  · intro c hne
    obtain ⟨hmem, hissued, hcan, -⟩ := h.held c hne
    refine ⟨hmem, ?_⟩
    by_cases hc : c = inst
    · subst hc
      rw [insts_modify_self]
      exact hheld hne
    · rw [insts_modify_ne hc]
      exact ⟨hissued, hcan⟩
  · intro tid c hc
    rw [hcase (P := fun d e => d.squashedInIQ = e.squashedInIQ) hsquashed (fun _ => rfl) c]
    exact (h.listed tid c hc).2.2

end Tracks

/-! What the status of an instruction says. -/

theorem Tracks.idle_of_issued (h : Tracks n s a) (hissued : (s.insts inst).issued = true) : a.awaited inst = [] := by
  by_contra hne
  have hnot := (h.held inst hne).2.1
  rw [hissued] at hnot
  cases hnot

theorem Tracks.idle_of_signalled (h : Tracks n s a) (hs : Signalled s a) (hpos : 0 < s.signals inst) : a.awaited inst = [] := by
  by_contra hne
  obtain ⟨hl, -, -, hspec⟩ := h.held inst hne
  have hzero := hs.ready inst (h.listed _ inst hl).1 hspec (hs.live inst hne)
  rw [if_neg hne] at hzero
  omega

theorem Signalled.keep (hs : Signalled s a) (harrived : t.arrived = s.arrived)
    (hinst : ∀ c, (t.insts c).toRenamedInst = (s.insts c).toRenamedInst) (hsig : ∀ c, t.signals c = s.signals c)
    (hnonSpec : t.nonSpecInsts.Sublist s.nonSpecInsts) : Signalled t a := by
  refine ⟨?_, ?_, ?_, hs.live, ?_, hs.distinct.sublist hnonSpec⟩
  · intro c hc hspec hsq
    rw [harrived] at hc
    rw [hinst] at hspec
    rw [hsig]
    exact hs.ready c hc hspec hsq
  · intro c
    rw [hsig]
    exact hs.once c
  · intro c hc
    rw [harrived] at hc
    rw [hsig]
    exact hs.fresh c hc
  · intro c hc
    rw [harrived, hinst, hsig]
    exact hs.nonSpec c (hnonSpec.subset hc)

theorem Signalled.modify {f : DynInst → DynInst} (hs : Signalled s a)
    (hinst : (f (s.insts inst)).toRenamedInst = (s.insts inst).toRenamedInst) : Signalled (s.modify inst f) a := by
  refine hs.keep rfl ?_ (fun _ => rfl) (List.Sublist.refl _)
  intro c
  by_cases hc : c = inst
  · rw [hc, insts_modify_self, hinst]
  · rw [insts_modify_ne hc]

theorem Tracks.sameBut (h : Tracks n s a) (hsame : SameBut s t) : Tracks n t a := by
  refine h.keep (fun c => by rw [hsame.insts]) (fun c => by rw [hsame.insts]) hsame.arrived hsame.dependGraph hsame.regScoreboard
    (fun tid => by rw [hsame.instList]) ?_ ?_ ?_
  · intro c hq
    unfold inQueue at hq ⊢
    rwa [hsame.insts, hsame.instList] at hq
  · intro c hne
    rw [hsame.instList, hsame.insts]
    exact ⟨(h.held c hne).1, (h.held c hne).2.1, (h.held c hne).2.2.1⟩
  · intro tid c hc
    rw [hsame.instList] at hc
    rw [hsame.insts]
    exact (h.listed tid c hc).2.2

/-! A completed producer. -/

theorem length_filter_ne {r : Nat} {l : List Nat} : (l.filter fun q => !decide (q = r)).length + l.count r = l.length := by
  induction l with
  | nil => rfl
  | cons q l ih =>
    by_cases hq : q = r
    · subst hq
      simp
      omega
    · rw [filter_cons_of_pos (by simpa using hq), count_cons_of_ne hq]
      simp only [length_cons]
      omega

theorem count_filter_ne {q r : Nat} {l : List Nat} (h : q ≠ r) : (l.filter fun q => !decide (q = r)).count q = l.count q := by
  apply count_filter
  simpa using h

/-- The queue `t` after the chain of `r` has been woken. -/
structure Woke (r : Nat) (s t : InstructionQueue) (a : Dataflow) : Prop where
  insts : ∀ c, t.insts c = (s.insts c).woken ((a.awaited c).count r)
  arrived : t.arrived = s.arrived
  instList : t.instList = s.instList
  nonSpecInsts : t.nonSpecInsts = s.nonSpecInsts
  dependGraph : t.dependGraph = update s.dependGraph r []
  regScoreboard : t.regScoreboard = update s.regScoreboard r true
  signals : ∀ c, t.signals c = s.signals c + if r ∈ a.awaited c ∧ (a.produce r).awaited c = [] then 1 else 0

theorem Dataflow.length_produce {r c : Nat} : ((a.produce r).awaited c).length + (a.awaited c).count r = (a.awaited c).length :=
  length_filter_ne

theorem Dataflow.of_produce {r c : Nat} (hne : (a.produce r).awaited c ≠ []) : a.awaited c ≠ [] := by
  intro heq
  apply hne
  change (a.awaited c).filter _ = []
  rw [heq]
  rfl

/-- The instructions of the chain are signalled when they awaited only this register. -/
theorem Tracks.woke {r : Nat} (h : Tracks n s a) : Woke r s (s.wakeReg r) a := by
  have hcount : ∀ c, (s.dependGraph r).count c = (a.awaited c).count r := h.chains r
  have hroom : ∀ c ∈ s.dependGraph r, (s.insts c).canIssue = false ∧
      (s.insts c).readyRegs + (s.dependGraph r).count c ≤ (s.insts c).srcs.length := by
    intro c hc
    have hne : a.awaited c ≠ [] := ne_nil_of_mem (h.awaits hc)
    obtain ⟨-, -, hcan, hspec⟩ := h.held c hne
    have hsum := h.counted c (h.waiting hne) hspec
    have hle : (a.awaited c).count r ≤ (a.awaited c).length := count_le_length
    rw [hcount]
    exact ⟨hcan, by omega⟩
  obtain ⟨hsame, hsig⟩ := wakeChain_spec (s := s.setChain r []) hroom
  refine ⟨?_, hsame.arrived, hsame.instList, hsame.nonSpecInsts, hsame.dependGraph, ?_, ?_⟩
  · intro c
    rw [← hcount]
    exact congrFun hsame.insts c
  · unfold InstructionQueue.wakeReg setReg
    rw [hsame.regScoreboard]
    rfl
  · intro c
    rw [show (s.wakeReg r).signals c = (wakeChain (s.dependGraph r) (s.setChain r [])).signals c from rfl, hsig c]
    congr 1
    by_cases hmem : r ∈ a.awaited c
    · have hne : a.awaited c ≠ [] := ne_nil_of_mem hmem
      have hin : c ∈ s.dependGraph r := by
        apply count_pos_iff.mp
        rw [hcount]
        exact count_pos_iff.mpr hmem
      have hsum := h.counted c (h.waiting hne) (h.held c hne).2.2.2
      have hl := a.length_produce (r := r) (c := c)
      have hiff : (s.insts c).readyRegs + (s.dependGraph r).count c = (s.insts c).srcs.length ↔ (a.produce r).awaited c = [] := by
        rw [hcount, ← length_eq_zero_iff]
        omega
      change (if c ∈ s.dependGraph r ∧ (s.insts c).readyRegs + (s.dependGraph r).count c = (s.insts c).srcs.length then 1 else 0) = _
      simp only [hiff, hin, hmem]
    · have hout : c ∉ s.dependGraph r := fun hc => hmem (h.awaits hc)
      simp only [hout, hmem, false_and]

namespace Woke
variable {r : Nat}

theorem static (w : Woke r s t a) (c : Nat) : (t.insts c).toRenamedInst = (s.insts c).toRenamedInst := by
  rw [w.insts]
  rfl

theorem inQueue (w : Woke r s t a) (c : Nat) : t.inQueue c = s.inQueue c := by
  unfold InstructionQueue.inQueue
  rw [w.static, w.instList, w.insts]
  rfl

theorem tracks (w : Woke r s t a) (h : Tracks n s a) : Tracks n t (a.produce r) := by
  refine ⟨?_, ?_, ?_, ?_, ?_, ?_, ?_, ?_, ?_, ?_, ?_⟩
  · intro c
    rw [w.static]
    exact h.destRegs c
  · intro c
    rw [w.static]
    exact h.thread c
  · rw [w.regScoreboard, h.produced]
    rfl
  · intro q c
    rw [w.dependGraph]
    change _ = ((a.awaited c).filter _).count q
    by_cases hq : q = r
    · subst hq
      rw [update_self, count_nil, eq_comm, count_eq_zero]
      simp
    · rw [update_of_ne hq, count_filter_ne hq, h.chains]
  · intro q c hq hmem
    obtain ⟨hmem, hne⟩ := mem_filter.mp hmem
    have hq' : a.produced q = true := by
      have hq : update a.produced r true q = true := hq
      rwa [update_of_ne (by simpa using hne)] at hq
    exact h.fed q c hq' hmem
  · intro c q hmem
    exact h.renamed c q (mem_filter.mp hmem).1
  · intro c hne
    obtain ⟨hmem, hissued, hcan, hspec⟩ := h.held c (Dataflow.of_produce hne)
    have hsum := h.counted c (h.waiting (Dataflow.of_produce hne)) hspec
    have hl := a.length_produce (r := r) (c := c)
    have hpos := length_pos_iff.mpr hne
    rw [w.static, w.instList, w.insts]
    refine ⟨hmem, hissued, ?_, hspec⟩
    unfold DynInst.woken
    rw [hcan, Bool.false_or]
    exact decide_eq_false (by omega)
  · intro c hq hspec q hqn
    rw [w.inQueue] at hq
    rw [w.static] at hspec ⊢
    have hold := h.unmarked c hq hspec q hqn
    change ((a.awaited c).filter _).count q = if update a.produced r true q = true then 0 else _
    by_cases hqr : q = r
    · subst hqr
      rw [update_self, if_pos rfl, count_eq_zero]
      simp
    · rw [count_filter_ne hqr, update_of_ne hqr]
      exact hold
  · intro c hq hspec
    rw [w.inQueue] at hq
    rw [w.static] at hspec ⊢
    have hsum := h.counted c hq hspec
    have hl := a.length_produce (r := r) (c := c)
    rw [w.insts]
    change (s.insts c).readyRegs + (a.awaited c).count r + _ = _
    omega
  · intro tid c hc
    rw [w.instList] at hc
    rw [w.static, w.arrived, w.insts]
    exact h.listed tid c hc
  · rw [w.instList]
    exact h.ordered

theorem signals_of_notMem (w : Woke r s t a) {c : Nat} (hc : r ∉ a.awaited c) : t.signals c = s.signals c := by
  rw [w.signals]
  simp only [hc, false_and, if_false, Nat.add_zero]

theorem signalled (w : Woke r s t a) (h : Tracks n s a) (hs : Signalled s a) : Signalled t (a.produce r) := by
  refine ⟨?_, ?_, ?_, ?_, ?_, ?_⟩
  · intro c hc hspec hsq
    rw [w.arrived] at hc
    rw [w.static] at hspec
    have hold := hs.ready c hc hspec hsq
    by_cases hmem : r ∈ a.awaited c
    · rw [w.signals, hold, if_neg (ne_nil_of_mem hmem), Nat.zero_add]
      simp only [hmem, true_and]
    · have hsame : (a.produce r).awaited c = a.awaited c := by
        apply filter_eq_self.mpr
        intro q hq
        have hne : q ≠ r := fun heq => hmem (heq ▸ hq)
        simpa using hne
      rw [w.signals_of_notMem hmem, hsame, hold]
  · intro c
    by_cases hmem : r ∈ a.awaited c
    · have hne := ne_nil_of_mem hmem
      obtain ⟨hl, -, -, hspec⟩ := h.held c hne
      rw [w.signals, hs.ready c (h.listed _ c hl).1 hspec (hs.live c hne), if_neg hne]
      split <;> omega
    · rw [w.signals_of_notMem hmem]
      exact hs.once c
  · intro c hc
    rw [w.arrived] at hc
    have hout : r ∉ a.awaited c := fun hmem => hc (h.listed _ c (h.held c (ne_nil_of_mem hmem)).1).1
    rw [w.signals_of_notMem hout, hs.fresh c hc]
  · intro c hne
    exact hs.live c (Dataflow.of_produce hne)
  · intro c hc
    rw [w.nonSpecInsts] at hc
    obtain ⟨harr, hspec, hsig⟩ := hs.nonSpec c hc
    have hout : r ∉ a.awaited c := by
      intro hmem
      have hspec' := (h.held c (ne_nil_of_mem hmem)).2.2.2
      rw [hspec] at hspec'
      cases hspec'
    rw [w.static, w.arrived, w.signals_of_notMem hout]
    exact ⟨harr, hspec, hsig⟩
  · rw [w.nonSpecInsts]
    exact hs.distinct

end Woke

/-! A new producer. -/

theorem Tracks.unread {r : Nat} (h : Tracks n s a) (hr : r < n)
    (hfree : ∀ c, s.inQueue c = true → ∀ o ∈ (s.insts c).srcs, o.reg ≠ r) (c : Nat) : r ∉ a.awaited c := by
  intro hmem
  have hne := ne_nil_of_mem hmem
  have hq := h.waiting hne
  have hcount := h.unmarked c hq (h.held c hne).2.2.2 r hr
  have hnone : (s.insts c).srcs.countP (unready r) = 0 := by
    apply countP_eq_zero.mpr
    intro o ho
    simp [unready, hfree c hq o ho]
  have hpos : 0 < (a.awaited c).count r := count_pos_iff.mpr hmem
  rw [hnone, ite_self] at hcount
  omega

/-- Nothing in the queue reads the register that is given to a new producer. -/
theorem Tracks.give {r : Nat} (h : Tracks n s a) (hr : r < n)
    (hfree : ∀ c, s.inQueue c = true → ∀ o ∈ (s.insts c).srcs, o.reg ≠ r) : Tracks n (s.setReg r false) (a.give r) := by
  refine ⟨h.destRegs, h.thread, ?_, h.chains, ?_, h.renamed, h.held, ?_, h.counted, h.listed, h.ordered⟩
  · unfold setReg Dataflow.give
    rw [h.produced]
  · intro q c hq
    have hq : update a.produced r false q = true := hq
    by_cases hqr : q = r
    · rw [hqr, update_self] at hq
      cases hq
    · rw [update_of_ne hqr] at hq
      exact h.fed q c hq
  · intro c hq hspec q hqn
    have hold := h.unmarked c hq hspec q hqn
    change (a.awaited c).count q = if update a.produced r false q = true then 0 else (s.insts c).srcs.countP (unready q)
    by_cases hqr : q = r
    · subst hqr
      have hnone : (s.insts c).srcs.countP (unready q) = 0 := by
        apply countP_eq_zero.mpr
        intro o ho
        simp [unready, hfree c hq o ho]
      rw [hnone, ite_self]
      exact count_eq_zero.mpr (h.unread hr hfree c)
    · rw [update_of_ne hqr]
      exact hold

theorem Dataflow.awaited_give {l : List Nat} : (l.foldl give a).awaited = a.awaited := by
  induction l generalizing a with
  | nil => rfl
  | cons r l ih => exact ih

theorem Dataflow.squashed_give {l : List Nat} : (l.foldl give a).squashed = a.squashed := by
  induction l generalizing a with
  | nil => rfl
  | cons r l ih => exact ih

/-- `addToProducers` finds every chain empty. -/
theorem Tracks.addToProducers {destRegs : List Nat} (h : Tracks n s a)
    (hfree : ∀ r ∈ destRegs, r < n → ∀ c, s.inQueue c = true → ∀ o ∈ (s.insts c).srcs, o.reg ≠ r) :
    ∃ b, s.addToProducers n destRegs = .ok { s with regScoreboard := b } ∧
      Tracks n { s with regScoreboard := b } ((destRegs.filter fun r => decide (r < n)).foldl Dataflow.give a) := by
  induction destRegs generalizing s a with
  | nil => exact ⟨s.regScoreboard, rfl, h⟩
  | cons r destRegs ih =>
    unfold InstructionQueue.addToProducers
    by_cases hr : n ≤ r
    · rw [if_pos hr, filter_cons_of_neg (by simpa using hr)]
      exact ih h fun q hq => hfree q (mem_cons_of_mem _ hq)
    · have hr : r < n := by omega
      have hown := hfree r (mem_cons_self ..) hr
      rw [if_neg (by omega), h.empty (h.unread hr hown), if_neg (by simp), filter_cons_of_pos (by simpa using hr)]
      exact ih (h.give hr hown) fun q hq => hfree q (mem_cons_of_mem _ hq)

end Gem5.Cpu
