import Gem5Nvmain.Cpu.Dataflow
import Gem5Nvmain.Lib.UndoLog

/- Squashed instructions leave the chains, and nothing else does: an operand that is not marked as ready is in its
  chain, or the chain is empty (`Tracks.removeSources`). -/
namespace Gem5.Cpu
open Lib List Function
open InstructionQueue

variable {n inst : Nat} {s t : InstructionQueue} {a : Dataflow}

/-- One instruction is squashed. -/
def Dataflow.drop (a : Dataflow) (inst : Nat) : Dataflow :=
  { a with awaited := update a.awaited inst [], squashed := update a.squashed inst true }

/-- The queue `t` after the instruction has left the graph and the non-speculative instructions. -/
structure Left (inst : Nat) (s t : InstructionQueue) : Prop where
  insts : t.insts = s.insts
  arrived : t.arrived = s.arrived
  instList : t.instList = s.instList
  regScoreboard : t.regScoreboard = s.regScoreboard
  signals : ∀ c, t.signals c = s.signals c
  nonSpec : t.nonSpecInsts.Sublist s.nonSpecInsts
  kept : ∀ c, c ≠ inst → c ∈ s.nonSpecInsts → c ∈ t.nonSpecInsts
  graph : ∀ r c, (t.dependGraph r).count c = if c = inst then 0 else (s.dependGraph r).count c

/-- `remove` never runs off the end of a chain. -/
theorem Tracks.removeSources (h : Tracks n s a) (hq : s.inQueue inst = true) (hspec : (s.insts inst).speculative = true) :
    ∃ t, s.removeSources n inst (s.insts inst).srcs = .ok t ∧ Left inst s t := by
  have hcount : ∀ r, r < n → (s.dependGraph r).count inst =
      if s.regScoreboard r = true then 0 else (s.insts inst).srcs.countP (unready r) := by
    intro r hr
    rw [h.chains, h.produced]
    exact h.unmarked inst hq hspec r hr
  have hempty : ∀ r, s.regScoreboard r = true → s.dependGraph r = [] := by
    intro r hboard
    rw [h.produced] at hboard
    exact h.empty fun c => h.fed r c hboard
  obtain ⟨g, hg, hinst, hmisc, hrest⟩ := removeSources_spec hcount hempty
  refine ⟨_, hg, rfl, rfl, rfl, rfl, fun _ => rfl, List.Sublist.refl _, fun _ _ hc => hc, ?_⟩
  intro r c
  by_cases hc : c = inst
  · rw [if_pos hc, hc]
    by_cases hr : r < n
    · exact hinst r hr
    · dsimp only
      rw [hmisc r (by omega), h.chains]
      apply count_eq_zero.mpr
      intro hmem
      exact hr (h.renamed inst r hmem)
  · rw [if_neg hc]
    exact hrest r c hc

theorem Tracks.graph_of_idle (h : Tracks n s a) (hidle : a.awaited inst = []) (r c : Nat) :
    (s.dependGraph r).count c = if c = inst then 0 else (s.dependGraph r).count c := by
  by_cases hc : c = inst
  · rw [if_pos hc, hc, h.chains, hidle, count_nil]
  · rw [if_neg hc]

theorem Tracks.idle_of_nonSpec (h : Tracks n s a) (hspec : (s.insts inst).speculative ≠ true) : a.awaited inst = [] := by
  by_contra hne
  exact hspec (h.held inst hne).2.2.2

theorem Tracks.leaveGraph (h : Tracks n s a) (hq : s.inQueue inst = true) (hok : s.leaveGraph n inst = .ok t) : Left inst s t := by
  unfold InstructionQueue.leaveGraph at hok
  by_cases hspec : (s.insts inst).speculative = true
  · rw [if_pos hspec] at hok
    obtain ⟨t', ht', hleft⟩ := h.removeSources hq hspec
    rw [ht'] at hok
    cases hok
    exact hleft
  · rw [if_neg hspec] at hok
    have hgraph := h.graph_of_idle (h.idle_of_nonSpec hspec)
    unfold forgetNonSpec at hok
    dsimp only at hok
    split at hok
    · split at hok
      · cases hok
        refine ⟨rfl, rfl, rfl, rfl, fun _ => rfl, erase_sublist, ?_, hgraph⟩
        intro c hc hmem
        exact (mem_erase_of_ne hc).mpr hmem
      · obtain ⟨u, -, hok⟩ := of_bind hok
        cases hok
        exact ⟨rfl, rfl, rfl, rfl, fun _ => rfl, List.Sublist.refl _, fun _ _ hc => hc, hgraph⟩
    · cases hok
      exact ⟨rfl, rfl, rfl, rfl, fun _ => rfl, List.Sublist.refl _, fun _ _ hc => hc, hgraph⟩

theorem Tracks.leaveGraph_returns (h : Tracks n s a) (hq : s.inQueue inst = true) (hfault : s.faultShows inst = true) :
    ∃ t, s.leaveGraph n inst = .ok t := by
  unfold InstructionQueue.leaveGraph
  by_cases hspec : (s.insts inst).speculative = true
  · rw [if_pos hspec]
    obtain ⟨t, ht, -⟩ := h.removeSources hq hspec
    exact ⟨t, ht⟩
  · rw [if_neg hspec]
    have hw : (s.insts inst).waiting = true := by
      exact (Bool.and_eq_true_iff.mp hq).2
    unfold forgetNonSpec
    dsimp only
    split
    · split
      · exact ⟨_, rfl⟩
      · rename_i hmem
        have hreq : ((s.insts inst).hasFault || (s.insts inst).isMemRef) = true := by
          simpa [faultShows, hspec, hw, hmem] using hfault
        rw [show require ((s.insts inst).hasFault || (s.insts inst).isMemRef) = .ok () by simpa using hreq]
        exact ⟨_, rfl⟩
    · exact ⟨_, rfl⟩

variable {tid : Nat}

theorem Tracks.drop (h : Tracks n s a) (hmem : inst ∈ s.instList tid) (hothers : ∀ c, c ≠ inst → t.insts c = s.insts c)
    (hstatic : ∀ c, (t.insts c).toRenamedInst = (s.insts c).toRenamedInst) (harrived : t.arrived = s.arrived)
    (hboard : t.regScoreboard = s.regScoreboard) (hlist : t.instList = update s.instList tid ((s.instList tid).erase inst))
    (hgraph : ∀ r c, (t.dependGraph r).count c = if c = inst then 0 else (s.dependGraph r).count c) : Tracks n t (a.drop inst) := by
  have hthread := (h.listed tid inst hmem).2.1
  have hself : (a.drop inst).awaited inst = [] := update_self ..
  have hother : ∀ {c}, c ≠ inst → (a.drop inst).awaited c = a.awaited c := fun hc => update_of_ne hc ..
  have hnodup : ∀ tid, (s.instList tid).Nodup := fun tid => (h.ordered tid).imp Nat.ne_of_lt
  have hsub : ∀ t', (t.instList t').Sublist (s.instList t') := by
    intro t'
    rw [hlist]
    by_cases ht : t' = tid
    · rw [ht, update_self]
      exact erase_sublist
    · rw [update_of_ne ht]
  have hgone : ∀ t', inst ∉ t.instList t' := by
    intro t' hin
    have ht : t' = tid := (h.listed t' inst ((hsub t').subset hin)).2.1.symm.trans hthread
    rw [ht, hlist, update_self] at hin
    exact ((hnodup tid).mem_erase_iff.mp hin).1 rfl
  have hstays : ∀ {t' c}, c ≠ inst → c ∈ s.instList t' → c ∈ t.instList t' := by
    intro t' c hc hin
    rw [hlist]
    by_cases ht : t' = tid
    · rw [ht] at hin ⊢
      rw [update_self]
      exact (mem_erase_of_ne hc).mpr hin
    · rwa [update_of_ne ht]
  have hqueue : ∀ {c}, t.inQueue c = true → c ≠ inst ∧ s.inQueue c = true := by
    intro c hq
    unfold inQueue at hq ⊢
    rw [hstatic] at hq
    obtain ⟨hin, hw⟩ := Bool.and_eq_true_iff.mp hq
    have hin := of_decide_eq_true hin
    have hc : c ≠ inst := fun heq => hgone _ (heq ▸ hin)
    rw [hothers c hc] at hw
    rw [hw, Bool.and_true, decide_eq_true_eq]
    exact ⟨hc, (hsub _).subset hin⟩
  have hne : ∀ {c}, (a.drop inst).awaited c ≠ [] → c ≠ inst := by
    intro c hne heq
    rw [heq, hself] at hne
    exact hne rfl
  refine ⟨?_, ?_, hboard.trans h.produced, ?_, ?_, ?_, ?_, ?_, ?_, ?_, ?_⟩
  · intro c
    rw [hstatic]
    exact h.destRegs c
  · intro c
    rw [hstatic]
    exact h.thread c
  · intro r c
    rw [hgraph]
    by_cases hc : c = inst
    · rw [if_pos hc, hc, hself, count_nil]
    · rw [if_neg hc, hother hc, h.chains]
  · intro r c hr hin
    have hc := hne (ne_nil_of_mem hin)
    rw [hother hc] at hin
    exact h.fed r c hr hin
  · intro c r hin
    have hc := hne (ne_nil_of_mem hin)
    rw [hother hc] at hin
    exact h.renamed c r hin
  · intro c hne'
    have hc := hne hne'
    rw [hother hc] at hne'
    rw [hothers c hc]
    exact (h.held c hne').imp_left (hstays hc)
  · intro c hq hspec
    obtain ⟨hc, hq⟩ := hqueue hq
    rw [hothers c hc] at hspec ⊢
    rw [hother hc]
    exact h.unmarked c hq hspec
  · intro c hq hspec
    obtain ⟨hc, hq⟩ := hqueue hq
    rw [hothers c hc] at hspec ⊢
    rw [hother hc]
    exact h.counted c hq hspec
  · intro t' c hin
    have hc : c ≠ inst := fun heq => hgone t' (heq ▸ hin)
    rw [harrived, hothers c hc]
    exact h.listed t' c ((hsub t').subset hin)
  · intro t'
    exact (h.ordered t').sublist (hsub t')

theorem Signalled.drop (hs : Signalled s a) (harrived : t.arrived = s.arrived)
    (hstatic : ∀ c, (t.insts c).toRenamedInst = (s.insts c).toRenamedInst) (hsig : ∀ c, t.signals c = s.signals c)
    (hnonSpec : t.nonSpecInsts.Sublist s.nonSpecInsts) : Signalled t (a.drop inst) := by
  have hkeep := hs.keep harrived hstatic hsig hnonSpec
  refine ⟨?_, hkeep.once, hkeep.fresh, ?_, hkeep.nonSpec, hkeep.distinct⟩
  · intro c hc hspec hsq
    have hsq : update a.squashed inst true c = false := hsq
    by_cases hci : c = inst
    · rw [hci, update_self] at hsq
      cases hsq
    · rw [update_of_ne hci] at hsq
      change _ = if update a.awaited inst [] c = [] then 1 else 0
      rw [update_of_ne hci]
      exact hkeep.ready c hc hspec hsq
  · intro c hne
    have hne : update a.awaited inst [] c ≠ [] := hne
    change update a.squashed inst true c = false
    by_cases hci : c = inst
    · rw [hci, update_self] at hne
      exact absurd rfl hne
    · rw [update_of_ne hci] at hne ⊢
      exact hs.live c hne

/-- What squashing one instruction of a thread's list leaves of the others. -/
structure Dropped (tid inst : Nat) (s t : InstructionQueue) : Prop where
  insts : ∀ c, c ≠ inst → t.insts c = s.insts c
  list : t.instList tid = (s.instList tid).erase inst
  nonSpec : ∀ c, c ≠ inst → c ∈ s.nonSpecInsts → c ∈ t.nonSpecInsts

theorem Tracks.squashInst (h : Tracks n s a) (hs : Signalled s a) (hmem : inst ∈ s.instList tid)
    (hok : s.squashInst n tid inst = .ok t) :
    Tracks n t (a.drop inst) ∧ Signalled t (a.drop inst) ∧ Dropped tid inst s t := by
  obtain ⟨-, hthread, hsq⟩ := h.listed tid inst hmem
  unfold InstructionQueue.squashInst at hok
  rw [if_neg (by rw [hthread, hsq]; simp)] at hok
  obtain ⟨u, hu, hok⟩ := of_bind hok
  cases hok
  unfold InstructionQueue.squashWaiting at hu
  by_cases hw : (s.insts inst).waiting = true
  · rw [if_pos hw] at hu
    obtain ⟨v, hv, hu⟩ := of_bind hu
    cases hu
    have hq : s.inQueue inst = true := by
      unfold inQueue
      rw [hw, hthread, Bool.and_true, decide_eq_true_eq]
      exact hmem
    have hleft := h.leaveGraph hq hv
    have hothers : ∀ c, c ≠ inst → (v.modify inst fun d => { d with squashedInIQ := true, issued := true }).insts c = s.insts c := by
      intro c hc
      rw [insts_modify_ne hc, hleft.insts]
    have hstatic : ∀ c, ((v.modify inst fun d => { d with squashedInIQ := true, issued := true }).insts c).toRenamedInst =
        (s.insts c).toRenamedInst := by
      intro c
      by_cases hc : c = inst
      · rw [hc, insts_modify_self, hleft.insts]
      · rw [hothers c hc]
    have hlist : (v.modify inst fun d => { d with squashedInIQ := true, issued := true }).instList = s.instList := hleft.instList
    rw [hlist]
    refine ⟨h.drop hmem hothers hstatic hleft.arrived hleft.regScoreboard rfl hleft.graph,
      hs.drop hleft.arrived hstatic hleft.signals hleft.nonSpec, hothers, ?_, hleft.kept⟩
    exact update_self ..
  · rw [if_neg hw] at hu
    cases hu
    have hidle : a.awaited inst = [] := by
      by_contra hne
      apply hw
      have hq := h.waiting hne
      exact (Bool.and_eq_true_iff.mp hq).2
    refine ⟨h.drop hmem (fun _ _ => rfl) (fun _ => rfl) rfl rfl rfl (h.graph_of_idle hidle),
      hs.drop rfl (fun _ => rfl) (fun _ => rfl) (List.Sublist.refl _), fun _ _ => rfl, ?_, fun _ _ hc => hc⟩
    exact update_self ..

theorem Tracks.squashInst_returns (h : Tracks n s a) (hmem : inst ∈ s.instList tid)
    (hfault : s.faultShows inst = true) : ∃ t, s.squashInst n tid inst = .ok t := by
  obtain ⟨-, hthread, hsq⟩ := h.listed tid inst hmem
  unfold InstructionQueue.squashInst
  rw [if_neg (by rw [hthread, hsq]; simp)]
  unfold InstructionQueue.squashWaiting
  by_cases hw : (s.insts inst).waiting = true
  · have hq : s.inQueue inst = true := by
      unfold inQueue
      rw [hw, hthread, Bool.and_true, decide_eq_true_eq]
      exact hmem
    obtain ⟨v, hv⟩ := h.leaveGraph_returns hq hfault
    rw [if_pos hw, hv]
    exact ⟨_, rfl⟩
  · rw [if_neg hw]
    exact ⟨_, rfl⟩

variable {k : Nat} {l : List Nat}

theorem Tracks.squashLoop (h : Tracks n s a) (hs : Signalled s a) (hsub : ∀ c ∈ l, c ∈ s.instList tid)
    (hnodup : l.Nodup) (hok : s.squashLoop n tid k l = .ok t) :
    Tracks n t ((l.takeWhile fun c => decide (k < c)).foldl Dataflow.drop a) ∧
    Signalled t ((l.takeWhile fun c => decide (k < c)).foldl Dataflow.drop a) := by
  induction l generalizing s a with
  | nil =>
    cases hok
    exact ⟨h, hs⟩
  | cons c l ih =>
    unfold InstructionQueue.squashLoop at hok
    by_cases hc : c > k
    · rw [if_pos hc] at hok
      obtain ⟨u, hu, hok⟩ := of_bind hok
      obtain ⟨hu', hsu, hdropped⟩ := h.squashInst hs (hsub c (mem_cons_self ..)) hu
      rw [takeWhile_cons_of_pos (by simpa using hc), foldl_cons]
      obtain ⟨hnot, hnodup⟩ := nodup_cons.mp hnodup
      refine ih hu' hsu ?_ hnodup hok
      intro d hd
      have hne : d ≠ c := fun heq => hnot (heq ▸ hd)
      rw [hdropped.list]
      exact (mem_erase_of_ne hne).mpr (hsub d (mem_cons_of_mem _ hd))
    · rw [if_neg hc] at hok
      cases hok
      rw [takeWhile_cons_of_neg (by simpa using hc)]
      exact ⟨h, hs⟩

theorem Tracks.squashLoop_returns (h : Tracks n s a) (hs : Signalled s a)
    (hsub : ∀ c ∈ l, c ∈ s.instList tid) (hnodup : l.Nodup) (hfault : ∀ c ∈ l, c ≤ k ∨ s.faultShows c = true) :
    ∃ t, s.squashLoop n tid k l = .ok t := by
  induction l generalizing s a with
  | nil => exact ⟨s, rfl⟩
  | cons c l ih =>
    unfold InstructionQueue.squashLoop
    by_cases hc : c > k
    · obtain ⟨u, hu⟩ := h.squashInst_returns (hsub c (mem_cons_self ..)) ((hfault c (mem_cons_self ..)).resolve_left (by omega))
      obtain ⟨hu', hsu, hdropped⟩ := h.squashInst hs (hsub c (mem_cons_self ..)) hu
      obtain ⟨hnot, hnodup⟩ := nodup_cons.mp hnodup
      rw [if_pos hc, hu, bind_ok]
      refine ih hu' hsu ?_ hnodup ?_
      · intro d hd
        have hne : d ≠ c := fun heq => hnot (heq ▸ hd)
        rw [hdropped.list]
        exact (mem_erase_of_ne hne).mpr (hsub d (mem_cons_of_mem _ hd))
      · intro d hd
        have hne : d ≠ c := fun heq => hnot (heq ▸ hd)
        apply (hfault d (mem_cons_of_mem _ hd)).imp_right
        intro hshow
        unfold faultShows at hshow ⊢
        rw [hdropped.insts d hne]
        simp only [Bool.or_eq_true, decide_eq_true_eq] at hshow ⊢
        exact hshow.imp_left fun h => h.imp_left fun h => h.imp_right (hdropped.nonSpec d hne)
    · rw [if_neg hc]
      exact ⟨s, rfl⟩

namespace Dataflow

variable {l : List Nat}

theorem insts_drop : (l.foldl drop a).insts = a.insts := by
  induction l generalizing a with
  | nil => rfl
  | cons c l ih => exact ih

theorem produced_drop : (l.foldl drop a).produced = a.produced := by
  induction l generalizing a with
  | nil => rfl
  | cons c l ih => exact ih

variable {c : Nat}

theorem awaited_drop : (l.foldl drop a).awaited c = if c ∈ l then [] else a.awaited c := by
  induction l generalizing a with
  | nil => rfl
  | cons d l ih =>
    rw [foldl_cons, ih]
    change (if c ∈ l then [] else update a.awaited d [] c) = _
    by_cases hc : c = d
    · rw [hc, update_self, ite_self, if_pos (mem_cons_self ..)]
    · rw [update_of_ne hc]
      simp only [mem_cons, hc, false_or]

theorem squashed_drop : (l.foldl drop a).squashed c = (a.squashed c || decide (c ∈ l)) := by
  induction l generalizing a with
  | nil => simp
  | cons d l ih =>
    rw [foldl_cons, ih]
    change (update a.squashed d true c || decide (c ∈ l)) = _
    by_cases hc : c = d
    · rw [hc, update_self]
      simp
    · simp [hc]

end Dataflow

variable {a' : Dataflow}

theorem Tracks.congr (h : Tracks n s a) (hinsts : a'.insts = a.insts) (hproduced : a'.produced = a.produced)
    (hawaited : a'.awaited = a.awaited) : Tracks n s a' := by
  obtain ⟨insts, produced, awaited, squashed⟩ := a'
  subst hinsts hproduced hawaited
  exact ⟨h.destRegs, h.thread, h.produced, h.chains, h.fed, h.renamed, h.held, h.unmarked, h.counted, h.listed, h.ordered⟩

theorem Signalled.congr (hs : Signalled s a) (hawaited : a'.awaited = a.awaited)
    (hsquashed : ∀ c, a.squashed c = true → a'.squashed c = true) (hlive : ∀ c, a'.awaited c ≠ [] → a'.squashed c = false) :
    Signalled s a' := by
  refine ⟨?_, hs.once, hs.fresh, hlive, hs.nonSpec, hs.distinct⟩
  intro c hc hspec hsq
  rw [hawaited]
  apply hs.ready c hc hspec
  cases hold : a.squashed c with
  | false => rfl
  | true =>
    rw [hsquashed c hold] at hsq
    cases hsq

/-- `doSquash` finds every younger instruction of the thread that still awaits an operand. -/
theorem doSquash_spec (h : Tracks n s a) (hs : Signalled s a) (hok : s.doSquash n tid k = .ok t) :
    Tracks n t (a.squash tid k) ∧ Signalled t (a.squash tid k) := by
  have hnodup : (s.instList tid).reverse.Nodup := by
    apply pairwise_reverse.mpr
    apply (h.ordered tid).imp
    intro c d hcd
    exact Nat.ne_of_gt hcd
  obtain ⟨ht, hst⟩ := h.squashLoop hs (fun c hc => mem_reverse.mp hc) hnodup hok
  have hord : (s.instList tid).reverse.Pairwise fun c d => decide (k < d) = true → decide (k < c) = true := by
    apply pairwise_reverse.mpr
    apply (h.ordered tid).imp
    intro c d hcd
    rw [decide_eq_true_eq, decide_eq_true_eq]
    omega
  have hmem : ∀ c, c ∈ (s.instList tid).reverse.takeWhile (fun c => decide (k < c)) ↔ c ∈ s.instList tid ∧ k < c := by
    intro c
    rw [takeWhile_eq_filter hord, mem_filter, mem_reverse, decide_eq_true_eq]
  generalize (s.instList tid).reverse.takeWhile (fun c => decide (k < c)) = l at ht hst hmem
  have hyoung : ∀ c, c ∈ l → (a.insts c).threadNumber = tid ∧ k < c := by
    intro c hc
    obtain ⟨hin, hlt⟩ := (hmem c).mp hc
    rw [← h.thread]
    exact ⟨(h.listed tid c hin).2.1, hlt⟩
  have hawaited : (a.squash tid k).awaited = (l.foldl Dataflow.drop a).awaited := by
    funext c
    rw [Dataflow.awaited_drop]
    change (if (a.insts c).threadNumber = tid ∧ k < c then [] else a.awaited c) = _
    by_cases hc : c ∈ l
    · rw [if_pos hc, if_pos (hyoung c hc)]
    · split
      · rename_i hyoung
        by_contra hne
        apply hc
        rw [hmem, ← hyoung.1, ← h.thread]
        exact ⟨(h.held c (Ne.symm hne)).1, hyoung.2⟩
      · rfl
  refine ⟨ht.congr (Dataflow.insts_drop (a := a)).symm (Dataflow.produced_drop (a := a)).symm hawaited, hst.congr hawaited ?_ ?_⟩
  · intro c hsq
    rw [Dataflow.squashed_drop] at hsq
    change (a.squashed c || decide ((a.insts c).threadNumber = tid ∧ k < c)) = true
    obtain hold | hin := Bool.or_eq_true_iff.mp hsq
    · rw [hold, Bool.true_or]
    · rw [decide_eq_true (hyoung c (of_decide_eq_true hin)), Bool.or_true]
  · intro c hne
    change (a.squashed c || decide ((a.insts c).threadNumber = tid ∧ k < c)) = false
    have hne : (if (a.insts c).threadNumber = tid ∧ k < c then [] else a.awaited c) ≠ [] := hne
    split at hne
    · exact absurd rfl hne
    · rename_i hold
      rw [hs.live c hne, Bool.false_or]
      exact decide_eq_false hold
end Gem5.Cpu
