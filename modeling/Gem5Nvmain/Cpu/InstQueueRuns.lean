import Gem5Nvmain.Cpu.InstQueueInsert
import Gem5Nvmain.Cpu.InstQueueSquash

/- The dependency graph holds exactly what is awaited, and each instruction is woken once.

  In every run in which a register is given to a new producer only after its earlier readers have left the queue
  (`wakeup_exact`), a chain holds an instruction once for each operand that it awaits there, and an instruction is
  signalled once and when it awaits nothing more. -/
namespace Gem5.Cpu
open Lib InstructionQueue Dataflow
open InstructionQueue

variable {n inst : Nat} {s t : InstructionQueue} {a : Dataflow}

/-! Issue, completion and commit. -/

section
variable (h : Tracks n s a)
include h

theorem Tracks.issue (hs : Signalled s a) (hpos : 0 < s.signals inst) : Tracks n (s.issue inst) a := by
  apply h.modify rfl rfl rfl
  · unfold DynInst.waiting
    intro hw
    rw [Bool.or_eq_true]
    exact .inr hw
  · intro hne
    exact absurd (h.idle_of_signalled hs hpos) hne

theorem Tracks.rescheduleMemInst (hissued : (s.insts inst).issued = true)
    (href : (s.insts inst).isMemRef = true) (hdone : (s.insts inst).memOpDone = false) : Tracks n (s.rescheduleMemInst inst) a := by
  apply h.modify rfl rfl rfl
  · intro _
    unfold DynInst.waiting
    rw [href, hdone]
    exact Bool.or_true _
  · intro hne
    exact absurd (h.idle_of_issued hissued) hne

theorem Tracks.report {completed hasFault : Bool} : Tracks n (s.report inst completed hasFault) a := by
  apply h.modify rfl rfl rfl
  · intro hw
    exact hw
  · intro hne
    exact ⟨(h.held inst hne).2.1, (h.held inst hne).2.2.1⟩

/-- Only instructions that have left the queue are committed. -/
theorem Tracks.commit {tid : Nat}
    (hleft : ∀ c ∈ (s.instList tid).takeWhile fun i => decide (i ≤ inst), (s.insts c).waiting = false) : Tracks n (s.commit inst tid) a := by
  have hsub : ∀ t', ((s.commit inst tid).instList t').Sublist (s.instList t') := by
    intro t'
    unfold InstructionQueue.commit
    dsimp only
    by_cases ht : t' = tid
    · rw [ht, Function.update_self]
      exact List.dropWhile_sublist _
    · rw [Function.update_of_ne ht]
  refine h.keep (fun _ => rfl) (fun _ => rfl) rfl rfl rfl hsub ?_ ?_ ?_
  · intro c hq
    unfold inQueue at hq ⊢
    obtain ⟨hmem, hw⟩ := Bool.and_eq_true_iff.mp hq
    rw [Bool.and_eq_true, decide_eq_true_eq]
    exact ⟨(hsub _).subset (of_decide_eq_true hmem), hw⟩
  · intro c hne
    obtain ⟨hmem, hissued, hcan, -⟩ := h.held c hne
    refine ⟨?_, hissued, hcan⟩
    unfold InstructionQueue.commit
    dsimp only
    by_cases ht : (s.insts c).threadNumber = tid
    · rw [ht] at hmem ⊢
      rw [Function.update_self]
      rw [← List.takeWhile_append_dropWhile (l := s.instList tid), List.mem_append] at hmem
      apply hmem.resolve_left
      intro hin
      have hnot := hleft c hin
      unfold DynInst.waiting at hnot
      rw [hissued] at hnot
      cases hnot
    · rw [Function.update_of_ne ht]
      exact hmem
  · intro t' c hc
    exact (h.listed t' c ((hsub t').subset hc)).2.2

theorem Tracks.wakeRegs {destRegs : List Nat} (hs : Signalled s a) :
    Tracks n (s.wakeRegs n destRegs) ((destRegs.filter fun r => decide (r < n)).foldl produce a) ∧
    Signalled (s.wakeRegs n destRegs) ((destRegs.filter fun r => decide (r < n)).foldl produce a) := by
  induction destRegs generalizing s a with
  | nil => exact ⟨h, hs⟩
  | cons r destRegs ih =>
    unfold wakeRegs
    by_cases hr : n ≤ r
    · rw [if_pos hr, List.filter_cons_of_neg (by simpa using hr)]
      exact ih h hs
    · rw [if_neg hr, List.filter_cons_of_pos (by simpa using hr)]
      exact ih (h.woke.tracks h) (h.woke.signalled h hs)

theorem wakeDependents_spec (hs : Signalled s a) (hissued : (s.insts inst).issued = true) :
    Tracks n (s.wakeDependents n inst) (a.step n (.wakeDependents inst)) ∧
    Signalled (s.wakeDependents n inst) (a.step n (.wakeDependents inst)) := by
  have hdone : Tracks n (s.completeMemInst inst) a ∧ Signalled (s.completeMemInst inst) a := by
    unfold completeMemInst
    split
    · refine ⟨?_, hs.modify rfl⟩
      apply h.modify rfl rfl rfl
      · unfold DynInst.waiting
        intro hw
        rw [Bool.not_true, Bool.and_false, Bool.or_false] at hw
        rw [hw, Bool.true_or]
      · intro hne
        exact absurd (h.idle_of_issued hissued) hne
    · exact ⟨h, hs⟩
  unfold wakeDependents
  rw [h.destRegs inst]
  exact hdone.1.wakeRegs hdone.2

/-- A non-speculative instruction is signalled when it is scheduled, and only then. -/
theorem scheduleNonSpec_spec (hs : Signalled s a) (hmem : inst ∈ s.nonSpecInsts) :
    ∃ t, s.scheduleNonSpec inst = .ok t ∧ Tracks n t a ∧ Signalled t a := by
  obtain ⟨harr, hspec, hzero⟩ := hs.nonSpec inst hmem
  have hidle : a.awaited inst = [] := by
    by_contra hne
    have hspec' := (h.held inst hne).2.2.2
    rw [hspec] at hspec'
    cases hspec'
  have hmod : Tracks n (s.modify inst fun d => { d with canIssue := true }) a := by
    apply h.modify rfl rfl rfl
    · intro hw
      exact hw
    · intro hne
      exact absurd hidle hne
  have hadd : Tracks n ((s.modify inst fun d => { d with canIssue := true }).addIfReady inst) a := hmod.sameBut .addIfReady
  have hsig : ∀ c, ((s.modify inst fun d => { d with canIssue := true }).addIfReady inst).signals c =
      s.signals c + if c = inst then 1 else 0 := by
    intro c
    rw [signals_addIfReady, insts_modify_self]
    simp only [and_true]
    rfl
  have hstatic : ∀ c, (((s.modify inst fun d => { d with canIssue := true }).addIfReady inst).insts c).speculative =
      (s.insts c).speculative := by
    intro c
    rw [SameBut.addIfReady.insts]
    by_cases hc : c = inst
    · rw [hc, insts_modify_self]
    · rw [insts_modify_ne hc]
  have harrived : ((s.modify inst fun d => { d with canIssue := true }).addIfReady inst).arrived = s.arrived := SameBut.addIfReady.arrived
  have hlist : ((s.modify inst fun d => { d with canIssue := true }).addIfReady inst).nonSpecInsts = s.nonSpecInsts :=
    SameBut.addIfReady.nonSpecInsts
  unfold scheduleNonSpec
  rw [show require (decide (inst ∈ s.nonSpecInsts)) = .ok () by simpa using hmem, bind_ok]
  dsimp only
  rw [hlist]
  generalize (s.modify inst fun d => { d with canIssue := true }).addIfReady inst = u at hadd hsig hstatic harrived
  have hother : ∀ {c}, c ≠ inst → u.signals c = s.signals c := by
    intro c hc
    rw [hsig, if_neg hc, Nat.add_zero]
  refine ⟨_, rfl, ?_, ⟨?_, ?_, ?_, hs.live, ?_, hs.distinct.erase _⟩⟩
  · refine hadd.keep (fun _ => rfl) (fun _ => rfl) rfl rfl rfl (fun _ => List.Sublist.refl _) (fun _ hq => hq) ?_ ?_
    · intro c hne
      exact ⟨(hadd.held c hne).1, (hadd.held c hne).2.1, (hadd.held c hne).2.2.1⟩
    · intro tid c hc
      exact (hadd.listed tid c hc).2.2
  · intro c hc hspec' hsq
    rw [harrived] at hc
    rw [hstatic] at hspec'
    have hne : c ≠ inst := by
      intro heq
      rw [heq, hspec] at hspec'
      cases hspec'
    exact (hother hne).trans (hs.ready c hc hspec' hsq)
  · intro c
    change u.signals c ≤ 1
    by_cases hc : c = inst
    · rw [hsig, if_pos hc, hc]
      omega
    · rw [hother hc]
      exact hs.once c
  · intro c hc
    rw [harrived] at hc
    have hne : c ≠ inst := fun heq => hc (heq ▸ harr)
    exact (hother hne).trans (hs.fresh c hc)
  · intro c hc
    obtain ⟨hne, hc⟩ := (List.Nodup.mem_erase_iff hs.distinct).mp hc
    obtain ⟨harr', hspec', hzero'⟩ := hs.nonSpec c hc
    change c ∈ u.arrived ∧ (u.insts c).speculative = false ∧ u.signals c = 0
    rw [harrived, hstatic, hother hne]
    exact ⟨harr', hspec', hzero'⟩

end

/-! Runs. -/

theorem legal_insert {i : RenamedInst} {b : Bool} (h : (i.flagged && b && s.canInsert n inst i) = true) :
    i.speculative = i.addToIq ∧ b = true ∧ Insertable n s inst i := by
  simp only [Bool.and_eq_true] at h
  exact ⟨RenamedInst.speculative_eq_addToIq h.1.1, h.1.2, insertable_of h.2⟩

/-- Every legal step tracks the dataflow. -/
theorem step_tracks {e : IqEvent} (h : Tracks n s a) (hs : Signalled s a) (hlegal : s.legal n e = true)
    (hok : s.step n e = .ok t) : Tracks n t (a.step n e) ∧ Signalled t (a.step n e) := by
  cases e with
  | insert inst i dependent =>
    obtain ⟨hspec, hadd, hi⟩ := legal_insert hlegal
    obtain ⟨u, hu, hspec⟩ := insert_spec dependent h hs (hspec.trans hadd) hi
    rw [show s.step n (.insert inst i dependent) = _ from hu] at hok
    cases hok
    exact hspec
  | insertNonSpec inst i =>
    obtain ⟨hspec, hadd, hi⟩ := legal_insert hlegal
    have hnot : i.speculative = false := by
      rw [hspec]
      simpa using hadd
    obtain ⟨u, hu, hspec⟩ := insertNonSpec_spec h hs hnot hi
    rw [show s.step n (.insertNonSpec inst i) = _ from hu] at hok
    cases hok
    exact hspec
  | scheduleNonSpec inst =>
    obtain ⟨u, hu, hspec⟩ := scheduleNonSpec_spec h hs (of_decide_eq_true hlegal)
    rw [show s.step n (.scheduleNonSpec inst) = _ from hu] at hok
    cases hok
    exact hspec
  | issue inst =>
    cases hok
    exact ⟨h.issue hs (of_decide_eq_true (Bool.and_eq_true_iff.mp hlegal).1), hs.modify rfl⟩
  | rescheduleMemInst inst =>
    cases hok
    simp only [legal, Bool.and_eq_true, Bool.not_eq_true'] at hlegal
    obtain ⟨⟨⟨⟨-, href⟩, hissued⟩, hdone⟩, -⟩ := hlegal
    exact ⟨h.rescheduleMemInst hissued href hdone, hs.modify rfl⟩
  | report inst completed hasFault =>
    cases hok
    exact ⟨h.report, hs.modify rfl⟩
  | commit inst tid =>
    cases hok
    refine ⟨h.commit ?_, hs.keep rfl (fun _ => rfl) (fun _ => rfl) (List.Sublist.refl _)⟩
    intro c hc
    simpa using List.all_eq_true.mp hlegal c hc
  | wakeDependents inst =>
    cases hok
    simp only [legal, Bool.and_eq_true] at hlegal
    exact wakeDependents_spec h hs hlegal.1.2
  | doSquash tid k => exact doSquash_spec h hs hok

/-- No legal step stops the queue. -/
theorem step_returns {e : IqEvent} (h : Tracks n s a) (hs : Signalled s a) (hlegal : s.legal n e = true)
    (hfault : s.faultsShow e = true) : ∃ t, s.step n e = .ok t := by
  cases e with
  | insert inst i dependent =>
    obtain ⟨hspec, hadd, hi⟩ := legal_insert hlegal
    obtain ⟨u, hu, -⟩ := insert_spec dependent h hs (hspec.trans hadd) hi
    exact ⟨u, hu⟩
  | insertNonSpec inst i =>
    obtain ⟨hspec, hadd, hi⟩ := legal_insert hlegal
    have hnot : i.speculative = false := by
      rw [hspec]
      simpa using hadd
    obtain ⟨u, hu, -⟩ := insertNonSpec_spec h hs hnot hi
    exact ⟨u, hu⟩
  | scheduleNonSpec inst =>
    obtain ⟨u, hu, -⟩ := scheduleNonSpec_spec h hs (of_decide_eq_true hlegal)
    exact ⟨u, hu⟩
  | doSquash tid k =>
    refine h.squashLoop_returns hs (fun c hc => List.mem_reverse.mp hc) ?_ ?_
    · apply List.pairwise_reverse.mpr
      apply (h.ordered tid).imp
      intro c d hcd
      exact Nat.ne_of_gt hcd
    · intro c hc
      simpa using List.all_eq_true.mp hfault c (List.mem_reverse.mp hc)
  | _ => exact ⟨_, rfl⟩

theorem tracks_run {h : List IqEvent} (hr : Exec (StepIf (legal n) (step n)) init h s) :
    Tracks n s (after n h) ∧ Signalled s (after n h) := by
  apply hr.history_invariant
  · exact ⟨tracks_init, signalled_init⟩
  · intro h s e t hi hstep
    rw [show after n (h ++ [e]) = (after n h).step n e from List.foldl_concat ..]
    exact step_tracks hi.1 hi.2 hstep.1 hstep.2

/-- Wake-up and dependency graph: an instruction is in the chain of a register once for each operand that it awaits
  there, a speculative instruction that was not squashed has been signalled, once, when it awaits nothing, and every
  step has a result: no chain of a new producer holds an instruction, and `remove` stays inside its chain. -/
theorem wakeup_exact {h : List IqEvent} (hr : Exec (StepIf (legal n) (step n)) init h s) :
    (∀ r, s.regScoreboard r = (after n h).produced r) ∧
    (∀ r c, (s.dependGraph r).count c = ((after n h).awaited c).count r) ∧
    (∀ c ∈ s.arrived, (s.insts c).speculative = true → (after n h).squashed c = false →
      s.signals c = if (after n h).awaited c = [] then 1 else 0) ∧
    (∀ c, s.signals c ≤ 1) ∧
    ∀ e, s.legal n e = true → s.faultsShow e = true → ∃ t, s.step n e = .ok t := by
  obtain ⟨htracks, hsignalled⟩ := tracks_run hr
  refine ⟨congrFun htracks.produced, htracks.chains, hsignalled.ready, hsignalled.once, ?_⟩
  intro e hlegal hfault
  exact step_returns htracks hsignalled hlegal hfault

/-- A producer, a consumer that reads it twice, and one that is squashed after the producer has completed: it is no
  longer in the chain from which it would be removed. -/
theorem wakeup_exact_small : ∃ s, Exec (StepIf (legal 8) (step 8)) init
      [.insert 1 ⟨0, false, false, false, false, false, false, [], [3]⟩ false,
        .insert 2 ⟨0, false, false, false, false, false, false, [⟨3, false⟩, ⟨3, false⟩], [4]⟩ false,
        .insert 3 ⟨0, false, false, false, false, false, false, [⟨3, false⟩, ⟨4, false⟩], [5]⟩ false,
        .issue 1, .wakeDependents 1, .doSquash 0 2] s ∧
    s.readyInsts = [1, 2] ∧ s.dependGraph 4 = [] ∧ ∀ c, s.signals c ≤ 1 := by
  refine Exec.ends_withIf (p := fun s => decide (s.readyInsts = [1, 2]) && decide (s.dependGraph 4 = []))
    (by decide) fun s hr hs => ?_
  obtain ⟨hready, hchain⟩ := Bool.and_eq_true_iff.mp hs
  exact ⟨of_decide_eq_true hready, of_decide_eq_true hchain, (wakeup_exact hr).2.2.2.1⟩

end Gem5.Cpu
