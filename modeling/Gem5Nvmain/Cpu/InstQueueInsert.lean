import Gem5Nvmain.Cpu.Dataflow

/- A new instruction in the queue: its chains, ready bits and count show what it awaits (`Tracks.linked`), and it is
  signalled at once when that is nothing (`insert_spec`). -/
namespace Gem5.Cpu
open Lib List Function InstructionQueue
open InstructionQueue

variable {n inst : Nat} {s t : InstructionQueue} {a : Dataflow}

/-! A new instruction. -/

/-- The dataflow with a new instruction that awaits `aw`. -/
def Dataflow.add (a : Dataflow) (inst : Nat) (i : RenamedInst) (aw : List Nat) : Dataflow :=
  { a.arrive inst i with awaited := update a.awaited inst aw }

theorem Tracks.idle (h : Tracks n s a) (hnew : inst ∉ s.arrived) : a.awaited inst = [] := by
  by_contra hne
  exact hnew (h.listed _ inst (h.held inst hne).1).1

variable {i : RenamedInst}

theorem Tracks.add {aw : List Nat} (h : Tracks n s a) (hnew : inst ∉ s.arrived)
    (hlast : ∀ c ∈ s.instList i.threadNumber, c < inst)
    (hothers : ∀ c, c ≠ inst → t.insts c = s.insts c) (hdest : (t.insts inst).destRegs = i.destRegs)
    (hthread : (t.insts inst).threadNumber = i.threadNumber) (hissued : (t.insts inst).issued = false)
    (hsquashed : (t.insts inst).squashedInIQ = false) (harrived : t.arrived = inst :: s.arrived)
    (hlist : t.instList = update s.instList i.threadNumber (s.instList i.threadNumber ++ [inst]))
    (hboard : t.regScoreboard = s.regScoreboard)
    (hchains : ∀ r c, (t.dependGraph r).count c = (s.dependGraph r).count c + if c = inst then aw.count r else 0)
    (hfed : ∀ r ∈ aw, a.produced r = false) (hrenamed : ∀ r ∈ aw, r < n)
    (hheld : aw ≠ [] → (t.insts inst).canIssue = false ∧ (t.insts inst).speculative = true)
    (hunmarked : (t.insts inst).speculative = true → ∀ r, r < n →
      aw.count r = if a.produced r = true then 0 else (t.insts inst).srcs.countP (unready r))
    (hcounted : (t.insts inst).speculative = true → (t.insts inst).readyRegs + aw.length = (t.insts inst).srcs.length) :
    Tracks n t (a.add inst i aw) := by
  have hself : (a.add inst i aw).awaited inst = aw := update_self ..
  have hother : ∀ {c}, c ≠ inst → (a.add inst i aw).awaited c = a.awaited c := fun hc => update_of_ne hc ..
  have hinst : (a.add inst i aw).insts inst = i := update_self ..
  have hinsts : ∀ {c}, c ≠ inst → (a.add inst i aw).insts c = a.insts c := fun hc => update_of_ne hc ..
  have hmem : ∀ {tid c}, c ∈ t.instList tid → c = inst ∧ tid = i.threadNumber ∨ c ∈ s.instList tid := by
    intro tid c hc
    rw [hlist] at hc
    by_cases htid : tid = i.threadNumber
    · subst htid
      rw [update_self, mem_append, mem_singleton] at hc
      exact hc.symm.imp_left fun heq => ⟨heq, rfl⟩
    · rw [update_of_ne htid] at hc
      exact .inr hc
  have hsub : ∀ {tid c}, c ∈ s.instList tid → c ∈ t.instList tid := by
    intro tid c hc
    rw [hlist]
    by_cases htid : tid = i.threadNumber
    · subst htid
      rw [update_self]
      exact mem_append_left _ hc
    · rwa [update_of_ne htid]
  have hqueue : ∀ {c}, c ≠ inst → t.inQueue c = true → s.inQueue c = true := by
    intro c hc hq
    unfold inQueue at hq ⊢
    rw [hothers c hc] at hq
    obtain ⟨hl, hw⟩ := Bool.and_eq_true_iff.mp hq
    rw [hw, Bool.and_true, decide_eq_true_eq]
    exact (hmem (of_decide_eq_true hl)).resolve_left fun heq => hc heq.1
  refine ⟨?_, ?_, hboard.trans h.produced, ?_, ?_, ?_, ?_, ?_, ?_, ?_, ?_⟩
  · intro c
    by_cases hc : c = inst
    · rw [hc, hdest, hinst]
    · rw [hothers c hc, h.destRegs c, hinsts hc]
  · intro c
    by_cases hc : c = inst
    · rw [hc, hthread, hinst]
    · rw [hothers c hc, h.thread c, hinsts hc]
  · intro r c
    rw [hchains, h.chains]
    by_cases hc : c = inst
    · rw [if_pos hc, hc, hself, h.idle hnew, count_nil, Nat.zero_add]
    · rw [if_neg hc, hother hc, Nat.add_zero]
  · intro r c hr hin
    by_cases hc : c = inst
    · rw [hc, hself] at hin
      have hnot := hfed r hin
      rw [show a.produced r = true from hr] at hnot
      cases hnot
    · rw [hother hc] at hin
      exact h.fed r c hr hin
  · intro c r hin
    by_cases hc : c = inst
    · rw [hc, hself] at hin
      exact hrenamed r hin
    · rw [hother hc] at hin
      exact h.renamed c r hin
  · intro c hne
    by_cases hc : c = inst
    · rw [hc, hself] at hne
      rw [hc, hthread, hlist, update_self]
      exact ⟨mem_append_right _ (mem_singleton.mpr rfl), hissued, hheld hne⟩
    · rw [hother hc] at hne
      rw [hothers c hc]
      exact (h.held c hne).imp_left hsub
  · intro c hq hspec r hr
    by_cases hc : c = inst
    · rw [hc] at hspec ⊢
      rw [hself]
      exact hunmarked hspec r hr
    · rw [hothers c hc] at hspec ⊢
      rw [hother hc]
      exact h.unmarked c (hqueue hc hq) hspec r hr
  · intro c hq hspec
    by_cases hc : c = inst
    · rw [hc] at hspec ⊢
      rw [hself]
      exact hcounted hspec
    · rw [hothers c hc] at hspec ⊢
      rw [hother hc]
      exact h.counted c (hqueue hc hq) hspec
  · intro tid c hc
    rw [harrived]
    obtain ⟨rfl, rfl⟩ | hc := hmem hc
    · exact ⟨mem_cons_self .., hthread, hsquashed⟩
    · obtain ⟨harr, hth, hsq⟩ := h.listed tid c hc
      have hne : c ≠ inst := fun heq => hnew (heq ▸ harr)
      rw [hothers c hne]
      exact ⟨mem_cons_of_mem _ harr, hth, hsq⟩
  · intro tid
    rw [hlist]
    by_cases htid : tid = i.threadNumber
    · subst htid
      rw [update_self]
      refine pairwise_append.mpr ⟨h.ordered _, pairwise_singleton _ _, ?_⟩
      intro c hc d hd
      rw [mem_singleton.mp hd]
      exact hlast c hc
    · rw [update_of_ne htid]
      exact h.ordered tid

variable {srcs : List SrcReg}

theorem count_regs {p : SrcReg → Bool} {r : Nat} :
    ((srcs.filter p).map SrcReg.reg).count r = srcs.countP fun o => p o && decide (o.reg = r) := by
  induction srcs with
  | nil => rfl
  | cons o srcs ih =>
    by_cases hp : p o = true
    · rw [filter_cons_of_pos hp, map_cons, count_cons, countP_cons, ih, hp, Bool.true_and]
      simp
    · rw [filter_cons_of_neg hp, countP_cons, ih]
      simp [hp]

/-- Every operand is ready, or became ready on the way, or is missing. -/
theorem countP_operands (hprod : s.regScoreboard = a.produced) (hmisc : ∀ o ∈ srcs, o.ready = true ∨ o.reg < n) :
    srcs.countP SrcReg.ready + srcs.countP (met n s) + (srcs.filter (a.missing n)).length = srcs.length := by
  induction srcs with
  | nil => rfl
  | cons o srcs ih =>
    have hsum := ih fun q hq => hmisc q (mem_cons_of_mem _ hq)
    have hown := hmisc o (mem_cons_self ..)
    have hone : (if o.ready = true then 1 else 0) + (if met n s o = true then 1 else 0) +
        (if a.missing n o = true then 1 else 0) = 1 := by
      unfold met Dataflow.missing
      rw [hprod]
      cases hready : o.ready with
      | true => simp
      | false =>
        have hlt : o.reg < n := by simpa [hready] using hown
        cases hp : a.produced o.reg <;> simp [hlt]
    rw [← countP_eq_length_filter] at hsum ⊢
    rw [countP_cons, countP_cons, countP_cons, length_cons]
    omega

/-- The chains and the ready bits of a new instruction show what it awaits. -/
theorem Tracks.linked (h : Tracks n s a) (hnew : inst ∉ s.arrived)
    (hlast : ∀ c ∈ s.instList i.threadNumber, c < inst) (hmisc : ∀ o ∈ i.srcs, o.ready = true ∨ o.reg < n)
    (hspec : i.speculative = true) :
    Tracks n ((s.arrive inst i).addToDependents n inst) ((a.arrive inst i).await n inst i.srcs) ∧
    Linked n inst { DynInst.renamed i with srcs := i.srcs.map (settled n s) } i.srcs (s.arrive inst i)
      ((s.arrive inst i).addToDependents n inst) := by
  have hprod : (s.arrive inst i).regScoreboard = a.produced := h.produced
  have hself : (s.arrive inst i).insts inst = .renamed i := update_self ..
  have hsum := countP_operands hprod hmisc
  have hlink : Linked n inst { DynInst.renamed i with srcs := i.srcs.map (settled n s) } i.srcs (s.arrive inst i)
      ((s.arrive inst i).addToDependents n inst) := by
    have hsrcs : ((s.arrive inst i).insts inst).srcs = [] ++ i.srcs := by
      rw [hself]
      rfl
    have hle : ((s.arrive inst i).insts inst).readyRegs + i.srcs.countP (met n (s.arrive inst i)) ≤
        ((s.arrive inst i).insts inst).srcs.length := by
      rw [hself]
      change i.srcs.countP SrcReg.ready + _ ≤ i.srcs.length
      omega
    have hspec := addDependents_spec hsrcs hle
    unfold addToDependents
    rw [hself] at hspec ⊢
    exact hspec
  refine ⟨?_, hlink⟩
  have hmissing : ∀ r, i.srcs.countP (lacks n (s.arrive inst i) r) = ((i.srcs.filter (a.missing n)).map SrcReg.reg).count r := by
    intro r
    rw [count_regs]
    unfold lacks Dataflow.missing
    rw [hprod]
  change Tracks n _ (a.add inst i ((i.srcs.filter (a.missing n)).map SrcReg.reg))
  refine h.add hnew hlast ?_ ?_ ?_ ?_ ?_ hlink.arrived hlink.instList hlink.regScoreboard ?_ ?_ ?_ ?_ ?_ ?_
  · intro c hc
    rw [hlink.others c hc]
    exact update_of_ne hc ..
  · rw [hlink.self]
    rfl
  · rw [hlink.self]
    rfl
  · rw [hlink.self]
    rfl
  · rw [hlink.self]
    rfl
  · intro r c
    rw [hlink.count r c, hmissing]
    rfl
  · intro r hr
    obtain ⟨o, ho, rfl⟩ := mem_map.mp hr
    have hmiss := (mem_filter.mp ho).2
    simpa using (Bool.and_eq_true_iff.mp hmiss).2
  · intro r hr
    obtain ⟨o, ho, rfl⟩ := mem_map.mp hr
    have hmiss := (mem_filter.mp ho).2
    simpa using (Bool.and_eq_true_iff.mp (Bool.and_eq_true_iff.mp hmiss).1).2
  · intro hne
    rw [hlink.self]
    refine ⟨?_, hspec⟩
    have hpos : 0 < (i.srcs.filter (a.missing n)).length := by
      rw [← length_map SrcReg.reg]
      exact length_pos_iff.mpr hne
    simp only [DynInst.woken, DynInst.renamed, length_map, Bool.or_eq_false_iff, decide_eq_false_iff_not]
    omega
  · intro _ r hr
    rw [hlink.self, ← hmissing]
    change _ = if a.produced r = true then 0 else (i.srcs.map (settled n s)).countP (unready r)
    rw [countP_map]
    have hsettled : ∀ o, unready r (settled n s o) = (unready r o && !s.regScoreboard r) := by
      intro o
      unfold unready settled met
      by_cases hreg : o.reg = r
      · subst hreg
        cases hready : o.ready <;> cases hboard : s.regScoreboard o.reg <;> simp [hready, hr]
      · cases hready : o.ready <;> cases hboard : s.regScoreboard o.reg <;> by_cases hlt : o.reg < n <;> simp [hreg, hlt]
    have hlacks : ∀ o, lacks n (s.arrive inst i) r o = (unready r o && !s.regScoreboard r) := by
      intro o
      unfold lacks unready
      by_cases hreg : o.reg = r
      · subst hreg
        simp [hr, arrive]
      · simp [hreg]
    rw [← h.produced, countP_congr (q := unready r ∘ settled n s) fun o _ => by rw [hlacks, comp, hsettled]]
    by_cases hboard : s.regScoreboard r = true
    · rw [if_pos hboard]
      apply countP_eq_zero.mpr
      intro o _
      rw [comp, hsettled, hboard]
      simp
    · rw [if_neg hboard]
  · intro _
    rw [hlink.self]
    simp only [DynInst.woken, DynInst.renamed, length_map]
    omega

/-- A new instruction may issue when it awaits nothing. -/
theorem Tracks.canIssue_linked (h : Tracks n s a) (hmisc : ∀ o ∈ i.srcs, o.ready = true ∨ o.reg < n)
    (hlink : Linked n inst { DynInst.renamed i with srcs := i.srcs.map (settled n s) } i.srcs (s.arrive inst i) t) :
    (t.insts inst).canIssue = true ↔ ((a.arrive inst i).await n inst i.srcs).awaited inst = [] := by
  have hsum := countP_operands (s := s.arrive inst i) h.produced hmisc
  have haw : ((a.arrive inst i).await n inst i.srcs).awaited inst = (i.srcs.filter (a.missing n)).map SrcReg.reg := update_self ..
  rw [haw, map_eq_nil_iff, ← length_eq_zero_iff, hlink.self]
  simp only [DynInst.woken, DynInst.renamed, length_map, Bool.or_eq_true, decide_eq_true_eq]
  omega

variable {a' : Dataflow}

theorem Signalled.add (hs : Signalled s a) (hnew : inst ∉ s.arrived) (harrived : t.arrived = inst :: s.arrived)
    (hnonSpec : t.nonSpecInsts = s.nonSpecInsts) (hothers : ∀ c, c ≠ inst → (t.insts c).speculative = (s.insts c).speculative)
    (hawaited : ∀ c, c ≠ inst → a'.awaited c = a.awaited c) (hsquashed : a'.squashed = update a.squashed inst false)
    (hsig : ∀ c, t.signals c = s.signals c + if c = inst ∧ a'.awaited inst = [] then 1 else 0) : Signalled t a' := by
  have hother : ∀ {c}, c ≠ inst → t.signals c = s.signals c := by
    intro c hc
    rw [hsig, if_neg fun h => hc h.1, Nat.add_zero]
  have hself : t.signals inst = if a'.awaited inst = [] then 1 else 0 := by
    rw [hsig, hs.fresh inst hnew]
    simp
  refine ⟨?_, ?_, ?_, ?_, ?_, ?_⟩
  · intro c hc hspec hsq
    by_cases hci : c = inst
    · rw [hci, hself]
    · rw [harrived] at hc
      rw [hothers c hci] at hspec
      rw [hsquashed, update_of_ne hci] at hsq
      rw [hother hci, hawaited c hci]
      exact hs.ready c ((mem_cons.mp hc).resolve_left hci) hspec hsq
  · intro c
    by_cases hci : c = inst
    · rw [hci, hself]
      split <;> omega
    · rw [hother hci]
      exact hs.once c
  · intro c hc
    rw [harrived, mem_cons, not_or] at hc
    rw [hother hc.1]
    exact hs.fresh c hc.2
  · intro c hne
    rw [hsquashed]
    by_cases hci : c = inst
    · rw [hci, update_self]
    · rw [hawaited c hci] at hne
      rw [update_of_ne hci]
      exact hs.live c hne
  · intro c hc
    rw [hnonSpec] at hc
    obtain ⟨harr, hspec, hzero⟩ := hs.nonSpec c hc
    have hci : c ≠ inst := fun heq => hnew (heq ▸ harr)
    rw [harrived, hothers c hci, hother hci]
    exact ⟨mem_cons_of_mem _ harr, hspec, hzero⟩
  · rw [hnonSpec]
    exact hs.distinct

/-- What `canInsert` says. -/
structure Insertable (n : Nat) (s : InstructionQueue) (inst : Nat) (i : RenamedInst) : Prop where
  new : inst ∉ s.arrived
  last : ∀ c ∈ s.instList i.threadNumber, c < inst
  misc : ∀ o ∈ i.srcs, o.ready = true ∨ o.reg < n
  own : ∀ r ∈ i.destRegs, r < n → ∀ o ∈ i.srcs, o.reg ≠ r
  others : ∀ r ∈ i.destRegs, r < n → ∀ c ∈ s.arrived, s.inQueue c = true → ∀ o ∈ (s.insts c).srcs, o.reg ≠ r

theorem insertable_of (h : s.canInsert n inst i = true) : Insertable n s inst i := by
  unfold canInsert at h
  simp only [Bool.and_eq_true, all_eq_true, decide_eq_true_eq, Bool.or_eq_true] at h
  obtain ⟨⟨⟨hnew, hlast⟩, hmisc⟩, hdest⟩ := h
  refine ⟨hnew, hlast, hmisc, ?_, ?_⟩
  · intro r hr hrn
    obtain hle | ⟨hown, -⟩ := hdest r hr
    · omega
    · exact hown
  · intro r hr hrn c hc hq
    obtain hle | ⟨-, hothers⟩ := hdest r hr
    · omega
    · obtain hnq | hread := hothers c hc
      · rw [hq] at hnq
        cases hnq
      · exact hread

/-- The queue of an instruction that has arrived: nothing in it reads what the instruction is to produce. -/
theorem Insertable.free (hi : Insertable n s inst i) (h : Tracks n s a)
    (hothers : ∀ c, c ≠ inst → t.insts c = s.insts c) (hregs : ∀ o ∈ (t.insts inst).srcs, ∃ o' ∈ i.srcs, o'.reg = o.reg)
    (hlist : t.instList = (s.arrive inst i).instList) :
    ∀ r ∈ i.destRegs, r < n → ∀ c, t.inQueue c = true → ∀ o ∈ (t.insts c).srcs, o.reg ≠ r := by
  intro r hr hrn c hq o ho
  by_cases hc : c = inst
  · rw [hc] at ho
    obtain ⟨o', ho', heq⟩ := hregs o ho
    rw [← heq]
    exact hi.own r hr hrn o' ho'
  · have hq' : s.inQueue c = true := by
      unfold inQueue at hq ⊢
      rw [hothers c hc, hlist] at hq
      obtain ⟨hmem, hw⟩ := Bool.and_eq_true_iff.mp hq
      rw [hw, Bool.and_true, decide_eq_true_eq]
      have hmem : c ∈ update s.instList i.threadNumber (s.instList i.threadNumber ++ [inst]) (s.insts c).threadNumber :=
        of_decide_eq_true hmem
      by_cases htid : (s.insts c).threadNumber = i.threadNumber
      · rw [htid, update_self, mem_append, mem_singleton] at hmem
        rw [htid]
        exact hmem.resolve_right hc
      · rwa [update_of_ne htid] at hmem
    have harr : c ∈ s.arrived := by
      exact (h.listed _ c (of_decide_eq_true (Bool.and_eq_true_iff.mp hq').1)).1
    rw [hothers c hc] at ho
    exact hi.others r hr hrn c harr hq' o ho

theorem Tracks.memDepInsert {dependent : Bool} (h : Tracks n s a) : Tracks n (s.memDepInsert inst dependent) a := by
  have hadd : Tracks n (s.addIfReady inst) a := h.sameBut .addIfReady
  unfold InstructionQueue.memDepInsert
  split
  · apply hadd.modify rfl rfl rfl
    · intro hw
      exact hw
    · intro hne
      exact ⟨(hadd.held inst hne).2.1, rfl⟩
  · exact hadd

/-- What `insert` leaves when the operands and the producers have been seen to. -/
theorem Signalled.inserted (hs : Signalled s a) (h : Tracks n s a) (hi : Insertable n s inst i)
    (hlink : Linked n inst { DynInst.renamed i with srcs := i.srcs.map (settled n s) } i.srcs (s.arrive inst i) t)
    {u : InstructionQueue} {b : Nat → Bool} (hawaited : a'.awaited = ((a.arrive inst i).await n inst i.srcs).awaited)
    (hsquashed : a'.squashed = update a.squashed inst false)
    (hsame : ∀ c, (u.insts c).toRenamedInst = (t.insts c).toRenamedInst) (harrived : u.arrived = t.arrived)
    (hnonSpec : u.nonSpecInsts = t.nonSpecInsts)
    (hsig : ∀ c, u.signals c = ({ t with regScoreboard := b }.addIfReady inst).signals c) : Signalled u a' := by
  refine hs.add hi.new (harrived.trans hlink.arrived) (hnonSpec.trans hlink.nonSpecInsts) ?_ ?_ hsquashed ?_
  · intro c hc
    rw [hsame, hlink.others c hc]
    exact congrArg (fun d : DynInst => d.speculative) (update_of_ne hc ..)
  · intro c hc
    rw [hawaited]
    exact update_of_ne hc ..
  · intro c
    have hcan := h.canIssue_linked hi.misc hlink
    have hold : ({ t with regScoreboard := b } : InstructionQueue).signals c = s.signals c := by
      rw [hlink.readyInsts, hlink.regsReady]
      rfl
    rw [hsig, signals_addIfReady, hold, hawaited]
    simp only [← hcan]

theorem insert_spec (dependent : Bool) (h : Tracks n s a) (hs : Signalled s a) (hspec : i.speculative = true)
    (hi : Insertable n s inst i) :
    ∃ t, s.insert n inst i dependent = .ok t ∧ Tracks n t (a.step n (.insert inst i dependent)) ∧
      Signalled t (a.step n (.insert inst i dependent)) := by
  obtain ⟨htracks, hlink⟩ := h.linked hi.new hi.last hi.misc hspec
  unfold InstructionQueue.insert
  generalize (s.arrive inst i).addToDependents n inst = v at htracks hlink
  have hfree := hi.free h ?_ ?_ hlink.instList
  · obtain ⟨b, hb, hprod⟩ := htracks.addToProducers hfree
    dsimp only
    rw [hb, bind_ok]
    have hawaited : (a.step n (.insert inst i dependent)).awaited = ((a.arrive inst i).await n inst i.srcs).awaited :=
      Dataflow.awaited_give
    have hsquashed : (a.step n (.insert inst i dependent)).squashed = update a.squashed inst false := Dataflow.squashed_give
    by_cases href : i.isMemRef = true
    · rw [if_pos href]
      refine ⟨_, rfl, hprod.memDepInsert, hs.inserted h hi hlink (b := b) hawaited hsquashed ?_ ?_ ?_ ?_⟩
      · intro c
        unfold memDepInsert
        split
        · by_cases hc : c = inst
          · rw [hc, insts_modify_self, SameBut.addIfReady.insts]
          · rw [insts_modify_ne hc, SameBut.addIfReady.insts]
        · rw [SameBut.addIfReady.insts]
      · unfold memDepInsert
        split <;> exact SameBut.addIfReady.arrived
      · unfold memDepInsert
        split <;> exact SameBut.addIfReady.nonSpecInsts
      · intro c
        unfold memDepInsert
        split <;> rfl
    · rw [if_neg href]
      refine ⟨_, rfl, hprod.sameBut .addIfReady, hs.inserted h hi hlink (b := b) hawaited hsquashed ?_ ?_ ?_ ?_⟩
      · intro c
        rw [SameBut.addIfReady.insts]
      · exact SameBut.addIfReady.arrived
      · exact SameBut.addIfReady.nonSpecInsts
      · intro c
        rfl
  · intro c hc
    rw [hlink.others c hc]
    exact update_of_ne hc ..
  · intro o ho
    rw [hlink.self] at ho
    obtain ⟨o', ho', rfl⟩ := mem_map.mp ho
    refine ⟨o', ho', ?_⟩
    unfold settled
    split <;> rfl

/-- An instruction that is not put into the dependency graph awaits nothing there. -/
theorem insertNonSpec_spec (h : Tracks n s a) (hs : Signalled s a) (hspec : i.speculative = false)
    (hi : Insertable n s inst i) :
    ∃ t, s.insertNonSpec n inst i = .ok t ∧ Tracks n t (a.step n (.insertNonSpec inst i)) ∧
      Signalled t (a.step n (.insertNonSpec inst i)) := by
  have hself : (s.arrive inst i).insts inst = .renamed i := update_self ..
  have hothers : ∀ c, c ≠ inst → (s.arrive inst i).insts c = s.insts c := fun c hc => update_of_ne hc ..
  have hnot : ((s.arrive inst i).insts inst).speculative = true → False := by
    rw [hself]
    change i.speculative = true → False
    rw [hspec]
    intro h
    cases h
  have harrive : Tracks n { s.arrive inst i with nonSpecInsts := s.nonSpecInsts ++ [inst] } (a.arrive inst i) := by
    have hsame : a.add inst i [] = a.arrive inst i := by
      unfold Dataflow.add
      rw [← h.idle hi.new, update_eq_self]
      rfl
    rw [← hsame]
    refine h.add hi.new hi.last hothers ?_ ?_ ?_ ?_ rfl rfl rfl ?_ ?_ ?_ ?_ ?_ ?_
    · rw [hself]
      rfl
    · rw [hself]
      rfl
    · rw [hself]
      rfl
    · rw [hself]
      rfl
    · intro r c
      rw [count_nil, ite_self]
      rfl
    · intro r hr
      cases hr
    · intro r hr
      cases hr
    · intro hne
      exact absurd rfl hne
    · intro hspec'
      exact (hnot hspec').elim
    · intro hspec'
      exact (hnot hspec').elim
  have hfree := hi.free h (t := { s.arrive inst i with nonSpecInsts := s.nonSpecInsts ++ [inst] }) hothers ?_ rfl
  · obtain ⟨b, hb, hprod⟩ := harrive.addToProducers hfree
    refine ⟨_, hb, hprod, ?_⟩
    have hawaited : (a.step n (.insertNonSpec inst i)).awaited = a.awaited := Dataflow.awaited_give
    have hsquashed : (a.step n (.insertNonSpec inst i)).squashed = update a.squashed inst false := Dataflow.squashed_give
    have hne : ∀ {c}, c ∈ s.arrived → c ≠ inst := fun hc heq => hi.new (heq ▸ hc)
    refine ⟨?_, hs.once, ?_, ?_, ?_, ?_⟩
    · intro c hc hspec' hsq
      obtain rfl | hc := mem_cons.mp hc
      · exact (hnot hspec').elim
      · rw [hawaited]
        rw [hsquashed, update_of_ne (hne hc)] at hsq
        rw [hothers c (hne hc)] at hspec'
        exact hs.ready c hc hspec' hsq
    · intro c hc
      exact hs.fresh c fun hmem => hc (mem_cons_of_mem _ hmem)
    · intro c hc
      rw [hawaited] at hc
      rw [hsquashed]
      by_cases hci : c = inst
      · rw [hci, update_self]
      · rw [update_of_ne hci]
        exact hs.live c hc
    · intro c hc
      obtain hc | hc := mem_append.mp hc
      · obtain ⟨harr, hspec', hzero⟩ := hs.nonSpec c hc
        refine ⟨mem_cons_of_mem _ harr, ?_, hzero⟩
        change ((s.arrive inst i).insts c).speculative = false
        rw [hothers c (hne harr)]
        exact hspec'
      · rw [mem_singleton.mp hc]
        exact ⟨mem_cons_self .., Bool.eq_false_iff.mpr hnot, hs.fresh inst hi.new⟩
    · apply nodup_append.mpr
      refine ⟨hs.distinct, pairwise_singleton _ _, ?_⟩
      intro c hc d hd
      rw [mem_singleton.mp hd]
      exact hne (hs.nonSpec c hc).1
  · intro o ho
    rw [hself] at ho
    exact ⟨o, ho, rfl⟩

end Gem5.Cpu
