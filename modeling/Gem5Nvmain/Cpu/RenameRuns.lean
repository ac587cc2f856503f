import Gem5Nvmain.Cpu.RenameSpec

/- Runs of the rename stage of a thread.

  Renaming takes a register off the free lists and leaves the one it replaces to the history; a commit frees what the
  oldest entry replaced, a squash frees what the newest entry handed out. `Conserved` says that the history is the log
  of the map and that the free, the mapped and the replaced registers are together each physical register once; every
  step keeps it (`registers_conserved`).

  A traced rename stage also keeps, for each instruction that is not squashed, the entries it made and the map right
  after it. Squashing goes back to such a map (`squash_restores`). -/
namespace Gem5.Cpu
open Lib List UnifiedRenameMap Rename

/-! Physical registers. -/

/-- The registers that the entries of the history are to free when they are committed. -/
def pending (hbs : List RenameHistory) : List Nat :=
  (hbs.filter fun hb => decide (hb.newPhysReg ≠ hb.prevPhysReg)).map RenameHistory.prevPhysReg

/-- The free registers, the mapped ones and those the history is to free are each physical register once. -/
structure Conserved {isa : TheISA} (rf : PhysRegFile) (u : UnifiedRenameMap isa) (l : UnifiedFreeList)
    (hbs : List RenameHistory) : Prop where
  partition : (l.regs ++ u.mapped ++ pending hbs).Perm (range rf.totalNumPhysRegs)
  undoable : Undoable undo Made u hbs

section Conservation
variable {isa : TheISA} {rf : PhysRegFile} {u u' : UnifiedRenameMap isa} {l l' : UnifiedFreeList} {s t : Rename isa}
  {hb : RenameHistory} {hbs left : List RenameHistory} {n : Nat}

theorem pending_cons_kept (h : ¬ hb.newPhysReg ≠ hb.prevPhysReg) : pending (hb :: hbs) = pending hbs := by
  simp [pending, not_not.mp h]

theorem pending_cons (h : hb.newPhysReg ≠ hb.prevPhysReg) : pending (hb :: hbs) = hb.prevPhysReg :: pending hbs := by
  simp [pending, h]

theorem pending_append : pending (hbs ++ left) = pending hbs ++ pending left := by
  simp [pending]

variable {p r : Nat}

/-- Exchanging a register between the three parts. -/
theorem exchange {free free' mapped mapped' : List Nat} (hfree : free.Perm (r :: free'))
    (hmap : (p :: mapped').Perm (r :: mapped)) (rest : List Nat) :
    (free ++ mapped ++ rest).Perm (free' ++ mapped' ++ p :: rest) :=
  calc free ++ mapped ++ rest
    List.Perm _ (r :: free' ++ mapped ++ rest) := (hfree.append_right _).append_right _
    List.Perm _ (free' ++ r :: mapped ++ rest) := List.Perm.append_right _ perm_middle.symm
    List.Perm _ (free' ++ p :: mapped' ++ rest) := (hmap.symm.append_left _).append_right _
    _ = free' ++ (p :: (mapped' ++ rest)) := by simp
    List.Perm _ (free' ++ (mapped' ++ p :: rest)) := List.Perm.append_left _ perm_middle.symm
    _ = free' ++ mapped' ++ p :: rest := by simp

theorem Conserved.nodup (hc : Conserved rf u l hbs) : (l.regs ++ u.mapped ++ pending hbs).Nodup :=
  hc.partition.nodup_iff.mpr nodup_range

theorem Conserved.free (hc : Conserved rf u l hbs) (hr : r ∈ l.regs) : r ∉ u.mapped ∧ r ∉ pending hbs := by
  have hnd := hc.nodup
  rw [append_assoc] at hnd
  have hdis := (nodup_append.mp hnd).2.2 r hr
  constructor
  · intro hm
    exact hdis r (mem_append_left _ hm) rfl
  · intro hp
    exact hdis r (mem_append_right _ hp) rfl

theorem mem_mapped_of_lookupAt {a : Nat} (h : u.lookupAt a = some p) : p ∈ u.mapped := by
  obtain ⟨c, i, hs, hp⟩ := lookupAt_eq_some.mp h
  cases c with
  | int => exact mem_append_left _ (mem_append_left _ (mem_of_getElem? hp))
  | float => exact mem_append_left _ (mem_append_right _ (mem_of_getElem? hp))
  | cc =>
    apply mem_append_right
    apply mem_of_getElem?
    rw [getElem?_take_of_lt (slot_cc_lt hs)]
    exact hp

theorem Conserved.undoEntry (hc : Conserved rf u l (hb :: hbs)) (h : undoEntry rf u l hb = .ok (u', l')) :
    Conserved rf u' l' hbs := by
  have hmap := undoEntry_map h
  cases hc.undoable with
  | cons hmade hundo =>
    rw [← hmap] at hundo
    refine ⟨?_, hundo⟩
    unfold Rename.undoEntry at h
    split at h
    · rename_i hne
      obtain ⟨v, hset, h⟩ := of_bind h
      obtain ⟨_, hadd, h⟩ := of_bind h
      cases h
      have hput := mapped_putAt (r := hb.prevPhysReg) (hmade hne)
      rw [← setEntry_spec hset] at hput
      have hperm := exchange (UnifiedFreeList.addReg_spec hadd) hput.symm (pending hbs)
      have hpart := hc.partition
      rw [pending_cons hne] at hpart
      exact hperm.trans hpart
    · rename_i heq
      cases h
      have hpart := hc.partition
      rwa [pending_cons_kept heq] at hpart

theorem Conserved.squashLoop (hc : Conserved rf u l hbs) (h : squashLoop rf n hbs u l = .ok t) :
    Conserved rf t.renameMap t.freeList t.historyBuffer := by
  induction hbs generalizing u l with
  | nil =>
    cases h
    exact hc
  | cons hb rest ih =>
    unfold squashLoop at h
    split at h
    · obtain ⟨⟨v, l'⟩, hundo, h⟩ := of_bind h
      exact ih (hc.undoEntry hundo) h
    · cases h
      exact hc

theorem Conserved.freeEntry (hc : Conserved rf u l (hbs ++ [hb])) (h : freeEntry rf l hb = .ok l') :
    Conserved rf u l' hbs := by
  refine ⟨?_, hc.undoable.of_append⟩
  have hpart := hc.partition
  rw [pending_append] at hpart
  unfold Rename.freeEntry at h
  split at h
  · rename_i hne
    rw [pending_cons hne] at hpart
    have hadd := UnifiedFreeList.addReg_spec h
    refine List.Perm.trans ?_ hpart
    calc l'.regs ++ u.mapped ++ pending hbs
      List.Perm _ (hb.prevPhysReg :: l.regs ++ u.mapped ++ pending hbs) := (hadd.append_right _).append_right _
      _ = [hb.prevPhysReg] ++ (l.regs ++ u.mapped ++ pending hbs) := by simp
      List.Perm _ (l.regs ++ u.mapped ++ pending hbs ++ [hb.prevPhysReg]) := perm_append_comm
      _ = l.regs ++ u.mapped ++ (pending hbs ++ [hb.prevPhysReg]) := by simp
  · rename_i heq
    cases h
    rw [pending_cons_kept heq] at hpart
    simpa [pending] using hpart

theorem Conserved.removeLoop (hc : Conserved rf u l hbs.reverse) (h : removeLoop rf n hbs l = .ok (left, l')) :
    Conserved rf u l' left.reverse := by
  induction hbs generalizing l with
  | nil =>
    cases h
    exact hc
  | cons hb newer ih =>
    rw [reverse_cons] at hc
    unfold removeLoop at h
    split at h
    · obtain ⟨_, hfree, h⟩ := of_bind h
      exact ih (hc.freeEntry hfree) h
    · cases h
      rw [reverse_cons]
      exact hc

variable {inst : Inst}

section
variable (hc : Conserved rf s.renameMap s.freeList s.historyBuffer)
include hc

/-- A register that renaming hands out was free. -/
theorem Conserved.renameDest {d : Nat}
    (h : s.renameDest rf inst d = .ok t) : Conserved rf t.renameMap t.freeList t.historyBuffer := by
  obtain ⟨a, info, hren, hhist, hundo⟩ := renameDest_spec h
  rw [hhist]
  obtain ⟨hsame, hu, hl⟩ | ⟨hprev, hu, hfree, -⟩ := renameDestReg_spec hren
  · have hkept : ¬ info.renamedReg ≠ info.prevReg := fun hne => hne hsame
    refine ⟨?_, hc.undoable.push hundo (absurd hsame)⟩
    rw [pending_cons_kept hkept, hu, hl]
    exact hc.partition
  · have hnew := hc.free (hfree.mem_iff.mpr mem_cons_self)
    have hne : info.renamedReg ≠ info.prevReg := by
      intro heq
      rw [heq] at hnew
      exact hnew.1 (mem_mapped_of_lookupAt hprev)
    have hmade : t.renameMap.lookupAt a = some info.renamedReg := by
      rw [hu]
      exact lookupAt_putAt hprev
    refine ⟨?_, hc.undoable.push hundo fun _ => hmade⟩
    have hput := mapped_putAt (r := info.renamedReg) hprev
    rw [← hu] at hput
    rw [pending_cons hne]
    exact (exchange hfree hput _).symm.trans hc.partition

theorem Conserved.renameDests {ds : List Nat}
    (h : renameDests rf inst ds s = .ok t) : Conserved rf t.renameMap t.freeList t.historyBuffer := by
  induction ds generalizing s with
  | nil =>
    cases h
    exact hc
  | cons d ds ih =>
    obtain ⟨v, hdest, h⟩ := of_bind h
    exact ih (hc.renameDest hdest) h

theorem Conserved.step {e : RenameEvent}
    (h : s.step rf e = .ok t) : Conserved rf t.renameMap t.freeList t.historyBuffer := by
  cases e with
  | renameDestRegs inst => exact hc.renameDests h
  | doSquash n => exact hc.squashLoop h
  | removeFromHistory n =>
    obtain ⟨⟨left, l'⟩, hloop, h⟩ := of_bind h
    cases h
    apply Conserved.removeLoop _ hloop
    rw [reverse_reverse]
    exact hc

end

end Conservation

/-- Start with an empty history and a map and free lists that hold each physical register once. However instructions
  are renamed, committed and squashed, the free registers, the mapped ones and those replaced by an entry of the
  history are each physical register once, and a register that is handed out is a free one. -/
theorem registers_conserved {isa : TheISA} {rf : PhysRegFile} {s t : Rename isa} {es : List RenameEvent}
    (hempty : s.historyBuffer = [])
    (hall : (s.freeList.regs ++ s.renameMap.mapped).Perm (range rf.totalNumPhysRegs))
    (hr : Exec (StepOf (step rf)) s es t) :
    (t.freeList.regs ++ t.renameMap.mapped ++ pending t.historyBuffer).Perm (range rf.totalNumPhysRegs) ∧
    ∀ inst d a info u l, renameDestReg rf inst t.renameMap t.freeList d = .ok (a, info, u, l) →
      info.renamedReg = info.prevReg ∨
      info.renamedReg ∈ t.freeList.regs ∧ info.renamedReg ∉ t.renameMap.mapped ∧ info.renamedReg ∉ pending t.historyBuffer := by
  have hstart : Conserved rf s.renameMap s.freeList s.historyBuffer := by
    rw [hempty]
    exact ⟨by simpa [pending] using hall, .nil _⟩
  have hend : Conserved rf t.renameMap t.freeList t.historyBuffer := by
    apply hr.invariant (P := fun t => Conserved rf t.renameMap t.freeList t.historyBuffer) hstart
    intro s' e t' hc hstep
    exact hc.step hstep
  refine ⟨hend.partition, ?_⟩
  intro inst d a info u l hren
  obtain ⟨hsame, -, -⟩ | ⟨-, -, hfree, -⟩ := renameDestReg_spec hren
  · exact .inl hsame
  · have hmem := hfree.mem_iff.mpr mem_cons_self
    exact .inr ⟨hmem, hend.free hmem⟩

/-- Two integer registers of which the second is the zero register, one of each other class. -/
def smallIsa : TheISA := ⟨2, 2, 1, 1, 1, by decide⟩

def smallRegFile : PhysRegFile := ⟨4, 2, 2⟩

def smallRename : Rename smallIsa :=
  ⟨⟨⟨[0, 1], 1, rfl⟩, ⟨[4], 99, rfl⟩, ⟨[6], 99, rfl⟩⟩, ⟨[2, 3], [5], [7]⟩, []⟩

/-- Two instructions write a register twice, and the zero and the misc register; the first is committed, the second squashed. -/
theorem registers_conserved_small : ∃ t, Exec (StepOf (step smallRegFile)) smallRename
      [.renameDestRegs ⟨1, [0, 2, 0], id, id⟩, .removeFromHistory 1, .renameDestRegs ⟨2, [0, 1, 4, 3], id, id⟩, .doSquash 1] t ∧
    t.freeList = ⟨[2, 0], [4], [7]⟩ ∧
    (t.freeList.regs ++ t.renameMap.mapped ++ pending t.historyBuffer).Perm (range 8) := by
  refine Exec.ends_with (p := fun t => decide (t.freeList = ⟨[2, 0], [4], [7]⟩)) (by decide) fun t hr ht => ?_
  have hall : (smallRename.freeList.regs ++ smallRename.renameMap.mapped).Perm (range smallRegFile.totalNumPhysRegs) := by
    decide
  exact ⟨of_decide_eq_true ht, (registers_conserved rfl hall hr).1⟩

/-! Squashing. -/

/-- A rename stage together with the instructions it has renamed and not squashed, the newest first, each with the
  entries it made and the map right after it. Sequence numbers start at 1. -/
structure Traced (isa : TheISA) where
  rename : Rename isa
  renamed : List (Mark (UnifiedRenameMap isa) RenameHistory)
  /-- The highest committed and the highest renamed number. -/
  committed : Nat
  last : Nat

namespace Traced
variable {isa : TheISA} {rf : PhysRegFile} {u : UnifiedRenameMap isa} {l : UnifiedFreeList} {s t : Traced isa}
  {n : Nat}

def start (u : UnifiedRenameMap isa) (l : UnifiedFreeList) : Traced isa := ⟨⟨u, l, []⟩, [], 0, 0⟩

/-- Instructions come in order, and nothing that is committed is squashed. -/
def allowed (s : Traced isa) : RenameEvent → Bool
  | .renameDestRegs inst => decide (s.last < inst.seqNum) && decide (s.committed < inst.seqNum)
  | .removeFromHistory _ => true
  | .doSquash n => decide (s.committed ≤ n)

def step (rf : PhysRegFile) (s : Traced isa) (e : RenameEvent) : Except Stop (Traced isa) := do
  let r ← s.rename.step rf e
  match e with
  | .renameDestRegs inst =>
    let entries := r.historyBuffer.filter fun hb => decide (hb.instSeqNum = inst.seqNum)
    return ⟨r, ⟨inst.seqNum, entries, r.renameMap⟩ :: s.renamed, s.committed, inst.seqNum⟩
  | .removeFromHistory n => return { s with rename := r, committed := max s.committed n }
  | .doSquash n => return { s with rename := r, renamed := s.renamed.filter fun m => decide (m.number ≤ n) }

/-- What holds between the rename stage and its trace. -/
structure Inv (u : UnifiedRenameMap isa) (s : Traced isa) : Prop where
  numbered : Numbered s.renamed
  marks : Marks undo u s.renamed s.rename.renameMap
  history : s.rename.historyBuffer = newer s.committed s.renamed
  stamped : Stamped RenameHistory.instSeqNum s.renamed
  below : ∀ m ∈ s.renamed, m.number ≤ s.last

theorem inv_start : Inv u (start u l) where
  numbered := List.Pairwise.nil
  marks := .nil
  history := rfl
  stamped := by simp [start, Stamped]
  below := by simp [start]

variable {r : Rename isa}

theorem Inv.rename {inst : Inst} (hi : Inv u s) (hlast : s.last < inst.seqNum)
    (hcom : s.committed < inst.seqNum) (h : s.rename.renameDestRegs rf inst = .ok r) :
    Inv u ⟨r, ⟨inst.seqNum, r.historyBuffer.filter fun hb => decide (hb.instSeqNum = inst.seqNum), r.renameMap⟩ :: s.renamed,
      s.committed, inst.seqNum⟩ := by
  obtain ⟨es, hhist, hseq, hroll⟩ := renameDests_spec h
  have hold : ∀ hb ∈ s.rename.historyBuffer, hb.instSeqNum ≠ inst.seqNum := by
    intro hb hmem
    rw [hi.history] at hmem
    obtain ⟨m, hm, he⟩ := mem_flatMap.mp hmem
    have hm := (mem_filter.mp hm).1
    have hnum := hi.stamped m hm hb he
    have hle := hi.below m hm
    omega
  have hentries : r.historyBuffer.filter (fun hb => decide (hb.instSeqNum = inst.seqNum)) = es := by
    have hall : es.filter (fun hb => decide (hb.instSeqNum = inst.seqNum)) = es :=
      filter_eq_self.mpr fun hb hmem => decide_eq_true (hseq hb hmem)
    have hnone : s.rename.historyBuffer.filter (fun hb => decide (hb.instSeqNum = inst.seqNum)) = [] :=
      filter_eq_nil_iff.mpr fun hb hmem => by simpa using hold hb hmem
    rw [hhist, filter_append, hall, hnone, append_nil]
  rw [hentries]
  refine ⟨?_, ?_, ?_, ?_, ?_⟩
  · refine pairwise_cons.mpr ⟨?_, hi.numbered⟩
    intro m hm
    have hle := hi.below m hm
    exact Nat.lt_of_le_of_lt hle hlast
  · apply Marks.cons
    rw [hroll]
    exact hi.marks
  · rw [newer_cons_of_lt hcom, hhist, hi.history]
  · intro m hm
    obtain rfl | hm := mem_cons.mp hm
    · exact hseq
    · exact hi.stamped m hm
  · intro m hm
    obtain rfl | hm := mem_cons.mp hm
    · exact Nat.le_refl _
    · exact Nat.le_of_lt (Nat.lt_of_le_of_lt (hi.below m hm) hlast)

theorem Inv.commit (hi : Inv u s) (h : s.rename.removeFromHistory rf n = .ok r) :
    Inv u { s with rename := r, committed := max s.committed n } := by
  obtain ⟨hhist, hmap⟩ := removeFromHistory_spec h
  refine ⟨hi.numbered, ?_, ?_, hi.stamped, hi.below⟩
  · rw [hmap]
    exact hi.marks
  · rw [hhist, hi.history]
    exact dropWhile_reverse_newer hi.numbered hi.stamped

theorem Inv.squashed (hi : Inv u s) (hn : s.committed ≤ n) (h : s.rename.doSquash rf n = .ok r) :
    r.renameMap = stateAt u n s.renamed ∧
    r.historyBuffer = newer s.committed (s.renamed.filter fun m => decide (m.number ≤ n)) := by
  obtain ⟨hhist, hmap⟩ := squashLoop_spec h
  rw [hi.history] at hhist hmap
  constructor
  · rw [hmap, takeWhile_newer hi.numbered hi.stamped hn]
    exact hi.marks.rollback_newer hi.numbered
  · rw [hhist]
    exact dropWhile_newer hi.numbered hi.stamped

theorem Inv.squash (hi : Inv u s) (hn : s.committed ≤ n) (h : s.rename.doSquash rf n = .ok r) :
    Inv u { s with rename := r, renamed := s.renamed.filter fun m => decide (m.number ≤ n) } := by
  obtain ⟨hmap, hhist⟩ := hi.squashed hn h
  refine ⟨hi.numbered.filter _, ?_, hhist, hi.stamped.filter _, fun m hm => hi.below m (mem_filter.mp hm).1⟩
  rw [hmap]
  exact hi.marks.forget hi.numbered

variable {e : RenameEvent}

theorem Inv.step (hi : Inv u s) (h : StepIf allowed (step rf) s e t) : Inv u t := by
  obtain ⟨hc, h⟩ := h
  obtain ⟨r, hr, h⟩ := of_bind h
  cases e with
  | renameDestRegs inst =>
    cases h
    obtain ⟨hlast, hcom⟩ := Bool.and_eq_true_iff.mp hc
    exact hi.rename (of_decide_eq_true hlast) (of_decide_eq_true hcom) hr
  | removeFromHistory n =>
    cases h
    exact hi.commit hr
  | doSquash n =>
    cases h
    exact hi.squash (of_decide_eq_true hc) hr

theorem classed_step (hc : Classed rf s.rename.renameMap ∧ ∀ hb ∈ s.rename.historyBuffer, Sound isa rf hb)
    (h : StepIf allowed (step rf) s e t) :
    Classed rf t.rename.renameMap ∧ ∀ hb ∈ t.rename.historyBuffer, Sound isa rf hb := by
  obtain ⟨r, hr, h⟩ := of_bind h.2
  have hnext := hc.1.step hc.2 hr
  cases e <;> (cases h; exact hnext)

end Traced

/-- A squash to a later number first makes no difference. -/
theorem squashLoop_squashLoop {isa : TheISA} {rf : PhysRegFile} {m n : Nat} (hle : n ≤ m) (hbs : List RenameHistory)
    (u : UnifiedRenameMap isa) (l : UnifiedFreeList) :
    (squashLoop rf m hbs u l >>= doSquash rf n) = squashLoop rf n hbs u l := by
  induction hbs generalizing u l with
  | nil => rfl
  | cons hb rest ih =>
    by_cases hm : hb.instSeqNum > m
    · have hn : hb.instSeqNum > n := by omega
      unfold squashLoop
      rw [if_pos hm, if_pos hn]
      cases undoEntry rf u l hb with
      | error stop => rfl
      | ok p => exact ih p.1 p.2
    · have hstop : squashLoop rf m (hb :: rest) u l = .ok ⟨u, l, hb :: rest⟩ := by
        unfold squashLoop
        rw [if_neg hm]
        rfl
      rw [hstop]
      rfl

/-- In every run in which instructions are renamed in order and nothing that is committed is squashed, a squash to `n`
  leaves the map right after the last instruction up to `n` that is not squashed, and the history keeps the entries of
  the instructions after the last commit up to `n`. A squash to a later number first changes nothing, and a squash
  returns when the registers mapped at the start have their classes. -/
theorem squash_restores {isa : TheISA} {rf : PhysRegFile} {u : UnifiedRenameMap isa} {l : UnifiedFreeList}
    {t : Traced isa} {es : List RenameEvent} (hr : Exec (StepIf Traced.allowed (Traced.step rf)) (Traced.start u l) es t)
    {n : Nat} (hn : t.committed ≤ n) : (∀ r, t.rename.doSquash rf n = .ok r →
      r.renameMap = ((t.renamed.find? fun m => decide (m.number ≤ n)).map Mark.after).getD u ∧
      r.historyBuffer =
        (t.renamed.filter fun m => decide (t.committed < m.number) && decide (m.number ≤ n)).flatMap Mark.entries) ∧
    (∀ m, n ≤ m → (t.rename.doSquash rf m >>= doSquash rf n) = t.rename.doSquash rf n) ∧
    (Classed rf u → ∃ r, t.rename.doSquash rf n = .ok r) := by
  have hi : Traced.Inv u t := by
    apply hr.invariant Traced.inv_start
    intro s e t hi hstep
    exact hi.step hstep
  refine ⟨?_, ?_, ?_⟩
  · intro r h
    obtain ⟨hmap, hhist⟩ := hi.squashed hn h
    refine ⟨hmap, ?_⟩
    rw [hhist]
    unfold newer
    rw [filter_filter]
  · intro m hle
    exact squashLoop_squashLoop hle _ _ _
  · intro hu
    have hclassed : Classed rf t.rename.renameMap ∧ ∀ hb ∈ t.rename.historyBuffer, Sound isa rf hb := by
      apply hr.invariant
      · exact ⟨hu, fun hb hmem => by simp [Traced.start] at hmem⟩
      · intro s e t hc hstep
        exact Traced.classed_step hc hstep
    exact squashLoop_returns hclassed.2

/-- Two instructions write one register, the first is committed; a squash to it finds its map again. -/
theorem squash_restores_small : ∃ t r, Exec (StepIf Traced.allowed (Traced.step smallRegFile))
      (Traced.start smallRename.renameMap ⟨[2, 3], [5], [7]⟩)
      [.renameDestRegs ⟨1, [0], id, id⟩, .renameDestRegs ⟨2, [0, 2], id, id⟩, .removeFromHistory 1] t ∧
    t.rename.doSquash smallRegFile 1 = .ok r ∧
    r.renameMap = ((t.renamed.find? fun m => decide (m.number ≤ 1)).map Mark.after).getD smallRename.renameMap := by
  refine Exec.ends_withIf_two (p := fun t => decide (t.committed ≤ 1) && (t.rename.doSquash smallRegFile 1).toBool)
    (by decide) fun t hr ht => ?_
  obtain ⟨hcom, hok⟩ := Bool.and_eq_true_iff.mp ht
  cases hs : t.rename.doSquash smallRegFile 1 with
  | error stop =>
    rw [hs] at hok
    cases hok
  | ok r => exact ⟨r, rfl, ((squash_restores hr (of_decide_eq_true hcom)).1 r hs).1⟩

end Gem5.Cpu
