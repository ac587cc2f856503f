import Gem5Nvmain.Cpu.RenameRuns

/- The free registers that `renameInsts` asks for before it renames an instruction (src/cpu/o3/rename_impl.hh).

  `numFreeEntries` is the minimum over the integer and the floating-point map, and an instruction with more
  destinations waits. So the lists of these two classes never run out. The condition-code list is not looked at. -/
namespace Gem5.Cpu
open Lib List UnifiedRenameMap

/-- `UnifiedRenameMap::numFreeEntries`: each map has the free list of its class. -/
def UnifiedFreeList.numFreeEntries (l : UnifiedFreeList) : Nat := min l.intList.length l.floatList.length

namespace Rename
variable {isa : TheISA} {rf : PhysRegFile} {inst : Inst} {s t : Rename isa} {u u' : UnifiedRenameMap isa} {l l' : UnifiedFreeList}
  {c : RenameClass} {d i : Nat} {ds : List Nat}

/-- The test of `renameInsts` for which the instruction waits. -/
def blocks (s : Rename isa) (inst : Inst) : Bool := decide (s.freeList.numFreeEntries < inst.destRegs.length)

/-- The class of a destination, and its index in the map of the class. -/
def place (isa : TheISA) (inst : Inst) (destReg : Nat) : Option (RenameClass × Nat) :=
  match regIdxToClass isa destReg with
  | .ok (.renamed .int, rel) => some (.int, inst.flattenIntIndex rel)
  | .ok (.renamed .float, rel) => some (.float, inst.flattenFloatIndex rel)
  | .ok (.renamed .cc, rel) => some (.cc, rel)
  | _ => none

/-- The list from which `getReg` takes a register for a destination: none for the zero register and the misc registers. -/
def takes (u : UnifiedRenameMap isa) (inst : Inst) (destReg : Nat) : Option RenameClass :=
  match place isa inst destReg with
  | some (c, i) => if i ≠ (u.mapOf c).zeroReg then some c else none
  | none => none

/-- The registers of a class that an instruction takes. -/
def demand (u : UnifiedRenameMap isa) (inst : Inst) (c : RenameClass) : Nat := inst.destRegs.countP fun d => decide (takes u inst d = some c)

/-- Each `getReg` that `renameDestRegs` executes finds a register on the list of its class. -/
def FindsRegs (rf : PhysRegFile) (s : Rename isa) (inst : Inst) : Prop :=
  ∀ done destReg rest t c, inst.destRegs = done ++ destReg :: rest → renameDests rf inst done s = .ok t →
    takes t.renameMap inst destReg = some c → t.freeList.list c ≠ []

/-- The lists have registers of their class, and a zero register is its own entry. -/
structure WellFormed (rf : PhysRegFile) (s : Rename isa) : Prop where
  classed : ∀ c, ∀ r ∈ s.freeList.list c, rf.isPhysReg c r = true
  zero : ∀ c p, (s.renameMap.mapOf c).map[(s.renameMap.mapOf c).zeroReg]? = some p →
    p = (s.renameMap.mapOf c).zeroReg ∧ rf.isPhysReg c p = true

/-- The destinations are registers, with an entry in the map of their class. -/
def Indexed (isa : TheISA) (inst : Inst) : Prop :=
  ∀ d ∈ inst.destRegs, d < isa.maxRegIndex ∧ ∀ c i, place isa inst d = some (c, i) → i < mapSize isa c

/-! ## What is taken -/

@[simp] theorem list_setList_self {free : List Nat} : (l.setList free c).list c = free := by
  cases c <;> rfl

theorem list_setList_ne {free : List Nat} {c' : RenameClass} (h : c' ≠ c) : (l.setList free c).list c' = l.list c' := by
  cases c <;> cases c' <;> first | rfl | exact absurd rfl h

theorem renameDestReg_place (h : place isa inst d = some (c, i)) :
    ∃ a, renameDestReg rf inst u l d = (do let result ← u.renameIn rf c l i; return (a, result)) := by
  unfold place at h
  unfold renameDestReg
  split at h
  · rename_i rel heq
    cases h
    rw [heq]
    exact ⟨_, rfl⟩
  · rename_i rel heq
    cases h
    rw [heq]
    exact ⟨_, rfl⟩
  · rename_i rel heq
    cases h
    rw [heq]
    exact ⟨_, rfl⟩
  · cases h

theorem regIdxToClass_ok (h : d < isa.maxRegIndex) : ∃ cls, regIdxToClass isa d = .ok cls := by
  unfold regIdxToClass
  simp only [require, decide_eq_true h, if_true, bind_ok]
  split_ifs <;> exact ⟨_, rfl⟩

theorem renameDestReg_misc {cls : RegClass × Nat} (h : place isa inst d = none) (hcls : regIdxToClass isa d = .ok cls) :
    ∃ a info, renameDestReg rf inst u l d = .ok (a, info, u, l) := by
  obtain ⟨cls, rel⟩ := cls
  unfold place at h
  unfold renameDestReg
  rw [hcls] at h ⊢
  cases cls with
  | misc => exact ⟨_, _, rfl⟩
  | renamed c => cases c <;> cases h

/-- What the renaming of a register leaves: the zero registers and their entries, and the lists, of which one may be shorter. -/
structure Taken (took : Option RenameClass) (u u' : UnifiedRenameMap isa) (l l' : UnifiedFreeList) : Prop where
  zeroReg : ∀ c, (u'.mapOf c).zeroReg = (u.mapOf c).zeroReg
  entry : ∀ c, (u'.mapOf c).map[(u.mapOf c).zeroReg]? = (u.mapOf c).map[(u.mapOf c).zeroReg]?
  length : ∀ c, (l'.list c).length + (if took = some c then 1 else 0) = (l.list c).length
  subset : ∀ c, ∀ r ∈ l'.list c, r ∈ l.list c

theorem Taken.none : Taken none u u l l := ⟨fun _ => rfl, fun _ => rfl, fun _ => rfl, fun _ _ hr => hr⟩

theorem renameIn_taken {info : RenameInfo} (h : u.renameIn rf c l i = .ok (info, u', l')) :
    Taken (if i ≠ (u.mapOf c).zeroReg then some c else none) u u' l l' := by
  obtain ⟨⟨info', m, free⟩, hren, h⟩ := of_bind h
  obtain ⟨_, -, h⟩ := of_bind h
  cases h
  obtain ⟨prevReg, -, hren⟩ := of_bind hren
  split at hren
  · rename_i hne
    obtain ⟨⟨r, rest⟩, hget, hren⟩ := of_bind hren
    cases hren
    have hlist : l.list c = r :: free := by
      unfold getReg at hget
      split at hget
      · cases hget
      · rename_i heq
        cases hget
        exact heq
    rw [if_pos hne]
    refine ⟨fun c' => ?_, fun c' => ?_, fun c' => ?_, fun c' => ?_⟩ <;> by_cases hc : c' = c
    · rw [hc, mapOf_setMap]
      rfl
    · rw [mapOf_setMap_ne hc]
    · rw [hc, mapOf_setMap]
      exact getElem?_set_ne hne
    · rw [mapOf_setMap_ne hc]
    · rw [hc, list_setList_self, if_pos rfl, hlist]
      rfl
    · rw [list_setList_ne hc, if_neg fun heq => hc (Option.some_inj.mp heq).symm, Nat.add_zero]
    · rw [hc, list_setList_self, hlist]
      exact fun _ hr => mem_cons_of_mem _ hr
    · rw [list_setList_ne hc]
      exact fun _ hr => hr
  · rename_i heq
    obtain ⟨_, -, hren⟩ := of_bind hren
    cases hren
    have hset : l.setList (l.list c) c = l := by cases c <;> rfl
    rw [if_neg heq, setMap_mapOf, hset]
    exact Taken.none

theorem renameDest_taken (h : s.renameDest rf inst d = .ok t) :
    Taken (takes s.renameMap inst d) s.renameMap t.renameMap s.freeList t.freeList := by
  obtain ⟨⟨a, info, u, l⟩, hren, h⟩ := of_bind h
  cases h
  unfold takes
  cases hp : place isa inst d with
  | none =>
    obtain ⟨cls, hcls, -⟩ := of_bind hren
    obtain ⟨a', info', hmisc⟩ := renameDestReg_misc hp hcls
    cases hmisc.symm.trans hren
    exact Taken.none
  | some place =>
    obtain ⟨c, i⟩ := place
    obtain ⟨a', hplace⟩ := @renameDestReg_place _ rf inst s.renameMap s.freeList _ _ _ hp
    obtain ⟨⟨info', u', l'⟩, hin, hrest⟩ := of_bind (hplace.symm.trans hren)
    cases hrest
    exact renameIn_taken hin

theorem takes_congr (h : ∀ c, (u'.mapOf c).zeroReg = (u.mapOf c).zeroReg) : takes u' inst d = takes u inst d := by
  unfold takes
  split
  · rw [h]
  · rfl

theorem renameDests_taken (h : renameDests rf inst ds s = .ok t) : (∀ c, (t.renameMap.mapOf c).zeroReg = (s.renameMap.mapOf c).zeroReg) ∧
    ∀ c, (t.freeList.list c).length + ds.countP (fun d => decide (takes s.renameMap inst d = some c)) = (s.freeList.list c).length := by
  induction ds generalizing s with
  | nil =>
    cases h
    exact ⟨fun _ => rfl, fun _ => rfl⟩
  | cons d ds ih =>
    obtain ⟨v, hdest, h⟩ := of_bind h
    have htaken := renameDest_taken hdest
    obtain ⟨hzero, hcount⟩ := ih h
    refine ⟨fun c => (hzero c).trans (htaken.zeroReg c), fun c => ?_⟩
    have hc := hcount c
    have hlen := htaken.length c
    simp only [takes_congr htaken.zeroReg] at hc
    rw [countP_cons]
    simp only [decide_eq_true_eq]
    omega

/-! ## What is found -/

/-- The list of a class lasts when it has a register for each destination of the class. -/
theorem findsRegs_of_demand (h : ∀ c, demand s.renameMap inst c ≤ (s.freeList.list c).length) : FindsRegs rf s inst := by
  intro done d rest t c hdests hrun htakes hempty
  obtain ⟨hzero, hcount⟩ := renameDests_taken hrun
  have hlen := hcount c
  have hdemand := h c
  unfold demand at hdemand
  rw [takes_congr hzero] at htakes
  rw [hdests, countP_append, countP_cons_of_pos (by simpa using htakes)] at hdemand
  rw [hempty, length_nil] at hlen
  omega

theorem WellFormed.renameDest (hw : WellFormed rf s) (h : s.renameDest rf inst d = .ok t) : WellFormed rf t := by
  have htaken := renameDest_taken h
  refine ⟨fun c r hr => hw.classed c r (htaken.subset c r hr), fun c p hp => ?_⟩
  rw [htaken.zeroReg, htaken.entry] at hp
  rw [htaken.zeroReg]
  exact hw.zero c p hp

/-- Only a list without registers stops the renaming of a destination. -/
theorem WellFormed.progress (hw : WellFormed rf s) (hd : d < isa.maxRegIndex) (hi : ∀ c i, place isa inst d = some (c, i) → i < mapSize isa c)
    (hfinds : ∀ c, takes s.renameMap inst d = some c → s.freeList.list c ≠ []) : ∃ t, s.renameDest rf inst d = .ok t := by
  unfold Rename.renameDest
  cases hp : place isa inst d with
  | none =>
    obtain ⟨cls, hcls⟩ := regIdxToClass_ok hd
    obtain ⟨a, info, hmisc⟩ := @renameDestReg_misc _ rf inst s.renameMap s.freeList _ _ hp hcls
    rw [hmisc]
    exact ⟨_, rfl⟩
  | some place =>
    obtain ⟨c, i⟩ := place
    obtain ⟨a, hplace⟩ := @renameDestReg_place _ rf inst s.renameMap s.freeList _ _ _ hp
    have hlt : i < (s.renameMap.mapOf c).map.length := by
      rw [(s.renameMap.mapOf c).length_map]
      exact hi c i hp
    have hentry : (s.renameMap.mapOf c).map[i]? = some (s.renameMap.mapOf c).map[i] := getElem?_eq_getElem hlt
    rw [hplace]
    unfold renameIn SimpleRenameMap.rename
    rw [index_eq_ok.mpr hentry, bind_ok]
    by_cases hne : i ≠ (s.renameMap.mapOf c).zeroReg
    · have htakes : takes s.renameMap inst d = some c := by
        unfold takes
        rw [hp]
        exact if_pos hne
      obtain ⟨r, rest, hlist⟩ := exists_cons_of_ne_nil (hfinds c htakes)
      have hclass := hw.classed c r (by rw [hlist]; exact mem_cons_self)
      rw [if_pos hne, hlist]
      simp only [getReg, bind_ok, pure_eq_ok, require, hclass, if_true]
      exact ⟨_, rfl⟩
    · have heq : i = (s.renameMap.mapOf c).zeroReg := not_not.mp hne
      have hzero : (s.renameMap.mapOf c).map[(s.renameMap.mapOf c).zeroReg]? = some (s.renameMap.mapOf c).map[i] := by
        rw [← heq]
        exact hentry
      obtain ⟨hself, hclass⟩ := hw.zero c _ hzero
      rw [hself] at hclass ⊢
      rw [if_neg hne]
      simp only [require, decide_true, if_true, bind_ok, pure_eq_ok, hclass]
      exact ⟨_, rfl⟩

theorem WellFormed.renameDests (hw : WellFormed rf s) (hd : ∀ d ∈ ds, d < isa.maxRegIndex ∧ ∀ c i, place isa inst d = some (c, i) → i < mapSize isa c)
    (hfinds : ∀ done d rest t c, ds = done ++ d :: rest → Rename.renameDests rf inst done s = .ok t →
      takes t.renameMap inst d = some c → t.freeList.list c ≠ []) : ∃ t, Rename.renameDests rf inst ds s = .ok t := by
  induction ds generalizing s with
  | nil => exact ⟨s, rfl⟩
  | cons d ds ih =>
    obtain ⟨hlt, hindex⟩ := hd d mem_cons_self
    obtain ⟨v, hv⟩ := hw.progress hlt hindex fun c => hfinds [] d ds s c rfl rfl
    obtain ⟨t, ht⟩ := ih (hw.renameDest hv) (fun e he => hd e (mem_cons_of_mem d he)) fun done e rest t c heq hrun => by
      refine hfinds (d :: done) e rest t c (congrArg (d :: ·) heq) ?_
      show (do let s ← Rename.renameDest rf inst s d; Rename.renameDests rf inst done s) = _
      rw [hv]
      exact hrun
    refine ⟨t, ?_⟩
    show (do let s ← Rename.renameDest rf inst s d; Rename.renameDests rf inst ds s) = _
    rw [hv]
    exact ht

/-- An instruction that does not wait finds its registers exactly when the condition-code list has enough of them. -/
theorem guarded_iff (hw : WellFormed rf s) (hi : Indexed isa inst) : (s.blocks inst = false → FindsRegs rf s inst) ↔
    s.blocks inst = true ∨ demand s.renameMap inst .cc ≤ s.freeList.ccList.length := by
  have hguard (hb : s.blocks inst = false) : inst.destRegs.length ≤ s.freeList.intList.length ∧
      inst.destRegs.length ≤ s.freeList.floatList.length := by
    have hge : inst.destRegs.length ≤ min _ _ := Nat.le_of_not_lt (of_decide_eq_false hb)
    exact ⟨Nat.le_trans hge (Nat.min_le_left _ _), Nat.le_trans hge (Nat.min_le_right _ _)⟩
  constructor
  · intro hsafe
    cases hb : s.blocks inst with
    | true => exact .inl rfl
    | false =>
      obtain ⟨t, ht⟩ := hw.renameDests hi (hsafe hb)
      have hcount : _ = s.freeList.ccList.length := (renameDests_taken ht).2 .cc
      exact .inr (Nat.le_trans (Nat.le_add_left _ _) (Nat.le_of_eq hcount))
  · rintro (hblocked | hcc) hb
    · rw [hb] at hblocked
      cases hblocked
    · obtain ⟨hint, hfloat⟩ := hguard hb
      refine findsRegs_of_demand fun c => ?_
      cases c with
      | int => exact Nat.le_trans countP_le_length hint
      | float => exact Nat.le_trans countP_le_length hfloat
      | cc => exact hcc

theorem guarded_iff_small : smallRename.blocks ⟨1, [3], id, id⟩ = false ∧ FindsRegs smallRegFile smallRename ⟨1, [3], id, id⟩ := by
  have hb : smallRename.blocks ⟨1, [3], id, id⟩ = false := by decide
  have hw : WellFormed smallRegFile smallRename := by
    refine ⟨fun c => ?_, fun c p hp => ?_⟩
    · cases c <;> decide
    · cases c <;> cases hp
      decide
  have hi : Indexed smallIsa ⟨1, [3], id, id⟩ := by
    intro d hd
    rw [mem_singleton.mp hd]
    refine ⟨by decide, fun c i hp => ?_⟩
    have hplace : place smallIsa ⟨1, [3], id, id⟩ 3 = some (.cc, 0) := by decide
    cases hplace.symm.trans hp
    decide
  exact ⟨hb, (guarded_iff hw hi).mpr (.inr (by decide)) hb⟩

/-- Two instructions write the condition codes before one of them commits. -/
theorem cc_not_guarded : ¬ ∀ es s inst, Exec (StepOf (Rename.step smallRegFile)) smallRename es s → s.blocks inst = false →
    FindsRegs smallRegFile s inst := by
  intro hall
  have hrun : endsIn (Rename.step smallRegFile) smallRename [.renameDestRegs ⟨1, [3], id, id⟩] (fun s =>
      decide (s.blocks ⟨2, [3], id, id⟩ = false ∧ takes s.renameMap ⟨2, [3], id, id⟩ 3 = some .cc ∧ s.freeList.ccList = [])) = true := by
    decide
  obtain ⟨s, hr, hend⟩ := Exec.of_endsIn hrun
  obtain ⟨hb, htakes, hempty⟩ := of_decide_eq_true hend
  exact hall _ s ⟨2, [3], id, id⟩ hr hb [] 3 [] s .cc rfl rfl htakes hempty

end Rename

end Gem5.Cpu
