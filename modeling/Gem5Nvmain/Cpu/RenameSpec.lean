import Mathlib.Data.List.Perm.Basic
import Gem5Nvmain.Lib.UndoLog
import Gem5Nvmain.Cpu.Rename

/- What the steps of the rename stage do.

  A destination either keeps its mapping, as zero and misc registers do, or has its entry of the map replaced by the
  head of a free list (`renameDestReg_spec`). So the history buffer is a log of the map whose entries a squash undoes
  (`undo`, `squashLoop_spec`); a commit only moves registers to the free lists (`removeFromHistory_spec`). -/
namespace Gem5.Cpu
open Lib List UnifiedRenameMap Rename

/-! The place of a unified index in the maps. -/

/-- The class and the relative index of a renamed unified index. -/
def slot (isa : TheISA) (archReg : Nat) : Option (RenameClass × Nat) :=
  if archReg < isa.fpRegBase then some (.int, archReg)
  else if archReg < isa.ccRegBase then some (.float, archReg - isa.fpRegBase)
  else if archReg < isa.miscRegBase then some (.cc, archReg - isa.ccRegBase)
  else none

section Slots
variable {isa : TheISA} {a i : Nat} {c : RenameClass}

theorem regIdxToClass_renamed (h : regIdxToClass isa a = .ok (.renamed c, i)) : slot isa a = some (c, i) := by
  obtain ⟨_, -, h⟩ := of_bind h
  unfold slot
  split_ifs at h ⊢ <;> first | (cases h; rfl) | cases h

theorem regIdxToClass_misc (h : regIdxToClass isa a = .ok (.misc, i)) : slot isa a = none := by
  obtain ⟨_, -, h⟩ := of_bind h
  unfold slot
  split_ifs at h ⊢ <;> first | rfl | cases h

theorem slot_int (h : i < isa.numIntRegs) : slot isa i = some (.int, i) := by
  have hbase := isa.int_le
  exact if_pos (by omega)

theorem slot_float (h : i < isa.numFloatRegs) : slot isa (i + isa.fpRegBase) = some (.float, i) := by
  unfold slot TheISA.ccRegBase
  rw [if_neg (by omega), if_pos (by omega), Nat.add_sub_cancel]

theorem slot_cc (h : i < isa.numCCRegs) : slot isa (i + isa.ccRegBase) = some (.cc, i) := by
  unfold slot TheISA.miscRegBase
  have hle : isa.fpRegBase ≤ isa.ccRegBase := Nat.le_add_right _ _
  rw [if_neg (by omega), if_neg (by omega), if_pos (by omega), Nat.add_sub_cancel]

theorem slot_cc_lt (h : slot isa a = some (.cc, i)) : i < isa.numCCRegs := by
  unfold slot at h
  split_ifs at h with h₁ h₂ h₃
  · cases h
  · cases h
  · cases h
    unfold TheISA.miscRegBase at h₃
    omega

end Slots

/-! Entries of the unified map. -/

namespace UnifiedRenameMap
variable {isa : TheISA} {u : UnifiedRenameMap isa} {a p r i : Nat} {c : RenameClass}
  {m m' : SimpleRenameMap (mapSize isa c)}

@[simp] theorem mapOf_setMap : (u.setMap c m).mapOf c = m := by
  cases c <;> rfl

theorem mapOf_setMap_ne {c' : RenameClass} (h : c' ≠ c) : (u.setMap c m).mapOf c' = u.mapOf c' := by
  cases c <;> cases c' <;> first | rfl | exact absurd rfl h

@[simp] theorem setMap_setMap : (u.setMap c m).setMap c m' = u.setMap c m' := by
  cases c <;> rfl

@[simp] theorem setMap_mapOf : u.setMap c (u.mapOf c) = u := by
  cases c <;> rfl

def lookupAt (u : UnifiedRenameMap isa) (archReg : Nat) : Option Nat :=
  match slot isa archReg with
  | some (c, i) => (u.mapOf c).map[i]?
  | none => none

def putAt (u : UnifiedRenameMap isa) (archReg physReg : Nat) : UnifiedRenameMap isa :=
  match slot isa archReg with
  | some (c, i) => u.setMap c ((u.mapOf c).put i physReg)
  | none => u

theorem lookupAt_eq_some : u.lookupAt a = some p ↔ ∃ c i, slot isa a = some (c, i) ∧ (u.mapOf c).map[i]? = some p := by
  unfold lookupAt
  cases hs : slot isa a with
  | none => simp
  | some place =>
    obtain ⟨c, i⟩ := place
    constructor
    · intro h
      exact ⟨c, i, rfl, h⟩
    · rintro ⟨_, _, heq, h⟩
      cases heq
      exact h

theorem putAt_of_slot (hs : slot isa a = some (c, i)) : u.putAt a p = u.setMap c ((u.mapOf c).put i p) := by
  unfold putAt
  rw [hs]

theorem lookupAt_putAt (h : u.lookupAt a = some p) : (u.putAt a r).lookupAt a = some r := by
  obtain ⟨c, i, hs, h⟩ := lookupAt_eq_some.mp h
  obtain ⟨hlt, -⟩ := List.getElem?_eq_some_iff.mp h
  apply lookupAt_eq_some.mpr
  refine ⟨c, i, hs, ?_⟩
  rw [putAt_of_slot hs, mapOf_setMap]
  simp [SimpleRenameMap.put, hlt]

theorem putAt_putAt : (u.putAt a p).putAt a r = u.putAt a r := by
  unfold putAt
  split
  · simp [SimpleRenameMap.put]
  · rfl

theorem putAt_self (h : u.lookupAt a = some p) : u.putAt a p = u := by
  obtain ⟨c, i, hs, h⟩ := lookupAt_eq_some.mp h
  obtain ⟨hlt, hp⟩ := List.getElem?_eq_some_iff.mp h
  have hput : (u.mapOf c).put i p = u.mapOf c := by
    ext : 1
    · simp [SimpleRenameMap.put, ← hp]
    · rfl
  rw [putAt_of_slot hs, hput, setMap_mapOf]

theorem perm_set {l : List Nat} {i : Nat} (h : l[i]? = some p) : (p :: l.set i r).Perm (r :: l) := by
  obtain ⟨hlt, rfl⟩ := List.getElem?_eq_some_iff.mp h
  have hsplit : l = l.take i ++ l[i] :: l.drop (i + 1) := by simp
  have hset : l.set i r = l.take i ++ r :: l.drop (i + 1) := set_eq_take_append_cons_drop.trans (if_pos hlt)
  calc l[i] :: l.set i r
      = l[i] :: (l.take i ++ r :: l.drop (i + 1)) := by rw [hset]
    List.Perm _ (l[i] :: r :: (l.take i ++ l.drop (i + 1))) := List.Perm.cons _ perm_middle
    List.Perm _ (r :: l[i] :: (l.take i ++ l.drop (i + 1))) := List.Perm.swap _ _ _
    List.Perm _ (r :: (l.take i ++ l[i] :: l.drop (i + 1))) := List.Perm.cons _ perm_middle.symm
    _ = r :: l := by rw [← hsplit]

/-- Replacing an entry exchanges one mapped register. -/
theorem mapped_putAt (h : u.lookupAt a = some p) : (p :: (u.putAt a r).mapped).Perm (r :: u.mapped) := by
  obtain ⟨c, i, hs, h⟩ := lookupAt_eq_some.mp h
  rw [putAt_of_slot hs]
  cases c with
  | int => simpa [mapped, setMap, mapOf, SimpleRenameMap.put] using (perm_set h).append_right _
  | float =>
    have hperm := perm_set (r := r) h
    have hmid := perm_middle.symm.trans (hperm.append_left u.intMap.map) |>.trans perm_middle
    simpa [mapped, setMap, mapOf, SimpleRenameMap.put] using hmid.append_right (u.ccMap.map.take isa.numCCRegs)
  | cc =>
    have htake : (u.ccMap.map.take isa.numCCRegs)[i]? = some p := by
      rw [getElem?_take_of_lt (slot_cc_lt hs)]
      exact h
    have hperm := (perm_set (r := r) htake).append_left (u.intMap.map ++ u.floatMap.map)
    have hmid := perm_middle.symm.trans hperm |>.trans perm_middle
    simpa [mapped, setMap, mapOf, SimpleRenameMap.put, take_set] using hmid

end UnifiedRenameMap

/-! Free lists. -/

namespace UnifiedFreeList
variable {l l' : UnifiedFreeList} {rf : PhysRegFile} {c : RenameClass} {r : Nat} {free : List Nat}

theorem regs_setList (h : l.list c = r :: free) : l.regs.Perm (r :: (l.setList free c).regs) := by
  cases c with
  | int =>
    have h : l.intList = r :: free := h
    simp [regs, setList, h]
  | float =>
    have h : l.floatList = r :: free := h
    simp [regs, setList, h]
  | cc =>
    have h : l.ccList = r :: free := h
    have hmid : (l.intList ++ l.floatList ++ r :: free).Perm (r :: (l.intList ++ l.floatList ++ free)) := perm_middle
    simpa [regs, setList, h] using hmid

theorem regs_addTo : (l.addTo c r).regs.Perm (r :: l.regs) := by
  have hback : (l.addTo c r).regs.Perm (l.regs ++ [r]) := by
    cases c with
    | int =>
      have hswap : ([r] ++ (l.floatList ++ l.ccList)).Perm (l.floatList ++ l.ccList ++ [r]) := perm_append_comm
      simpa [regs, addTo, setList, list] using hswap.append_left l.intList
    | float =>
      have hswap : ([r] ++ l.ccList).Perm (l.ccList ++ [r]) := perm_append_comm
      simpa [regs, addTo, setList, list] using hswap.append_left (l.intList ++ l.floatList)
    | cc => simp [regs, addTo, setList, list]
  exact hback.trans perm_append_comm

theorem addReg_spec (h : l.addReg rf r = .ok l') : l'.regs.Perm (r :: l.regs) := by
  unfold addReg at h
  split_ifs at h
  · cases h
    exact regs_addTo
  · cases h
    exact regs_addTo
  · obtain ⟨_, -, h⟩ := of_bind h
    cases h
    exact regs_addTo

end UnifiedFreeList

/-! Renaming a destination. -/

section Renaming
variable {isa : TheISA} {rf : PhysRegFile} {u u' : UnifiedRenameMap isa} {l l' : UnifiedFreeList} {c : RenameClass}
  {a d i : Nat} {info : RenameInfo} {inst : Inst}

/-- The register is not really renamed. -/
def Kept (info : RenameInfo) (u u' : UnifiedRenameMap isa) (l l' : UnifiedFreeList) : Prop :=
  info.renamedReg = info.prevReg ∧ u' = u ∧ l' = l

/-- The entry of the unified index `a` is replaced by a register of its class off the free lists. -/
def Replaced (rf : PhysRegFile) (a : Nat) (info : RenameInfo) (u u' : UnifiedRenameMap isa) (l l' : UnifiedFreeList) : Prop :=
  u.lookupAt a = some info.prevReg ∧ u' = u.putAt a info.renamedReg ∧ l.regs.Perm (info.renamedReg :: l'.regs) ∧
  ∃ c i, slot isa a = some (c, i) ∧ rf.isPhysReg c info.renamedReg = true

theorem rename_spec {size : Nat} {m m' : SimpleRenameMap size} {free free' : List Nat}
    (h : m.rename free i = .ok (info, m', free')) : info.renamedReg = info.prevReg ∧ m' = m ∧ free' = free ∨
      m.map[i]? = some info.prevReg ∧ m' = m.put i info.renamedReg ∧ free = info.renamedReg :: free' := by
  obtain ⟨prevReg, hprev, h⟩ := of_bind h
  have hprev := index_eq_ok.mp hprev
  split at h
  · obtain ⟨⟨renamedReg, rest⟩, hget, h⟩ := of_bind h
    cases h
    cases free with
    | nil => cases hget
    | cons r rest =>
      cases hget
      exact .inr ⟨hprev, rfl, rfl⟩
  · obtain ⟨_, heq, h⟩ := of_bind h
    have heq := of_decide_eq_true (require_eq_ok.mp heq)
    cases h
    exact .inl ⟨heq.symm, rfl, rfl⟩

theorem renameIn_spec (hslot : ∀ p, (u.mapOf c).map[i]? = some p → slot isa a = some (c, i))
    (h : u.renameIn rf c l i = .ok (info, u', l')) : Kept info u u' l l' ∨ Replaced rf a info u u' l l' := by
  obtain ⟨⟨info', m', free'⟩, hren, h⟩ := of_bind h
  obtain ⟨_, hclass, h⟩ := of_bind h
  cases h
  obtain ⟨hsame, rfl, rfl⟩ | ⟨hprev, rfl, hfree⟩ := rename_spec hren
  · refine .inl ⟨hsame, setMap_mapOf, ?_⟩
    cases c <;> rfl
  · have hs := hslot _ hprev
    refine .inr ⟨lookupAt_eq_some.mpr ⟨c, i, hs, hprev⟩, ?_, UnifiedFreeList.regs_setList hfree,
      c, i, hs, require_eq_ok.mp hclass⟩
    exact (putAt_of_slot hs).symm

theorem place_lt {m : List Nat} {size p : Nat} (hlen : m.length = size) (h : m[i]? = some p) : i < size := by
  obtain ⟨hlt, -⟩ := List.getElem?_eq_some_iff.mp h
  omega

theorem renameDestReg_spec (h : renameDestReg rf inst u l d = .ok (a, info, u', l')) :
    Kept info u u' l l' ∨ Replaced rf a info u u' l l' := by
  obtain ⟨⟨regClass, rel⟩, hclass, h⟩ := of_bind h
  cases regClass with
  | misc =>
    cases h
    exact .inl ⟨rfl, rfl, rfl⟩
  | renamed c =>
    cases c with
    | int =>
      obtain ⟨result, hren, h⟩ := of_bind h
      cases h
      exact renameIn_spec (fun p hp => slot_int (place_lt u.intMap.length_map hp)) hren
    | float =>
      obtain ⟨result, hren, h⟩ := of_bind h
      cases h
      exact renameIn_spec (fun p hp => slot_float (place_lt u.floatMap.length_map hp)) hren
    | cc =>
      obtain ⟨result, hren, h⟩ := of_bind h
      cases h
      exact renameIn_spec (fun p hp => slot_cc (slot_cc_lt (regIdxToClass_renamed hclass))) hren

end Renaming

/-! Undoing and freeing. -/

section Undoing
variable {isa : TheISA} {rf : PhysRegFile} {u u' : UnifiedRenameMap isa} {l l' : UnifiedFreeList} {s t : Rename isa}
  {hb : RenameHistory} {hbs left : List RenameHistory} {n : Nat}

/-- The map after the renaming of an entry is taken back. -/
def undo (hb : RenameHistory) (u : UnifiedRenameMap isa) : UnifiedRenameMap isa :=
  if hb.newPhysReg ≠ hb.prevPhysReg then u.putAt hb.archReg hb.prevPhysReg else u

/-- The map shows the renaming of an entry. -/
def Made (hb : RenameHistory) (u : UnifiedRenameMap isa) : Prop :=
  hb.newPhysReg ≠ hb.prevPhysReg → u.lookupAt hb.archReg = some hb.newPhysReg

theorem setEntry_spec {a p : Nat} (h : u.setEntry rf a p = .ok u') : u' = u.putAt a p := by
  obtain ⟨⟨regClass, rel⟩, hclass, h⟩ := of_bind h
  cases regClass with
  | misc =>
    obtain ⟨_, -, h⟩ := of_bind h
    cases h
    unfold putAt
    rw [regIdxToClass_misc hclass]
  | renamed c =>
    obtain ⟨_, -, h⟩ := of_bind h
    obtain ⟨m, hset, h⟩ := of_bind h
    obtain ⟨_, -, hset⟩ := of_bind hset
    cases hset
    cases h
    rw [putAt_of_slot (regIdxToClass_renamed hclass)]

theorem undoEntry_map (h : undoEntry rf u l hb = .ok (u', l')) : u' = undo hb u := by
  unfold undoEntry at h
  unfold undo
  split_ifs at h ⊢
  · obtain ⟨v, hset, h⟩ := of_bind h
    obtain ⟨_, -, h⟩ := of_bind h
    cases h
    exact setEntry_spec hset
  · cases h
    rfl

/-- A squash rolls the map back over the entries it takes off the front. -/
theorem squashLoop_spec (h : squashLoop rf n hbs u l = .ok t) :
    t.historyBuffer = hbs.dropWhile (fun hb => decide (n < hb.instSeqNum)) ∧
    t.renameMap = rollback undo (hbs.takeWhile fun hb => decide (n < hb.instSeqNum)) u := by
  induction hbs generalizing u l with
  | nil =>
    cases h
    exact ⟨rfl, rfl⟩
  | cons hb rest ih =>
    unfold squashLoop at h
    split at h
    · rename_i hgt
      obtain ⟨⟨v, l'⟩, hundo, h⟩ := of_bind h
      obtain ⟨hleft, hmap⟩ := ih h
      rw [undoEntry_map hundo] at hmap
      simpa [hgt] using And.intro hleft hmap
    · rename_i hle
      cases h
      simp [hle]

theorem removeLoop_spec {l' : UnifiedFreeList} (h : removeLoop rf n hbs l = .ok (left, l')) :
    left = hbs.dropWhile fun hb => decide (hb.instSeqNum ≤ n) := by
  induction hbs generalizing l with
  | nil =>
    cases h
    rfl
  | cons hb rest ih =>
    unfold removeLoop at h
    split at h
    · rename_i hle
      obtain ⟨_, -, h⟩ := of_bind h
      simpa [hle] using ih h
    · rename_i hgt
      cases h
      simp [hgt]

theorem removeFromHistory_spec (h : s.removeFromHistory rf n = .ok t) :
    t.historyBuffer = (s.historyBuffer.reverse.dropWhile fun hb => decide (hb.instSeqNum ≤ n)).reverse ∧
    t.renameMap = s.renameMap := by
  obtain ⟨⟨left, l'⟩, hloop, h⟩ := of_bind h
  cases h
  rw [← removeLoop_spec hloop]
  exact ⟨rfl, rfl⟩

/-- Renaming a destination makes an entry that can be undone. -/
theorem renameDest_spec {inst : Inst} {d : Nat} (h : s.renameDest rf inst d = .ok t) :
    ∃ a info, renameDestReg rf inst s.renameMap s.freeList d = .ok (a, info, t.renameMap, t.freeList) ∧
      t.historyBuffer = ⟨inst.seqNum, a, info.renamedReg, info.prevReg⟩ :: s.historyBuffer ∧
      undo ⟨inst.seqNum, a, info.renamedReg, info.prevReg⟩ t.renameMap = s.renameMap := by
  obtain ⟨⟨a, info, u, l⟩, hren, h⟩ := of_bind h
  cases h
  refine ⟨a, info, hren, rfl, ?_⟩
  unfold undo
  dsimp only
  obtain ⟨hsame, rfl, -⟩ | ⟨hprev, rfl, -⟩ := renameDestReg_spec hren
  · exact if_neg fun hne => hne hsame
  · split
    · rw [putAt_putAt, putAt_self hprev]
    · rename_i heq
      have heq : info.renamedReg = info.prevReg := not_not.mp heq
      rw [heq, putAt_self hprev]

/-- Renaming an instruction puts its entries before the others, and undoing them takes it back. -/
theorem renameDests_spec {inst : Inst} {ds : List Nat} (h : renameDests rf inst ds s = .ok t) :
    ∃ es, t.historyBuffer = es ++ s.historyBuffer ∧ (∀ e ∈ es, e.instSeqNum = inst.seqNum) ∧
      rollback undo es t.renameMap = s.renameMap := by
  induction ds generalizing s with
  | nil =>
    cases h
    exact ⟨[], rfl, by simp, rfl⟩
  | cons d ds ih =>
    obtain ⟨v, hdest, h⟩ := of_bind h
    obtain ⟨a, info, -, hhist, hundo⟩ := renameDest_spec hdest
    obtain ⟨es, hes, hseq, hroll⟩ := ih h
    refine ⟨es ++ [⟨inst.seqNum, a, info.renamedReg, info.prevReg⟩], ?_, ?_, ?_⟩
    · rw [hes, hhist, append_assoc, singleton_append]
    · intro e he
      obtain he | he := mem_append.mp he
      · exact hseq e he
      · rw [mem_singleton.mp he]
    · rw [rollback_append, hroll, rollback_cons, rollback_nil, hundo]

/-! Squashing returns when the registers have their classes. -/

/-- The mapped registers have the classes of their maps. -/
def Classed (rf : PhysRegFile) (u : UnifiedRenameMap isa) : Prop :=
  ∀ a c i p, slot isa a = some (c, i) → u.lookupAt a = some p → rf.isPhysReg c p = true

/-- The registers of an entry that is to be undone have the class of its architectural register. -/
def Sound (isa : TheISA) (rf : PhysRegFile) (hb : RenameHistory) : Prop :=
  hb.newPhysReg ≠ hb.prevPhysReg → ∃ c i, slot isa hb.archReg = some (c, i) ∧ i < mapSize isa c ∧
    rf.isPhysReg c hb.newPhysReg = true ∧ rf.isPhysReg c hb.prevPhysReg = true

theorem Classed.putAt {a p i : Nat} {c : RenameClass} (hu : Classed rf u) (hs : slot isa a = some (c, i))
    (hp : rf.isPhysReg c p = true) : Classed rf (u.putAt a p) := by
  intro b c' j q hsb hq
  obtain ⟨c₁, j₁, hsb₁, hq⟩ := lookupAt_eq_some.mp hq
  rw [hsb] at hsb₁
  cases hsb₁
  rw [putAt_of_slot hs] at hq
  by_cases hc : c' = c
  · subst hc
    rw [mapOf_setMap] at hq
    have hq : ((u.mapOf c').map.set i p)[j]? = some q := hq
    rw [getElem?_set] at hq
    split_ifs at hq with hij hlt
    · cases hq
      exact hp
    · exact hu b c' j q hsb (lookupAt_eq_some.mpr ⟨c', j, hsb, hq⟩)
  · rw [mapOf_setMap_ne hc] at hq
    exact hu b c' j q hsb (lookupAt_eq_some.mpr ⟨c', j, hsb, hq⟩)

theorem Classed.undo (hu : Classed rf u) (hs : Sound isa rf hb) : Classed rf (undo hb u) := by
  unfold Gem5.Cpu.undo
  split
  · rename_i hne
    obtain ⟨c, i, hslot, -, -, hprev⟩ := hs hne
    exact hu.putAt hslot hprev
  · exact hu

theorem Classed.renameDest {inst : Inst} {d : Nat} (hu : Classed rf s.renameMap) (hs : ∀ hb ∈ s.historyBuffer, Sound isa rf hb)
    (h : s.renameDest rf inst d = .ok t) : Classed rf t.renameMap ∧ ∀ hb ∈ t.historyBuffer, Sound isa rf hb := by
  obtain ⟨a, info, hren, hhist, -⟩ := renameDest_spec h
  rw [hhist]
  obtain ⟨hsame, hmap, -⟩ | ⟨hprev, hmap, -, c, i, hslot, hnew⟩ := renameDestReg_spec hren
  · rw [hmap]
    exact ⟨hu, forall_mem_cons.mpr ⟨absurd hsame, hs⟩⟩
  · rw [hmap]
    refine ⟨hu.putAt hslot hnew, forall_mem_cons.mpr ⟨fun _ => ?_, hs⟩⟩
    have hclass := hu a c i _ hslot hprev
    obtain ⟨c', i', hslot', hp⟩ := lookupAt_eq_some.mp hprev
    rw [hslot] at hslot'
    cases hslot'
    exact ⟨c, i, hslot, place_lt (s.renameMap.mapOf c).length_map hp, hnew, hclass⟩

theorem Classed.renameDests {inst : Inst} {ds : List Nat} (hu : Classed rf s.renameMap)
    (hs : ∀ hb ∈ s.historyBuffer, Sound isa rf hb) (h : renameDests rf inst ds s = .ok t) :
    Classed rf t.renameMap ∧ ∀ hb ∈ t.historyBuffer, Sound isa rf hb := by
  induction ds generalizing s with
  | nil =>
    cases h
    exact ⟨hu, hs⟩
  | cons d ds ih =>
    obtain ⟨v, hdest, h⟩ := of_bind h
    obtain ⟨hv, hsv⟩ := hu.renameDest hs hdest
    exact ih hv hsv h

theorem Classed.rollback (hu : Classed rf u) (hs : ∀ hb ∈ hbs, Sound isa rf hb) : Classed rf (rollback Gem5.Cpu.undo hbs u) := by
  induction hbs generalizing u with
  | nil => exact hu
  | cons hb rest ih =>
    obtain ⟨hfirst, hrest⟩ := forall_mem_cons.mp hs
    exact ih (hu.undo hfirst) hrest

theorem Classed.step {e : RenameEvent} (hu : Classed rf s.renameMap) (hs : ∀ hb ∈ s.historyBuffer, Sound isa rf hb)
    (h : s.step rf e = .ok t) : Classed rf t.renameMap ∧ ∀ hb ∈ t.historyBuffer, Sound isa rf hb := by
  cases e with
  | renameDestRegs inst => exact hu.renameDests hs h
  | removeFromHistory n =>
    obtain ⟨hhist, hmap⟩ := removeFromHistory_spec h
    rw [hhist, hmap]
    refine ⟨hu, fun hb hmem => hs hb ?_⟩
    exact mem_reverse.mp ((dropWhile_sublist _).subset (mem_reverse.mp hmem))
  | doSquash n =>
    obtain ⟨hhist, hmap⟩ := squashLoop_spec h
    rw [hhist, hmap]
    constructor
    · exact hu.rollback fun hb hmem => hs hb ((takeWhile_sublist _).subset hmem)
    · exact fun hb hmem => hs hb ((dropWhile_sublist _).subset hmem)

theorem regIdxToClass_of_slot {a i : Nat} {c : RenameClass} (h : slot isa a = some (c, i)) :
    regIdxToClass isa a = .ok (.renamed c, i) := by
  unfold slot at h
  unfold regIdxToClass
  have hlt : a < isa.maxRegIndex := by
    have hle : isa.fpRegBase ≤ isa.ccRegBase := Nat.le_add_right _ _
    have hle' : isa.ccRegBase ≤ isa.miscRegBase := Nat.le_add_right _ _
    have hle'' : isa.miscRegBase ≤ isa.maxRegIndex := Nat.le_add_right _ _
    split_ifs at h <;> omega
  rw [decide_eq_true hlt]
  split_ifs at h ⊢ <;> cases h <;> rfl

theorem addReg_returns {c : RenameClass} {r : Nat} (h : rf.isPhysReg c r = true) : ∃ l', l.addReg rf r = .ok l' := by
  unfold UnifiedFreeList.addReg
  split_ifs with hint hfloat
  · exact ⟨_, rfl⟩
  · exact ⟨_, rfl⟩
  · cases c with
    | int => exact absurd h hint
    | float => exact absurd h hfloat
    | cc =>
      have hcc : rf.isCCPhysReg r = true := h
      rw [hcc]
      exact ⟨_, rfl⟩

theorem undoEntry_returns (hs : Sound isa rf hb) : ∃ p, undoEntry rf u l hb = .ok p := by
  unfold undoEntry
  split
  · rename_i hne
    obtain ⟨c, i, hslot, hlt, hnew, hprev⟩ := hs hne
    obtain ⟨l', hl'⟩ := addReg_returns hnew
    obtain ⟨x, hx⟩ : ∃ x, (u.mapOf c).map[i]? = some x :=
      ⟨_, getElem?_eq_getElem (by rw [(u.mapOf c).length_map]; exact hlt)⟩
    have hset : ∃ u', u.setEntry rf hb.archReg hb.prevPhysReg = .ok u' := by
      unfold setEntry
      rw [regIdxToClass_of_slot hslot]
      simp only [bind_ok]
      unfold setEntryIn SimpleRenameMap.setEntry
      rw [hprev, index_eq_ok.mpr hx]
      exact ⟨_, rfl⟩
    obtain ⟨u', hu'⟩ := hset
    rw [hu', bind_ok, hl']
    exact ⟨_, rfl⟩
  · exact ⟨_, rfl⟩

theorem squashLoop_returns (hs : ∀ hb ∈ hbs, Sound isa rf hb) : ∃ r, squashLoop rf n hbs u l = .ok r := by
  induction hbs generalizing u l with
  | nil => exact ⟨_, rfl⟩
  | cons hb rest ih =>
    obtain ⟨hfirst, hrest⟩ := forall_mem_cons.mp hs
    unfold squashLoop
    split
    · obtain ⟨p, hp⟩ := undoEntry_returns hfirst
      rw [hp]
      exact ih hrest
    · exact ⟨_, rfl⟩

end Undoing

end Gem5.Cpu
