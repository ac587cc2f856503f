import Gem5Nvmain.Cache.MshrQueue
import Mathlib.Data.List.Perm.Basic
import Mathlib.Data.List.Nodup

/- The representation invariant of the MSHR queue.

  `QueueInv` relates the three lists and two counters to the registers. It holds after every sequence of the queue's
  own calls (`CallStep`). It also holds when the cache works on single MSHRs between them (`QueueStep`), as it calls
  `markPending` and `deallocate` on entries without deferred targets:
  `promoteDeferredTargets` comes first. -/
namespace Gem5.Cache
open Lib Gem5.Mem List MshrQueue

structure QueueInv (q : MshrQueue) : Prop where
  partition : (q.freeList ++ q.allocatedList).Perm (range q.registers.length)
  ready : q.readyList.Perm (q.allocatedList.filter fun i => !q.inService i)
  sorted : q.readyList.Pairwise fun i j => q.readyTime i ≤ q.readyTime j
  allocated : q.allocated = q.allocatedList.length
  inServiceEntries : q.inServiceEntries = q.allocatedList.countP q.inService
  deferred : ∀ m ∈ q.registers, m.inService = false → m.deferredTargets.list = []

namespace QueueInv
variable {q : MshrQueue} {i : Nat}

/-! ## Lists -/

theorem nodup (hi : QueueInv q) : (q.freeList ++ q.allocatedList).Nodup :=
  hi.partition.nodup_iff.mpr nodup_range

theorem allocated_nodup (hi : QueueInv q) : q.allocatedList.Nodup :=
  (nodup_append.mp hi.nodup).2.1

theorem lt_length (hi : QueueInv q) (h : i ∈ q.allocatedList) : i < q.registers.length :=
  mem_range.mp (hi.partition.mem_iff.mp (mem_append_right _ h))

theorem mem_ready (hi : QueueInv q) : i ∈ q.readyList ↔ i ∈ q.allocatedList ∧ q.inService i = false := by
  rw [hi.ready.mem_iff, mem_filter, Bool.not_eq_true']

theorem ready_nodup (hi : QueueInv q) : q.readyList.Nodup :=
  hi.ready.nodup_iff.mpr (hi.allocated_nodup.filter _)

theorem countP_erase_congr {l : List Nat} {p p' : Nat → Bool} (hnd : l.Nodup)
    (h : ∀ j, j ≠ i → p' j = p j) : (l.erase i).countP p' = (l.erase i).countP p := by
  refine countP_congr fun j hj => ?_
  rw [h j fun heq => (hnd.not_mem_erase) (heq ▸ hj)]

theorem countP_cons_erase {l : List Nat} (p : Nat → Bool) (h : i ∈ l) :
    l.countP p = (l.erase i).countP p + (if p i then 1 else 0) := by
  rw [(perm_cons_erase h).countP_eq, countP_cons]

end QueueInv

/-! ## Registers -/

namespace MshrQueue
variable {q : MshrQueue} {i j : Nat} {m : Mshr}

theorem mshr_setMshr_self (h : i < q.registers.length) : (q.setMshr i m).mshr i = m := by
  simp [mshr, setMshr, h]

theorem mshr_setMshr_ne (h : j ≠ i) : (q.setMshr i m).mshr j = q.mshr j := by
  simp [mshr, setMshr, getElem?_set_ne (Ne.symm h)]

theorem mshr_mem (h : i < q.registers.length) : q.mshr i ∈ q.registers := by
  simp [mshr, h]

/-! ## The ready list -/

theorem insertBefore_perm {l : List Nat} (h : ∃ j ∈ l, q.readyTime j > q.readyTime i) :
    (q.insertBefore i l).Perm (i :: l) := by
  induction l with
  | nil => obtain ⟨j, hj, -⟩ := h; cases hj
  | cons k l ih =>
    simp only [insertBefore]
    split
    · exact List.Perm.refl _
    · rename_i hk
      obtain ⟨j, hj, hlt⟩ := h
      rcases mem_cons.mp hj with rfl | hj
      · exact absurd hlt hk
      · exact ((ih ⟨j, hj, hlt⟩).cons k).trans (List.Perm.swap _ _ _)

theorem insertBefore_sorted {l : List Nat} (h : ∃ j ∈ l, q.readyTime j > q.readyTime i)
    (hs : l.Pairwise fun a b => q.readyTime a ≤ q.readyTime b) :
    (q.insertBefore i l).Pairwise fun a b => q.readyTime a ≤ q.readyTime b := by
  induction l with
  | nil => exact List.Pairwise.nil
  | cons k l ih =>
    simp only [insertBefore]
    obtain ⟨hk, hl⟩ := pairwise_cons.mp hs
    split
    · rename_i hlt
      refine pairwise_cons.mpr ⟨fun b hb => ?_, hs⟩
      rcases mem_cons.mp hb with rfl | hb
      · exact Nat.le_of_lt hlt
      · exact Nat.le_trans (Nat.le_of_lt hlt) (hk b hb)
    · rename_i hge
      have h' : ∃ j ∈ l, q.readyTime j > q.readyTime i := by
        obtain ⟨j, hj, hlt⟩ := h
        rcases mem_cons.mp hj with rfl | hj
        · exact absurd hlt hge
        · exact ⟨j, hj, hlt⟩
      refine pairwise_cons.mpr ⟨fun b hb => ?_, ih h' hl⟩
      rcases mem_cons.mp ((insertBefore_perm h').mem_iff.mp hb) with rfl | hb
      · exact Nat.le_of_not_lt hge
      · exact hk b hb

/-- `addToReadyList` puts the entry at its place and changes nothing else. -/
theorem addToReadyList_spec (hs : q.readyList.Pairwise fun a b => q.readyTime a ≤ q.readyTime b) :
    ∃ l, q.addToReadyList i = { q with readyList := l } ∧ l.Perm (i :: q.readyList) ∧
      l.Pairwise fun a b => q.readyTime a ≤ q.readyTime b := by
  have append (h : ∀ j ∈ q.readyList, q.readyTime j ≤ q.readyTime i) :
      (q.readyList ++ [i]).Pairwise fun a b => q.readyTime a ≤ q.readyTime b :=
    pairwise_append.mpr ⟨hs, pairwise_singleton _ _, fun a ha b hb => by
      rw [mem_singleton.mp hb]; exact h a ha⟩
  have perm : (q.readyList ++ [i]).Perm (i :: q.readyList) := perm_append_singleton _ _
  unfold addToReadyList
  split
  · rename_i hlast
    rw [getLast?_eq_none_iff] at hlast
    exact ⟨_, rfl, perm, append fun j hj => by rw [hlast] at hj; cases hj⟩
  · rename_i j hlast
    split
    · rename_i hle
      refine ⟨_, rfl, perm, append fun k hk => Nat.le_trans ?_ hle⟩
      -- the last entry of a sorted list is the latest
      obtain ⟨l, hl⟩ := getLast?_eq_some_iff.mp hlast
      rw [hl] at hs hk
      rcases mem_append.mp hk with hk | hk
      · exact (pairwise_append.mp hs).2.2 k hk j (mem_singleton_self j)
      · exact Nat.le_of_eq (congrArg q.readyTime (mem_singleton.mp hk))
    · rename_i hgt
      have h : ∃ k ∈ q.readyList, q.readyTime k > q.readyTime i :=
        ⟨j, mem_of_getLast? hlast, Nat.lt_of_not_le hgt⟩
      exact ⟨_, rfl, insertBefore_perm h, insertBefore_sorted h hs⟩

end MshrQueue

/-! ## One entry changes -/

namespace QueueInv
variable {q : MshrQueue} {i : Nat} {m : Mshr}

theorem inService_set_ne {j : Nat} (h : j ≠ i) : (q.setMshr i m).inService j = q.inService j :=
  congrArg Mshr.inService (mshr_setMshr_ne h)

theorem inService_set_self (h : i < q.registers.length) : (q.setMshr i m).inService i = m.inService :=
  congrArg Mshr.inService (mshr_setMshr_self h)

theorem sorted_set_of_not_mem {l : List Nat} (hl : i ∉ l) (hs : l.Pairwise fun a b => q.readyTime a ≤ q.readyTime b) :
    l.Pairwise fun a b => (q.setMshr i m).readyTime a ≤ (q.setMshr i m).readyTime b := by
  refine List.Pairwise.imp_of_mem ?_ hs
  intro a b ha hb hab
  have hra : (q.setMshr i m).readyTime a = q.readyTime a :=
    congrArg Mshr.readyTime (mshr_setMshr_ne fun h => hl (h ▸ ha))
  have hrb : (q.setMshr i m).readyTime b = q.readyTime b :=
    congrArg Mshr.readyTime (mshr_setMshr_ne fun h => hl (h ▸ hb))
  rw [hra, hrb]
  exact hab

section
variable (hi : QueueInv q)
include hi

theorem deferred_set (hd : m.inService = false → m.deferredTargets.list = []) :
    ∀ x ∈ (q.setMshr i m).registers, x.inService = false → x.deferredTargets.list = [] := by
  intro x hx hserv
  rcases mem_or_eq_of_mem_set hx with hx | rfl
  · exact hi.deferred x hx hserv
  · exact hd hserv

theorem partition_set : (q.freeList ++ q.allocatedList).Perm (range (q.setMshr i m).registers.length) := by
  simpa [setMshr] using hi.partition

/-- The entry stays in service, or stays ready at the same time. -/
theorem set_same (hm : i ∈ q.allocatedList) (hserv : m.inService = q.inService i)
    (htime : m.inService = false → m.readyTime = q.readyTime i)
    (hd : m.inService = false → m.deferredTargets.list = []) : QueueInv (q.setMshr i m) := by
  have hlt := hi.lt_length hm
  have hin : (q.setMshr i m).inService = q.inService := by
    funext j
    by_cases hj : j = i
    · rw [hj, inService_set_self hlt, hserv]
    · exact inService_set_ne hj
  refine ⟨hi.partition_set, ?_, ?_, hi.allocated, ?_, hi.deferred_set hd⟩
  · rw [hin]
    exact hi.ready
  · refine List.Pairwise.imp_of_mem ?_ hi.sorted
    have same : ∀ j ∈ q.readyList, (q.setMshr i m).readyTime j = q.readyTime j := by
      intro j hj
      by_cases heq : j = i
      · have hfree : m.inService = false := by
          rw [hserv, ← heq]
          exact (hi.mem_ready.mp hj).2
        rw [heq, readyTime, mshr_setMshr_self hlt]
        exact htime hfree
      · exact congrArg Mshr.readyTime (mshr_setMshr_ne heq)
    intro a b ha hb hab
    rw [same a ha, same b hb]
    exact hab
  · rw [hin]
    exact hi.inServiceEntries

/-- A ready entry goes into service. -/
theorem set_inService (hm : i ∈ q.allocatedList) (hold : q.inService i = false) (hnew : m.inService = true) :
    QueueInv { q.setMshr i m with
      readyList := q.readyList.erase i, inServiceEntries := q.inServiceEntries + 1 } := by
  have hlt := hi.lt_length hm
  have hnot : i ∉ q.readyList.erase i := hi.ready_nodup.not_mem_erase
  have hne : ∀ j, j ≠ i → (q.setMshr i m).inService j = q.inService j := fun j hj => inService_set_ne hj
  have hself := inService_set_self (m := m) hlt
  refine ⟨hi.partition_set, ?_, ?_, hi.allocated, ?_, hi.deferred_set fun h => by rw [hnew] at h; cases h⟩
  · refine (perm_ext_iff_of_nodup (hi.ready_nodup.erase _) (hi.allocated_nodup.filter _)).mpr ?_
    intro j
    rw [hi.ready_nodup.mem_erase_iff, hi.mem_ready, mem_filter, Bool.not_eq_true']
    constructor
    · intro ⟨hj, hmem, hserv⟩
      exact ⟨hmem, (hne j hj).trans hserv⟩
    · intro ⟨hmem, hserv⟩
      have hj : j ≠ i := by
        rintro rfl
        have : m.inService = false := hself.symm.trans hserv
        rw [hnew] at this
        cases this
      exact ⟨hj, hmem, (hne j hj).symm.trans hserv⟩
  · exact sorted_set_of_not_mem hnot (hi.sorted.sublist erase_sublist)
  · have h₁ := countP_cons_erase q.inService hm
    have h₂ := countP_cons_erase (q.setMshr i m).inService hm
    rw [countP_erase_congr hi.allocated_nodup hne, hself, hnew] at h₂
    rw [hold] at h₁
    have h₃ := hi.inServiceEntries
    simp only [Bool.false_eq_true, if_false, if_true] at h₁ h₂
    change q.inServiceEntries + 1 = (q.allocatedList.countP (q.setMshr i m).inService : Int)
    omega

/-- An entry in service becomes ready again. -/
theorem set_pending (hm : i ∈ q.allocatedList) (hold : q.inService i = true)
    (hnew : m.inService = false) (hd : m.deferredTargets.list = []) :
    QueueInv ({ q.setMshr i m with inServiceEntries := q.inServiceEntries - 1 }.addToReadyList i) := by
  have hlt := hi.lt_length hm
  have hnot : i ∉ q.readyList := fun h => by
    rw [(hi.mem_ready.mp h).2] at hold
    cases hold
  have hne : ∀ j, j ≠ i → (q.setMshr i m).inService j = q.inService j := fun j hj => inService_set_ne hj
  have hself := inService_set_self (m := m) hlt
  obtain ⟨l, heq, hperm, hsorted⟩ := addToReadyList_spec
    (q := { q.setMshr i m with inServiceEntries := q.inServiceEntries - 1 })
    (sorted_set_of_not_mem hnot hi.sorted)
  rw [heq]
  refine ⟨hi.partition_set, ?_, hsorted, hi.allocated, ?_, hi.deferred_set fun _ => hd⟩
  · have hnd : (i :: q.readyList).Nodup := nodup_cons.mpr ⟨hnot, hi.ready_nodup⟩
    refine hperm.trans ((perm_ext_iff_of_nodup hnd (hi.allocated_nodup.filter _)).mpr fun j => ?_)
    rw [mem_cons, hi.mem_ready, mem_filter, Bool.not_eq_true']
    constructor
    · rintro (rfl | ⟨hmem, hserv⟩)
      · exact ⟨hm, hself.trans hnew⟩
      · have hj : j ≠ i := by
          rintro rfl
          rw [hold] at hserv
          cases hserv
        exact ⟨hmem, (hne j hj).trans hserv⟩
    · intro ⟨hmem, hserv⟩
      by_cases hj : j = i
      · exact .inl hj
      · exact .inr ⟨hmem, (hne j hj).symm.trans hserv⟩
  · have h₁ := countP_cons_erase q.inService hm
    have h₂ := countP_cons_erase (q.setMshr i m).inService hm
    rw [countP_erase_congr hi.allocated_nodup hne, hself, hnew] at h₂
    rw [hold] at h₁
    have h₃ := hi.inServiceEntries
    simp only [Bool.false_eq_true, if_false, if_true] at h₁ h₂
    change q.inServiceEntries - 1 = (q.allocatedList.countP (q.setMshr i m).inService : Int)
    omega

/-- An entry is given back to the free list. -/
theorem release (hm : i ∈ q.allocatedList) (hd : m.deferredTargets.list = []) : QueueInv ({ q with
      allocatedList := q.allocatedList.erase i
      freeList := i :: q.freeList
      allocated := q.allocated - 1
      inServiceEntries := if q.inService i then q.inServiceEntries - 1 else q.inServiceEntries
      readyList := if q.inService i then q.readyList else q.readyList.erase i }.setMshr i m) := by
  have hne : ∀ j, j ≠ i → (q.setMshr i m).inService j = q.inService j := fun j hj => inService_set_ne hj
  have hready : i ∉ (if q.inService i then q.readyList else q.readyList.erase i) := by
    split
    · rename_i hserv
      intro h
      rw [(hi.mem_ready.mp h).2] at hserv
      cases hserv
    · exact hi.ready_nodup.not_mem_erase
  have hsub : List.Sublist (if q.inService i then q.readyList else q.readyList.erase i) q.readyList := by
    split
    · exact List.Sublist.refl _
    · exact erase_sublist
  refine ⟨?_, ?_, sorted_set_of_not_mem hready (hi.sorted.sublist hsub), ?_, ?_,
    hi.deferred_set fun _ => hd⟩
  · refine List.Perm.trans ?_ hi.partition_set
    refine (perm_middle.symm).trans ?_
    exact List.Perm.append_left _ (perm_cons_erase hm).symm
  · refine (perm_ext_iff_of_nodup (hi.ready_nodup.sublist hsub)
      ((hi.allocated_nodup.erase _).filter _)).mpr fun j => ?_
    rw [mem_filter, hi.allocated_nodup.mem_erase_iff, Bool.not_eq_true']
    constructor
    · intro hj
      have hji : j ≠ i := fun h => hready (h ▸ hj)
      obtain ⟨hmem, hserv⟩ := hi.mem_ready.mp (hsub.subset hj)
      exact ⟨⟨hji, hmem⟩, (hne j hji).trans hserv⟩
    · intro ⟨⟨hji, hmem⟩, hserv⟩
      have hj : j ∈ q.readyList := hi.mem_ready.mpr ⟨hmem, (hne j hji).symm.trans hserv⟩
      split
      · exact hj
      · exact hi.ready_nodup.mem_erase_iff.mpr ⟨hji, hj⟩
  · change q.allocated - 1 = ((q.allocatedList.erase i).length : Int)
    have h₁ := hi.allocated
    have h₂ := length_erase_of_mem hm
    have h₃ := length_pos_of_mem hm
    omega
  · have h₁ := countP_cons_erase q.inService hm
    have h₂ := hi.inServiceEntries
    change (if q.inService i then q.inServiceEntries - 1 else q.inServiceEntries) =
      ((q.allocatedList.erase i).countP (q.setMshr i m).inService : Int)
    rw [countP_erase_congr hi.allocated_nodup hne]
    split
    · rename_i hserv
      rw [hserv] at h₁
      simp only [if_true] at h₁
      omega
    · rename_i hserv
      rw [if_neg hserv] at h₁
      omega

/-- The first free entry is taken and put on the ready list. -/
theorem acquire {rest : List Nat} (hfree : q.freeList = i :: rest)
    (hnew : m.inService = false) (hd : m.deferredTargets.list = []) : QueueInv (({ q with
      freeList := rest
      allocatedList := q.allocatedList ++ [i]
      allocated := q.allocated + 1 }.setMshr i m).addToReadyList i) := by
  have hnd := hi.nodup
  rw [hfree] at hnd
  have hnot : i ∉ q.allocatedList := fun h =>
    (nodup_append.mp hnd).2.2 i (mem_cons_self ..) i h rfl
  have hlt : i < q.registers.length :=
    mem_range.mp (hi.partition.mem_iff.mp (by rw [hfree]; exact mem_cons_self ..))
  have hready : i ∉ q.readyList := fun h => hnot (hi.mem_ready.mp h).1
  have hne : ∀ j, j ≠ i → (q.setMshr i m).inService j = q.inService j := fun j hj => inService_set_ne hj
  have hself := inService_set_self (m := m) hlt
  have hndAlloc : (q.allocatedList ++ [i]).Nodup :=
    (perm_append_singleton _ _).nodup_iff.mpr (nodup_cons.mpr ⟨hnot, hi.allocated_nodup⟩)
  obtain ⟨l, heq, hperm, hsorted⟩ := addToReadyList_spec
    (q := { q with
      freeList := rest
      allocatedList := q.allocatedList ++ [i]
      allocated := q.allocated + 1 }.setMshr i m) (sorted_set_of_not_mem hready hi.sorted)
  rw [heq]
  refine ⟨?_, ?_, hsorted, ?_, ?_, hi.deferred_set fun _ => hd⟩
  · refine List.Perm.trans ?_ hi.partition_set
    change (rest ++ (q.allocatedList ++ [i])).Perm (q.freeList ++ q.allocatedList)
    rw [hfree, ← append_assoc]
    exact perm_append_singleton _ _
  · have hndReady : (i :: q.readyList).Nodup := nodup_cons.mpr ⟨hready, hi.ready_nodup⟩
    refine hperm.trans ((perm_ext_iff_of_nodup hndReady (hndAlloc.filter _)).mpr fun j => ?_)
    rw [mem_cons, hi.mem_ready, mem_filter, Bool.not_eq_true']
    constructor
    · rintro (rfl | ⟨hmem, hserv⟩)
      · exact ⟨mem_append_right _ (mem_singleton_self _), hself.trans hnew⟩
      · have hj : j ≠ i := fun h => hnot (h ▸ hmem)
        exact ⟨mem_append_left _ hmem, (hne j hj).trans hserv⟩
    · intro ⟨hmem, hserv⟩
      rcases mem_append.mp hmem with hmem | hmem
      · have hj : j ≠ i := fun h => hnot (h ▸ hmem)
        exact .inr ⟨hmem, (hne j hj).symm.trans hserv⟩
      · exact .inl (mem_singleton.mp hmem)
  · change q.allocated + 1 = ((q.allocatedList ++ [i]).length : Int)
    rw [hi.allocated, length_append, length_singleton]
    rfl
  · change q.inServiceEntries = ((q.allocatedList ++ [i]).countP (q.setMshr i m).inService : Int)
    have hold : q.allocatedList.countP (q.setMshr i m).inService = q.allocatedList.countP q.inService :=
      countP_congr fun j hj => by rw [hne j fun h => hnot (h ▸ hj)]
    rw [countP_append, hold, countP_singleton, hself, hnew, hi.inServiceEntries]
    simp

end

end QueueInv

/-! ## Runs -/

/-- The operations of one MSHR that the cache calls outside the queue. -/
inductive EntryStep : Mshr → Mshr → Prop where
  | allocateTarget {m m' : Mshr} {pkt : Packet} {whenReady : Tick} {order : Nat}
      (h : m.allocateTarget pkt whenReady order = .ok m') : EntryStep m m'
  | handleSnoop {m : Mshr} {pkt : Packet} {order : Nat} {curTick : Tick} :
      EntryStep m (m.handleSnoop pkt order curTick).1
  | handleFill {m m' : Mshr} {pkt : Packet} (h : m.handleFill pkt = .ok m') : EntryStep m m'
  | popTarget {m : Mshr} : EntryStep m m.popTarget
  | promoteDeferredTargets {m m' : Mshr} {curTick : Tick} {b : Bool}
      (h : m.promoteDeferredTargets curTick = .ok (m', b)) : EntryStep m m'
  | setDownstreamPending {m m' : Mshr} (h : m.setDownstreamPending = .ok m') : EntryStep m m'
  | clearDownstreamPending {m m' : Mshr} (h : m.clearDownstreamPending = .ok m') : EntryStep m m'
  | setForward {m : Mshr} {b : Bool} : EntryStep m { m with isForward := b }

/-- The calls on a queue. -/
inductive QueueCall where
  | allocate (addr size : Nat) (pkt : Packet) (whenReady : Tick) (order : Nat)
  | markInService (i : Nat) (pkt : Option Packet)
  | markPending (i : Nat)
  | forceDeallocateTarget (i : Nat) (curTick : Tick)
  | deallocate (i : Nat)
  deriving DecidableEq

/-- A call that returned. `allocate` needs a free entry; the other calls are on allocated entries. -/
inductive CallStep : MshrQueue → QueueCall → MshrQueue → Prop where
  | allocate {q q' : MshrQueue} {addr size : Nat} {pkt : Packet} {whenReady : Tick} {order i : Nat}
      (h : q.allocate addr size pkt whenReady order = .ok (q', i)) :
      CallStep q (.allocate addr size pkt whenReady order) q'
  | markInService {q q' : MshrQueue} {i : Nat} {pkt : Option Packet} (hi : i ∈ q.allocatedList)
      (h : q.markInService i pkt = .ok q') : CallStep q (.markInService i pkt) q'
  | markPending {q q' : MshrQueue} {i : Nat} (hi : i ∈ q.allocatedList)
      (h : q.markPending i = .ok q') : CallStep q (.markPending i) q'
  | forceDeallocateTarget {q q' : MshrQueue} {i : Nat} {curTick : Tick} {b : Bool}
      (hi : i ∈ q.allocatedList) (h : q.forceDeallocateTarget i curTick = .ok (q', b)) :
      CallStep q (.forceDeallocateTarget i curTick) q'
  | deallocate {q q' : MshrQueue} {i : Nat} (hi : i ∈ q.allocatedList)
      (h : q.deallocate i = .ok q') : CallStep q (.deallocate i) q'

/-- The entry a call gives up, or makes ready again, has nothing deferred. -/
def Promoted (q : MshrQueue) : QueueCall → Prop
  | .markPending i => (q.mshr i).deferredTargets.list = []
  | .deallocate i => (q.mshr i).deferredTargets.list = []
  | _ => True

/-- What the cache does with a queue: it also works on single entries, and it promotes the deferred targets of an
  entry before `markPending` and `deallocate`. -/
inductive QueueStep : MshrQueue → Option QueueCall → MshrQueue → Prop where
  | call {q q' : MshrQueue} {c : QueueCall} (h : CallStep q c q') (hp : Promoted q c) :
      QueueStep q (some c) q'
  | entry {q : MshrQueue} {i : Nat} {m : Mshr} (hi : i ∈ q.allocatedList)
      (h : EntryStep (q.mshr i) m) : QueueStep q none (q.setMshr i m)

/-- An operation of an MSHR leaves it in service or not as it was; if it is not in service, its ready time stays and
  nothing is deferred. -/
theorem entryStep_keeps {m m' : Mshr} (hs : EntryStep m m') (hd : m.inService = false → m.deferredTargets.list = []) :
    m'.inService = m.inService ∧
    (m'.inService = false → m'.readyTime = m.readyTime ∧ m'.deferredTargets.list = []) := by
  cases hs with
  | allocateTarget h =>
    rcases Mshr.allocateTarget_eq_ok h with ⟨hdefer, cmd, -, rfl⟩ | ⟨-, rfl⟩
    · refine ⟨rfl, fun hserv => ?_⟩
      simp only [Mshr.mustDefer, show m.inService = false from hserv] at hdefer
      cases hdefer
    · exact ⟨rfl, fun hserv => ⟨rfl, hd hserv⟩⟩
  | @handleSnoop pkt order curTick =>
    rcases m.handleSnoop_cases pkt order curTick with ⟨-, -, heq⟩ | ⟨hin, -, l, pi, pd, -, heq⟩
    · rw [heq]
      split
      · refine ⟨rfl, fun hserv => ⟨rfl, ?_⟩⟩
        simp only [TargetList.replaceUpgrades]
        split
        · simp [hd hserv]
        · exact hd hserv
      · exact ⟨rfl, fun hserv => ⟨rfl, hd hserv⟩⟩
    · rw [heq]
      refine ⟨rfl, fun hserv => ?_⟩
      rw [show m.inService = false from hserv] at hin
      cases hin
  | handleFill h =>
    rcases Mshr.handleFill_eq_ok h with rfl | ⟨-, rfl⟩
    · exact ⟨rfl, fun hserv => ⟨rfl, hd hserv⟩⟩
    · exact ⟨rfl, fun _ => ⟨rfl, rfl⟩⟩
  | popTarget => exact ⟨rfl, fun hserv => ⟨rfl, hd hserv⟩⟩
  | promoteDeferredTargets h =>
    obtain ⟨-, ⟨-, -, rfl⟩ | ⟨-, t, l, hlist, rfl⟩⟩ := Mshr.promoteDeferredTargets_eq_ok h
    · exact ⟨rfl, fun hserv => ⟨rfl, hd hserv⟩⟩
    · refine ⟨rfl, fun hserv => ?_⟩
      rw [hd hserv] at hlist
      cases hlist
  | setDownstreamPending h =>
    rw [Mshr.setDownstreamPending_eq_ok h]
    exact ⟨rfl, fun hserv => ⟨rfl, hd hserv⟩⟩
  | clearDownstreamPending h =>
    rw [Mshr.clearDownstreamPending_eq_ok h]
    exact ⟨rfl, fun hserv => ⟨rfl, hd hserv⟩⟩
  | setForward => exact ⟨rfl, fun hserv => ⟨rfl, hd hserv⟩⟩

namespace QueueInv
variable {q q' : MshrQueue} {i : Nat}

theorem new (numEntries reserve : Int) : QueueInv (new numEntries reserve) := by
  refine ⟨?_, List.Perm.refl _, List.Pairwise.nil, rfl, rfl, fun m hm _ => ?_⟩
  · simp [MshrQueue.new]
  · rw [(mem_replicate.mp hm).2]

section
variable (hi : QueueInv q)
include hi

theorem deferred_nil (hm : i ∈ q.allocatedList) (hserv : q.inService i = false) :
    (q.mshr i).deferredTargets.list = [] :=
  hi.deferred _ (mshr_mem (hi.lt_length hm)) hserv

theorem entry {m : Mshr} (hm : i ∈ q.allocatedList) (hs : EntryStep (q.mshr i) m) : QueueInv (q.setMshr i m) := by
  obtain ⟨hserv, hkeep⟩ := entryStep_keeps hs (hi.deferred_nil hm)
  exact hi.set_same hm hserv (fun h => (hkeep h).1) (fun h => (hkeep h).2)

theorem allocate {addr size order : Nat} {pkt : Packet} {whenReady : Tick}
    (h : q.allocate addr size pkt whenReady order = .ok (q', i)) : QueueInv q' := by
  obtain ⟨j, hj, h⟩ := of_bind h
  obtain ⟨_, hnum, h⟩ := of_bind h
  obtain ⟨m, hm, h⟩ := of_bind h
  cases h
  obtain ⟨rest, hfree⟩ : ∃ rest, q.freeList = i :: rest := by
    cases hl : q.freeList with
    | nil => rw [hl] at hj; cases hj
    | cons k rest => rw [hl] at hj; cases hj; exact ⟨rest, rfl⟩
  obtain ⟨source, -, rfl⟩ := Mshr.allocate_eq_ok hm
  have hd : (q.mshr i).deferredTargets.list = [] := by
    simp only [require_eq_ok, beq_iff_eq, Mshr.getNumTargets] at hnum
    exact eq_nil_of_length_eq_zero (by omega)
  rw [hfree]
  refine hi.acquire hfree ?_ ?_
  · rfl
  · exact hd

theorem deallocate (hm : i ∈ q.allocatedList)
    (hd : (q.mshr i).deferredTargets.list = []) (h : q.deallocate i = .ok q') : QueueInv q' := by
  obtain ⟨m, hm', h⟩ := of_bind h
  cases h
  obtain ⟨-, rfl⟩ := Mshr.deallocate_eq_ok hm'
  exact hi.release hm hd

theorem markInService {pkt : Option Packet} (hm : i ∈ q.allocatedList)
    (h : q.markInService i pkt = .ok q') : QueueInv q' := by
  obtain ⟨⟨m, done⟩, hmark, h⟩ := of_bind h
  obtain ⟨hserv, ⟨rfl, -, rfl⟩ | ⟨rfl, -, dirty, rfl⟩⟩ := Mshr.markInService_eq_ok hmark
  · -- forwarded without a response: the entry is given back
    have hpop : QueueInv (q.setMshr i (q.mshr i).popTarget) := hi.entry hm .popTarget
    refine hpop.deallocate hm ?_ h
    rw [mshr_setMshr_self (hi.lt_length hm)]
    exact hi.deferred_nil hm hserv
  · cases h
    exact hi.set_inService hm hserv rfl

theorem markPending (hm : i ∈ q.allocatedList)
    (hd : (q.mshr i).deferredTargets.list = []) (h : q.markPending i = .ok q') : QueueInv q' := by
  obtain ⟨_, hserv, h⟩ := of_bind h
  cases h
  exact hi.set_pending hm (require_eq_ok.mp hserv) rfl hd

theorem forceDeallocateTarget {curTick : Tick} {b : Bool} (hm : i ∈ q.allocatedList)
    (h : q.forceDeallocateTarget i curTick = .ok (q', b)) : QueueInv q' := by
  obtain ⟨_, _, h⟩ := of_bind h
  obtain ⟨q₁, hq₁, h⟩ := of_bind h
  cases h
  have hlt := hi.lt_length hm
  have hpop : QueueInv (q.setMshr i (q.mshr i).popTarget) := hi.entry hm .popTarget
  split at hq₁
  · cases hq₁
    exact hpop
  · obtain ⟨⟨m, promoted⟩, hp, hq₁⟩ := of_bind hq₁
    have hstep : EntryStep ((q.setMshr i (q.mshr i).popTarget).mshr i) m := by
      rw [mshr_setMshr_self hlt]
      exact .promoteDeferredTargets hp
    have hprom := hpop.entry hm hstep
    simp only at hq₁
    split at hq₁
    · cases hq₁
      exact hprom
    · rename_i hno
      obtain ⟨-, ⟨-, hnil, rfl⟩ | ⟨rfl, _⟩⟩ := Mshr.promoteDeferredTargets_eq_ok hp
      · refine hprom.deallocate hm ?_ hq₁
        rw [mshr_setMshr_self (by simpa [setMshr] using hlt)]
        exact hnil
      · exact absurd rfl hno

theorem call {c : QueueCall} (hs : CallStep q c q') (hp : Promoted q c) : QueueInv q' := by
  cases hs with
  | allocate h => exact hi.allocate h
  | markInService hm h => exact hi.markInService hm h
  | markPending hm h => exact hi.markPending hm hp h
  | forceDeallocateTarget hm h => exact hi.forceDeallocateTarget hm h
  | deallocate hm h => exact hi.deallocate hm hp h

theorem step {c : Option QueueCall} (hs : QueueStep q c q') : QueueInv q' := by
  cases hs with
  | call h hp => exact hi.call h hp
  | entry hm h => exact hi.entry hm h

end

end QueueInv

/-! ## The calls alone defer nothing -/

def NoDeferred (q : MshrQueue) : Prop := ∀ m ∈ q.registers, m.deferredTargets.list = []

namespace NoDeferred
variable {q q' : MshrQueue} {i : Nat} {m : Mshr}

theorem mshr (hn : NoDeferred q) (i : Nat) : (q.mshr i).deferredTargets.list = [] := by
  unfold MshrQueue.mshr
  cases h : q.registers[i]? with
  | none => rfl
  | some m => exact hn m (mem_of_getElem? h)

theorem promoted (hn : NoDeferred q) (c : QueueCall) : Promoted q c := by
  cases c with
  | markPending i => exact hn.mshr i
  | deallocate i => exact hn.mshr i
  | allocate | markInService | forceDeallocateTarget => trivial

theorem set (hn : NoDeferred q) (hm : m.deferredTargets.list = []) : NoDeferred (q.setMshr i m) := by
  intro x hx
  rcases mem_or_eq_of_mem_set hx with hx | rfl
  · exact hn x hx
  · exact hm

theorem addToReadyList (hn : NoDeferred q) : NoDeferred (q.addToReadyList i) := by
  unfold MshrQueue.addToReadyList
  split
  · exact hn
  · split
    · exact hn
    · exact hn

theorem deallocate (hn : NoDeferred q) (h : q.deallocate i = .ok q') : NoDeferred q' := by
  obtain ⟨m, hm, h⟩ := of_bind h
  cases h
  obtain ⟨-, rfl⟩ := Mshr.deallocate_eq_ok hm
  exact hn.set (hn.mshr i)

theorem call {c : QueueCall} (hn : NoDeferred q) (hs : CallStep q c q') : NoDeferred q' := by
  cases hs with
  | allocate h =>
    obtain ⟨j, -, h⟩ := of_bind h
    obtain ⟨-, -, h⟩ := of_bind h
    obtain ⟨m, hm, h⟩ := of_bind h
    cases h
    obtain ⟨source, -, rfl⟩ := Mshr.allocate_eq_ok hm
    refine addToReadyList (set hn ?_)
    exact hn.mshr _
  | @markInService _ i pkt _ h =>
    obtain ⟨⟨m, done⟩, hmark, h⟩ := of_bind h
    obtain ⟨-, ⟨rfl, -, rfl⟩ | ⟨rfl, -, dirty, rfl⟩⟩ := Mshr.markInService_eq_ok hmark
    · have hpop : NoDeferred (q.setMshr i (q.mshr i).popTarget) := hn.set (hn.mshr i)
      exact hpop.deallocate h
    · cases h
      refine set hn ?_
      exact hn.mshr i
  | @markPending _ i _ h =>
    obtain ⟨-, -, h⟩ := of_bind h
    cases h
    refine addToReadyList (set hn ?_)
    exact hn.mshr i
  | @forceDeallocateTarget _ i curTick b _ h =>
    obtain ⟨-, -, h⟩ := of_bind h
    obtain ⟨q₁, hq₁, h⟩ := of_bind h
    cases h
    have hpop : NoDeferred (q.setMshr i (q.mshr i).popTarget) := hn.set (hn.mshr i)
    split at hq₁
    · cases hq₁
      exact hpop
    · obtain ⟨⟨m, promoted⟩, hp, hq₁⟩ := of_bind hq₁
      obtain ⟨-, ⟨rfl, -, rfl⟩ | ⟨-, t, l, hlist, -⟩⟩ := Mshr.promoteDeferredTargets_eq_ok hp
      · have hset := hpop.set (i := i) (m := (q.mshr i).popTarget) (hn.mshr i)
        exact hset.deallocate hq₁
      · rw [show (q.mshr i).popTarget.deferredTargets.list = [] from hn.mshr i] at hlist
        cases hlist
  | deallocate _ h => exact hn.deallocate h

end NoDeferred

/-- The representation invariant holds after every sequence of queue calls, and in every state of a queue that the
  cache works on. -/
theorem queue_representation (numEntries reserve : Int) :
    (∀ h q, Exec CallStep (new numEntries reserve) h q →
      QueueInv q ∧ q.readyList.Nodup) ∧
    (∀ h q, Exec QueueStep (new numEntries reserve) h q →
      QueueInv q ∧ q.readyList.Nodup) := by
  refine ⟨fun h q hr => ?_, fun h q hr => ?_⟩
  · have hinv : QueueInv q ∧ NoDeferred q := by
      refine hr.invariant (P := fun q => QueueInv q ∧ NoDeferred q) ⟨QueueInv.new _ _, ?_⟩ ?_
      · intro m hm
        rw [(mem_replicate.mp hm).2]
      · intro q c q' ⟨hi, hn⟩ hs
        exact ⟨hi.call hs (hn.promoted c), hn.call hs⟩
    exact ⟨hinv.1, hinv.1.ready_nodup⟩
  · have hinv : QueueInv q := hr.invariant (QueueInv.new _ _) fun _ _ _ hi hs => hi.step hs
    exact ⟨hinv, hinv.ready_nodup⟩

/-- A read of the block at 64. -/
def readPacket : Packet :=
  { cmd := .readReq
    req := { paddr := 64, size := 64, masterId := 0 }
    addr := 64
    size := 64 }

/-- Two misses, the later one first; the earlier one is sent and comes back. -/
theorem queue_representation_two : ∃ q, Exec CallStep (new 2 1)
        [.allocate 64 64 readPacket 9 0, .allocate 128 64 readPacket 5 1,
          .markInService 1 (some readPacket), .markPending 1] q ∧
      q.readyList = [1, 0] ∧ q.readyList.Nodup := by
  have hr := Exec.snoc (.snoc (.snoc (Exec.one (R := CallStep) (s := new 2 1)
    (e := .allocate 64 64 readPacket 9 0) (.allocate rfl))
    (e := .allocate 128 64 readPacket 5 1) (.allocate rfl))
    (e := .markInService 1 (some readPacket)) (.markInService (by decide) rfl))
    (e := .markPending 1) (.markPending (by decide) rfl)
  exact ⟨_, hr, by decide, ((queue_representation 2 1).1 _ _ hr).2⟩

end Gem5.Cache
