import Gem5Nvmain.Cache.Blk
import Gem5Nvmain.Lib.Recency

/- An associative set of cache blocks (mem/cache/tags/cacheset.hh).

  `blks` holds the pointers to the set's blocks in recency order, 0 = MRU; a pointer is the block's index in the array
  that BaseSetAssoc allocates. The operations that reorder a set all shift blocks with the same loop (`swapThrough`);
  each of them stops, or moves the block to its new place (`promote`, `demote`), which leaves a permutation. The
  counters `pcm` and `dram` are `uint8_t`.

  Left out: the counters `pcmWriteBacks` and `dramWriteBacks`, which are only printed. -/
namespace Gem5.Cache
open Lib Gem5.Mem List

structure CacheSet where
  blks : List Nat
  pcm : BitVec 8 := 0
  dram : BitVec 8 := 0
  deriving DecidableEq, Repr

/-! ## Reordering -/

/-- The loop `do { assert(i < assoc); swap blks[i] and next; ++i; } while (next != blk)` from the place where the list
  begins. -/
def swapThrough (blk next : Nat) : List Nat → Except Stop (List Nat)
  | [] => .error .assertFailed
  | b :: bs =>
    if b = blk then .ok (next :: bs)
    else do
      let bs ← swapThrough blk b bs
      pure (next :: bs)

def insertFixLocation (blks : List Nat) (blk : Nat) (location : Nat) : Except Stop (List Nat) := do
  let b ← index blks location
  if b = blk then pure blks
  else
    let bs ← swapThrough blk blk (blks.drop location)
    pure (blks.take location ++ bs)

def moveToHead (blks : List Nat) (blk : Nat) : Except Stop (List Nat) := insertFixLocation blks blk 0

/-- `moveOneStep`; for a block that is not in the set it reads past the end. -/
def moveOneStep (blks : List Nat) (blk : Nat) : Except Stop (List Nat) := do
  let b ← index blks 0
  if b = blk then pure blks
  else
    let i := blks.idxOf blk
    let cur ← index blks i
    let prev ← index blks (i - 1)
    pure ((blks.set i prev).set (i - 1) cur)

def moveNStep (blks : List Nat) (blk : Nat) (n : Int) : Except Stop (List Nat) := do
  let b ← index blks 0
  if b = blk then pure blks
  else
    let i := ((blks.idxOf blk : Int) - n).toNat
    let bs ← swapThrough blk blk (blks.drop i)
    pure (blks.take i ++ bs)

/-- `moveToTail`: the same loop, from the last way down. -/
def moveToTail (blks : List Nat) (blk : Nat) : Except Stop (List Nat) := do
  let b ← index blks (blks.length - 1)
  if b = blk then pure blks
  else
    let bs ← swapThrough blk blk blks.reverse
    pure bs.reverse

/-! ## Every reordering moves one block -/

section Perm
variable {l l' : List Nat} {blk next : Nat}

theorem swapThrough_spec (h : swapThrough blk next l = .ok l') : blk ∈ l ∧ l' = next :: l.erase blk := by
  induction l generalizing next l' with
  | nil => cases h
  | cons b bs ih =>
    simp only [swapThrough] at h
    split at h
    · rename_i heq
      cases h
      simp [heq]
    · rename_i hne
      obtain ⟨bs', hbs, h⟩ := of_bind h
      cases h
      obtain ⟨hmem, rfl⟩ := ih hbs
      exact ⟨mem_cons_of_mem b hmem, by rw [erase_cons_tail (by simpa using hne)]⟩

/-- The block goes to way `k`. -/
def Promotes (blk : Nat) (l l' : List Nat) (k : Nat) : Prop := blk ∈ l.drop k ∧ l' = promote blk k l

theorem Promotes.perm {k : Nat} (h : Promotes blk l l' k) : l'.Perm l := by
  obtain ⟨hmem, rfl⟩ := h
  exact promote_perm hmem

theorem swap_from {bs : List Nat} (k : Nat) (h : swapThrough blk blk (l.drop k) = .ok bs) :
    Promotes blk l (l.take k ++ bs) k := by
  obtain ⟨hmem, rfl⟩ := swapThrough_spec h
  exact ⟨hmem, rfl⟩

theorem promotes_self {k : Nat} (h : index l k = .ok blk) : Promotes blk l l k := by
  obtain ⟨hlt, rfl⟩ := List.getElem?_eq_some_iff.mp (index_eq_ok.mp h)
  have hdrop := drop_eq_getElem_cons hlt
  refine ⟨by rw [hdrop]; exact mem_cons_self .., ?_⟩
  rw [promote, hdrop, erase_cons_head, ← hdrop, take_append_drop]

theorem insertFixLocation_promotes {location : Nat} (h : insertFixLocation l blk location = .ok l') :
    Promotes blk l l' location := by
  obtain ⟨b, hb, h⟩ := of_bind h
  split at h
  · rename_i heq
    cases h
    rw [heq] at hb
    exact promotes_self hb
  · obtain ⟨bs, hbs, h⟩ := of_bind h
    cases h
    exact swap_from location hbs

theorem insertFixLocation_perm {location : Nat} (h : insertFixLocation l blk location = .ok l') : l'.Perm l :=
  (insertFixLocation_promotes h).perm

theorem moveToHead_promotes (h : moveToHead l blk = .ok l') : Promotes blk l l' 0 :=
  insertFixLocation_promotes h

theorem moveToHead_perm (h : moveToHead l blk = .ok l') : l'.Perm l := insertFixLocation_perm h

theorem moveNStep_promotes {n : Int} (h : moveNStep l blk n = .ok l') : ∃ k, Promotes blk l l' k := by
  obtain ⟨b, hb, h⟩ := of_bind h
  split at h
  · rename_i heq
    cases h
    rw [heq] at hb
    exact ⟨0, promotes_self hb⟩
  · obtain ⟨bs, hbs, h⟩ := of_bind h
    cases h
    exact ⟨_, swap_from _ hbs⟩

theorem moveNStep_perm {n : Int} (h : moveNStep l blk n = .ok l') : l'.Perm l := by
  obtain ⟨k, hk⟩ := moveNStep_promotes h
  exact hk.perm

theorem moveToTail_demotes (hnd : l.Nodup) (h : moveToTail l blk = .ok l') : blk ∈ l ∧ l' = demote blk l := by
  obtain ⟨b, hb, h⟩ := of_bind h
  split at h
  · rename_i heq
    cases h
    rw [index_eq_ok, heq] at hb
    have hmem := mem_of_getElem? hb
    have hlast : l = l.dropLast ++ [blk] := by
      obtain ⟨hlt, hget⟩ := List.getElem?_eq_some_iff.mp hb
      rw [← hget, ← getLast_eq_getElem (ne_nil_of_mem hmem), dropLast_append_getLast]
    have hnot : blk ∉ l.dropLast := by
      rw [hlast] at hnd
      exact fun hm => (nodup_append.mp hnd).2.2 blk hm blk (mem_singleton_self _) rfl
    refine ⟨hmem, ?_⟩
    rw [demote]
    conv_rhs => rw [hlast]
    rw [erase_append_right _ hnot]
    simpa using hlast
  · obtain ⟨bs, hbs, h⟩ := of_bind h
    cases h
    obtain ⟨hmem, rfl⟩ := swapThrough_spec hbs
    refine ⟨mem_reverse.mp hmem, ?_⟩
    rw [reverse_cons, demote, hnd.erase_eq_filter, (nodup_reverse.mpr hnd).erase_eq_filter,
      filter_reverse, reverse_reverse]

theorem moveToTail_perm (h : moveToTail l blk = .ok l') : l'.Perm l := by
  obtain ⟨b, -, h⟩ := of_bind h
  split at h
  · cases h
    exact List.Perm.refl _
  · obtain ⟨bs, hbs, h⟩ := of_bind h
    cases h
    obtain ⟨hmem, rfl⟩ := swapThrough_spec hbs
    calc (blk :: l.reverse.erase blk).reverse.Perm (blk :: l.reverse.erase blk) := reverse_perm _
      _ |>.Perm l.reverse := (perm_cons_erase hmem).symm
      _ |>.Perm l := reverse_perm l

theorem swap_adjacent {i a : Nat} (ha : l[i]? = some a) (hb : l[i + 1]? = some blk) (hne : a ≠ blk) :
    Promotes blk l ((l.set (i + 1) a).set i blk) i := by
  obtain ⟨hi, rfl⟩ := List.getElem?_eq_some_iff.mp ha
  obtain ⟨hi', rfl⟩ := List.getElem?_eq_some_iff.mp hb
  have hdrop : l.drop i = l[i] :: l[i + 1] :: l.drop (i + 2) := by
    rw [drop_eq_getElem_cons hi, drop_eq_getElem_cons hi']
  have hmem : l[i + 1] ∈ l.drop i := by
    rw [hdrop]
    exact mem_cons_of_mem _ (mem_cons_self ..)
  refine ⟨hmem, ?_⟩
  rw [promote, hdrop, erase_cons_tail (by simpa using hne), erase_cons_head]
  refine ext_getElem? fun j => ?_
  have hlen : (l.take i).length = i := length_take_of_le (Nat.le_of_lt hi)
  rcases Nat.lt_trichotomy j i with hj | hj | hj
  · rw [getElem?_set_ne (by omega), getElem?_set_ne (by omega),
      getElem?_append_left (by omega), getElem?_take_of_lt hj]
  · subst hj
    rw [getElem?_append_right (by omega), hlen]
    simp [hi]
  · rw [getElem?_set_ne (by omega), getElem?_append_right (by omega), hlen]
    obtain ⟨d, rfl⟩ : ∃ d, j = i + 1 + d := ⟨j - (i + 1), by omega⟩
    cases d with
    | zero => simp [hi']
    | succ d =>
      rw [getElem?_set_ne (by omega), show i + 1 + (d + 1) - i = d + 2 by omega]
      simp only [getElem?_cons_succ, getElem?_drop]
      congr 1
      omega

theorem moveOneStep_promotes (h : moveOneStep l blk = .ok l') : ∃ k, Promotes blk l l' k := by
  obtain ⟨b, hb, h⟩ := of_bind h
  split at h
  · rename_i heq
    cases h
    rw [heq] at hb
    exact ⟨0, promotes_self hb⟩
  · rename_i hne
    obtain ⟨cur, hcur, h⟩ := of_bind h
    obtain ⟨prev, hprev, h⟩ := of_bind h
    cases h
    rw [index_eq_ok] at hb hcur hprev
    have hlt := (List.getElem?_eq_some_iff.mp hcur).1
    have hblk : l[l.idxOf blk]? = some blk := by rw [getElem?_eq_getElem hlt, getElem_idxOf]
    obtain rfl : blk = cur := Option.some.inj (hblk.symm.trans hcur)
    have hbefore (j : Nat) (hj : j < l.idxOf blk) : l[j]? ≠ some blk := by
      intro hget
      obtain ⟨hjl, hget⟩ := List.getElem?_eq_some_iff.mp hget
      have := not_of_lt_findIdx hj
      simp [hget] at this
    cases hi : l.idxOf blk with
    | zero =>
      -- the block is not the first one
      rw [hi, hb] at hblk
      exact absurd (Option.some.inj hblk) hne
    | succ i =>
      rw [hi] at hprev hcur
      refine ⟨i, swap_adjacent hprev hcur ?_⟩
      rintro rfl
      exact hbefore i (by omega) hprev

theorem moveOneStep_perm (h : moveOneStep l blk = .ok l') : l'.Perm l := by
  obtain ⟨k, hk⟩ := moveOneStep_promotes h
  exact hk.perm

theorem swapThrough_last (h : blk ∉ l) : swapThrough blk next (l ++ [blk]) = .ok (next :: l) := by
  induction l generalizing next with
  | nil => exact if_pos rfl
  | cons b bs ih =>
    rw [mem_cons, not_or] at h
    obtain ⟨hb, hbs⟩ := h
    rw [cons_append, swapThrough, if_neg (Ne.symm hb), ih hbs]
    rfl

theorem moveToHead_last (h : blk ∉ l) : moveToHead (l ++ [blk]) blk = .ok (blk :: l) := by
  cases l with
  | nil => exact bind_eq_ok.mpr ⟨blk, rfl, if_pos rfl⟩
  | cons b bs =>
    have hb : b ≠ blk := fun heq => h (heq ▸ mem_cons_self ..)
    refine bind_eq_ok.mpr ⟨b, rfl, ?_⟩
    rw [if_neg hb, drop_zero, swapThrough_last h]
    rfl

/-! ## A block of the set can be moved to its tail -/

theorem swapThrough_ok (next : Nat) (h : blk ∈ l) : ∃ l', swapThrough blk next l = .ok l' := by
  induction l generalizing next with
  | nil => cases h
  | cons b bs ih =>
    simp only [swapThrough]
    by_cases hb : b = blk
    · exact ⟨_, if_pos hb⟩
    · obtain ⟨bs', hbs⟩ := ih b ((mem_cons.mp h).resolve_left (Ne.symm hb))
      rw [if_neg hb, hbs]
      exact ⟨_, rfl⟩

theorem moveToTail_ok (h : blk ∈ l) : ∃ l', moveToTail l blk = .ok l' := by
  have hpos := length_pos_of_mem h
  have hlast : index l (l.length - 1) = .ok (l[l.length - 1]) := by
    rw [index_eq_ok, getElem?_eq_getElem]
  obtain ⟨bs, hbs⟩ := swapThrough_ok blk (mem_reverse.mpr h)
  rw [moveToTail, hlast, bind_ok, hbs, bind_ok]
  split
  · exact ⟨_, rfl⟩
  · exact ⟨_, rfl⟩

end Perm

end Gem5.Cache
