import Gem5Nvmain.Cache.FaLru
import Mathlib.Data.Nat.Bitwise
import Mathlib.Tactic.Ring

/- The list, the masks and the boundaries of FALRU agree.

  `FaOrdered p s l` says that `l` is the list of all blocks, most recently used first, that the mask of the block at
  place `q` has the bits of the sizes that hold more than `q` blocks, and that the boundary of a size is the last
  block it holds. The constructor builds such a state, `moveToHead` keeps it (`FaOrdered.moveToHead`), and `check`
  returns true in it. -/
namespace Gem5.Cache
open Lib Function List Nat

/-! ## Sizes and masks -/

namespace FalruParams
variable (p : FalruParams)

/-- The number of blocks of tracked size `i`; the whole cache is the last one. -/
def tracked (i : Nat) : Nat := 2 ^ (17 + i - p.blkBits)

theorem tracked_succ (i : Nat) : p.tracked (i + 1) = 2 * p.tracked i := by
  have := p.blk_le
  rw [tracked, tracked, show 17 + (i + 1) - p.blkBits = (17 + i - p.blkBits) + 1 by omega, pow_succ,
    mul_comm]

theorem two_le_tracked (i : Nat) : 2 ≤ p.tracked i := by
  have := p.blk_le
  calc 2 = 2 ^ 1 := rfl
    _ ≤ 2 ^ (17 + i - p.blkBits) := Nat.pow_le_pow_right (by omega) (by omega)

theorem tracked_mono {i j : Nat} (h : i ≤ j) : p.tracked i ≤ p.tracked j :=
  Nat.pow_le_pow_right (by omega) (by omega)

theorem tracked_lt {i j : Nat} (h : i < j) : p.tracked i < p.tracked j := by
  have := p.blk_le
  exact Nat.pow_lt_pow_right (by omega) (by omega)

theorem tracked_mul (i : Nat) : p.tracked i * p.blkSize = 2 ^ 17 * 2 ^ i := by
  have := p.blk_le
  rw [tracked, blkSize, ← pow_add, ← pow_add]
  congr 1
  omega

theorem tracked_eq (i : Nat) : 2 ^ 17 * 2 ^ i / p.blkSize = p.tracked i := by
  have hpos : 0 < p.blkSize := Nat.two_pow_pos _
  rw [← p.tracked_mul i, Nat.mul_div_cancel _ hpos]

theorem tracked_numCaches : p.tracked p.numCaches = p.numBlocks := by
  have := p.size_ge
  rw [← p.tracked_eq, ← pow_add, numBlocks, size, numCaches, show 17 + (p.sizeBits - 17) = p.sizeBits by omega]

theorem tracked_lt_numBlocks {i : Nat} (h : i < p.numCaches) : p.tracked i < p.numBlocks := by
  rw [← p.tracked_numCaches]
  exact p.tracked_lt h

theorem two_le_numBlocks : 2 ≤ p.numBlocks := by
  rw [← p.tracked_numCaches]
  exact p.two_le_tracked _

theorem numCaches_lt : p.numCaches < 32 := by
  have := p.size_lt
  rw [numCaches]
  omega

theorem cacheMask_bit (i : Nat) : p.cacheMask.getLsbD i = decide (i < p.numCaches) := by
  have hlt := p.numCaches_lt
  have hpow : 2 ^ p.numCaches < 2 ^ 32 := Nat.pow_lt_pow_right (by omega) hlt
  have hpos : 0 < 2 ^ p.numCaches := Nat.two_pow_pos _
  have hval : p.cacheMask.toNat = 2 ^ p.numCaches - 1 := by
    have hone : (1 : BitVec 32).toNat = 1 := rfl
    rw [cacheMask, BitVec.toNat_sub, BitVec.toNat_shiftLeft, shiftLeft_eq, hone, one_mul,
      mod_eq_of_lt hpow]
    omega
  rw [BitVec.getLsbD, hval, testBit_two_pow_sub_one]

end FalruParams

theorem clearBit_bit (m : BitVec 32) (i j : Nat) : (clearBit m j).getLsbD i = (m.getLsbD i && !decide (i = j)) := by
  by_cases hi : i < 32
  · simp only [clearBit, BitVec.getLsbD_and, BitVec.getLsbD_not, BitVec.getLsbD_shiftLeft, hi, decide_true,
      Bool.true_and]
    congr 2
    by_cases hij : i < j
    · simp [hij, Nat.ne_of_lt hij]
    · by_cases h : i = j
      · simp [h]
      · simp [hij, h]
        omega
  · rw [BitVec.getLsbD_of_ge _ _ (by omega), BitVec.getLsbD_of_ge _ _ (by omega), Bool.false_and]

/-- The sizes that hold more than `q` blocks. -/
def MaskAt (p : FalruParams) (m : BitVec 32) (q : Nat) : Prop :=
  ∀ i, m.getLsbD i = decide (i < p.numCaches ∧ q < p.tracked i)

theorem MaskAt.eq {p : FalruParams} {m m' : BitVec 32} {q q' : Nat} (h : MaskAt p m q) (h' : MaskAt p m' q')
    (heq : ∀ i < p.numCaches, q < p.tracked i ↔ q' < p.tracked i) : m = m' := by
  refine BitVec.eq_of_getLsbD_eq fun i _ => ?_
  rw [h i, h' i, decide_eq_decide]
  exact and_congr_right (heq i)

theorem maskAt_tail (p : FalruParams) : MaskAt p 0 (p.numBlocks - 1) := by
  intro i
  have hzero : (0 : BitVec 32).getLsbD i = false := BitVec.getLsbD_zero
  rw [hzero, eq_comm, decide_eq_false_iff_not]
  rintro ⟨hi, hlt⟩
  have := p.tracked_lt_numBlocks hi
  omega

/-! ## The three views -/

/-- The pointers of the list. -/
def Falru.links (s : Falru) : Links Nat where
  head := s.head
  tail := s.tail
  next i := (s.blks i).next
  prev i := (s.blks i).prev

structure FaOrdered (p : FalruParams) (s : Falru) (l : List Nat) : Prop where
  perm : l.Perm (range p.numBlocks)
  links : s.links.Holds l
  mask : ∀ {q x : Nat}, l[q]? = some x → MaskAt p (s.blks x).inCache q
  boundary : ∀ i < p.numCaches, s.cacheBoundaries i = l[p.tracked i - 1]?

/-- What a block holds besides its mask. -/
def FalruBlk.unmasked (b : FalruBlk) : FalruBlk := { b with inCache := 0 }

/-- What a block holds besides its neighbours. -/
def FalruBlk.unlinked (b : FalruBlk) : FalruBlk := { b with prev := none, next := none }

namespace FaOrdered
variable {p : FalruParams} {s s' : Falru} {l : List Nat} {x q : Nat}

theorem length (h : FaOrdered p s l) : l.length = p.numBlocks := by
  rw [h.perm.length_eq, length_range]

theorem exists_at (h : FaOrdered p s l) (hq : q < p.numBlocks) : ∃ y, l[q]? = some y :=
  ⟨_, getElem?_eq_getElem (by rw [h.length]; exact hq)⟩

theorem prev (h : FaOrdered p s l) {y : Nat} (hy : l[q]? = some y) (hq : q ≠ 0) : (s.blks y).prev = l[q - 1]? := by
  have := h.links.prev hy
  rw [if_neg hq] at this
  exact this

/-- The loop of `moveToHead` up to size `m`. -/
structure Rounds (p : FalruParams) (s : Falru) (l : List Nat) (q m : Nat) (s' : Falru) : Prop where
  head : s'.head = s.head
  tail : s'.tail = s.tail
  tagHash : s'.tagHash = s.tagHash
  tagsInUse : s'.tagsInUse = s.tagsInUse
  warmedUp : s'.warmedUp = s.warmedUp
  blks : ∀ y, (s'.blks y).unmasked = (s.blks y).unmasked
  mask : ∀ {r y : Nat}, l[r]? = some y → ∀ i, (s'.blks y).inCache.getLsbD i =
    ((s.blks y).inCache.getLsbD i && !decide (i < m ∧ r + 1 = p.tracked i ∧ p.tracked i ≤ q))
  done : ∀ i < m, s'.cacheBoundaries i = if p.tracked i ≤ q + 1 then l[p.tracked i - 2]? else l[p.tracked i - 1]?
  todo : ∀ i, m ≤ i → s'.cacheBoundaries i = s.cacheBoundaries i

theorem Rounds.prev {m : Nat} (h : Rounds p s l q m s') (y : Nat) : (s'.blks y).prev = (s.blks y).prev := by
  have := congrArg FalruBlk.prev (h.blks y)
  exact this

theorem Rounds.mask_succ {m r y : Nat} (h : Rounds p s l q m s') (hm : ¬p.tracked m ≤ q) (hy : l[r]? = some y)
    (i : Nat) : (s'.blks y).inCache.getLsbD i =
      ((s.blks y).inCache.getLsbD i && !decide (i < m + 1 ∧ r + 1 = p.tracked i ∧ p.tracked i ≤ q)) := by
  rw [h.mask hy i]
  congr 2
  rw [decide_eq_decide]
  constructor
  · rintro ⟨hi, hrest⟩
    exact ⟨by omega, hrest⟩
  · rintro ⟨hi, hr, hle⟩
    have hne : i ≠ m := by
      rintro rfl
      exact hm hle
    exact ⟨by omega, hr, hle⟩

theorem rounds_zero : Rounds p s l q 0 s := by
  refine ⟨rfl, rfl, rfl, rfl, rfl, fun _ => rfl, fun _ i => ?_, fun i hi => ?_, fun _ _ => rfl⟩
  · simp
  · omega

theorem rounds_succ {m : Nat} (h : FaOrdered p s l) (hx : l[q]? = some x) (hq : q ≠ 0) (hm : m < p.numCaches)
    (hr : Rounds p s l q m s') : ∃ s'', Falru.moveBoundary x ((s.blks x).inCache ^^^ p.cacheMask) s' m = .ok s'' ∧
      Rounds p s l q (m + 1) s'' := by
  have htwo := p.two_le_tracked m
  have hbit : ((s.blks x).inCache ^^^ p.cacheMask).getLsbD m = decide (p.tracked m ≤ q) := by
    rw [BitVec.getLsbD_xor, h.mask hx m, p.cacheMask_bit]
    by_cases hle : p.tracked m ≤ q
    · simp [hm, hle]
    · simp [not_le.mp hle]
  obtain ⟨b, hb⟩ := h.exists_at (q := p.tracked m - 1) (by have := p.tracked_lt_numBlocks hm; omega)
  have hbound : s'.cacheBoundaries m = some b := by rw [hr.todo m (le_refl m), h.boundary m hm, hb]
  have hprev : (s.blks b).prev = l[p.tracked m - 2]? := by
    rw [h.prev hb (by omega)]
    congr 1
  have hfirst {i : Nat} (hi : i < m + 1) (hne : i ≠ m) : i < m := by omega
  unfold Falru.moveBoundary
  rw [hbit]
  by_cases hle : p.tracked m ≤ q
  · -- the block comes from behind the boundary, whose last block falls out
    simp only [hle, decide_true, if_true, hbound, deref, bind_ok, pure_eq_ok, Except.ok.injEq, exists_eq_left']
    have hblk (y : Nat) : ((s'.modifyBlk b fun z => { z with inCache := clearBit z.inCache m }).blks y) =
        if y = b then { s'.blks b with inCache := clearBit (s'.blks b).inCache m } else s'.blks y := by
      simp only [Falru.modifyBlk, update_apply]
    refine ⟨hr.head, hr.tail, hr.tagHash, hr.tagsInUse, hr.warmedUp, fun y => ?_, fun {r y} hy i => ?_, fun i hi => ?_,
      fun i hi => ?_⟩
    · simp only [hblk]
      split
      · rename_i heq
        rw [heq]
        exact hr.blks b
      · exact hr.blks y
    · simp only [hblk]
      by_cases hyb : y = b
      · subst hyb
        have hplace := Links.getElem?_inj h.links.nodup hy hb
        rw [if_pos rfl]
        simp only [clearBit_bit]
        rw [hr.mask hy i, Bool.and_assoc, ← Bool.not_or]
        congr 2
        rw [← Bool.decide_or, decide_eq_decide]
        constructor
        · rintro (⟨hi, hrest⟩ | rfl)
          · exact ⟨by omega, hrest⟩
          · exact ⟨by omega, by omega, hle⟩
        · rintro ⟨hi, hrest⟩
          by_cases him : i = m
          · exact .inr him
          · exact .inl ⟨hfirst hi him, hrest⟩
      · rw [if_neg hyb, hr.mask hy i]
        congr 2
        rw [decide_eq_decide]
        constructor
        · rintro ⟨hi, hrest⟩
          exact ⟨by omega, hrest⟩
        · rintro ⟨hi, hplace, hrest⟩
          have him : i ≠ m := by
            rintro rfl
            rw [show r = p.tracked i - 1 by omega, hb] at hy
            exact hyb (Option.some.inj hy).symm
          exact ⟨hfirst hi him, hplace, hrest⟩
    · simp only [update_apply]
      by_cases him : i = m
      · subst him
        rw [if_pos rfl, if_pos (by omega), hblk, if_pos rfl, ← hprev]
        exact hr.prev b
      · rw [if_neg him]
        exact hr.done i (hfirst hi him)
    · simp only [update_apply]
      rw [if_neg (by omega)]
      exact hr.todo i (by omega)
  · simp only [hle, hbound, Option.some.injEq]
    by_cases hbx : b = x
    · -- the block is the boundary
      subst hbx
      have hplace := Links.getElem?_inj h.links.nodup hx hb
      rw [if_pos rfl]
      refine ⟨_, rfl, hr.head, hr.tail, hr.tagHash, hr.tagsInUse, hr.warmedUp, hr.blks,
        hr.mask_succ hle, fun i hi => ?_, fun i hi => ?_⟩
      · simp only [update_apply]
        by_cases him : i = m
        · subst him
          rw [if_pos rfl, if_pos (by omega), ← hprev]
          exact hr.prev b
        · rw [if_neg him]
          exact hr.done i (hfirst hi him)
      · simp only [update_apply]
        rw [if_neg (by omega)]
        exact hr.todo i (by omega)
    · -- the boundary is behind the block
      have hplace : q ≠ p.tracked m - 1 := by
        rintro rfl
        rw [hb] at hx
        exact hbx (Option.some.inj hx)
      rw [if_neg hbx]
      refine ⟨s', rfl, hr.head, hr.tail, hr.tagHash, hr.tagsInUse, hr.warmedUp, hr.blks,
        hr.mask_succ hle, fun i hi => ?_, fun i hi => hr.todo i (by omega)⟩
      by_cases him : i = m
      · subst him
        rw [if_neg (by omega), hbound, hb]
      · exact hr.done i (hfirst hi him)

theorem rounds (h : FaOrdered p s l) (hx : l[q]? = some x) (hq : q ≠ 0) {m : Nat} (hm : m ≤ p.numCaches) :
    ∃ s', (range m).foldlM (Falru.moveBoundary x ((s.blks x).inCache ^^^ p.cacheMask)) s = .ok s' ∧
      Rounds p s l q m s' := by
  induction m with
  | zero => exact ⟨s, rfl, rounds_zero⟩
  | succ m ih =>
    obtain ⟨s', hs', hr⟩ := ih (by omega)
    obtain ⟨s'', hs'', hr'⟩ := h.rounds_succ hx hq (by omega) hr
    refine ⟨s'', ?_, hr'⟩
    rw [range_succ, foldlM_append, hs']
    simp [hs'']

/-- The block is put before the head, and nothing but the list changes. -/
theorem relink_spec (hl : s.links.Holds l) (hx : l[q]? = some x) (hq : q ≠ 0) :
    ∃ s', s.relink x = .ok s' ∧ s'.links = s.links.toFront x ∧
      (∀ y, (s'.blks y).unlinked = (s.blks y).unlinked) ∧ s'.cacheBoundaries = s.cacheBoundaries ∧
      s'.tagHash = s.tagHash ∧ s'.tagsInUse = s.tagsInUse ∧ s'.warmedUp = s.warmedUp := by
  have hlt : q < l.length := (List.getElem?_eq_some_iff.mp hx).1
  obtain ⟨a, ha⟩ : ∃ a, l[q - 1]? = some a := ⟨_, getElem?_eq_getElem (by omega)⟩
  have hprev : (s.blks x).prev = some a := by
    have := hl.prev hx
    rwa [if_neg hq, ha] at this
  have hnext : (s.blks x).next = l[q + 1]? := hl.next hx
  have hxh : x ≠ s.head := hl.ne_at hx hl.head hq
  have htail : l[l.length - 1]? = some s.tail := hl.tail
  unfold Falru.relink Falru.unlink
  by_cases ht : x = s.tail
  · rw [← ht] at htail
    have hlast := Links.getElem?_inj hl.nodup hx htail
    rw [getElem?_eq_none (by omega)] at hnext
    simp only [← ht, if_true, hnext, hprev, deref, bind_ok, require, pure_eq_ok, beq_self_eq_true,
      Except.ok.injEq, exists_eq_left']
    refine ⟨?_, fun y => ?_, rfl, rfl, rfl, rfl⟩
    · ext1
      · rfl
      · simp [Falru.links, Links.toFront, ← ht, hprev, Falru.modifyBlk]
      · simp only [Falru.links, Links.toFront, Falru.modifyBlk, update_apply]
        grind
      · simp only [Falru.links, Links.toFront, Falru.modifyBlk, update_apply]
        grind
    · simp only [Falru.modifyBlk, update_apply, FalruBlk.unlinked]
      grind
  · obtain ⟨b, hb⟩ : ∃ b, l[q + 1]? = some b := by
      refine ⟨_, getElem?_eq_getElem ?_⟩
      by_contra hge
      rw [show l.length - 1 = q by omega, hx] at htail
      exact ht (Option.some.inj htail)
    rw [hb] at hnext
    simp only [ht, if_false, hnext, hprev, deref, bind_ok, pure_eq_ok, Except.ok.injEq, exists_eq_left']
    refine ⟨?_, fun y => ?_, rfl, rfl, rfl, rfl⟩
    · ext1
      · rfl
      · simp [Falru.links, Links.toFront, ht, Falru.modifyBlk]
      · simp only [Falru.links, Links.toFront, Falru.modifyBlk, update_apply]
        grind
      · simp only [Falru.links, Links.toFront, Falru.modifyBlk, update_apply]
        grind
    · simp only [Falru.modifyBlk, update_apply, FalruBlk.unlinked]
      grind

/-- What `moveToHead` leaves alone. -/
structure Kept (s s' : Falru) : Prop where
  tag : ∀ y, (s'.blks y).tag = (s.blks y).tag
  valid : ∀ y, (s'.blks y).valid = (s.blks y).valid
  tagHash : s'.tagHash = s.tagHash
  tagsInUse : s'.tagsInUse = s.tagsInUse

theorem Rounds.mask_moved {r y : Nat} (h : FaOrdered p s l) (hr : Rounds p s l q p.numCaches s')
    (hy : l[r]? = some y) : MaskAt p (s'.blks y).inCache (if r < q then r + 1 else r) := by
  intro i
  rw [hr.mask hy i, h.mask hy i, ← decide_not, ← Bool.decide_and, decide_eq_decide]
  split
  · constructor
    · rintro ⟨⟨hi, hlt⟩, hne⟩
      refine ⟨hi, ?_⟩
      by_contra hge
      exact hne ⟨hi, by omega, by omega⟩
    · rintro ⟨hi, hlt⟩
      exact ⟨⟨hi, by omega⟩, by omega⟩
  · constructor
    · exact fun hb => hb.1
    · rintro ⟨hi, hlt⟩
      exact ⟨⟨hi, hlt⟩, by omega⟩

theorem Rounds.blks_masked {m : Nat} (hr : Rounds p s l q m s') (c : BitVec 32) (y : Nat) :
    ((s'.modifyBlk x fun z => { z with inCache := c }).blks y).unmasked = (s.blks y).unmasked := by
  rw [← hr.blks y]
  simp only [Falru.modifyBlk, update_apply]
  split
  · rename_i heq
    rw [heq]
    rfl
  · rfl

theorem Rounds.links {m : Nat} (hr : Rounds p s l q m s') (c : BitVec 32) :
    (s'.modifyBlk x fun z => { z with inCache := c }).links = s.links := by
  ext1
  · exact hr.head
  · exact hr.tail
  · funext y
    have := congrArg FalruBlk.next (hr.blks_masked (x := x) c y)
    exact this
  · funext y
    have := congrArg FalruBlk.prev (hr.blks_masked (x := x) c y)
    exact this

theorem moveToHead (h : FaOrdered p s l) (hx : l[q]? = some x) (hq : q ≠ 0) :
    ∃ s', s.moveToHead p x = .ok s' ∧ FaOrdered p s' (promote x 0 l) ∧ Kept s s' := by
  obtain ⟨s₁, hs₁, hr⟩ := h.rounds hx hq (le_refl _)
  obtain ⟨s₂, hs₂⟩ : ∃ s₂, s₂ = s₁.modifyBlk x fun z => { z with inCache := p.cacheMask } := ⟨_, rfl⟩
  have hl₂ : s₂.links = s.links := hs₂ ▸ hr.links p.cacheMask
  have hblk (y : Nat) : s₂.blks y =
      if y = x then { s₁.blks x with inCache := p.cacheMask } else s₁.blks y := by
    simp only [hs₂, Falru.modifyBlk, update_apply]
  have hhead : x ≠ s₂.head := by
    have : s₂.head = s.head := congrArg Links.head hl₂
    rw [this]
    exact h.links.ne_at hx h.links.head hq
  obtain ⟨s₃, hs₃, hl₃, hb₃, hc₃, hh₃, hu₃, -⟩ := relink_spec (hl₂ ▸ h.links) hx hq
  have hmask (y : Nat) : (s₃.blks y).inCache = (s₂.blks y).inCache := by
    have := congrArg FalruBlk.inCache (hb₃ y)
    exact this
  refine ⟨s₃, ?_, ⟨(promote_perm (mem_of_getElem? hx)).trans h.perm, ?_, fun {r y} hy => ?_, fun i hi => ?_⟩, ?_⟩
  · unfold Falru.moveToHead
    simp only [hs₁, bind_ok, ← hs₂, hhead, ne_eq, not_false_eq_true, if_true, hs₃]
  · rw [hl₃, hl₂]
    exact h.links.toFront hx hq
  · rw [hmask, hblk]
    rw [Links.promote_getElem? h.links.nodup hx] at hy
    split at hy
    · rename_i hzero
      cases hy
      rw [if_pos rfl, hzero]
      intro i
      have := p.two_le_tracked i
      rw [p.cacheMask_bit, decide_eq_decide]
      exact ⟨fun hi => ⟨hi, by omega⟩, And.left⟩
    · split at hy
      · -- a block it passes is one place further
        rw [if_neg (h.links.ne_at hy hx (by omega))]
        have := hr.mask_moved h hy
        rwa [if_pos (by omega), Nat.sub_add_cancel (by omega)] at this
      · rw [if_neg (h.links.ne_at hy hx (by omega))]
        have := hr.mask_moved h hy
        rwa [if_neg (by omega)] at this
  · have := p.two_le_tracked i
    have hc₂ : s₂.cacheBoundaries = s₁.cacheBoundaries := by rw [hs₂]; rfl
    have hne : p.tracked i - 1 ≠ 0 := by omega
    rw [hc₃, hc₂, hr.done i hi, Links.promote_getElem? h.links.nodup hx, if_neg hne]
    by_cases hle : p.tracked i ≤ q + 1
    · rw [if_pos hle, if_pos (by omega)]
      rfl
    · rw [if_neg hle, if_neg (by omega)]
  · have hkept (y : Nat) : (s₃.blks y).unlinked.unmasked = (s.blks y).unlinked.unmasked := by
      have h₂ := hr.blks_masked (x := x) p.cacheMask y
      rw [← hs₂] at h₂
      calc (s₃.blks y).unlinked.unmasked = (s₂.blks y).unlinked.unmasked := by rw [hb₃ y]
        _ = (s₂.blks y).unmasked.unlinked := rfl
        _ = (s.blks y).unmasked.unlinked := by rw [h₂]
    refine ⟨fun y => ?_, fun y => ?_, ?_, ?_⟩
    · have := congrArg FalruBlk.tag (hkept y)
      exact this
    · have := congrArg FalruBlk.valid (hkept y)
      exact this
    · rw [hh₃, ← hr.tagHash, hs₂]
      rfl
    · rw [hu₃, ← hr.tagsInUse, hs₂]
      rfl

end FaOrdered

/-! ## Walking down the list

   The constructor and `check` go through the blocks with the next size `j` to come
   and the mask `flags` of the sizes from `j` on. -/

structure Walk (p : FalruParams) (q j : Nat) (flags : BitVec 32) : Prop where
  low : ∀ i < j, p.tracked i ≤ q
  high : q < p.tracked j
  flags : ∀ i, flags.getLsbD i = decide (i < p.numCaches ∧ j ≤ i)

namespace Walk
variable {p : FalruParams} {q j : Nat} {flags : BitVec 32}

theorem start (hq : q < p.tracked 0) : Walk p q 0 p.cacheMask := by
  refine ⟨fun i hi => absurd hi (not_lt_zero i), hq, fun i => ?_⟩
  simp [p.cacheMask_bit]

theorem maskAt (h : Walk p q j flags) : MaskAt p flags q := by
  intro i
  rw [h.flags i, decide_eq_decide]
  refine and_congr_right fun _ => ⟨fun hle => ?_, fun hlt => ?_⟩
  · exact lt_of_lt_of_le h.high (p.tracked_mono hle)
  · by_contra hle
    have := h.low i (by omega)
    omega

theorem last (h : Walk p q j flags) (hq : q + 1 = p.tracked j) : Walk p (q + 1) (j + 1) (clearBit flags j) := by
  refine ⟨fun i hi => ?_, by rw [p.tracked_succ]; omega, fun i => ?_⟩
  · rw [hq]
    exact p.tracked_mono (by omega)
  · rw [clearBit_bit, h.flags, ← decide_not, ← Bool.decide_and, decide_eq_decide]
    omega

theorem next (h : Walk p q j flags) (hq : q + 1 ≠ p.tracked j) : Walk p (q + 1) j flags := by
  have := h.high
  exact ⟨fun i hi => le_succ_of_le (h.low i hi), by omega, h.flags⟩

theorem lt_numCaches (hlt : p.tracked j < p.numBlocks) : j < p.numCaches := by
  by_contra hge
  have := p.tracked_mono (not_lt.mp hge)
  rw [p.tracked_numCaches] at this
  omega

end Walk

/-! ## Construction -/

namespace Falru

/-- The constructor's loop before block `n`. -/
structure Built (p : FalruParams) (n : Nat) (b : Build) : Prop where
  walk : Walk p n b.j b.flags
  index : b.index = p.tracked b.j
  mask : ∀ i < n, MaskAt p (b.blks i).inCache i
  next : ∀ i < n, (b.blks i).next = some (i + 1)
  prev : ∀ i < n, (b.blks i).prev = if i = 0 then none else some (i - 1)
  fresh : ∀ i, (b.blks i).valid = false ∧ (b.blks i).tag = 0
  rest : ∀ i, n ≤ i → b.blks i = ends p i
  boundary : ∀ i < b.j, b.cacheBoundaries i = some (p.tracked i - 1)

theorem buildStep_blks (b : Build) (n i : Nat) : (buildStep b n).blks i = if i = n then { b.blks n with
      inCache := b.flags, prev := some (n - 1), next := some (n + 1), isTouched := false }
    else b.blks i := by
  unfold buildStep
  split <;> simp only [update_apply]

section Build
variable {p : FalruParams} {n : Nat} {b : Build}

theorem Built.start : Built p 1 ⟨ends p, fun _ => none, p.cacheMask, 2 ^ 17 / p.blkSize, 0⟩ := by
  have htwo := p.two_le_numBlocks
  have htracked := p.two_le_tracked 0
  have hhead : ends p 0 = { next := some 1, inCache := p.cacheMask } := by
    simp only [ends, update_apply]
    rw [if_neg (by omega), if_pos trivial]
  refine ⟨Walk.start (by omega), ?_, fun i hi => ?_, fun i hi => ?_, fun i hi => ?_, fun i => ?_, fun _ _ => rfl,
    fun i hi => absurd hi (not_lt_zero i)⟩
  · have := p.tracked_eq 0
    simpa using this
  · simp only [lt_one_iff.mp hi, hhead]
    exact (Walk.start (by omega)).maskAt
  · simp only [lt_one_iff.mp hi, hhead]
  · simp only [lt_one_iff.mp hi, hhead]
    rfl
  · simp only [ends, update_apply]
    split
    · exact ⟨rfl, rfl⟩
    · split <;> exact ⟨rfl, rfl⟩

theorem Built.step (h : Built p n b) (hn : n ≠ 0) : Built p (n + 1) (buildStep b n) := by
  have hold {i : Nat} (hi : i < n + 1) (hne : i ≠ n) : i < n := by omega
  have hindex := h.index
  have hblk : (∀ i < n + 1, MaskAt p ((buildStep b n).blks i).inCache i) ∧
      (∀ i < n + 1, ((buildStep b n).blks i).next = some (i + 1)) ∧
      (∀ i < n + 1, ((buildStep b n).blks i).prev = if i = 0 then none else some (i - 1)) ∧
      (∀ i, ((buildStep b n).blks i).valid = false ∧ ((buildStep b n).blks i).tag = 0) ∧
      ∀ i, n + 1 ≤ i → (buildStep b n).blks i = ends p i := by
    simp only [buildStep_blks]
    refine ⟨fun i hi => ?_, fun i hi => ?_, fun i hi => ?_, fun i => ?_, fun i hi => ?_⟩
    · split
      · rename_i heq
        rw [heq]
        exact h.walk.maskAt
      · exact h.mask i (hold hi ‹_›)
    · split
      · rename_i heq
        rw [heq]
      · exact h.next i (hold hi ‹_›)
    · split
      · rename_i heq
        rw [heq, if_neg hn]
      · exact h.prev i (hold hi ‹_›)
    · split
      · exact h.fresh n
      · exact h.fresh i
    · rw [if_neg (by omega)]
      exact h.rest i (by omega)
  obtain ⟨hmask, hnext, hprev, hfresh, hrest⟩ := hblk
  by_cases hlast : n = b.index - 1
  · have hsize : n + 1 = p.tracked b.j := by omega
    have hj : (buildStep b n).j = b.j + 1 := by simp only [buildStep, if_pos hlast]
    have hflags : (buildStep b n).flags = clearBit b.flags b.j := by simp only [buildStep, if_pos hlast]
    refine ⟨?_, ?_, hmask, hnext, hprev, hfresh, hrest, fun i hi => ?_⟩
    · rw [hj, hflags]
      exact h.walk.last hsize
    · rw [hj, p.tracked_succ, ← hindex]
      simp only [buildStep, if_pos hlast]
    · simp only [buildStep, if_pos hlast, update_apply] at hi ⊢
      split
      · rename_i heq
        rw [heq]
        congr 1
        omega
      · exact h.boundary i (by omega)
  · have hsize : n + 1 ≠ p.tracked b.j := by omega
    have hj : (buildStep b n).j = b.j := by simp only [buildStep, if_neg hlast]
    have hflags : (buildStep b n).flags = b.flags := by simp only [buildStep, if_neg hlast]
    refine ⟨?_, ?_, hmask, hnext, hprev, hfresh, hrest, fun i hi => ?_⟩
    · rw [hj, hflags]
      exact h.walk.next hsize
    · rw [hj, ← hindex]
      simp only [buildStep, if_neg hlast]
    · simp only [buildStep, if_neg hlast] at hi ⊢
      exact h.boundary i hi

theorem Built.steps (m : Nat) : Built p (m + 1) ((range' 1 m).foldl buildStep
    ⟨ends p, fun _ => none, p.cacheMask, 2 ^ 17 / p.blkSize, 0⟩) := by
  induction m with
  | zero => exact Built.start
  | succ m ih =>
    rw [range'_concat, foldl_append, one_mul, add_comm 1 m]
    exact ih.step (succ_ne_zero m)

theorem build_spec (p : FalruParams) : Built p (p.numBlocks - 1) (build p) := by
  have := p.two_le_numBlocks
  have h : Built p (p.numBlocks - 2 + 1) (build p) := Built.steps (p.numBlocks - 2)
  rwa [show p.numBlocks - 2 + 1 = p.numBlocks - 1 by omega] at h

theorem build_j (p : FalruParams) : (build p).j = p.numCaches := by
  have hb := build_spec p
  have htwo := p.two_le_numBlocks
  have hhigh := hb.walk.high
  rcases lt_trichotomy (build p).j p.numCaches with hlt | heq | hgt
  · have := p.tracked_lt_numBlocks hlt
    omega
  · exact heq
  · have := hb.walk.low _ hgt
    rw [p.tracked_numCaches] at this
    omega

/-- The constructor's assertions hold, and its list is in the order of the array. -/
theorem new_ordered (p : FalruParams) : ∃ s, new p = .ok s ∧ FaOrdered p s (range p.numBlocks) ∧
    (∀ i, (s.blks i).valid = false ∧ (s.blks i).tag = 0) ∧ s.tagHash = fun _ => none := by
  have hb := build_spec p
  have hj := build_j p
  have htwo := p.two_le_numBlocks
  have hindex : (build p).index = p.numBlocks := by rw [hb.index, hj, p.tracked_numCaches]
  have htail : (build p).blks (p.numBlocks - 1) = { prev := some (p.numBlocks - 2) } := by
    rw [hb.rest _ (le_refl _)]
    simp only [ends, update_apply, if_true]
  have hplace {q x : Nat} (hx : (range p.numBlocks)[q]? = some x) : q < p.numBlocks ∧ x = q := by
    obtain ⟨hlt, rfl⟩ := List.getElem?_eq_some_iff.mp hx
    rw [length_range] at hlt
    exact ⟨hlt, getElem_range _⟩
  refine ⟨⟨(build p).blks, 0, p.numBlocks - 1, (build p).cacheBoundaries, fun _ => none, 0, false⟩, ?_, ?_,
    hb.fresh, rfl⟩
  · unfold new
    simp [hj, hindex, require]
  · refine ⟨List.Perm.refl _, ⟨nodup_range, ?_, ?_, fun {q x} hx => ?_, fun {q x} hx => ?_⟩, fun {q x} hx => ?_,
      fun i hi => ?_⟩
    · exact getElem?_range (by omega)
    · rw [length_range]
      exact getElem?_range (by omega)
    · obtain ⟨hq, rfl⟩ := hplace hx
      by_cases hlast : x = p.numBlocks - 1
      · rw [getElem?_eq_none (by rw [length_range]; omega)]
        simp only [links, hlast, htail]
      · rw [getElem?_range (by omega)]
        exact hb.next x (by omega)
    · obtain ⟨hq, rfl⟩ := hplace hx
      by_cases hlast : x = p.numBlocks - 1
      · rw [if_neg (by omega), getElem?_range (by omega)]
        simp only [links, hlast, htail]
        rfl
      · have hprev := hb.prev x (by omega)
        simp only [links, hprev]
        split
        · rfl
        · rw [getElem?_range (by omega)]
    · obtain ⟨hq, rfl⟩ := hplace hx
      by_cases hlast : x = p.numBlocks - 1
      · simp only [hlast, htail]
        exact maskAt_tail p
      · exact hb.mask x (by omega)
    · have hlt := p.tracked_lt_numBlocks hi
      rw [getElem?_range (by omega)]
      exact hb.boundary i (hj ▸ hi)

end Build

end Falru

/-! ## check -/

namespace FaOrdered
variable {p : FalruParams} {s : Falru} {l : List Nat}

theorem at_tail {q x : Nat} (h : FaOrdered p s l) (hx : l[q]? = some x) : x = s.tail ↔ q = p.numBlocks - 1 := by
  have htail : l[p.numBlocks - 1]? = some s.tail := h.length ▸ h.links.tail
  constructor
  · rintro rfl
    exact Links.getElem?_inj h.links.nodup hx htail
  · rintro rfl
    exact Option.some.inj (hx.symm.trans htail)

theorem checkLoop (h : FaOrdered p s l) {q j fuel : Nat} {flags : BitVec 32} (hw : q < p.numBlocks → Walk p q j flags)
    (hq : q ≤ p.numBlocks) (hfuel : p.numBlocks - q < fuel) :
    s.checkLoop p fuel l[q]? (q * p.blkSize) (2 ^ 17 * 2 ^ j) j flags = .ok true := by
  induction fuel generalizing q j flags with
  | zero => omega
  | succ fuel ih =>
    rcases lt_or_eq_of_le hq with hlt | rfl
    · obtain ⟨x, hx⟩ := h.exists_at hlt
      have hwalk := hw hlt
      have hmask : (s.blks x).inCache = flags := (h.mask hx).eq hwalk.maskAt fun i _ => .rfl
      have hnext : (s.blks x).next = l[q + 1]? := h.links.next hx
      have hsize : q * p.blkSize + p.blkSize = (q + 1) * p.blkSize := by ring
      have hbound : (q + 1) * p.blkSize = 2 ^ 17 * 2 ^ j ↔ q + 1 = p.tracked j := by
        rw [← p.tracked_mul j]
        exact Nat.mul_left_inj (Nat.two_pow_pos _).ne'
      have htail : x = s.tail ↔ q = p.numBlocks - 1 := h.at_tail hx
      rw [hx]
      simp only [Falru.checkLoop, hmask, ne_eq, hsize, hbound, hnext]
      by_cases hlast : q + 1 = p.tracked j ∧ ¬x = s.tail
      · have hne : q ≠ p.numBlocks - 1 := fun heq => hlast.2 (htail.mpr heq)
        have hj : j < p.numCaches := Walk.lt_numCaches (by omega)
        have hb : s.cacheBoundaries j = some x := by
          rw [h.boundary j hj, ← hlast.1, Nat.add_sub_cancel, hx]
        have hdouble : 2 * (2 ^ 17 * 2 ^ j) = 2 ^ 17 * 2 ^ (j + 1) := by ring
        simp only [hlast, hb, deref, bind_ok, hdouble]
        rw [← hlast.1]
        exact ih (fun _ => hwalk.last hlast.1) (by omega) (by omega)
      · rw [if_neg hlast]
        refine ih (fun hmore => hwalk.next fun heq => hlast ⟨heq, fun hx => ?_⟩) (by omega) (by omega)
        have := htail.mp hx
        omega
    · rw [getElem?_eq_none (by rw [h.length])]
      rfl

theorem check (h : FaOrdered p s l) : s.check p = .ok true := by
  have htwo := p.two_le_tracked 0
  have hloop := h.checkLoop (fun _ => Walk.start (by omega)) (zero_le _) (lt_succ_self _)
  rw [h.links.head, zero_mul, pow_zero, mul_one] at hloop
  exact hloop

end FaOrdered

end Gem5.Cache
