import Gem5Nvmain.Lib.Exec
import Gem5Nvmain.Lib.Words
import Mathlib.Logic.Function.Basic

/- The tree of the pseudo-LRU policy (src/mem/ruby/structures/PseudoLRUPolicy.hh).

  With the ways as the leaves `2 ^ levels + way` of a binary tree, the node of a leaf `x` that is `n + 1` levels above
  it is `x / 2 ^ (n + 1)`, stored at one less, and the way turns right there when bit `n` of `x` is set. A touch makes
  the nodes on its way point to it, and the victim is where all nodes point away (`victimLoop_away`). Any other touch
  leaves the path of a way at one node, so it can turn one node of that path (`Turned.touch`). -/
namespace Gem5.Ruby
open Lib List Function BitVec

structure PseudoLRUPolicy where
  numSets : Nat
  assoc : Nat
  effectiveAssoc : Nat
  numLevels : Nat
  trees : Nat → BitVec 64
  lastRef : Nat → Nat → Nat

namespace PseudoLRUPolicy

/-- The ceiling power of two. -/
def ceilPower (assoc : Nat) : Nat → Nat → Except Stop Nat
  | 0, _ => .error .outOfFuel
  | fuel + 1, effective => if effective < assoc then ceilPower assoc fuel (effective <<< 1) else .ok effective

def countLevels : Nat → Nat → Nat → Except Stop Nat
  | 0, _, _ => .error .outOfFuel
  | fuel + 1, assoc, levels => if assoc / 2 = 0 then .ok levels else countLevels fuel (assoc / 2) (levels + 1)

/-- The constructor. `m_num_sets` is an `unsigned`. -/
def new (numSets assoc : Int) : Except Stop PseudoLRUPolicy := do
  require (0 < numSets ∧ 1 < assoc ∧ assoc ≤ 32)
  let effectiveAssoc ← ceilPower assoc.toNat 6 1
  let numLevels ← countLevels 6 effectiveAssoc 0
  require (numLevels < 16)
  return { numSets := (numSets % 2 ^ 32).toNat, assoc := assoc.toNat, effectiveAssoc, numLevels
           trees := fun _ => 0, lastRef := fun _ _ => 0 }

/-- The loop of `touch` with `i` levels to go. The masks are `int`s, widened to the tree's type. -/
def touchLoop (index : Nat) : Nat → Nat → BitVec 64 → BitVec 64
  | 0, _, tree => tree
  | i + 1, treeIndex, tree =>
    if (index >>> i) &&& 1 = 1 then
      touchLoop index i (treeIndex * 2 + 2) (tree ||| (1#32 <<< treeIndex).signExtend 64)
    else touchLoop index i (treeIndex * 2 + 1) (tree &&& (~~~(1#32 <<< treeIndex)).signExtend 64)

def touch (p : PseudoLRUPolicy) (set index : Int) (time : Nat) : Except Stop PseudoLRUPolicy := do
  require (0 ≤ index ∧ index < p.assoc)
  require (0 ≤ set ∧ set < p.numSets)
  let s := set.toNat
  return { p with
    trees := update p.trees s (touchLoop index.toNat p.numLevels 0 (p.trees s))
    lastRef := update p.lastRef s (update (p.lastRef s) index.toNat time) }

/-- The loop of `getVictim` with `left` levels to go. -/
def victimLoop (p : PseudoLRUPolicy) (tree : BitVec 64) : Nat → Nat → Nat → Nat
  | 0, index, _ => index
  | left + 1, index, treeIndex =>
    let i := p.numLevels - (left + 1)
    if tree.getLsbD treeIndex then p.victimLoop tree left index (treeIndex * 2 + 1)
    else p.victimLoop tree left (index + p.effectiveAssoc >>> (i + 1)) (treeIndex * 2 + 2)

def getVictim (p : PseudoLRUPolicy) (set : Int) : Except Stop Nat := do
  if set < 0 ∨ p.numSets ≤ set then throw .outOfRange
  let index := p.victimLoop (p.trees set.toNat) p.numLevels 0 0
  require (index < p.effectiveAssoc)
  return if p.assoc - 1 < index then p.assoc - 1 else index

structure Touch where
  set : Int
  way : Int
  time : Nat

def step (p : PseudoLRUPolicy) (t : Touch) : Except Stop PseudoLRUPolicy := p.touch t.set t.way t.time

/-- The ways of a set that were touched, the last one first. -/
def recent (set : Int) (h : List Touch) : List Int := (h.reverse.filter (·.set = set)).map (·.way)

/-! ## Nodes -/

variable {p q : PseudoLRUPolicy} {tree : BitVec 64} {x y i n m t : Nat}

/-- The leaves of a tree with `i` levels. -/
def Leaf (i x : Nat) : Prop := 2 ^ i ≤ x ∧ x < 2 ^ (i + 1)

theorem Leaf.lt_64 (hx : Leaf i x) (hi : i ≤ 5) : x < 64 :=
  Nat.lt_of_lt_of_le hx.2 (Nat.pow_le_pow_right (by decide) (Nat.succ_le_succ hi))

theorem Leaf.root (hx : Leaf i x) : x / 2 ^ i = 1 := by
  apply Nat.div_eq_of_lt_le
  · rw [Nat.one_mul]
    exact hx.1
  · rw [Nat.mul_comm]
    exact hx.2

theorem leaf_add (hm : m < 2 ^ i) : Leaf i (2 ^ i + m) := by
  rw [Leaf, Nat.pow_succ]
  omega

theorem path_succ : x / 2 ^ n = 2 * (x / 2 ^ (n + 1)) + (x.testBit n).toNat := by
  rw [Nat.testBit_eq_decide_div_mod_eq, Nat.pow_succ, ← Nat.div_div_eq_div_mul]
  cases Nat.mod_two_eq_zero_or_one (x / 2 ^ n) with
  | inl h => simp [h]; omega
  | inr h => simp [h]; omega

theorem path_pos (hx : Leaf i x) (hn : n ≤ i) : 0 < x / 2 ^ n :=
  Nat.div_pos (Nat.le_trans (Nat.pow_le_pow_right (by decide) hn) hx.1) (Nat.two_pow_pos n)

/-- The nodes of a level are before those of the level below. -/
theorem path_lt (hx : Leaf i x) (hy : Leaf i y) (hn : n < i) (hm : m < n) : x / 2 ^ (n + 1) < y / 2 ^ (m + 1) := by
  calc
    x / 2 ^ (n + 1) < 2 ^ (i - n) := by
      apply Nat.div_lt_of_lt_mul
      rw [← Nat.pow_add, show n + 1 + (i - n) = i + 1 by omega]
      exact hx.2
    _ ≤ y / 2 ^ (m + 1) := by
      rw [Nat.le_div_iff_mul_le (Nat.two_pow_pos _), ← Nat.pow_add]
      exact Nat.le_trans (Nat.pow_le_pow_right (by decide) (by omega)) hy.1

theorem testBit_of_path (hm : m < n) (h : x / 2 ^ (m + 1) = y / 2 ^ (m + 1)) : x.testBit n = y.testBit n := by
  have hbit := congrArg (Nat.testBit · (n - (m + 1))) h
  simp only [Nat.testBit_div_two_pow] at hbit
  rwa [Nat.sub_add_cancel hm] at hbit

/-- `int` masks, for the nodes of trees of up to 32 ways. -/
theorem mask_eq : ∀ t < 31, (1#32 <<< t).signExtend 64 = oneHot 64 t ∧
    (~~~(1#32 <<< t)).signExtend 64 = ~~~oneHot 64 t := by
  decide

/-- One node of a touch: it is made to point to the leaf, and the loop goes there. -/
theorem touchLoop_succ (tree : BitVec 64) (hlt : x < 64) (ht : t + 1 = x / 2 ^ (n + 1)) (hbit : m.testBit n = x.testBit n) :
    ∃ tree' t', touchLoop m (n + 1) t tree = touchLoop m n t' tree' ∧ t' + 1 = x / 2 ^ n ∧
      tree'.getLsbD t = x.testBit n ∧ ∀ j ≠ t, tree'.getLsbD j = tree.getLsbD j := by
  have hpow : 2 ≤ 2 ^ (n + 1) := Nat.le_pow (Nat.succ_pos n)
  have hdiv : x / 2 ^ (n + 1) ≤ x / 2 := Nat.div_le_div_left hpow (by decide)
  obtain ⟨hset, hclear⟩ := mask_eq t (by omega)
  have hpath := path_succ (x := x) (n := n)
  have hcond : (m >>> n) &&& 1 = 1 ↔ x.testBit n = true := by
    rw [← hbit, Nat.testBit_eq_decide_div_mod_eq, Nat.and_one_is_mod, Nat.shiftRight_eq_div_pow, decide_eq_true_eq]
  by_cases h : x.testBit n = true
  · refine ⟨_, t * 2 + 2, if_pos (hcond.mpr h), ?_, ?_, ?_⟩
    · rw [h, Bool.toNat_true] at hpath
      omega
    · rw [hset, Lib.getLsbD_add (by omega), h]
      simp
    · intro j hj
      rw [hset, Lib.getLsbD_add (by omega), decide_eq_false hj, Bool.or_false]
  · refine ⟨_, t * 2 + 1, if_neg (mt hcond.mp h), ?_, ?_, ?_⟩
    · rw [Bool.eq_false_of_not_eq_true h, Bool.toNat_false] at hpath
      omega
    · rw [hclear, getLsbD_remove (by omega), Bool.eq_false_of_not_eq_true h]
      simp
    · intro j hj
      rw [hclear, getLsbD_remove (by omega), decide_eq_true hj, Bool.and_true]

/-- The node of level `n` on the way to the leaf points to it. -/
def Points (tree : BitVec 64) (x n : Nat) : Prop := tree.getLsbD (x / 2 ^ (n + 1) - 1) = x.testBit n

/-- After the touch of a leaf the nodes on its way point to it, and the rest is as it was. -/
theorem touchLoop_spec (tree : BitVec 64) (hm : m < 2 ^ i) (hi : i ≤ 5) (hn : n ≤ i) (ht : t + 1 = (2 ^ i + m) / 2 ^ n) :
    (∀ k < n, Points (touchLoop m n t tree) (2 ^ i + m) k) ∧
      ∀ j, (∀ k < n, j + 1 ≠ (2 ^ i + m) / 2 ^ (k + 1)) → (touchLoop m n t tree).getLsbD j = tree.getLsbD j := by
  have hx := leaf_add hm
  induction n generalizing t tree with
  | zero => exact ⟨fun _ hk => absurd hk (Nat.not_lt_zero _), fun _ _ => rfl⟩
  | succ n ih =>
    obtain ⟨tree', t', heq, ht', hnode, hrest⟩ :=
      touchLoop_succ tree (hx.lt_64 hi) ht (Nat.testBit_two_pow_add_gt hn m).symm
    obtain ⟨hpath, hoff⟩ := ih tree' (Nat.le_of_succ_le hn) ht'
    rw [heq]
    refine ⟨fun k hk => ?_, fun j hj => ?_⟩
    · obtain hk | rfl := Nat.lt_succ_iff_lt_or_eq.mp hk
      · exact hpath k hk
      · rw [Points, ← ht, Nat.add_sub_cancel, hoff t, hnode]
        intro j hj
        rw [ht]
        exact Nat.ne_of_lt (path_lt hx hx hn hj)
    · rw [hoff j fun k hk => hj k (Nat.lt_succ_of_lt hk), hrest j]
      have := hj n (Nat.lt_succ_self n)
      omega

/-- The victim is the leaf to which no node on its way points. -/
theorem victimLoop_away (tree : BitVec 64) (he : p.effectiveAssoc = 2 ^ p.numLevels) (hn : n ≤ p.numLevels)
    (ht : 2 ^ p.numLevels + m = (t + 1) * 2 ^ n) :
    ∃ v, p.victimLoop tree n m t = v ∧ (2 ^ p.numLevels + v) / 2 ^ n = t + 1 ∧
      ∀ k < n, ¬ Points tree (2 ^ p.numLevels + v) k := by
  induction n generalizing t m with
  | zero => exact ⟨m, rfl, by omega, fun _ hk => absurd hk (Nat.not_lt_zero _)⟩
  | succ n ih =>
    obtain ⟨m', t', heq, hm, ht'⟩ : ∃ m' t', p.victimLoop tree (n + 1) m t = p.victimLoop tree n m' t' ∧
        2 ^ p.numLevels + m' = (t' + 1) * 2 ^ n ∧ t' + 1 = 2 * (t + 1) + (!tree.getLsbD t).toNat := by
      rw [Nat.pow_succ] at ht
      cases h : tree.getLsbD t with
      | true => exact ⟨m, t * 2 + 1, if_pos h, by rw [ht]; ring, by simp; omega⟩
      | false =>
        have hshift : p.effectiveAssoc >>> (p.numLevels - (n + 1) + 1) = 2 ^ n := by
          rw [he, Nat.shiftRight_eq_div_pow, Nat.pow_div (by omega) (by decide)]
          congr 1
          omega
        refine ⟨m + 2 ^ n, t * 2 + 2, ?_, by rw [← Nat.add_assoc, ht]; ring, by simp; omega⟩
        rw [← hshift]
        exact if_neg (by simp [h])
    obtain ⟨v, hv, htop, haway⟩ := ih (Nat.le_of_succ_le hn) hm
    have hpath := path_succ (x := 2 ^ p.numLevels + v) (n := n)
    rw [htop, ht'] at hpath
    have hbit : (2 ^ p.numLevels + v) / 2 ^ (n + 1) = t + 1 ∧ tree.getLsbD t ≠ (2 ^ p.numLevels + v).testBit n := by
      generalize (2 ^ p.numLevels + v).testBit n = b at hpath
      cases b <;> cases h : tree.getLsbD t <;> simp [h] at hpath ⊢ <;> omega
    refine ⟨v, heq.trans hv, hbit.1, fun k hk => ?_⟩
    obtain hk | rfl := Nat.lt_succ_iff_lt_or_eq.mp hk
    · exact haway k hk
    · rw [Points, hbit.1]
      exact hbit.2

/-! ## How many touches a path stands -/

/-- At most `m` nodes on the way to the leaf point away from it. -/
def Turned (levels : Nat) (tree : BitVec 64) (x m : Nat) : Prop :=
  ∃ s : List Nat, s.length ≤ m ∧ ∀ n < levels, ¬ Points tree x n → n ∈ s

theorem turned_self (hi : i ≤ 5) (hm : m < 2 ^ i) : Turned i (touchLoop m i 0 tree) (2 ^ i + m) 0 := by
  obtain ⟨hpath, -⟩ := touchLoop_spec tree hm hi (Nat.le_refl i) (leaf_add hm).root.symm
  exact ⟨[], Nat.le_refl 0, fun n hn hne => absurd (hpath n hn) hne⟩

/-- A touch turns the node where its way leaves the path, and no other. -/
theorem Turned.touch (hturn : Turned i tree x n) (hx : Leaf i x) (hi : i ≤ 5) (hm : m < 2 ^ i) :
    Turned i (touchLoop m i 0 tree) x (n + 1) := by
  have hy := leaf_add hm
  obtain ⟨hpath, hoff⟩ := touchLoop_spec tree hm hi (Nat.le_refl i) hy.root.symm
  generalize 2 ^ i + m = y at hy hpath hoff
  obtain ⟨s, hlen, hs⟩ := hturn
  have hcase : ∀ k < i, ¬ Points (touchLoop m i 0 tree) x k →
      k ∈ s ∨ x / 2 ^ (k + 1) = y / 2 ^ (k + 1) ∧ y.testBit k ≠ x.testBit k := by
    intro k hk hne
    by_cases heq : x / 2 ^ (k + 1) = y / 2 ^ (k + 1)
    · rw [Points, heq, hpath k hk] at hne
      exact .inr ⟨heq, hne⟩
    · rw [Points, hoff] at hne
      · exact .inl (hs k hk hne)
      · intro l hl
        rw [Nat.sub_add_cancel (path_pos hx hk)]
        obtain hlk | rfl | hlk := Nat.lt_trichotomy l k
        · exact Nat.ne_of_lt (path_lt hx hy hk hlk)
        · exact heq
        · exact Nat.ne_of_gt (path_lt hy hx hl hlk)
  by_cases h : ∃ l < i, x / 2 ^ (l + 1) = y / 2 ^ (l + 1) ∧ y.testBit l ≠ x.testBit l
  · obtain ⟨l, -, heq, hne⟩ := h
    refine ⟨l :: s, Nat.succ_le_succ hlen, fun k hk hturn => ?_⟩
    obtain hmem | ⟨heq', hne'⟩ := hcase k hk hturn
    · exact mem_cons_of_mem l hmem
    · obtain hlk | rfl | hlk := Nat.lt_trichotomy l k
      · exact absurd (testBit_of_path hlk heq).symm hne'
      · exact mem_cons_self
      · exact absurd (testBit_of_path hlk heq').symm hne
  · refine ⟨s, Nat.le_succ_of_le hlen, fun k hk hturn => ?_⟩
    exact (hcase k hk hturn).resolve_right fun hk' => h ⟨k, hk, hk'⟩

/-! ## Runs -/

/-- What the constructor sets up. -/
structure Sized (p : PseudoLRUPolicy) : Prop where
  effective : p.effectiveAssoc = 2 ^ p.numLevels
  pos : 0 < p.numLevels
  le : p.numLevels ≤ 5
  half : 2 ^ p.numLevels < 2 * p.assoc
  assoc_le : p.assoc ≤ 2 ^ p.numLevels

theorem loops_spec : ∀ a ≤ 32, 1 < a → ∃ l ≤ 5, ceilPower a 6 1 = .ok (2 ^ l) ∧ countLevels 6 (2 ^ l) 0 = .ok l ∧
    0 < l ∧ 2 ^ l < 2 * a ∧ a ≤ 2 ^ l := by
  decide

theorem new_sized {numSets assoc : Int} (h : new numSets assoc = .ok p) : p.Sized ∧ (p.assoc : Int) = assoc := by
  obtain ⟨_, hreq, h⟩ := of_bind h
  obtain ⟨-, hlow, hhigh⟩ := of_decide_eq_true (require_eq_ok.mp hreq)
  obtain ⟨l, hl, hceil, hcount, hpos, hhalf, hle⟩ := loops_spec assoc.toNat (by omega) (by omega)
  rw [hceil, bind_ok, hcount, bind_ok] at h
  obtain ⟨-, -, h⟩ := of_bind h
  cases h
  exact ⟨⟨rfl, hpos, hl, hhalf, hle⟩, Int.toNat_of_nonneg (by omega)⟩

/-- A way with `m` touches of its set behind it has at most `m` nodes that point away from it. -/
def Kept (p : PseudoLRUPolicy) (set : Int) (ways : List Int) : Prop :=
  ∀ (m : Nat) (w : Int), ways[m]? = some w → 0 ≤ w ∧ w < p.assoc ∧
    Turned p.numLevels (p.trees set.toNat) (2 ^ p.numLevels + w.toNat) m

theorem Turned.levels_le {s : Nat} (hturn : Turned i tree x s)
    (haway : ∀ k < i, ¬ Points tree x k) : i ≤ s := by
  obtain ⟨l, hlen, hl⟩ := hturn
  have hsub : range i ⊆ l := by
    intro k hk
    exact hl k (mem_range.mp hk) (haway k (mem_range.mp hk))
  have hcard := (nodup_range.subperm hsub).length_le
  rw [length_range] at hcard
  exact Nat.le_trans hcard hlen

theorem testBit_right (hx : Leaf (n + 1) x) (hright : 3 * 2 ^ n ≤ x) : x.testBit n = true := by
  have hpath := path_succ (x := x) (n := n)
  have hle := (Nat.le_div_iff_mul_le (Nat.two_pow_pos n)).mpr hright
  rw [hx.root] at hpath
  cases h : x.testBit n with
  | true => rfl
  | false =>
    rw [h, Bool.toNat_false] at hpath
    omega

theorem Sized.levels_eq {k : Nat} (hp : p.Sized) (h : p.assoc = 2 ^ k) : p.numLevels = k := by
  have hle := hp.assoc_le
  have hhalf := hp.half
  rw [h] at hle hhalf
  rw [← Nat.pow_succ'] at hhalf
  have := (Nat.pow_le_pow_iff_right Nat.one_lt_two).mp hle
  have := (Nat.pow_lt_pow_iff_right Nat.one_lt_two).mp hhalf
  omega

theorem Kept.victim {set : Int} {ways : List Int} (hp : p.Sized) (h : p.Kept set ways) (hlow : 0 ≤ set)
    (hset : set < p.numSets) :
    ∃ v : Nat, p.getVictim set = .ok v ∧ v < p.assoc ∧ ways.head? ≠ some (v : Int) ∧
      ∀ k, p.assoc = 2 ^ k → (v : Int) ∉ ways.take k := by
  obtain ⟨index, hindex, hroot, haway⟩ := victimLoop_away (p.trees set.toNat) (m := 0) (t := 0) hp.effective
    (Nat.le_refl _) (by omega)
  have hlt : index < 2 ^ p.numLevels := by
    rw [Nat.add_div_left _ (Nat.two_pow_pos _)] at hroot
    exact (Nat.div_eq_zero_iff_lt (Nat.two_pow_pos _)).mp (Nat.succ.inj hroot)
  have hpos := hp.pos
  have hhalf := hp.half
  have hle := hp.assoc_le
  have hvictim : p.getVictim set = .ok (if p.assoc - 1 < index then p.assoc - 1 else index) := by
    unfold getVictim
    rw [if_neg (by omega), hindex, hp.effective]
    change (require _ >>= fun _ => _) = _
    rw [require_eq_ok (u := ()).mpr (decide_eq_true hlt)]
    rfl
  rw [hvictim]
  by_cases hclamp : p.assoc - 1 < index
  · refine ⟨p.assoc - 1, congrArg _ (if_pos hclamp), by omega, fun hhead => ?_, fun k hk => ?_⟩
    · -- both leaves are in the right half, but the root points to the way and away from the leaf of the victim
      rw [head?_eq_getElem?] at hhead
      obtain ⟨-, -, s, hlen, hs⟩ := h 0 _ hhead
      obtain rfl := eq_nil_of_length_eq_zero (Nat.le_zero.mp hlen)
      rw [Int.toNat_natCast] at hs
      generalize p.numLevels = levels at *
      obtain ⟨l, rfl⟩ := Nat.exists_eq_add_of_lt hpos
      have hpow : 2 ^ (0 + l + 1) = 2 * 2 ^ (0 + l) := Nat.pow_succ'
      have hw := leaf_add (i := 0 + l + 1) (m := p.assoc - 1) (by omega)
      have hv := leaf_add hlt
      apply not_mem_nil (hs (0 + l) (Nat.lt_succ_self _) fun hpoints => haway (0 + l) (Nat.lt_succ_self _) ?_)
      rw [Points, hw.root, testBit_right hw (by omega)] at hpoints
      rw [Points, hv.root, testBit_right hv (by omega), hpoints]
    · rw [hp.levels_eq hk] at hlt
      omega
  · have hlate : ∀ m, ways[m]? = some (index : Int) → p.numLevels ≤ m := by
      intro m hm
      obtain ⟨-, -, hturn⟩ := h m _ hm
      exact hturn.levels_le haway
    refine ⟨index, congrArg _ (if_neg hclamp), by omega, fun hhead => ?_, fun k hk hmem => ?_⟩
    · rw [head?_eq_getElem?] at hhead
      have := hlate 0 hhead
      omega
    · obtain ⟨m, hm⟩ := mem_iff_getElem?.mp hmem
      rw [getElem?_take] at hm
      split at hm
      · have := hlate m hm
        have := hp.levels_eq hk
        omega
      · cases hm

/-- What a touch leaves to all later touches. -/
def Recorded (a : Int) (h : List Touch) (p : PseudoLRUPolicy) : Prop :=
  p.Sized ∧ (p.assoc : Int) = a ∧ ∀ set, 0 ≤ set → p.Kept set (recent set h)

theorem Recorded.touch {a : Int} {h : List Touch} {t : Touch} (hp : Recorded a h p) (hs : step p t = .ok q) :
    Recorded a (h ++ [t]) q := by
  obtain ⟨hsized, ha, hkept⟩ := hp
  obtain ⟨_, hway, hs⟩ := of_bind hs
  obtain ⟨_, hset, hs⟩ := of_bind hs
  have hway := of_decide_eq_true (require_eq_ok.mp hway)
  have hset := of_decide_eq_true (require_eq_ok.mp hset)
  have hm : t.way.toNat < 2 ^ p.numLevels := Nat.lt_of_lt_of_le (by omega) hsized.assoc_le
  cases hs
  refine ⟨⟨hsized.1, hsized.2, hsized.3, hsized.4, hsized.5⟩, ha, fun set hlow m w hw => ?_⟩
  rw [recent, List.reverse_append, reverse_singleton, singleton_append, filter_cons] at hw
  by_cases heq : t.set = set
  · subst heq
    rw [if_pos (decide_eq_true rfl), map_cons] at hw
    show 0 ≤ w ∧ w < (p.assoc : Int) ∧ Turned p.numLevels (update p.trees _ _ t.set.toNat) _ m
    rw [update_self]
    cases m with
    | zero =>
      cases hw
      exact ⟨hway.1, hway.2, turned_self hsized.le hm⟩
    | succ m =>
      obtain ⟨hlow', hhigh, hturn⟩ := hkept _ hlow m w hw
      have hle := hsized.assoc_le
      exact ⟨hlow', hhigh, hturn.touch (leaf_add (by omega)) hsized.le hm⟩
  · rw [if_neg (by simpa using heq)] at hw
    show 0 ≤ w ∧ w < (p.assoc : Int) ∧ Turned p.numLevels (update p.trees _ _ set.toNat) _ m
    rw [update_of_ne (by omega)]
    exact hkept set hlow m w hw

/-- The victim is not the last way touched and, in a full tree, none of the last ways, as many as the tree has levels. -/
theorem victim_spares {numSets assoc set : Int} {h : List Touch} (hnew : new numSets assoc = .ok p)
    (hr : Exec (StepOf step) p h q) (hlow : 0 ≤ set) (hset : set < q.numSets) :
    ∃ v : Nat, q.getVictim set = .ok v ∧ (v : Int) < assoc ∧ (recent set h).head? ≠ some (v : Int) ∧
      ∀ k : Nat, assoc = 2 ^ k → (v : Int) ∉ (recent set h).take k := by
  obtain ⟨hsized, hassoc⟩ := new_sized hnew
  obtain ⟨hsized, rfl, hkept⟩ := hr.history_invariant (P := Recorded assoc)
    ⟨hsized, hassoc, fun _ _ _ _ hw => by cases hw⟩ fun _ _ _ _ hp hs => hp.touch hs
  obtain ⟨v, hv, hlt, hhead, htake⟩ := (hkept set hlow).victim hsized hlow hset
  exact ⟨v, hv, by omega, hhead, fun k hk => htake k (by exact_mod_cast hk)⟩

theorem victim_spares_three : ∃ p q, new 2 4 = .ok p ∧ run step p [⟨0, 3, 1⟩, ⟨1, 2, 2⟩, ⟨0, 0, 3⟩] = .ok q ∧
    ∃ v : Nat, q.getVictim 0 = .ok v ∧ (v : Int) < 4 ∧ (v : Int) ∉ [0, 3] := by
  have hnew : new 2 4 = .ok ⟨2, 4, 4, 2, fun _ => 0, fun _ _ => 0⟩ := rfl
  refine ⟨_, _, hnew, rfl, ?_⟩
  obtain ⟨v, hv, hlt, -, htake⟩ := victim_spares hnew (Exec.of_run (l := [⟨0, 3, 1⟩, ⟨1, 2, 2⟩, ⟨0, 0, 3⟩]) rfl)
    (Int.le_refl 0) (by decide)
  exact ⟨v, hv, hlt, htake 2 rfl⟩

end PseudoLRUPolicy
end Gem5.Ruby
