import Mathlib.Order.Lattice
import Mathlib.Data.List.Induction

/- Insertion into a list by keys that the elements show.

  An insertion compares the key of the new element with the key that each element of the list shows, and that may not
  be the key the element came with. When the elements come one after the other (`rank` rises), the list is in order,
  by keys and among equal keys by arrival, exactly when every element was put in its right place
  (`pairwise_insertAll`): that is a condition on what came before it, not on the list (`PlacedRight`). -/
namespace Lib
open List

section ShownKeys
variable {α K : Type} [LinearOrder K] {key shown : α → K} {rank : α → Nat} {x y z : α} {l m : List α}

/-- `x` goes in front of the first element that shows a greater key than its own. -/
def insertShown (key shown : α → K) (x : α) : List α → List α
  | [] => [x]
  | y :: l => if key x < shown y then x :: y :: l else y :: insertShown key shown x l

def insertAll (key shown : α → K) (l : List α) : List α := l.foldl (fun m x => insertShown key shown x m) []

/-- By key, and by arrival where the keys are equal. -/
def Precedes (key : α → K) (rank : α → Nat) (x y : α) : Prop := key x < key y ∨ key x = key y ∧ rank x < rank y

/-- No element that belongs in front of `x` shows a key greater than that of `x`, and the first one that belongs
  behind it does. -/
structure PlacedRight (key shown : α → K) (rank : α → Nat) (l : List α) (x : α) : Prop where
  passed : ∀ y ∈ l, key y ≤ key x → shown y ≤ key x
  stopped : ∀ y ∈ l, key x < key y → (∀ z ∈ l, key x < key z → ¬ Precedes key rank z y) → key x < shown y

theorem perm_insertShown : (insertShown key shown x l).Perm (x :: l) := by
  induction l with
  | nil => exact List.Perm.refl _
  | cons y l ih =>
    unfold insertShown
    split
    · exact List.Perm.refl _
    · exact (List.Perm.cons y ih).trans (List.Perm.swap x y l)

theorem sublist_insertShown : l.Sublist (insertShown key shown x l) := by
  induction l with
  | nil => exact nil_sublist _
  | cons y l ih =>
    unfold insertShown
    split
    · exact sublist_cons_self _ _
    · exact ih.cons_cons y

theorem insertAll_concat : insertAll key shown (l ++ [x]) = insertShown key shown x (insertAll key shown l) := by
  rw [insertAll, foldl_append]
  rfl

theorem perm_insertAll : (insertAll key shown l).Perm l := by
  induction l using reverseRecOn with
  | nil => exact List.Perm.refl _
  | append_singleton l x ih =>
    rw [insertAll_concat]
    exact (perm_insertShown.trans (List.Perm.cons x ih)).trans (perm_append_singleton x l).symm

theorem PlacedRight.congr (hmem : ∀ y, y ∈ l ↔ y ∈ m) (h : PlacedRight key shown rank l x) :
    PlacedRight key shown rank m x where
  passed y hy := h.passed y ((hmem y).mpr hy)
  stopped y hy hlt hfirst := h.stopped y ((hmem y).mpr hy) hlt fun z hz => hfirst z ((hmem z).mp hz)

theorem precedes_last (key : α → K) (hrank : rank y < rank x) :
    (Precedes key rank y x ↔ key y ≤ key x) ∧ (Precedes key rank x y ↔ key x < key y) := by
  constructor
  · rw [le_iff_lt_or_eq]
    exact or_congr_right (and_iff_left hrank)
  · exact or_iff_left fun h => absurd h.2 (by omega)

/-- The step: a list in order stays so exactly when the new element comes to its place. -/
theorem pairwise_insertShown (hl : l.Pairwise (Precedes key rank)) (hrank : ∀ y ∈ l, rank y < rank x) :
    (insertShown key shown x l).Pairwise (Precedes key rank) ↔ PlacedRight key shown rank l x := by
  induction l with
  | nil =>
    refine iff_of_true (pairwise_singleton _ _) ⟨?_, ?_⟩
    · intro y hy
      cases hy
    · intro y hy
      cases hy
  | cons y l ih =>
    obtain ⟨hy, htail⟩ := pairwise_cons.mp hl
    obtain ⟨hbefore, hbehind⟩ := precedes_last key (hrank y mem_cons_self)
    have hle : ∀ z ∈ y :: l, key y ≤ key z := by
      intro z hz
      obtain rfl | hz := mem_cons.mp hz
      · exact le_refl _
      · exact (hy z hz).elim le_of_lt fun h => le_of_eq h.1
    have htails : ∀ z ∈ l, rank z < rank x := fun z hz => hrank z (mem_cons_of_mem y hz)
    unfold insertShown
    split
    next hshown =>
      -- `x` stands in front of the whole list.
      constructor
      · intro h
        have hlt : key x < key y := hbehind.mp ((pairwise_cons.mp h).1 y mem_cons_self)
        constructor
        · intro z hz hzx
          exact absurd (lt_of_lt_of_le hlt (hle z hz)) (not_lt.mpr hzx)
        · intro z hz hlt' hfirst
          obtain rfl | hz := mem_cons.mp hz
          · exact hshown
          · exact absurd (hy z hz) (hfirst y mem_cons_self hlt)
      · intro h
        have hlt : key x < key y := by
          by_contra hnot
          exact absurd (h.passed y mem_cons_self (not_lt.mp hnot)) (not_le.mpr hshown)
        refine pairwise_cons.mpr ⟨?_, hl⟩
        intro z hz
        exact (precedes_last key (hrank z hz)).2.mpr (lt_of_lt_of_le hlt (hle z hz))
    next hshown =>
      -- `x` passes `y`.
      have hpassed : shown y ≤ key x := not_lt.mp hshown
      constructor
      · intro h
        obtain ⟨hfirst, hrest⟩ := pairwise_cons.mp h
        have hyx : key y ≤ key x := hbefore.mp (hfirst x (perm_insertShown.mem_iff.mpr mem_cons_self))
        have hright := (ih htail htails).mp hrest
        constructor
        · intro z hz hzx
          obtain rfl | hz := mem_cons.mp hz
          · exact hpassed
          · exact hright.passed z hz hzx
        · intro z hz hlt hleast
          obtain rfl | hz := mem_cons.mp hz
          · exact absurd hlt (not_lt.mpr hyx)
          · exact hright.stopped z hz hlt fun w hw => hleast w (mem_cons_of_mem y hw)
      · intro h
        have hyx : key y ≤ key x := by
          by_contra hnot
          have hlt : key x < key y := not_le.mp hnot
          refine absurd (h.stopped y mem_cons_self hlt ?_) hshown
          intro z hz _ hzy
          obtain rfl | hz := mem_cons.mp hz
          · exact hzy.elim (lt_irrefl _) fun h => Nat.lt_irrefl _ h.2
          · exact hzy.elim (fun h => absurd h (not_lt.mpr (hle z (mem_cons_of_mem y hz)))) fun h =>
              (hy z hz).elim (fun h' => absurd h' (not_lt.mpr (le_of_eq h.1))) fun h' => absurd h.2 (by omega)
        have hright : PlacedRight key shown rank l x := by
          constructor
          · exact fun z hz => h.passed z (mem_cons_of_mem y hz)
          · intro z hz hlt hleast
            refine h.stopped z (mem_cons_of_mem y hz) hlt ?_
            intro w hw hlt'
            obtain rfl | hw := mem_cons.mp hw
            · exact absurd hlt' (not_lt.mpr hyx)
            · exact hleast w hw hlt'
        refine pairwise_cons.mpr ⟨?_, (ih htail htails).mpr hright⟩
        intro z hz
        obtain rfl | hz := mem_cons.mp (perm_insertShown.mem_iff.mp hz)
        · exact hbefore.mpr hyx
        · exact hy z hz

/-- A list that is inserted in the order of arrival comes out in order exactly when every insertion is right. -/
theorem pairwise_insertAll (hrank : l.Pairwise fun x y => rank x < rank y) :
    (insertAll key shown l).Pairwise (Precedes key rank) ↔
      ∀ h x, h ++ [x] <+: l → PlacedRight key shown rank h x := by
  induction l using reverseRecOn with
  | nil =>
    refine iff_of_true List.Pairwise.nil ?_
    intro h x hp
    exact absurd (prefix_nil.mp hp) (append_ne_nil_of_right_ne_nil _ (cons_ne_nil _ _))
  | append_singleton l a ih =>
    obtain ⟨hinit, -, hlast⟩ := pairwise_append.mp hrank
    have hmem : ∀ y, y ∈ insertAll key shown l ↔ y ∈ l := fun y => perm_insertAll.mem_iff
    have hranks : ∀ y ∈ insertAll key shown l, rank y < rank a :=
      fun y hy => hlast y ((hmem y).mp hy) a mem_cons_self
    rw [insertAll_concat]
    constructor
    · intro h
      have hbefore : (insertAll key shown l).Pairwise (Precedes key rank) := h.sublist sublist_insertShown
      intro k x hp
      obtain heq | hp := prefix_concat_iff.mp hp
      · obtain ⟨rfl, hx⟩ := append_inj' heq rfl
        obtain rfl : x = a := (cons.inj hx).1
        exact ((pairwise_insertShown hbefore hranks).mp h).congr hmem
      · exact (ih hinit).mp hbefore k x hp
    · intro h
      have hbefore := (ih hinit).mpr fun k x hp => h k x (hp.trans (prefix_append _ _))
      refine (pairwise_insertShown hbefore hranks).mpr ?_
      exact (h l a (prefix_refl _)).congr fun y => (hmem y).symm

theorem PlacedRight.of_shown (h : ∀ y ∈ l, shown y = key y) : PlacedRight key shown rank l x where
  passed y hy hle := by
    rw [h y hy]
    exact hle
  stopped y hy hlt _ := by
    rw [h y hy]
    exact hlt

end ShownKeys

end Lib
