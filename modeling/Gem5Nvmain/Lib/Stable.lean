import Mathlib.Order.Lattice
import Mathlib.Data.List.Basic

/- Stable insertion into a list that is sorted by a key.

  `insertAfter key x l` puts `x` behind everything whose key is not greater. A list that is sorted stays sorted
  (`Ascending.insertAfter`), and among the elements of one key the new one is the last (`filter_insertAfter`): so a
  sorted list into which everything came this way is the stable sort of what was inserted. -/
namespace Lib
open List

variable {α K : Type} [LinearOrder K] {key : α → K} {x : α} {l l₁ : List α}

def insertAfter (key : α → K) (x : α) : List α → List α
  | [] => [x]
  | y :: l => if key y ≤ key x then y :: insertAfter key x l else x :: y :: l

/-- The keys do not decrease. -/
def Ascending (key : α → K) (l : List α) : Prop := l.Pairwise (key · ≤ key ·)

theorem mem_insertAfter {y : α} : y ∈ insertAfter key x l ↔ y = x ∨ y ∈ l := by
  induction l with
  | nil => simp [insertAfter]
  | cons z l ih =>
    unfold insertAfter
    split
    · rw [mem_cons, ih, mem_cons]
      tauto
    · rw [mem_cons]

theorem insertAfter_append (h : ∀ y ∈ l₁, key y ≤ key x) : insertAfter key x (l₁ ++ l) = l₁ ++ insertAfter key x l := by
  induction l₁ with
  | nil => rfl
  | cons y l₁ ih =>
    rw [cons_append, insertAfter, if_pos (h y mem_cons_self), ih fun z hz => h z (mem_cons_of_mem y hz)]
    rfl

theorem insertAfter_of_le (h : ∀ y ∈ l, key y ≤ key x) : insertAfter key x l = l ++ [x] := by
  have happend := insertAfter_append (l := []) h
  rwa [append_nil] at happend

theorem Ascending.insertAfter (h : Ascending key l) : Ascending key (insertAfter key x l) := by
  induction l with
  | nil => exact pairwise_singleton _ x
  | cons y l ih =>
    obtain ⟨hy, hl⟩ := pairwise_cons.mp h
    unfold Lib.insertAfter
    split
    · rename_i hle
      refine pairwise_cons.mpr ⟨?_, ih hl⟩
      intro z hz
      rcases mem_insertAfter.mp hz with rfl | hz
      · exact hle
      · exact hy z hz
    · rename_i hlt
      have hxy : key x ≤ key y := le_of_lt (not_le.mp hlt)
      refine pairwise_cons.mpr ⟨?_, h⟩
      intro z hz
      rcases mem_cons.mp hz with rfl | hz
      · exact hxy
      · exact le_trans hxy (hy z hz)

theorem Ascending.le_last {y : α} (h : Ascending key (y :: l)) : ∀ z ∈ y :: l, key z ≤ key (l.getLastD y) := by
  induction l generalizing y with
  | nil =>
    intro z hz
    rw [mem_singleton.mp hz]
    exact le_refl _
  | cons w l ih =>
    obtain ⟨hy, hl⟩ := pairwise_cons.mp h
    rw [getLastD_cons]
    intro z hz
    rcases mem_cons.mp hz with rfl | hz
    · exact le_trans (hy w mem_cons_self) (ih hl w mem_cons_self)
    · exact ih hl z hz

/-- Among the elements of one key the new one is the last. -/
theorem filter_insertAfter (k : K) (h : Ascending key l) :
    (insertAfter key x l).filter (key · = k) = l.filter (key · = k) ++ [x].filter (key · = k) := by
  induction l with
  | nil => rfl
  | cons y l ih =>
    obtain ⟨hy, hl⟩ := pairwise_cons.mp h
    unfold Lib.insertAfter
    split
    · rw [filter_cons, ih hl, filter_cons (x := y)]
      split <;> rfl
    · rename_i hlt
      by_cases hx : key x = k
      · -- everything from here on is greater
        have hnone : (y :: l).filter (key · = k) = [] := by
          rw [filter_eq_nil_iff]
          intro z hz hk
          have hk : key z = k := of_decide_eq_true hk
          rcases mem_cons.mp hz with rfl | hz
          · exact hlt (by rw [hk, hx])
          · exact hlt (le_trans (hy z hz) (by rw [hk, hx]))
        rw [filter_cons, hnone, if_pos (decide_eq_true hx)]
        simp [hx]
      · simp [hx]

end Lib
