import Mathlib.Data.List.InsertIdx
import Mathlib.Data.List.Perm.Basic

/- A list under a cursor.

  A loop that walks a list stands at a place `i`; what it has still to visit is `l.drop (i + 1)`. These lemmas say
  what inserting an element and erasing one, before the cursor or after it, do to the part still to visit, when the
  cursor moves along with its element. An element inserted before the first that it comes before leaves a sorted list
  sorted (`pairwise_insertIdx`). -/
namespace Lib
open List

variable {α : Type} {l : List α} {a x : α} {i j : Nat}

theorem drop_insertIdx_before (hj : j ≤ i) : (l.insertIdx j a).drop (i + 1) = l.drop i := by
  induction j generalizing l i with
  | zero => rw [insertIdx_zero, drop_succ_cons]
  | succ j ih =>
    cases l with
    | nil => rw [insertIdx_succ_nil, drop_nil, drop_nil]
    | cons b l =>
      cases i with
      | zero => omega
      | succ i =>
        rw [insertIdx_succ_cons, drop_succ_cons, drop_succ_cons]
        exact ih (by omega)

theorem drop_insertIdx_rest (hi : i ≤ j) (hj : j ≤ l.length) : (l.insertIdx j a).drop i = (l.drop i).insertIdx (j - i) a := by
  induction i generalizing l j with
  | zero => rfl
  | succ i ih =>
    cases l with
    | nil =>
      rw [length_nil] at hj
      omega
    | cons b l =>
      obtain ⟨k, rfl⟩ : ∃ k, j = k + 1 := ⟨j - 1, by omega⟩
      rw [insertIdx_succ_cons, drop_succ_cons, drop_succ_cons, Nat.add_sub_add_right]
      exact ih (by omega) (Nat.le_of_succ_le_succ hj)

theorem drop_eraseIdx_rest (hi : i ≤ j) : (l.eraseIdx j).drop i = (l.drop i).eraseIdx (j - i) := by
  induction i generalizing l j with
  | zero => rfl
  | succ i ih =>
    obtain ⟨k, rfl⟩ : ∃ k, j = k + 1 := ⟨j - 1, by omega⟩
    cases l with
    | nil => simp
    | cons b l =>
      rw [eraseIdx_cons_succ, drop_succ_cons, drop_succ_cons, Nat.add_sub_add_right]
      exact ih (by omega)

theorem drop_insertIdx_after (hi : i < j) (hj : j ≤ l.length) :
    ((l.insertIdx j a).drop (i + 1)).Perm (a :: l.drop (i + 1)) := by
  rw [drop_insertIdx_rest hi hj]
  apply perm_insertIdx
  rw [length_drop]
  omega

theorem drop_eraseIdx_before (hj : j ≤ i) : (l.eraseIdx j).drop i = l.drop (i + 1) := by
  induction j generalizing l i with
  | zero => cases l <;> simp
  | succ j ih =>
    cases l with
    | nil => simp
    | cons b l =>
      cases i with
      | zero => omega
      | succ i =>
        rw [eraseIdx_cons_succ, drop_succ_cons, drop_succ_cons]
        exact ih (by omega)

theorem drop_eraseIdx_after (hi : i ≤ j) (hx : l[j]? = some x) : (x :: (l.eraseIdx j).drop i).Perm (l.drop i) := by
  have hrest : (l.drop i)[j - i]? = some x := by
    rw [getElem?_drop, Nat.add_sub_cancel' hi]
    exact hx
  obtain ⟨hlt, rfl⟩ := List.getElem?_eq_some_iff.mp hrest
  rw [drop_eraseIdx_rest hi]
  exact getElem_cons_eraseIdx_perm hlt

section Sorted
variable {R : α → α → Prop} {p : α → Bool}

/-- An element put before the first that it comes before keeps a list sorted. -/
theorem pairwise_insertIdx (htrans : ∀ b ∈ l, ∀ c, R a b → R b c → R a c) (hyes : ∀ b ∈ l, p b = true → R a b)
    (hno : ∀ b ∈ l, p b = false → R b a) (hl : l.Pairwise R) : (l.insertIdx (l.findIdx p) a).Pairwise R := by
  induction l with
  | nil => simp
  | cons b l ih =>
    obtain ⟨hb, hl⟩ := pairwise_cons.mp hl
    rw [findIdx_cons]
    cases hp : p b with
    | true =>
      have hab : R a b := hyes b mem_cons_self hp
      refine pairwise_cons.mpr ⟨fun c hc => ?_, pairwise_cons.mpr ⟨hb, hl⟩⟩
      obtain rfl | hc := mem_cons.mp hc
      · exact hab
      · exact htrans b mem_cons_self c hab (hb c hc)
    | false =>
      have hrest := ih (fun c hc => htrans c (mem_cons_of_mem b hc)) (fun c hc => hyes c (mem_cons_of_mem b hc))
        (fun c hc => hno c (mem_cons_of_mem b hc)) hl
      refine pairwise_cons.mpr ⟨fun c hc => ?_, hrest⟩
      obtain rfl | hc := eq_or_mem_of_mem_insertIdx hc
      · exact hno b mem_cons_self hp
      · exact hb c hc

end Sorted

end Lib
