import Gem5Nvmain.Lib.Recency

/- Doubly linked lists.

  `Links` holds the pointers: the two ends, and the neighbours of each element. `Holds k l` says that they link the
  elements of `l`, in this order. Moving an element to the front (`toFront`) sets the pointers of its old neighbours,
  of the old head and of the element itself; the elements are then `promote x 0 l` (`Holds.toFront`). -/
namespace Lib

@[ext]
structure Links (α : Type) where
  head : α
  tail : α
  next : α → Option α
  prev : α → Option α

namespace Links
variable {α : Type} [DecidableEq α] {k : Links α} {l : List α} {x : α}

structure Holds (k : Links α) (l : List α) : Prop where
  nodup : l.Nodup
  head : l[0]? = some k.head
  tail : l[l.length - 1]? = some k.tail
  next : ∀ {q : Nat} {y : α}, l[q]? = some y → k.next y = l[q + 1]?
  prev : ∀ {q : Nat} {y : α}, l[q]? = some y → k.prev y = if q = 0 then none else l[q - 1]?

/-- `x`, which is not the head, is unlinked and put before the head. -/
def toFront (k : Links α) (x : α) : Links α where
  head := x
  tail := if x = k.tail then (k.prev x).getD k.tail else k.tail
  next y := if y = x then some k.head else if k.prev x = some y then k.next x else k.next y
  prev y := if y = x then none else if y = k.head then some x else if k.next x = some y then k.prev x else k.prev y

omit [DecidableEq α] in
theorem getElem?_inj {i j : Nat} {y : α} (hnd : l.Nodup) (hi : l[i]? = some y) (hj : l[j]? = some y) : i = j := by
  obtain ⟨hi', hy⟩ := List.getElem?_eq_some_iff.mp hi
  obtain ⟨hj', hy'⟩ := List.getElem?_eq_some_iff.mp hj
  exact hnd.getElem_inj_iff.mp (hy.trans hy'.symm)

theorem promote_getElem? {q : Nat} (hnd : l.Nodup) (hx : l[q]? = some x) (r : Nat) :
    (promote x 0 l)[r]? = if r = 0 then some x else if r ≤ q then l[r - 1]? else l[r]? := by
  have hidx : l.idxOf x = q := by
    obtain ⟨hq, rfl⟩ := List.getElem?_eq_some_iff.mp hx
    exact hnd.idxOf_getElem q hq
  cases r with
  | zero => rfl
  | succ r =>
    rw [promote_zero, List.getElem?_cons_succ, List.erase_eq_eraseIdx_of_idxOf hidx, List.getElem?_eraseIdx,
      if_neg (Nat.succ_ne_zero r)]
    simp only [Nat.succ_le_iff, Nat.add_sub_cancel]

section ToFront
variable {q r : Nat} {y : α}

omit [DecidableEq α] in
theorem Holds.ne_at {i : Nat} {z : α} (h : Holds k l) (hy : l[r]? = some y) (hz : l[i]? = some z) (hi : r ≠ i) :
    y ≠ z := by
  rintro rfl
  exact hi (getElem?_inj h.nodup hy hz)

omit [DecidableEq α] in
theorem Holds.not_at {i : Nat} (h : Holds k l) (hy : l[r]? = some y) (hi : r ≠ i) : l[i]? ≠ some y :=
  fun hz => hi (getElem?_inj h.nodup hy hz)

theorem Holds.toFront_next (h : Holds k l) (hx : l[q]? = some x) (hq : q ≠ 0)
    (hy : (promote x 0 l)[r]? = some y) : (k.toFront x).next y = (promote x 0 l)[r + 1]? := by
  have hprev : k.prev x = l[q - 1]? := by rw [h.prev hx, if_neg hq]
  rw [promote_getElem? h.nodup hx] at hy ⊢
  rw [if_neg (Nat.succ_ne_zero r), Nat.add_sub_cancel]
  simp only [Links.toFront, hprev, h.next hx]
  split at hy
  · -- the element itself
    rename_i hr
    cases hy
    rw [if_pos rfl, if_pos (by omega), hr, h.head]
  · split at hy
    · -- an element that was before it
      rw [if_neg (h.ne_at hy hx (by omega))]
      by_cases hrq : r = q
      · subst hrq
        rw [if_pos hy, if_neg (by omega)]
      · rw [if_neg (h.not_at hy (by omega)), if_pos (by omega), h.next hy, Nat.sub_add_cancel (by omega)]
    · -- an element that was behind it
      rw [if_neg (h.ne_at hy hx (by omega)), if_neg (h.not_at hy (by omega)), if_neg (by omega), h.next hy]

theorem Holds.toFront_prev (h : Holds k l) (hx : l[q]? = some x) (hq : q ≠ 0) (hy : (promote x 0 l)[r]? = some y) :
    (k.toFront x).prev y = if r = 0 then none else (promote x 0 l)[r - 1]? := by
  have hprev : k.prev x = l[q - 1]? := by rw [h.prev hx, if_neg hq]
  rw [promote_getElem? h.nodup hx] at hy ⊢
  simp only [Links.toFront, hprev, h.next hx]
  split at hy
  · rename_i hr
    cases hy
    rw [if_pos rfl, if_pos hr]
  · rename_i hr
    rw [if_neg hr]
    split at hy
    · rw [if_neg (h.ne_at hy hx (by omega))]
      by_cases hone : r = 1
      · -- the old head
        subst hone
        rw [h.head] at hy
        rw [if_pos (Option.some.inj hy).symm]
        rfl
      · rw [if_neg (h.ne_at hy h.head (by omega)), if_neg (h.not_at hy (by omega)), h.prev hy,
          if_neg (by omega), if_neg (by omega), if_pos (by omega)]
    · rw [if_neg (h.ne_at hy hx (by omega)), if_neg (h.ne_at hy h.head (by omega))]
      by_cases hsucc : r = q + 1
      · subst hsucc
        rw [if_pos hy, Nat.add_sub_cancel, if_neg hq, if_pos (Nat.le_refl q)]
      · rw [if_neg (h.not_at hy (by omega)), h.prev hy, if_neg hr, if_neg (by omega), if_neg (by omega)]

theorem Holds.toFront (h : Holds k l) (hx : l[q]? = some x) (hq : q ≠ 0) : Holds (k.toFront x) (promote x 0 l) := by
  have hmem : x ∈ l.drop 0 := List.mem_of_getElem? hx
  have hlen : (promote x 0 l).length = l.length := (promote_perm hmem).length_eq
  have hlt : q < l.length := (List.getElem?_eq_some_iff.mp hx).1
  refine ⟨(promote_perm hmem).nodup_iff.mpr h.nodup, rfl, ?_, h.toFront_next hx hq, h.toFront_prev hx hq⟩
  rw [hlen, promote_getElem? h.nodup hx, if_neg (by omega)]
  simp only [Links.toFront]
  by_cases ht : x = k.tail
  · have hlast := getElem?_inj h.nodup hx (ht ▸ h.tail)
    have hprev : k.prev x = l[q - 1]? := by rw [h.prev hx, if_neg hq]
    rw [if_pos (by omega), if_pos ht, hprev, hlast, List.getElem?_eq_getElem (by omega), Option.getD_some]
  · have hbefore : ¬ l.length - 1 ≤ q := by
      intro hle
      rw [show q = l.length - 1 by omega, h.tail] at hx
      exact ht (Option.some.inj hx).symm
    rw [if_neg hbefore, if_neg ht, h.tail]

end ToFront

end Links

end Lib
