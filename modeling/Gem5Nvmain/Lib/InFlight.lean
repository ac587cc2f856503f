import Mathlib.Data.List.Basic

/- Messages in flight.

  Messages are delivered in any order: they are a list from which any position can be taken (`split_at`). What a party
  waits for is a part of the list, a filter of it; a delivery takes one message out of the part that it belongs to and
  leaves the other parts alone (`filter_eraseIdx_of_pos`, `filter_eraseIdx_of_neg`). -/
namespace Lib
open List

section InFlight
variable {α : Type} {l : List α} {k : Nat} {p q : α} {f : α → Bool}

theorem split_at (h : l[k]? = some p) :
    ∃ a b, l = a ++ p :: b ∧ l.eraseIdx k = a ++ b ∧ ∀ q, l.set k q = a ++ q :: b := by
  induction l generalizing k with
  | nil => cases h
  | cons x l ih =>
    cases k with
    | zero =>
      cases h
      exact ⟨[], l, rfl, rfl, fun q => rfl⟩
    | succ k =>
      obtain ⟨a, b, hl, herase, hset⟩ := ih h
      refine ⟨x :: a, b, ?_, ?_, fun q => ?_⟩
      · rw [hl, cons_append]
      · rw [eraseIdx_cons_succ, herase, cons_append]
      · rw [set_cons_succ, hset q, cons_append]

theorem filter_eraseIdx_of_neg (h : l[k]? = some p) (hp : f p = false) : (l.eraseIdx k).filter f = l.filter f := by
  obtain ⟨a, b, hl, herase, -⟩ := split_at h
  rw [herase, hl, filter_append, filter_append, filter_cons_of_neg (by simp [hp])]

theorem filter_eraseIdx_of_pos (h : l[k]? = some p) (hp : f p = true) :
    ∃ a b, l.filter f = a ++ p :: b ∧ (l.eraseIdx k).filter f = a ++ b := by
  obtain ⟨a, b, hl, herase, -⟩ := split_at h
  refine ⟨a.filter f, b.filter f, ?_, ?_⟩
  · rw [hl, filter_append, filter_cons_of_pos hp]
  · rw [herase, filter_append]

theorem filter_set_of_neg (h : l[k]? = some p) (hp : f p = false) (hq : f q = false) : (l.set k q).filter f = l.filter f := by
  obtain ⟨a, b, hl, -, hset⟩ := split_at h
  rw [hset, hl, filter_append, filter_append, filter_cons_of_neg (by simp [hq]),
    filter_cons_of_neg (by simp [hp])]

theorem filter_set_of_pos (h : l[k]? = some p) (hp : f p = true) (hq : f q = true) :
    ∃ a b, l.filter f = a ++ p :: b ∧ (l.set k q).filter f = a ++ q :: b := by
  obtain ⟨a, b, hl, -, hset⟩ := split_at h
  refine ⟨a.filter f, b.filter f, ?_, ?_⟩
  · rw [hl, filter_append, filter_cons_of_pos hp]
  · rw [hset, filter_append, filter_cons_of_pos hq]

end InFlight

end Lib
