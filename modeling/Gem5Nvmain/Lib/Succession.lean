import Mathlib.Data.List.Nodup

/- Successors in a queue of claimants.

  A resource goes down a queue without duplicates: the first claimant has it next, and each passes it to its successor
  (`next`). A claimant joins at the end, which gives the last one a successor and changes no other (`next_concat`);
  the first one leaves, which changes no successor (`next_cons_ne`). The last claimant is the only one without a
  successor (`next_eq_none`). -/
namespace Lib

section Succession
variable {α : Type} [DecidableEq α] {a b c : α} {l : List α}

def next : List α → α → Option α
  | [], _ => none
  | a :: l, c => if c = a then l.head? else next l c

@[simp] theorem next_cons_self : next (a :: l) a = l.head? := if_pos rfl

theorem next_cons_ne (h : c ≠ a) : next (a :: l) c = next l c := if_neg h

theorem next_concat (h : c ∈ l) : next (l ++ [b]) c = (next l c).or (some b) := by
  induction l with
  | nil => cases h
  | cons a l ih =>
    by_cases hc : c = a
    · subst hc
      simp
    · rw [List.cons_append, next_cons_ne hc, next_cons_ne hc]
      apply ih
      exact (List.mem_cons.mp h).resolve_left hc

theorem next_concat_self (h : b ∉ l) : next (l ++ [b]) b = none := by
  induction l with
  | nil => simp
  | cons a l ih =>
    obtain ⟨hb, hl⟩ := not_or.mp (mt List.mem_cons.mpr h)
    rw [List.cons_append, next_cons_ne hb]
    exact ih hl

theorem next_eq_none (hn : l.Nodup) (h : c ∈ l) : next l c = none ↔ l.getLast? = some c := by
  induction l with
  | nil => cases h
  | cons a l ih =>
    obtain ⟨ha, hn⟩ := List.nodup_cons.mp hn
    cases l with
    | nil =>
      have hc : c = a := List.mem_singleton.mp h
      simp [hc]
    | cons b l =>
      rw [List.getLast?_cons_cons]
      by_cases hc : c = a
      · subst hc
        rw [next_cons_self]
        constructor
        · intro h
          cases h
        · intro h
          exact absurd (List.mem_of_getLast? h) ha
      · rw [next_cons_ne hc]
        exact ih hn ((List.mem_cons.mp h).resolve_left hc)

end Succession

end Lib
