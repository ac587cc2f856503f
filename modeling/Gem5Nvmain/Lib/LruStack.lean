import Gem5Nvmain.Lib.Recency

/- Caches that replace the least recently used element.

  A cache is the list of what it holds, most recent first. The inclusion property: fed with the same elements, a cache
  of `j` places holds the first `j` of what a larger one holds (`take_run`). So one list tells for every size whether
  an element would be found. -/
namespace Lib.Lru
open List

variable {α : Type} [DecidableEq α] {x : α} {l xs : List α} {c j n : Nat}

/-- A cache of `c` places is asked for `x`. -/
def step (c : Nat) (l : List α) (x : α) : List α := if x ∈ l then promote x 0 l else (x :: l).take c

/-- What an empty cache of `c` places holds after it was asked for `xs`. -/
def run (c : Nat) (xs : List α) : List α := xs.foldl (step c) []

/-- How often a cache that holds `l` has what it is asked for. -/
def hits (c : Nat) : List α → List α → Nat
  | _, [] => 0
  | l, x :: xs => (if x ∈ l then 1 else 0) + hits c (step c l x) xs

theorem run_snoc (c : Nat) (xs : List α) (x : α) : run c (xs ++ [x]) = step c (run c xs) x := by
  unfold run
  rw [foldl_append]
  rfl

theorem hits_snoc (c : Nat) (l xs : List α) (x : α) :
    hits c l (xs ++ [x]) = hits c l xs + if x ∈ xs.foldl (step c) l then 1 else 0 := by
  induction xs generalizing l with
  | nil =>
    rw [nil_append, hits, hits, hits, Nat.add_comm]
    rfl
  | cons y xs ih =>
    rw [cons_append, hits, hits, ih, foldl_cons, Nat.add_assoc]

theorem step_hit (h : x ∈ l) : step c l x = x :: l.erase x := if_pos h

theorem step_miss (h : x ∉ l) : step c l x = (x :: l).take c := if_neg h

/-! ## What a step keeps -/

theorem length_step (h : l.length ≤ c) : (step c l x).length ≤ c := by
  by_cases hx : x ∈ l
  · rw [step_hit hx, length_cons, length_erase_of_mem hx]
    have hpos := length_pos_of_mem hx
    omega
  · rw [step_miss hx]
    exact List.length_take_le _ _

theorem nodup_step (h : l.Nodup) : (step c l x).Nodup := by
  by_cases hx : x ∈ l
  · rw [step_hit hx]
    exact (perm_cons_erase hx).nodup_iff.mp h
  · rw [step_miss hx]
    exact (nodup_cons.mpr ⟨hx, h⟩).sublist (take_sublist _ _)

theorem subset_step : ∀ y ∈ step c l x, y = x ∨ y ∈ l := by
  intro y hy
  by_cases hx : x ∈ l
  · rw [step_hit hx] at hy
    exact (mem_cons.mp hy).imp_right mem_of_mem_erase
  · rw [step_miss hx] at hy
    exact mem_cons.mp (mem_of_mem_take hy)

/-! ## Inclusion -/

theorem take_erase_of_mem (h : x ∈ l.take (n + 1)) : (l.erase x).take n = (l.take (n + 1)).erase x := by
  induction l generalizing n with
  | nil => simp at h
  | cons a l ih =>
    rw [take_succ_cons] at h ⊢
    by_cases ha : a = x
    · rw [ha, erase_cons_head, erase_cons_head]
    · have hne : ¬(a == x) = true := by simpa using ha
      have htail : x ∈ l.take n := (mem_cons.mp h).resolve_left (Ne.symm ha)
      rw [erase_cons_tail hne, erase_cons_tail hne]
      cases n with
      | zero => simp at htail
      | succ n => rw [take_succ_cons, ih htail]

theorem take_erase_of_notMem (h : x ∉ l.take n) : (l.erase x).take n = l.take n := by
  induction l generalizing n with
  | nil => rfl
  | cons a l ih =>
    cases n with
    | zero => rfl
    | succ n =>
      rw [take_succ_cons, mem_cons, not_or] at h
      have hne : ¬(a == x) = true := by simpa using Ne.symm h.1
      rw [erase_cons_tail hne, take_succ_cons, take_succ_cons, ih h.2]

/-- A step on the first `j` elements is the step of the smaller cache. -/
theorem take_step (hj : j ≤ c) : (step c l x).take j = step j (l.take j) x := by
  cases j with
  | zero =>
    rfl
  | succ n =>
    by_cases hfront : x ∈ l.take (n + 1)
    · rw [step_hit hfront, step_hit (mem_of_mem_take hfront), take_succ_cons, take_erase_of_mem hfront]
    · rw [step_miss hfront, take_succ_cons, take_take, Nat.min_eq_left (Nat.le_succ n)]
      by_cases hx : x ∈ l
      · have hfirst : x ∉ l.take n := fun h => hfront (take_subset_take_left l (Nat.le_succ n) h)
        rw [step_hit hx, take_succ_cons, take_erase_of_notMem hfirst]
      · rw [step_miss hx, take_take, Nat.min_eq_left hj, take_succ_cons]

theorem take_foldl (hj : j ≤ c) (l xs : List α) : (xs.foldl (step c) l).take j = xs.foldl (step j) (l.take j) := by
  induction xs generalizing l with
  | nil => rfl
  | cons x xs ih => rw [foldl_cons, foldl_cons, ih, take_step hj]

theorem take_run (hj : j ≤ c) (xs : List α) : (run c xs).take j = run j xs := by
  unfold run
  rw [take_foldl hj, take_nil]

end Lib.Lru
