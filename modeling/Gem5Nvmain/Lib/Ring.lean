import Mathlib.Logic.Function.Basic
import Mathlib.Data.List.Basic

/- Ring buffers.

  A ring of `n` cells is written one cell after the other, each time one behind the cell that was written last. `Rings
  n cells index hist` says that it holds the last `n` values of the history (newest first). A new value goes over the
  oldest one (`Rings.oldest`).

  A ring can also hold a queue, from its head up to its tail, where one cell is always free. `ringSlot n head j` is
  the cell of the element `j` of the queue, counted from the oldest. `RingQueue n stale cells head tail l` says that
  the queue is `l`, and what may be left in the other cells. -/
namespace Lib
open Function List

section Rings
variable {α : Type} {n index i j : Nat} {cells : Nat → α} {hist : List α} {x : α}

/-- The cell that was written `j` values ago. -/
def back (n index j : Nat) : Nat := if j ≤ index then index - j else index + n - j

theorem succ_mod_ring (h : index < n) : (index + 1) % n = if index + 1 = n then 0 else index + 1 := by
  split
  · rename_i heq
    rw [heq, Nat.mod_self]
  · exact Nat.mod_eq_of_lt (by omega)

/-- The ring holds the last values. -/
structure Rings (n : Nat) (cells : Nat → α) (index : Nat) (hist : List α) : Prop where
  index_lt : index < n
  cell : ∀ j x, j < n → hist[j]? = some x → cells (back n index j) = x

theorem Rings.start (hn : 0 < n) (cells : Nat → α) : Rings n cells 0 [] := by
  refine ⟨hn, fun j x _ hx => ?_⟩
  cases hx

theorem Rings.oldest (h : Rings n cells index hist) (hx : hist[n - 1]? = some x) : cells ((index + 1) % n) = x := by
  have hlt := h.index_lt
  have hcell := h.cell (n - 1) x (by omega) hx
  have hback : back n index (n - 1) = (index + 1) % n := by
    rw [succ_mod_ring hlt, back]
    split <;> split <;> omega
  rw [hback] at hcell
  exact hcell

theorem Rings.push (h : Rings n cells index hist) (x : α) :
    Rings n (update cells ((index + 1) % n) x) ((index + 1) % n) (x :: hist) := by
  have hlt := h.index_lt
  have hmod := succ_mod_ring hlt
  refine ⟨Nat.mod_lt _ (by omega), fun j y hj hy => ?_⟩
  cases j with
  | zero =>
    have hback : back n ((index + 1) % n) 0 = (index + 1) % n := by simp [back]
    rw [hback, update_self]
    exact Option.some.inj hy
  | succ j =>
    have hback : back n ((index + 1) % n) (j + 1) = back n index j := by
      rw [hmod]
      unfold back
      split <;> split <;> split <;> omega
    have hne : back n index j ≠ (index + 1) % n := by
      rw [hmod]
      unfold back
      split <;> split <;> omega
    rw [hback, update_of_ne hne]
    exact h.cell j y (by omega) hy

end Rings

/-! ## Queues in rings -/

section Queues
variable {α : Type} {n head tail j k : Nat} {cells : Nat → Option α} {l l' : List α} {x y : α}

/-- `if (++i >= n) i = 0`. -/
def ringNext (n i : Nat) : Nat := if i + 1 ≥ n then 0 else i + 1

/-- `if (--i < 0) i += n`. -/
def ringPrev (n i : Nat) : Nat := if i = 0 then n - 1 else i - 1

def ringSlot (n head j : Nat) : Nat := if head + j < n then head + j else head + j - n

theorem ringSlot_zero (h : head < n) : ringSlot n head 0 = head := if_pos h

theorem ringSlot_one (h : head < n) : ringSlot n head 1 = ringNext n head := by
  unfold ringNext ringSlot
  split <;> split <;> omega

theorem ringSlot_lt (h : head < n) (hj : j < n) : ringSlot n head j < n := by
  unfold ringSlot
  split <;> omega

theorem ringNext_lt (h : head < n) : ringNext n head < n := by
  unfold ringNext
  split <;> omega

theorem ringNext_slot (h : head < n) (hj : j < n) : ringNext n (ringSlot n head j) = ringSlot n head (j + 1) := by
  unfold ringNext ringSlot
  split <;> split <;> split <;> omega

theorem ringPrev_slot (hj : j < n) : ringPrev n (ringSlot n head (j + 1)) = ringSlot n head j := by
  unfold ringPrev ringSlot
  split <;> split <;> split <;> omega

theorem ringSlot_next (h : head < n) (hj : j < n) : ringSlot n (ringNext n head) j = ringSlot n head (j + 1) := by
  unfold ringNext ringSlot
  split <;> split <;> split <;> omega

theorem ringSlot_add (h : head < n) (hjk : j + k ≤ n) :
    ringSlot n (ringSlot n head j) k = ringSlot n head (j + k) := by
  unfold ringSlot
  split <;> split <;> split <;> omega

theorem ringSlot_inj (hj : j < n) (hk : k < n) (heq : ringSlot n head j = ringSlot n head k) : j = k := by
  unfold ringSlot at heq
  split at heq <;> split at heq <;> omega

/-- The queue is `l`. Values in the other cells are `stale`. -/
structure RingQueue (n : Nat) (stale : α → Prop) (cells : Nat → Option α) (head tail : Nat) (l : List α) : Prop where
  head_lt : head < n
  room : l.length < n
  tail_eq : tail = ringSlot n head l.length
  cell : ∀ {j x}, l[j]? = some x → cells (ringSlot n head j) = some x
  only : ∀ {i x}, cells i = some x → stale x ∨ ∃ j, l[j]? = some x ∧ i = ringSlot n head j

namespace RingQueue
variable {stale : α → Prop}

theorem empty (hn : 0 < n) : RingQueue n stale (fun _ => none) 0 0 [] := by
  refine ⟨hn, hn, (ringSlot_zero hn).symm, fun h => ?_, fun h => ?_⟩
  · cases h
  · cases h

theorem lt_of_getElem? (h : l[j]? = some x) : j < l.length := (List.getElem?_eq_some_iff.mp h).1

section
variable (h : RingQueue n stale cells head tail l)
include h

theorem slot_ne (hj : j ≤ l.length) (hk : k ≤ l.length) (hne : j ≠ k) : ringSlot n head j ≠ ringSlot n head k := by
  intro heq
  have hroom := h.room
  exact hne (ringSlot_inj (by omega) (by omega) heq)

theorem slot_eq_tail (hj : j ≤ l.length) : ringSlot n head j = tail ↔ j = l.length := by
  have hroom := h.room
  rw [h.tail_eq]
  constructor
  · exact ringSlot_inj (by omega) hroom
  · exact fun heq => heq ▸ rfl

theorem room_of_ne (hne : ringNext n tail ≠ head) : l.length + 1 < n := by
  have hroom := h.room
  have hlt := h.head_lt
  by_contra hfull
  apply hne
  rw [h.tail_eq, ringNext_slot hlt hroom]
  unfold ringSlot
  split <;> omega

theorem push (hroom : l.length + 1 < n) (x : α) :
    RingQueue n stale (update cells tail (some x)) head (ringNext n tail) (l ++ [x]) := by
  refine ⟨h.head_lt, by rwa [length_append], ?_, fun {j y} hj => ?_, fun {i y} hi => ?_⟩
  · rw [h.tail_eq, ringNext_slot h.head_lt h.room, length_append]
    rfl
  · have hlt := lt_of_getElem? hj
    rw [length_append, length_singleton] at hlt
    rcases Nat.lt_succ_iff_lt_or_eq.mp hlt with hlt | rfl
    · have hne : ringSlot n head j ≠ tail := by
        rw [h.tail_eq]
        exact h.slot_ne (Nat.le_of_lt hlt) (Nat.le_refl _) (Nat.ne_of_lt hlt)
      rw [getElem?_append_left hlt] at hj
      rw [update_of_ne hne]
      exact h.cell hj
    · rw [getElem?_concat_length] at hj
      rw [← h.tail_eq, update_self, hj]
  · by_cases htail : i = tail
    · subst htail
      rw [update_self] at hi
      exact .inr ⟨l.length, by rw [getElem?_concat_length, hi], h.tail_eq⟩
    · rw [update_of_ne htail] at hi
      rcases h.only hi with hs | ⟨j, hj, heq⟩
      · exact .inl hs
      · exact .inr ⟨j, by rw [getElem?_append_left (lt_of_getElem? hj), hj], heq⟩

end

theorem head_cell (h : RingQueue n stale cells head tail (x :: l)) : cells head = some x := by
  have hcell := h.cell (j := 0) rfl
  rwa [ringSlot_zero h.head_lt] at hcell

/-- The oldest element leaves, and its cell has a stale value or is cleared. -/
theorem pop {cells' : Nat → Option α} (h : RingQueue n stale cells head tail (x :: l))
    (hsame : ∀ i, i ≠ head → cells' i = cells i) (hhead : ∀ y, cells' head = some y → stale y) :
    RingQueue n stale cells' (ringNext n head) tail l := by
  have hroom := h.room
  rw [length_cons] at hroom
  refine ⟨ringNext_lt h.head_lt, by omega, ?_, fun {j y} hj => ?_, fun {i y} hi => ?_⟩
  · rw [h.tail_eq, ringSlot_next h.head_lt (by omega), length_cons]
  · have hlt := lt_of_getElem? hj
    have hne : ringSlot n head (j + 1) ≠ head := by
      have hne := h.slot_ne (Nat.succ_le_succ (Nat.le_of_lt hlt)) (Nat.zero_le _) (Nat.succ_ne_zero j)
      rwa [ringSlot_zero h.head_lt] at hne
    rw [ringSlot_next h.head_lt (by omega), hsame _ hne]
    exact h.cell hj
  · by_cases hih : i = head
    · subst hih
      exact .inl (hhead y hi)
    · rw [hsame i hih] at hi
      rcases h.only hi with hs | ⟨j, hj, heq⟩
      · exact .inl hs
      · cases j with
        | zero =>
          rw [ringSlot_zero h.head_lt] at heq
          exact absurd heq hih
        | succ j =>
          have hlt := lt_of_getElem? hj
          rw [length_cons] at hlt
          exact .inr ⟨j, hj, by rw [ringSlot_next h.head_lt (by omega), heq]⟩

theorem last_slot (h : RingQueue n stale cells head tail (l ++ [x])) : ringPrev n tail = ringSlot n head l.length := by
  have hroom := h.room
  rw [length_append] at hroom
  rw [h.tail_eq, length_append]
  exact ringPrev_slot (Nat.lt_of_succ_lt hroom)

theorem last_cell (h : RingQueue n stale cells head tail (l ++ [x])) : cells (ringPrev n tail) = some x := by
  rw [h.last_slot]
  exact h.cell getElem?_concat_length

/-- The newest element leaves, and its cell is cleared. -/
theorem popLast (h : RingQueue n stale cells head tail (l ++ [x])) :
    RingQueue n stale (update cells (ringPrev n tail) none) head (ringPrev n tail) l := by
  have hroom := h.room
  have hlen : (l ++ [x]).length = l.length + 1 := length_append
  refine ⟨h.head_lt, by omega, h.last_slot, fun {j y} hj => ?_, fun {i y} hi => ?_⟩
  · have hlt := lt_of_getElem? hj
    have hne : ringSlot n head j ≠ ringPrev n tail := by
      rw [h.last_slot]
      exact h.slot_ne (by omega) (by omega) (Nat.ne_of_lt hlt)
    rw [update_of_ne hne]
    apply h.cell
    rw [getElem?_append_left hlt]
    exact hj
  · by_cases hit : i = ringPrev n tail
    · rw [hit, update_self] at hi
      cases hi
    · rw [update_of_ne hit] at hi
      rcases h.only hi with hs | ⟨j, hj, heq⟩
      · exact .inl hs
      · have hlt := lt_of_getElem? hj
        have hne : j ≠ l.length := by
          rintro rfl
          exact hit (heq.trans h.last_slot.symm)
        refine .inr ⟨j, ?_, heq⟩
        rwa [getElem?_append_left (by omega)] at hj

/-- An element changes in its place. -/
theorem set (h : RingQueue n stale cells head tail l) (hj : j < l.length) (y : α) :
    RingQueue n stale (update cells (ringSlot n head j) (some y)) head tail (l.set j y) := by
  refine ⟨h.head_lt, by rw [length_set]; exact h.room, by rw [length_set]; exact h.tail_eq,
    fun {k z} hk => ?_, fun {i z} hi => ?_⟩
  · have hlt := lt_of_getElem? hk
    rw [length_set] at hlt
    by_cases hkj : k = j
    · subst hkj
      rw [getElem?_set_self hj] at hk
      rw [update_self, hk]
    · rw [update_of_ne (h.slot_ne (Nat.le_of_lt hlt) (Nat.le_of_lt hj) hkj)]
      rw [getElem?_set_ne (Ne.symm hkj)] at hk
      exact h.cell hk
  · by_cases hij : i = ringSlot n head j
    · subst hij
      rw [update_self] at hi
      exact .inr ⟨j, by rw [getElem?_set_self hj, hi], rfl⟩
    · rw [update_of_ne hij] at hi
      rcases h.only hi with hs | ⟨k, hk, heq⟩
      · exact .inl hs
      · have hkj : j ≠ k := by
          rintro rfl
          exact hij heq
        exact .inr ⟨k, by rw [getElem?_set_ne hkj, hk], heq⟩

end RingQueue

end Queues

end Lib
