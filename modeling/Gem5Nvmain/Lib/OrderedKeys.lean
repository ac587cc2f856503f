import Mathlib.Data.List.Nodup

/- Lists of rising keys.

  Of a list in the order of its keys, those below a bound are a prefix, of length `below keys b`; `lastUpTo` finds the
  last that is not above one. -/
namespace Lib
open List

variable {α : Type} {key : α → Nat} {keys : List Nat} {l : List α} {a : α} {b k x y : Nat}

/-- How many keys are below the bound. -/
def below (keys : List Nat) (b : Nat) : Nat := keys.countP (· < b)

theorem below_append (keys more : List Nat) (b : Nat) : below (keys ++ more) b = below keys b + below more b :=
  countP_append

theorem below_cons (y : Nat) (keys : List Nat) (b : Nat) : below (y :: keys) b = below keys b + if y < b then 1 else 0 := by
  simp only [below, countP_cons, decide_eq_true_eq]

theorem below_eq_zero (h : ∀ x ∈ keys, b ≤ x) : below keys b = 0 := by
  apply countP_eq_zero.mpr
  intro x hx
  have := h x hx
  simp only [decide_eq_true_eq]
  omega

theorem below_eq_length (h : ∀ x ∈ keys, x < b) : below keys b = keys.length := by
  apply countP_eq_length.mpr
  intro x hx
  exact decide_eq_true (h x hx)

theorem below_drop {m : Nat} (hm : m ≤ keys.length) (h : ∀ x ∈ keys.take m, x < b) :
    below keys b = m + below (keys.drop m) b := by
  have hlen : (keys.take m).length = m := by rw [length_take, Nat.min_eq_left hm]
  calc below keys b = below (keys.take m ++ keys.drop m) b := by rw [take_append_drop]
    _ = m + below (keys.drop m) b := by rw [below_append, below_eq_length h, hlen]

theorem below_take {m : Nat} (h : ∀ x ∈ keys.drop m, b ≤ x) : below (keys.take m) b = below keys b := by
  calc below (keys.take m) b = below (keys.take m ++ keys.drop m) b := by
        rw [below_append, below_eq_zero h, Nat.add_zero]
    _ = below keys b := by rw [take_append_drop]

theorem below_eq_zero_of_head (hs : (y :: keys).Pairwise (· < ·)) (hy : ¬y < b) : below keys b = 0 := by
  apply below_eq_zero
  intro x hx
  have := rel_of_pairwise_cons hs hx
  omega

/-- In a sorted list the keys below a bound come first. -/
theorem lt_iff_lt_below (hs : keys.Pairwise (· < ·)) (hk : keys[k]? = some x) : x < b ↔ k < below keys b := by
  induction keys generalizing k with
  | nil => cases hk
  | cons y keys ih =>
    rw [below_cons]
    cases k with
    | zero =>
      cases hk
      split
      · rename_i hlt
        exact ⟨fun _ => Nat.succ_pos _, fun _ => hlt⟩
      · rename_i hge
        rw [below_eq_zero_of_head hs hge]
        exact ⟨fun h => absurd h hge, fun h => absurd h (Nat.lt_irrefl 0)⟩
    | succ k =>
      rw [ih hs.of_cons hk]
      split
      · omega
      · rename_i hge
        have hzero := below_eq_zero_of_head hs hge
        omega

section
variable (hs : (l.map key).Pairwise (· < ·))
include hs

theorem filter_lt_eq_take (b : Nat) : l.filter (fun a => key a < b) = l.take (below (l.map key) b) := by
  induction l with
  | nil => rfl
  | cons a l ih =>
    rw [map_cons, below_cons, filter_cons, ih hs.of_cons]
    by_cases hlt : key a < b
    · rw [if_pos (decide_eq_true hlt), if_pos hlt, take_succ_cons]
    · rw [if_neg (by simpa using hlt), if_neg hlt, below_eq_zero_of_head hs hlt]
      rfl

theorem lt_of_head (h : ∀ c, l.head? = some c → b < key c) (ha : a ∈ l) : b < key a := by
  cases l with
  | nil => cases ha
  | cons c l =>
    have hc := h c rfl
    rcases mem_cons.mp ha with rfl | ha
    · exact hc
    · exact Nat.lt_trans hc (rel_of_pairwise_cons hs (mem_map_of_mem ha))

theorem le_of_last (h : ∀ c, l.getLast? = some c → key c ≤ b) (ha : a ∈ l) : key a ≤ b := by
  rcases eq_nil_or_concat l with rfl | ⟨l', c, heq⟩
  · cases ha
  · rw [concat_eq_append] at heq
    subst heq
    have hc := h c (by rw [getLast?_concat])
    rw [map_append, pairwise_append] at hs
    rcases mem_append.mp ha with ha | ha
    · have hlt := hs.2.2 (key a) (mem_map_of_mem ha) (key c) (mem_map_of_mem mem_cons_self)
      exact Nat.le_trans (Nat.le_of_lt hlt) hc
    · rw [mem_singleton.mp ha]
      exact hc

theorem eq_of_key_eq {c : α} (ha : a ∈ l) (hc : c ∈ l) (h : key a = key c) : a = c := by
  have hnodup : (l.map key).Nodup := hs.imp Nat.ne_of_lt
  exact inj_on_of_nodup_map hnodup ha hc h

theorem exists_find?_le {q : α → Bool} (ha : a ∈ l) (hq : q a = true) : ∃ c, l.find? q = some c ∧ key c ≤ key a := by
  induction l with
  | nil => cases ha
  | cons c l ih =>
    by_cases hc : q c = true
    · refine ⟨c, find?_cons_of_pos hc, ?_⟩
      rcases mem_cons.mp ha with rfl | ha
      · exact Nat.le_refl _
      · exact Nat.le_of_lt (rel_of_pairwise_cons hs (mem_map_of_mem ha))
    · rw [find?_cons_of_neg hc]
      rcases mem_cons.mp ha with rfl | ha
      · exact absurd hq hc
      · exact ih hs.of_cons ha

theorem map_at_eq_set (hk : l[k]? = some a) (g : α → α) :
    l.map (fun c => if key c = key a then g c else c) = l.set k (g a) := by
  induction l generalizing k with
  | nil => cases hk
  | cons c l ih =>
    rw [map_cons] at hs ⊢
    cases k with
    | zero =>
      cases hk
      have hrest : l.map (fun c => if key c = key a then g c else c) = l := by
        apply (map_congr_left fun c hc => ?_).trans (map_id l)
        exact if_neg (Nat.ne_of_gt (rel_of_pairwise_cons hs (mem_map_of_mem hc)))
      rw [if_pos rfl, hrest, set_cons_zero]
    | succ k =>
      have hlt := rel_of_pairwise_cons hs (mem_map_of_mem (mem_of_getElem? hk))
      rw [if_neg (Nat.ne_of_lt hlt), ih hs.of_cons hk, set_cons_succ]

end

/-- The last element whose key is not above the bound, or `d`; the search from the front ends at the first key above it. -/
def lastUpTo (key : α → Nat) (b : Nat) (d : α) : List α → α
  | [] => d
  | a :: l => if b < key a then d else lastUpTo key b a l

theorem lastUpTo_spec (d : α) (hs : (l.map key).Pairwise (· < ·)) : (lastUpTo key b d l = d ∧ ∀ a ∈ l, b < key a) ∨
      (lastUpTo key b d l ∈ l ∧ key (lastUpTo key b d l) ≤ b ∧ ∀ a ∈ l, key a ≤ b → key a ≤ key (lastUpTo key b d l)) := by
  induction l generalizing d with
  | nil => exact .inl ⟨rfl, fun _ h => absurd h not_mem_nil⟩
  | cons c l ih =>
    have hrest : ∀ a ∈ l, key c < key a := fun a ha => rel_of_pairwise_cons hs (mem_map_of_mem ha)
    by_cases hc : b < key c
    · -- the search ends here, and the keys behind are larger still
      refine .inl ⟨if_pos hc, fun a ha => ?_⟩
      obtain rfl | ha := mem_cons.mp ha
      · exact hc
      · exact Nat.lt_trans hc (hrest a ha)
    · right
      have hgo : lastUpTo key b d (c :: l) = lastUpTo key b c l := if_neg hc
      rw [hgo]
      obtain ⟨heq, hall⟩ | ⟨hmem, hle, hmax⟩ := ih c hs.of_cons
      · rw [heq]
        refine ⟨mem_cons_self, Nat.le_of_not_lt hc, fun a ha hle => ?_⟩
        obtain rfl | ha := mem_cons.mp ha
        · exact Nat.le_refl _
        · exact absurd hle (Nat.not_le_of_lt (hall a ha))
      · refine ⟨mem_cons_of_mem _ hmem, hle, fun a ha hle' => ?_⟩
        obtain rfl | ha := mem_cons.mp ha
        · exact Nat.le_of_lt (hrest _ hmem)
        · exact hmax a ha hle'

end Lib
