import Mathlib.Data.List.Perm.Basic
import Mathlib.Data.List.Nodup

/- Stacks of distinct elements that are reordered by moving one element.

  `promote x k l` puts `x` at place `k`, and what it passes moves back by one; `demote x l` puts it last. Both leave a
  permutation, and an order `R` of the stack (`l.Pairwise R`) is kept when `R` holds between `x` and what stands
  before and behind its new place. The order may change with the move (`R` before, `R'` after), as long as it says the
  same about the other elements.

  `Leading q l` is the order in which the elements with the property `q` come first. -/
namespace Lib
open List

section Moves
variable {α : Type} [DecidableEq α] {x : α} {k : Nat} {l : List α} {R R' : α → α → Prop}

def promote (x : α) (k : Nat) (l : List α) : List α := l.take k ++ x :: (l.drop k).erase x

def demote (x : α) (l : List α) : List α := l.erase x ++ [x]

@[simp] theorem promote_zero : promote x 0 l = x :: l.erase x := rfl

theorem promote_perm (h : x ∈ l.drop k) : (promote x k l).Perm l := by
  calc (promote x k l).Perm (l.take k ++ l.drop k) := (perm_cons_erase h).symm.append_left _
    _ = l := take_append_drop k l

theorem demote_perm (h : x ∈ l) : (demote x l).Perm l :=
  (perm_append_singleton x _).trans (perm_cons_erase h).symm

omit [DecidableEq α] in
theorem Pairwise.of_others (hsame : ∀ a, a ≠ x → ∀ b, b ≠ x → R a b → R' a b) (hl : l.Pairwise R)
    (hx : x ∉ l) : l.Pairwise R' := by
  refine hl.imp_of_mem ?_
  intro a b ha hb hab
  exact hsame a (fun h => hx (h ▸ ha)) b (fun h => hx (h ▸ hb)) hab

theorem promote_pairwise (hnd : l.Nodup) (hl : l.Pairwise R)
    (hsame : ∀ a, a ≠ x → ∀ b, b ≠ x → R a b → R' a b) (hmem : x ∈ l.drop k)
    (hfront : ∀ a ∈ l.take k, R' a x) (hback : ∀ b ∈ l, b ≠ x → R' x b) : (promote x k l).Pairwise R' := by
  have hsplit : (l.take k ++ l.drop k).Pairwise R := by rwa [take_append_drop]
  have hdisj : (l.take k ++ l.drop k).Nodup := by rwa [take_append_drop]
  obtain ⟨hfst, hsnd, hcross⟩ := pairwise_append.mp hsplit
  obtain ⟨-, hndrop, hne⟩ := nodup_append.mp hdisj
  have hxfst : x ∉ l.take k := fun h => hne x h x hmem rfl
  have hxsnd : x ∉ (l.drop k).erase x := fun h => (hndrop.mem_erase_iff.mp h).1 rfl
  refine pairwise_append.mpr ⟨Pairwise.of_others hsame hfst hxfst, ?_, ?_⟩
  · refine pairwise_cons.mpr ⟨?_, Pairwise.of_others hsame (hsnd.sublist erase_sublist) hxsnd⟩
    intro b hb
    have hbne := (hndrop.mem_erase_iff.mp hb).1
    exact hback b (mem_of_mem_drop (mem_of_mem_erase hb)) hbne
  · intro a ha b hb
    rcases mem_cons.mp hb with rfl | hb
    · exact hfront a ha
    · have hbne := (hndrop.mem_erase_iff.mp hb).1
      exact hsame a (fun h => hxfst (h ▸ ha)) b hbne (hcross a ha b (mem_of_mem_erase hb))

theorem demote_pairwise (hnd : l.Nodup) (hl : l.Pairwise R)
    (hsame : ∀ a, a ≠ x → ∀ b, b ≠ x → R a b → R' a b) (hfront : ∀ a ∈ l, a ≠ x → R' a x) :
    (demote x l).Pairwise R' := by
  have hx : x ∉ l.erase x := fun h => (hnd.mem_erase_iff.mp h).1 rfl
  refine pairwise_append.mpr
    ⟨Pairwise.of_others hsame (hl.sublist erase_sublist) hx, pairwise_singleton _ _, ?_⟩
  intro a ha b hb
  rw [mem_singleton.mp hb]
  obtain ⟨hne, hmem⟩ := hnd.mem_erase_iff.mp ha
  exact hfront a hmem hne

end Moves

/-! ## Elements that come first -/

section Leading
variable {α : Type} {q : α → Bool} {l : List α}

def Leading (q : α → Bool) (l : List α) : Prop := l.Pairwise fun a b => q b = true → q a = true

theorem leading_cons {a : α} (h : Leading q (a :: l)) : Leading q l ∧ (q a = false → ∀ b ∈ l, q b = false) := by
  obtain ⟨hhead, htail⟩ := pairwise_cons.mp h
  refine ⟨htail, fun ha b hb => ?_⟩
  by_contra hq
  rw [Bool.not_eq_false] at hq
  rw [hhead b hb hq] at ha
  cases ha

/-- The first places are theirs. -/
theorem Leading.take {k : Nat} (h : Leading q l) (hk : k ≤ l.countP q) : ∀ a ∈ l.take k, q a = true := by
  induction l generalizing k with
  | nil => simp
  | cons b l ih =>
    obtain ⟨htail, hnone⟩ := leading_cons h
    intro a ha
    cases k with
    | zero => simp at ha
    | succ k =>
      have hb : q b = true := by
        by_contra hq
        rw [Bool.not_eq_true] at hq
        have hzero : l.countP q = 0 := countP_eq_zero.mpr fun c hc => by simp [hnone hq c hc]
        rw [countP_cons_of_neg (by simp [hq]), hzero] at hk
        omega
      rw [countP_cons_of_pos hb] at hk
      rcases mem_cons.mp ha with rfl | ha
      · exact hb
      · exact ih htail (by omega) a ha

theorem Leading.of_last {n : Nat} {a : α} (h : Leading q l) (hn : l.length ≤ n + 1) (hlast : l[n]? = some a)
    (ha : q a = true) : ∀ b ∈ l, q b = true := by
  intro b hb
  obtain ⟨i, hi, rfl⟩ := mem_iff_getElem.mp hb
  obtain ⟨hlen, rfl⟩ := List.getElem?_eq_some_iff.mp hlast
  rcases Nat.lt_or_eq_of_le (show i ≤ n by omega) with hlt | heq
  · exact pairwise_iff_getElem.mp h i n hi hlen hlt ha
  · simp only [heq]
    exact ha

theorem Leading.last_lacks {n : Nat} {a : α} (h : Leading q l) (hn : l.length ≤ n + 1) (hlast : l[n]? = some a)
    (hex : ∃ b ∈ l, q b = false) : q a = false := by
  obtain ⟨b, hb, hlacks⟩ := hex
  by_contra ha
  rw [Bool.not_eq_false] at ha
  rw [h.of_last hn hlast ha b hb] at hlacks
  cases hlacks

end Leading

/-! ## The place of an element -/

section Place
variable {α : Type} {R : α → α → Prop} {f : α → Bool} {l : List α} {x : α} {q : Nat}

/-- When `f` holds exactly of what stands before `x`, it counts the place of `x`. -/
theorem countP_place (hl : l.Pairwise R) (hx : l[q]? = some x) (hbefore : ∀ a, R a x → f a = true)
    (hself : f x = false) (hbehind : ∀ b, R x b → f b = false) : l.countP f = q := by
  induction l generalizing q with
  | nil => simp at hx
  | cons a l ih =>
    obtain ⟨hhead, htail⟩ := pairwise_cons.mp hl
    cases q with
    | zero =>
      simp only [getElem?_cons_zero, Option.some.injEq] at hx
      subst hx
      rw [countP_cons_of_neg (by simp [hself]), countP_eq_zero]
      intro b hb
      simp [hbehind b (hhead b hb)]
    | succ q =>
      rw [countP_cons_of_pos (hbefore a (hhead x (mem_of_getElem? hx))), ih htail hx]

end Place

end Lib
