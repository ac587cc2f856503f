import Mathlib.Data.List.Basic
import Mathlib.Order.Lattice

/- Sorted lists of disjoint closed intervals.

  The elements of a list stand for intervals through their ends `lo` and `hi`. `Apart lo hi l` says that each interval
  ends before the next ones begin; a list of proper intervals is then sorted by `lo`, and a search for the first one
  that begins behind a point `s` splits it. A query `[s, t]` can then meet only two kinds of stored interval: the one
  right before the split, by reaching `s` (`reaches_last`), or those behind it, and then it meets the first of them
  (`meets_first`). -/
namespace Lib

section Intervals
variable {α β : Type} [LinearOrder α] {lo hi : β → α} {l : List β} {s t : α} {e f : β} {i j : Nat}

/-- Each interval ends before the ones behind it begin. -/
def Apart (lo hi : β → α) (l : List β) : Prop := l.Pairwise fun e f => hi e < lo f

theorem shared_point_iff {a b c d : α} (hab : a ≤ b) (hcd : c ≤ d) :
    (∃ x, (a ≤ x ∧ x ≤ b) ∧ c ≤ x ∧ x ≤ d) ↔ a ≤ d ∧ c ≤ b := by
  constructor
  · rintro ⟨x, ⟨hax, hxb⟩, hcx, hxd⟩
    exact ⟨le_trans hax hxd, le_trans hcx hxb⟩
  · rintro ⟨had, hcb⟩
    rcases le_total a c with hac | hca
    · exact ⟨c, ⟨hac, hcb⟩, le_refl c, hcd⟩
    · exact ⟨a, ⟨le_refl a, hab⟩, hca, had⟩

theorem Apart.lt (hl : Apart lo hi l) (he : l[i]? = some e) (hf : l[j]? = some f) (hij : i < j) : hi e < lo f := by
  obtain ⟨hi', rfl⟩ := List.getElem?_eq_some_iff.mp he
  obtain ⟨hj', rfl⟩ := List.getElem?_eq_some_iff.mp hf
  exact List.pairwise_iff_getElem.mp hl i j hi' hj' hij

theorem Apart.unique (hl : Apart lo hi l) (he : l[i]? = some e) (hf : l[j]? = some f)
    (hs : lo e ≤ s ∧ s ≤ hi e) (ht : lo f ≤ s ∧ s ≤ hi f) : i = j := by
  rcases Nat.lt_trichotomy i j with hij | hij | hij
  · exact absurd (lt_of_le_of_lt hs.2 (hl.lt he hf hij)) (not_lt_of_ge ht.1)
  · exact hij
  · exact absurd (lt_of_le_of_lt ht.2 (hl.lt hf he hij)) (not_lt_of_ge hs.1)

theorem le_of_lt_findIdx (hj : j < l.findIdx (fun e => decide (s < lo e))) (he : l[j]? = some e) : lo e ≤ s := by
  obtain ⟨hlen, rfl⟩ := List.getElem?_eq_some_iff.mp he
  have hnot := List.not_of_lt_findIdx hj
  simpa using hnot

theorem lt_of_findIdx (he : l[l.findIdx (fun e => decide (s < lo e))]? = some e) : s < lo e := by
  obtain ⟨hlen, rfl⟩ := List.getElem?_eq_some_iff.mp he
  have hyes := List.findIdx_getElem (w := hlen)
  simpa using hyes

/-- An interval that contains `s` is the last one that begins at or before `s`. -/
theorem Apart.reaches_last (hl : Apart lo hi l) (hproper : ∀ e ∈ l, lo e ≤ hi e) (he : l[j]? = some e)
    (hlo : lo e ≤ s) (hhi : s ≤ hi e) : l.findIdx (fun e => decide (s < lo e)) = j + 1 := by
  have hlen : j < l.length := (List.getElem?_eq_some_iff.mp he).1
  rcases Nat.lt_trichotomy (l.findIdx fun e => decide (s < lo e)) (j + 1) with hlt | heq | hgt
  · -- the first interval behind `s` would begin before `e` ends
    have hfound : l.findIdx (fun e => decide (s < lo e)) < l.length := by omega
    obtain ⟨f, hf⟩ : ∃ f, l[l.findIdx fun e => decide (s < lo e)]? = some f :=
      ⟨_, List.getElem?_eq_getElem hfound⟩
    have hbehind : s < lo f := lt_of_findIdx hf
    rcases Nat.eq_or_lt_of_le (Nat.le_of_lt_succ hlt) with hat | hbefore
    · rw [hat, he] at hf
      cases hf
      exact absurd hbehind (not_lt_of_ge hlo)
    · have hends : hi f < s := lt_of_lt_of_le (hl.lt hf he hbefore) hlo
      have hlong : s < hi f := lt_of_lt_of_le hbehind (hproper f (List.mem_of_getElem? hf))
      exact absurd hends (not_lt_of_ge (le_of_lt hlong))
  · exact heq
  · have hnext : j + 1 < l.length := Nat.lt_of_lt_of_le hgt List.findIdx_le_length
    obtain ⟨f, hf⟩ : ∃ f, l[j + 1]? = some f := ⟨_, List.getElem?_eq_getElem hnext⟩
    have hpassed : lo f ≤ s := le_of_lt_findIdx hgt hf
    exact absurd (lt_of_lt_of_le (hl.lt he hf (Nat.lt_succ_self j)) hpassed) (not_lt_of_ge hhi)

/-- A query that meets an interval behind `s` meets the first one behind `s`. -/
theorem Apart.meets_first (hl : Apart lo hi l) (hproper : ∀ e ∈ l, lo e ≤ hi e) (he : l[j]? = some e)
    (hlo : s < lo e) (hhi : lo e ≤ t) : ∃ f, l[l.findIdx (fun e => decide (s < lo e))]? = some f ∧ lo f ≤ t := by
  have hlen : j < l.length := (List.getElem?_eq_some_iff.mp he).1
  have hle : l.findIdx (fun e => decide (s < lo e)) ≤ j := by
    apply Nat.le_of_not_lt
    intro hgt
    exact absurd (le_of_lt_findIdx hgt he) (not_le_of_gt hlo)
  obtain ⟨f, hf⟩ : ∃ f, l[l.findIdx fun e => decide (s < lo e)]? = some f :=
    ⟨_, List.getElem?_eq_getElem (Nat.lt_of_le_of_lt hle hlen)⟩
  refine ⟨f, hf, ?_⟩
  rcases Nat.eq_or_lt_of_le hle with hat | hbefore
  · rw [hat, he] at hf
    cases hf
    exact hhi
  · calc lo f ≤ hi f := hproper f (List.mem_of_getElem? hf)
      _ ≤ lo e := le_of_lt (hl.lt hf he hbefore)
      _ ≤ t := hhi

end Intervals

end Lib
