import Gem5Nvmain.Cache.Brp
import Mathlib.Algebra.Order.BigOperators.Group.List
import Mathlib.Algebra.Order.Ring.Int
import Mathlib.Order.Bounds.Basic

/- The partition that BRP looks for (`BRP::subBest`, `BRP::find_best`).

  A share of `remain` ways among the cores from `level` on is a list of ways, one for each of these cores (`Shares`),
  and it saves what the table says (`saving`). `subBest` walks through all of them and writes its answer while it
  returns. `Searched` says what it leaves after some of the shares: no one of them saves more than `best`, and the
  count of improvements is not zero exactly when `core` ends with the one that saves `best`. Its `int` sums are
  integers here. -/
namespace Gem5.Cache
open Lib List

/-- `save_overhead[k][c-1]`, for `c` ways. -/
def savedBy (row : List Int) (c : Int) : Int := if 0 < c then (row[(c - 1).toNat]?).getD 0 else 0

/-- What the cores from `level` on save. -/
def saving (saveOverhead : List (List Int)) : Nat → List Int → Int
  | _, [] => 0
  | level, c :: cs => savedBy (saveOverhead[level]?.getD []) c + saving saveOverhead (level + 1) cs

/-- Ways for `n` cores, at most `total` of them. -/
structure Shares (n : Nat) (total : Int) (core : List Int) : Prop where
  length : core.length = n
  nonneg : ∀ c ∈ core, 0 ≤ c
  sum_le : core.sum ≤ total

section Share
variable {n : Nat} {total c : Int} {cs : List Int}

end Share

/-! ## The search -/

variable {saveOverhead : List (List Int)} {level n : Nat} {tempBest : Int} {remain : Nat} {s : Partition}
  {P Q : List Int → Prop} {acc r : Partition × Nat}

/-- The shares in `P` have been tried from `s`; `r` is the partition and the number of improvements. -/
structure Searched (saveOverhead : List (List Int)) (level : Nat) (tempBest : Int) (s : Partition) (P : List Int → Prop)
    (r : Partition × Nat) : Prop where
  bound : ∀ cs, P cs → tempBest + saving saveOverhead level cs ≤ r.1.best
  kept : r.2 = 0 → r.1 = s
  better : r.2 ≠ 0 → s.best < r.1.best ∧
    ∃ cs, P cs ∧ r.1.core = s.core.take level ++ cs ∧ r.1.best = tempBest + saving saveOverhead level cs

namespace Searched

section
variable (h : Searched saveOverhead level tempBest s P r)
include h

theorem imp (hPQ : ∀ cs, P cs ↔ Q cs) : Searched saveOverhead level tempBest s Q r := by
  obtain rfl : P = Q := funext fun cs => propext (hPQ cs)
  exact h

theorem best_le : s.best ≤ r.1.best := by
  by_cases hr : r.2 = 0
  · rw [h.kept hr]
  · exact (h.better hr).1.le

theorem take_core (hlen : level ≤ s.core.length) : r.1.core.take level = s.core.take level := by
  by_cases hr : r.2 = 0
  · rw [h.kept hr]
  · obtain ⟨-, cs, -, hcore, -⟩ := h.better hr
    rw [hcore, take_left' (length_take_of_le hlen)]

theorem length_core (hP : ∀ cs, P cs → level + cs.length = s.core.length) : r.1.core.length = s.core.length := by
  by_cases hr : r.2 = 0
  · rw [h.kept hr]
  · obtain ⟨-, cs, hcs, hcore, -⟩ := h.better hr
    have hlen := hP cs hcs
    rw [hcore, length_append, length_take_of_le (by omega), hlen]

end

end Searched

/-- `give` ways are tried for the core at `level`. -/
theorem Searched.give {give : Nat} {P : List Int → Prop} (hacc : Searched saveOverhead level tempBest s P acc)
    (hP : ∀ cs, P cs → level + cs.length = s.core.length) (hlen : level + (n + 1) = s.core.length)
    (hr : Searched saveOverhead (level + 1) (tempBest + savedBy (saveOverhead[level]?.getD []) give) acc.1 (Shares n remain) r) :
    Searched saveOverhead level tempBest s (fun cs => P cs ∨ ∃ tail, cs = (give : Int) :: tail ∧ Shares n remain tail)
      (if r.2 = 0 then r.1 else { r.1 with core := r.1.core.set level give }, acc.2 + r.2) := by
  have hsaving : ∀ tail, tempBest + saving saveOverhead level ((give : Int) :: tail) =
      tempBest + savedBy (saveOverhead[level]?.getD []) give + saving saveOverhead (level + 1) tail := by
    intro tail
    rw [saving, Int.add_assoc]
  have hbest : (if r.2 = 0 then r.1 else { r.1 with core := r.1.core.set level give }).best = r.1.best := by
    split <;> rfl
  constructor
  case bound =>
    rintro cs (hcs | ⟨tail, rfl, htail⟩)
    · calc tempBest + saving saveOverhead level cs ≤ acc.1.best := hacc.bound cs hcs
        _ ≤ r.1.best := hr.best_le
        _ = _ := hbest.symm
    · calc tempBest + saving saveOverhead level ((give : Int) :: tail)
          = tempBest + savedBy (saveOverhead[level]?.getD []) give + saving saveOverhead (level + 1) tail := hsaving tail
        _ ≤ r.1.best := hr.bound tail htail
        _ = _ := hbest.symm
  case kept =>
    intro hsum
    have hzero : acc.2 = 0 ∧ r.2 = 0 := by
      omega
    rw [if_pos hzero.2, hr.kept hzero.2, hacc.kept hzero.1]
  case better =>
    intro hne
    by_cases hzero : r.2 = 0
    · -- the last improvement is an older one
      have hold : acc.2 ≠ 0 := by
        omega
      obtain ⟨hlt, cs, hcs, hcore, heq⟩ := hacc.better hold
      rw [if_pos hzero, hr.kept hzero]
      exact ⟨hlt, cs, .inl hcs, hcore, heq⟩
    · obtain ⟨hlt, tail, htail, hcore, heq⟩ := hr.better hzero
      have haccLen := hacc.length_core hP
      rw [if_neg hzero]
      refine ⟨hacc.best_le.trans_lt hlt, (give : Int) :: tail, .inr ⟨tail, rfl, htail⟩, ?_, ?_⟩
      · rw [hcore, ← hacc.take_core (by omega), set_append_left _ _ (by rw [length_take]; omega),
          take_add_one, getElem?_eq_getElem (by omega), set_append_right _ _ (by rw [length_take]; omega),
          length_take_of_le (by omega), Nat.sub_self, append_assoc]
        rfl
      · rw [heq, hsaving]

section Savings
variable {p : TagParams} {c d : Int} {cs : List Int}

theorem sum_modify {k : Nat} (hk : k < cs.length) : (cs.modify k (· + d)).sum = cs.sum + d := by
  induction cs generalizing k with
  | nil => cases hk
  | cons c cs ih =>
    cases k with
    | zero =>
      rw [modify_zero_cons, sum_cons, sum_cons]
      omega
    | succ k =>
      rw [modify_succ_cons, sum_cons, sum_cons, ih (Nat.lt_of_succ_lt_succ hk)]
      omega

theorem nonneg_modify (h : ∀ c ∈ cs, 0 ≤ c) (hd : 0 ≤ d) (k : Nat) : ∀ c ∈ cs.modify k (· + d), 0 ≤ c := by
  intro c hc
  obtain ⟨i, hi, rfl⟩ := mem_iff_getElem.mp hc
  rw [getElem_modify]
  have hold := h _ (getElem_mem (length_modify .. ▸ hi))
  split
  · exact Int.add_nonneg hold hd
  · exact hold

end Savings

section FindBest
variable {p : TagParams} {b : BrpState} {set maxRatioIndex : Nat} {prev : List Int}

theorem Shares.fill {cs : List Int} {total : Int} (h : Shares numCore total cs) (hmax : maxRatioIndex < numCore) :
    Shares numCore total (cs.modify maxRatioIndex (· + (total - cs.sum))) ∧
      (cs.modify maxRatioIndex (· + (total - cs.sum))).sum = total := by
  have hle := h.sum_le
  have hsum : (cs.modify maxRatioIndex (· + (total - cs.sum))).sum = total := by
    rw [sum_modify (by rw [h.length]; exact hmax)]
    omega
  refine ⟨⟨?_, nonneg_modify h.nonneg (by omega) _, hsum.le⟩, hsum⟩
  rw [length_modify]
  exact h.length

/-- One set of two ways. -/
def brpTwoWays : TagParams where
  setShift := 6
  setBits := 0
  assoc := 2
  watershed := 0
  maxMasters := 0
  setShift_ge := TagParams.two_le_six
  assoc_pos := Nat.two_pos
  maxMasters_lt := by decide

end FindBest

end Gem5.Cache
