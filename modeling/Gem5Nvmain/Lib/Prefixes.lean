import Mathlib.Data.BitVec
import Mathlib.Data.Nat.Count

/- Prefixes of machine words.

  A prefix of a word is its `w` leading bits. `leading n w` is the mask that selects them, `Agree w a b` says that two
  words have them in common, and `maskWidth` counts the bits of a mask. Masks are compared, and extended by one bit,
  with the bitwise operations; these are comparisons and additions of the widths (`leading_and_leading`,
  `extend_leading`). -/
namespace Lib
open BitVec

variable {n w v i : Nat} {a b c : BitVec n}

/-- The mask of the `w` most significant bits. -/
def leading (n w : Nat) : BitVec n := allOnes n <<< (n - w)

theorem getMsbD_leading (hw : w ≤ n) : (leading n w).getMsbD i = decide (i < w) := by
  unfold leading
  rw [getMsbD_shiftLeft, getMsbD_allOnes]
  exact decide_eq_decide.mpr (by omega)

/-- The number of the bits of a mask. -/
def maskWidth (m : BitVec n) : Nat := Nat.count (fun i => m.getMsbD i = true) n

theorem count_lt (w : Nat) : ∀ k, Nat.count (fun i => i < w) k = min w k := by
  intro k
  induction k with
  | zero => simp
  | succ k ih =>
    rw [Nat.count_succ, ih]
    split <;> omega

theorem maskWidth_leading (hw : w ≤ n) : maskWidth (leading n w) = w := by
  have hbits : (fun i => (leading n w).getMsbD i = true) = fun i => i < w := by
    funext i
    rw [getMsbD_leading hw]
    simp
  unfold maskWidth
  simp only [hbits]
  rw [count_lt]
  exact Nat.min_eq_left hw

theorem leading_inj (hw : w ≤ n) (hv : v ≤ n) : leading n w = leading n v ↔ w = v := by
  constructor
  · intro h
    rw [← maskWidth_leading hw, h, maskWidth_leading hv]
  · intro h
    rw [h]

theorem leading_and_leading (hw : w ≤ n) (hv : v ≤ n) : leading n w &&& leading n v = leading n w ↔ w ≤ v := by
  constructor
  · intro h
    have hbit := congrArg (getMsbD · v) h
    simp only [getMsbD_and, getMsbD_leading hw, getMsbD_leading hv] at hbit
    simp at hbit
    omega
  · intro h
    apply eq_of_getMsbD_eq
    intro i _
    rw [getMsbD_and, getMsbD_leading hw, getMsbD_leading hv]
    by_cases hi : i < w
    · simp [lt_of_lt_of_le hi h]
    · simp [hi]

theorem extend_leading (hw : w < n) : leading n w ||| (leading n w >>> 1) ||| (1#n <<< (n - 1)) = leading n (w + 1) := by
  apply eq_of_getMsbD_eq
  intro i hi
  rw [getMsbD_or, getMsbD_or, getMsbD_ushiftRight, ← twoPow_eq, getMsbD_twoPow,
    getMsbD_leading hw.le, getMsbD_leading hw.le, getMsbD_leading (by omega)]
  rw [Bool.eq_iff_iff]
  simp
  omega

/-! Words with common leading bits. -/

/-- The first `w` bits are the same. -/
def Agree (w : Nat) (a b : BitVec n) : Prop := ∀ i < w, a.getMsbD i = b.getMsbD i

instance : Decidable (Agree w a b) := inferInstanceAs (Decidable (∀ i < w, a.getMsbD i = b.getMsbD i))

theorem Agree.symm (h : Agree w a b) : Agree w b a := fun i hi => (h i hi).symm

theorem Agree.trans (h : Agree w a b) (h' : Agree w b c) : Agree w a c := fun i hi => (h i hi).trans (h' i hi)

theorem Agree.mono (h : Agree w a b) (hv : v ≤ w) : Agree v a b := fun i hi => h i (lt_of_lt_of_le hi hv)

theorem agree_succ : Agree (w + 1) a b ↔ Agree w a b ∧ a.getMsbD w = b.getMsbD w := by
  constructor
  · intro h
    exact ⟨h.mono (Nat.le_succ w), h w (Nat.lt_succ_self w)⟩
  · rintro ⟨h, hbit⟩ i hi
    rcases Nat.lt_succ_iff_lt_or_eq.mp hi with hlt | rfl
    · exact h i hlt
    · exact hbit

theorem and_leading_eq (hw : w ≤ n) : a &&& leading n w = b &&& leading n w ↔ Agree w a b := by
  constructor
  · intro h i hi
    have hbit := congrArg (getMsbD · i) h
    simpa [getMsbD_leading hw, hi] using hbit
  · intro h
    apply eq_of_getMsbD_eq
    intro i _
    rw [getMsbD_and, getMsbD_and, getMsbD_leading hw]
    by_cases hi : i < w
    · rw [h i hi]
    · simp [hi]

theorem agree_and_leading (hw : w ≤ n) (a : BitVec n) : Agree w (a &&& leading n w) a := by
  refine (and_leading_eq hw).mp ?_
  rw [BitVec.and_assoc, BitVec.and_self]

theorem Agree.eq (h : Agree w a b) (hw : w ≤ n) (ha : a &&& leading n w = a) (hb : b &&& leading n w = b) : a = b := by
  rw [← ha, ← hb]
  exact (and_leading_eq hw).mpr h

end Lib
