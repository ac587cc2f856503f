import Mathlib.Algebra.Order.Floor.Semiring
import Mathlib.Algebra.Order.Field.Basic

/- Two clocks of different frequencies.

  A clock that is `m` times slower than another one is at `n` when the other one is at `⌊n * m⌋₊` (`toGlobal`), and
  what the slow clock shows at the time `t` of the fast one is `⌊t / m⌋₊` (`toLocal`). Both are rounded down: a tick
  that the slow clock has reached at `t` is not later than `t` on the fast one (`toGlobal_le`). -/
namespace Lib

section Clocks
variable {K : Type} [Field K] [LinearOrder K] [IsStrictOrderedRing K] [FloorSemiring K] {m : K} {a b n t : Nat}

def toGlobal (m : K) (n : Nat) : Nat := ⌊(n : K) * m⌋₊

def toLocal (m : K) (t : Nat) : Nat := ⌊(t : K) / m⌋₊

theorem toGlobal_mono (hm : 0 < m) (h : a ≤ b) : toGlobal m a ≤ toGlobal m b := by
  have hcast : (a : K) ≤ b := Nat.cast_le.mpr h
  exact Nat.floor_mono (mul_le_mul_of_nonneg_right hcast hm.le)

theorem toGlobal_le (hm : 0 < m) (h : n ≤ toLocal m t) : toGlobal m n ≤ t := by
  have hpos : (0 : K) ≤ (t : K) / m := div_nonneg (Nat.cast_nonneg t) hm.le
  have hle : (n : K) ≤ (t : K) / m := (Nat.le_floor_iff hpos).mp h
  have hmul : (n : K) * m ≤ t := (le_div_iff₀ hm).mp hle
  exact (Nat.floor_mono hmul).trans_eq (Nat.floor_natCast t)

theorem le_toGlobal (hm : 1 ≤ m) : n ≤ toGlobal m n :=
  Nat.le_floor (le_mul_of_one_le_right (Nat.cast_nonneg n) hm)

theorem toLocal_le (hm : 1 ≤ m) : toLocal m t ≤ t := by
  have hle : (t : K) / m ≤ t := div_le_self (Nat.cast_nonneg t) hm
  exact (Nat.floor_mono hle).trans_eq (Nat.floor_natCast t)

end Clocks

end Lib
