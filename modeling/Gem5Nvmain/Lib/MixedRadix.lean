import Mathlib.Algebra.BigOperators.Group.List.Basic
import Mathlib.Logic.Function.Basic
import Mathlib.Data.Nat.ModEq

/- Numbers in mixed radix.

  The digits are named: `ks` lists the names from the lowest digit to the highest one, and `radix k` is the radix of
  the digit `k`. `pack` makes the number and `unpack` takes it apart; they are inverse to each other as long as no
  name comes twice, the digits are below their radices (`unpack_pack`) and the number below the product of all
  (`pack_unpack`). -/
namespace Lib
open Function List Nat

section MixedRadix
variable {ι : Type} {radix : ι → Nat} {ks : List ι} {f g : ι → Nat} {k : ι} {a : Nat}

variable (radix) in
def pack : List ι → (ι → Nat) → Nat
  | [], _ => 0
  | k :: ks, f => f k + radix k * pack ks f

def size (radix : ι → Nat) (ks : List ι) : Nat := (ks.map radix).prod

theorem size_perm {js : List ι} (h : ks.Perm js) : size radix ks = size radix js := (h.map radix).prod_eq

theorem size_two_pow (width : ι → Nat) (ks : List ι) : size (fun k => 2 ^ width k) ks = 2 ^ (ks.map width).sum := by
  induction ks with
  | nil => rfl
  | cons k ks ih =>
    show (_ :: ks.map _).prod = 2 ^ (_ :: ks.map width).sum
    rw [prod_cons, sum_cons, pow_add]
    exact congrArg (2 ^ width k * ·) ih

theorem pack_congr (h : ∀ k ∈ ks, f k = g k) : pack radix ks f = pack radix ks g := by
  induction ks with
  | nil => rfl
  | cons k ks ih =>
    show f k + radix k * pack radix ks f = g k + radix k * pack radix ks g
    rw [h k mem_cons_self, ih fun j hj => h j (mem_cons_of_mem k hj)]

theorem pack_lt (hf : ∀ k ∈ ks, f k < radix k) : pack radix ks f < size radix ks := by
  induction ks with
  | nil => exact one_pos
  | cons k ks ih =>
    have hhead := hf k mem_cons_self
    have htail := ih fun j hj => hf j (mem_cons_of_mem k hj)
    calc
      pack radix (k :: ks) f = f k + radix k * pack radix ks f := rfl
      _ < radix k + radix k * pack radix ks f := by omega
      _ = radix k * (pack radix ks f + 1) := by rw [mul_add, mul_one, add_comm]
      _ ≤ radix k * size radix ks := mul_le_mul_left _ htail
      _ = size radix (k :: ks) := prod_cons.symm

theorem digit_inj {a b x y n : Nat} (ha : a < n) (hb : b < n) (h : a + n * x = b + n * y) : a = b ∧ x = y := by
  have hab : a = b := by
    rw [← mod_eq_of_lt ha, ← mod_eq_of_lt hb, ← add_mul_mod_self_left a n x, h, add_mul_mod_self_left]
  subst hab
  exact ⟨rfl, Nat.eq_of_mul_eq_mul_left (by omega) (Nat.add_left_cancel h)⟩

variable [DecidableEq ι]

variable (radix) in
/-- The digits of `a`, over what `g` says of the other names. -/
def unpack : List ι → Nat → (ι → Nat) → ι → Nat
  | [], _, g => g
  | k :: ks, a, g => unpack ks (a / radix k) (update g k (a % radix k))

theorem unpack_of_notMem (hk : k ∉ ks) : unpack radix ks a g k = g k := by
  induction ks generalizing a g with
  | nil => rfl
  | cons j ks ih =>
    obtain ⟨hne, hk⟩ := not_or.mp (mt mem_cons.mpr hk)
    exact (ih hk).trans (update_of_ne hne _ _)

theorem unpack_lt (hr : 0 < radix k) (hk : k ∈ ks) : unpack radix ks a g k < radix k := by
  induction ks generalizing a g with
  | nil => cases hk
  | cons j ks ih =>
    by_cases hmem : k ∈ ks
    · exact ih hmem
    · obtain rfl : k = j := (mem_cons.mp hk).resolve_right hmem
      show unpack radix ks _ _ k < radix k
      rw [unpack_of_notMem hmem, update_self]
      exact mod_lt a hr

theorem unpack_pack (hnd : ks.Nodup) (hf : ∀ k ∈ ks, f k < radix k) (hk : k ∈ ks) :
    unpack radix ks (pack radix ks f) g k = f k := by
  induction ks generalizing g with
  | nil => cases hk
  | cons j ks ih =>
    obtain ⟨hj, hnd⟩ := nodup_cons.mp hnd
    have hlt := hf j mem_cons_self
    have hmod : (f j + radix j * pack radix ks f) % radix j = f j := by
      rw [add_mul_mod_self_left, mod_eq_of_lt hlt]
    have hdiv : (f j + radix j * pack radix ks f) / radix j = pack radix ks f := by
      rw [add_mul_div_left _ _ (by omega), div_eq_of_lt hlt, zero_add]
    show unpack radix ks ((f j + radix j * pack radix ks f) / radix j)
      (update g j ((f j + radix j * pack radix ks f) % radix j)) k = f k
    rw [hmod, hdiv]
    obtain rfl | hk := mem_cons.mp hk
    · rw [unpack_of_notMem hj, update_self]
    · exact ih hnd (fun i hi => hf i (mem_cons_of_mem j hi)) hk

theorem pack_unpack (hnd : ks.Nodup) : pack radix ks (unpack radix ks a g) = a % size radix ks := by
  induction ks generalizing a g with
  | nil => exact (mod_one a).symm
  | cons k ks ih =>
    obtain ⟨hk, hnd⟩ := nodup_cons.mp hnd
    have hdigit : unpack radix (k :: ks) a g k = a % radix k := by
      show unpack radix ks _ _ k = _
      rw [unpack_of_notMem hk, update_self]
    calc
      pack radix (k :: ks) (unpack radix (k :: ks) a g)
          = a % radix k + radix k * (a / radix k % size radix ks) := by
        show unpack radix (k :: ks) a g k + _ = _
        rw [hdigit]
        exact congrArg (fun n => a % radix k + radix k * n) (ih hnd)
      _ = a % (radix k * size radix ks) := mod_mul.symm
      _ = a % size radix (k :: ks) := by rw [size, size, map_cons, prod_cons]

end MixedRadix

end Lib
