import Mathlib.Data.BitVec
import Mathlib.Data.List.Basic
import Mathlib.Data.Nat.Digits.Defs
import Mathlib.Data.Nat.ModEq
import Mathlib.Tactic.Ring

/- Machine words and their parts.

  `toBytes width n` is the little-endian word of `width` bytes, and `ofBytes` reads one.

  `fields` takes a number apart into a given number of fields of `w` bits, the lowest field first, and `Nat.ofDigits
  (2 ^ w)` makes one. Arithmetic on all fields of a word at once is arithmetic on each of them: sums and differences
  as long as no field borrows, the bitwise operations always (`ofDigits_map_and`), and a shift when a mask behind it
  leaves out the bits that come from the next field (`shift_and_ofDigits_map`).

  `slice a small n` are the `n` bits of a number from `small` on, and `cut a small n` is what is left when they are
  taken out. Together they are the number (`eq_of_slice_of_cut`).

  A set of small numbers is a word with one bit for each number, and `oneHot w p` the word whose only bit is `p`. Bits
  are added and removed with the bitwise operations (`getLsbD_add`, `getLsbD_remove`), and a number is in the set when
  the word has a bit in common with its one-hot word (`and_oneHot_eq_zero`). -/
namespace Lib
open List BitVec Nat

/-! ## Bytes -/

section Words
variable {width n : Nat} {bytes : List UInt8}

def toBytes : Nat → Nat → List UInt8
  | 0, _ => []
  | width + 1, n => UInt8.ofNat (n % 256) :: toBytes width (n / 256)

def ofBytes : List UInt8 → Nat
  | [] => 0
  | byte :: bytes => byte.toNat + 256 * ofBytes bytes

@[simp] theorem length_toBytes : (toBytes width n).length = width := by
  induction width generalizing n with
  | zero => rfl
  | succ width ih => simp [toBytes, ih]

theorem ofBytes_toBytes : ofBytes (toBytes width n) = n % 256 ^ width := by
  induction width generalizing n with
  | zero => simp [toBytes, ofBytes, mod_one]
  | succ width ih =>
    have hbyte : (UInt8.ofNat (n % 256)).toNat = n % 256 := by
      rw [UInt8.toNat_ofNat']
      omega
    calc
      ofBytes (toBytes (width + 1) n)
          = n % 256 + 256 * (n / 256 % 256 ^ width) := by rw [toBytes, ofBytes, hbyte, ih]
      _ = n % (256 * 256 ^ width) := mod_mul.symm
      _ = n % 256 ^ (width + 1) := by rw [pow_succ']

theorem ofBytes_toBytes_of_lt (h : n < 256 ^ width) : ofBytes (toBytes width n) = n := by
  rw [ofBytes_toBytes, mod_eq_of_lt h]

end Words

/-! ## Fields -/

section Fields
variable {w k m n v a b c d : Nat} {fs : List Nat} {g h : Nat → Nat}

def fields (w : Nat) : Nat → Nat → List Nat
  | 0, _ => []
  | n + 1, v => v % 2 ^ w :: fields w n (v / 2 ^ w)

theorem length_fields : (fields w n v).length = n := by
  induction n generalizing v with
  | zero => rfl
  | succ n ih => exact congrArg (· + 1) ih

theorem lt_of_mem_fields {f : Nat} (h : f ∈ fields w n v) : f < 2 ^ w := by
  induction n generalizing v with
  | zero => cases h
  | succ n ih =>
    obtain rfl | h := mem_cons.mp h
    · exact Nat.mod_lt _ (Nat.two_pow_pos w)
    · exact ih h

theorem fields_eq_map : fields w n v = (range n).map fun j => v / 2 ^ (w * j) % 2 ^ w := by
  induction n generalizing v with
  | zero => rfl
  | succ n ih =>
    rw [range_succ_eq_map, map_cons, map_map, Nat.mul_zero, Nat.pow_zero, Nat.div_one]
    show _ :: fields w n (v / 2 ^ w) = _
    rw [ih]
    congr 1
    apply map_congr_left
    intro j _
    show v / 2 ^ w / 2 ^ (w * j) % 2 ^ w = v / 2 ^ (w * (j + 1)) % 2 ^ w
    rw [Nat.div_div_eq_div_mul, ← Nat.pow_add, Nat.mul_succ, Nat.add_comm w]

theorem ofDigits_fields (hv : v < 2 ^ (w * n)) : ofDigits (2 ^ w) (fields w n v) = v := by
  induction n generalizing v with
  | zero =>
    rw [Nat.mul_zero, Nat.pow_zero] at hv
    obtain rfl : v = 0 := by omega
    exact ofDigits_nil ..
  | succ n ih =>
    have hdiv : v / 2 ^ w < 2 ^ (w * n) := by
      apply Nat.div_lt_of_lt_mul
      rw [← Nat.pow_add, Nat.add_comm, ← Nat.mul_succ]
      exact hv
    show ofDigits (2 ^ w) (v % 2 ^ w :: fields w n (v / 2 ^ w)) = v
    rw [ofDigits_cons, ih hdiv]
    exact mod_add_div v (2 ^ w)

theorem fields_ofDigits (hlen : fs.length = n) (hfs : ∀ f ∈ fs, f < 2 ^ w) :
    fields w n (ofDigits (2 ^ w) fs) = fs := by
  subst hlen
  induction fs with
  | nil => rfl
  | cons f fs ih =>
    have hf := hfs f mem_cons_self
    have htail := ih fun x hx => hfs x (mem_cons_of_mem f hx)
    show ofDigits (2 ^ w) (f :: fs) % 2 ^ w :: fields w fs.length (ofDigits (2 ^ w) (f :: fs) / 2 ^ w) = _
    rw [Nat.ofDigits_cons, Nat.add_mul_mod_self_left, Nat.mod_eq_of_lt hf, Nat.add_mul_div_left _ _ (Nat.two_pow_pos w),
      div_eq_of_lt hf, zero_add, htail]

/-! ## Regrouping -/

theorem fields_add : fields w (k + m) v = fields w k (v % 2 ^ (w * k)) ++ fields w m (v / 2 ^ (w * k)) := by
  induction k generalizing v with
  | zero => rw [Nat.zero_add, Nat.mul_zero, Nat.pow_zero, Nat.div_one]; rfl
  | succ k ih =>
    have hpow : 2 ^ (w * (k + 1)) = 2 ^ w * 2 ^ (w * k) := by rw [Nat.mul_succ, Nat.add_comm, Nat.pow_add]
    rw [succ_add_eq_add_succ]
    show v % 2 ^ w :: fields w (k + m) (v / 2 ^ w) =
      v % 2 ^ (w * (k + 1)) % 2 ^ w :: (fields w k (v % 2 ^ (w * (k + 1)) / 2 ^ w) ++ _)
    rw [ih, hpow, Nat.mod_mul_right_mod, Nat.mod_mul_right_div_self, Nat.div_div_eq_div_mul]

theorem fields_mul : fields w (k * n) v = (fields (w * k) n v).flatMap (fields w k) := by
  induction n generalizing v with
  | zero => rfl
  | succ n ih =>
    rw [Nat.mul_succ, Nat.add_comm, fields_add, ih]
    exact flatMap_cons.symm

/-! ## Operations on all fields -/

theorem ofDigits_map_const {base : Nat} :
    ofDigits base (fs.map fun _ => m) = m * ofDigits base (replicate fs.length 1) := by
  induction fs with
  | nil => rfl
  | cons f fs ih =>
    show ofDigits base (m :: fs.map fun _ => m) = m * ofDigits base (1 :: replicate fs.length 1)
    rw [Nat.ofDigits_cons, Nat.ofDigits_cons, ih, Nat.mul_add, Nat.mul_left_comm]
    simp

theorem ofDigits_map_add :
    ofDigits (2 ^ w) (fs.map g) + ofDigits (2 ^ w) (fs.map h) = ofDigits (2 ^ w) (fs.map fun f => g f + h f) := by
  induction fs with
  | nil => rfl
  | cons f fs ih =>
    simp only [map_cons, ofDigits_cons]
    rw [← ih, Nat.mul_add]
    omega

theorem ofDigits_map_sub (hle : ∀ f ∈ fs, h f ≤ g f) :
    ofDigits (2 ^ w) (fs.map g) - ofDigits (2 ^ w) (fs.map h) = ofDigits (2 ^ w) (fs.map fun f => g f - h f) := by
  have hsum : ofDigits (2 ^ w) (fs.map g) =
      ofDigits (2 ^ w) (fs.map h) + ofDigits (2 ^ w) (fs.map fun f => g f - h f) := by
    rw [ofDigits_map_add]
    congr 1
    apply map_congr_left
    intro f hf
    exact (Nat.add_sub_cancel' (hle f hf)).symm
  omega

theorem ofDigits_map_le (hle : ∀ f ∈ fs, h f ≤ g f) :
    ofDigits (2 ^ w) (fs.map h) ≤ ofDigits (2 ^ w) (fs.map g) := by
  induction fs with
  | nil => exact le_refl _
  | cons f fs ih =>
    have htail := ih fun x hx => hle x (mem_cons_of_mem f hx)
    simp only [map_cons, ofDigits_cons]
    exact Nat.add_le_add (hle f mem_cons_self) (Nat.mul_le_mul_left _ htail)

/-- An operation that works on each part of its arguments works on the lowest field and on the rest. -/
theorem split_bitwise {op : Nat → Nat → Nat} (hmod : ∀ x y, op x y % 2 ^ w = op (x % 2 ^ w) (y % 2 ^ w))
    (hdiv : ∀ x y, op x y / 2 ^ w = op (x / 2 ^ w) (y / 2 ^ w)) (ha : a < 2 ^ w) (hc : c < 2 ^ w) :
    op (a + 2 ^ w * b) (c + 2 ^ w * d) = op a c + 2 ^ w * op b d := by
  have hlow : ∀ x y, x < 2 ^ w → (x + 2 ^ w * y) % 2 ^ w = x := by
    intro x y hx
    rw [add_mul_mod_self_left, mod_eq_of_lt hx]
  have hhigh : ∀ x y, x < 2 ^ w → (x + 2 ^ w * y) / 2 ^ w = y := by
    intro x y hx
    rw [Nat.add_mul_div_left _ _ (Nat.two_pow_pos w), Nat.div_eq_of_lt hx, Nat.zero_add]
  rw [← mod_add_div (op (a + 2 ^ w * b) (c + 2 ^ w * d)) (2 ^ w), hmod, hdiv, hlow a b ha, hlow c d hc, hhigh a b ha,
    hhigh c d hc]

theorem ofDigits_map_and (hg : ∀ f ∈ fs, g f < 2 ^ w) (hh : ∀ f ∈ fs, h f < 2 ^ w) :
    ofDigits (2 ^ w) (fs.map g) &&& ofDigits (2 ^ w) (fs.map h) =
      ofDigits (2 ^ w) (fs.map fun f => g f &&& h f) := by
  induction fs with
  | nil => exact and_zero _
  | cons f fs ih =>
    simp only [map_cons, ofDigits_cons]
    rw [← ih (fun x hx => hg x (mem_cons_of_mem f hx)) fun x hx => hh x (mem_cons_of_mem f hx)]
    exact split_bitwise (fun _ _ => and_mod_two_pow) (fun _ _ => and_div_two_pow) (hg f mem_cons_self)
      (hh f mem_cons_self)

theorem ofDigits_map_xor (hg : ∀ f ∈ fs, g f < 2 ^ w) (hh : ∀ f ∈ fs, h f < 2 ^ w) :
    ofDigits (2 ^ w) (fs.map g) ^^^ ofDigits (2 ^ w) (fs.map h) =
      ofDigits (2 ^ w) (fs.map fun f => g f ^^^ h f) := by
  induction fs with
  | nil => exact Nat.xor_zero _
  | cons f fs ih =>
    simp only [map_cons, ofDigits_cons]
    rw [← ih (fun x hx => hg x (mem_cons_of_mem f hx)) fun x hx => hh x (mem_cons_of_mem f hx)]
    exact split_bitwise (fun _ _ => xor_mod_two_pow) (fun _ _ => xor_div_two_pow) (hg f mem_cons_self)
      (hh f mem_cons_self)

/-- The mask leaves out the `k` bits that a shift brings in from above. -/
theorem shift_and_low (ha : a < 2 ^ w) (hk : k ≤ w) (hm : m < 2 ^ (w - k)) :
    (a + 2 ^ w * b) >>> k % 2 ^ w &&& m = a >>> k &&& m := by
  apply eq_of_testBit_eq
  intro i
  rw [testBit_and, testBit_and, testBit_mod_two_pow, testBit_shiftRight, testBit_shiftRight]
  by_cases hi : i < w - k
  · have hlow : (a + 2 ^ w * b) % 2 ^ w = a := by rw [add_mul_mod_self_left, mod_eq_of_lt ha]
    have hbit := testBit_mod_two_pow (a + 2 ^ w * b) w (k + i)
    rw [hlow, decide_eq_true (by omega), Bool.true_and] at hbit
    rw [hbit, decide_eq_true (by omega), Bool.true_and]
  · have hbit : m.testBit i = false :=
      Nat.testBit_lt_two_pow (Nat.lt_of_lt_of_le hm (Nat.pow_le_pow_right (by decide) (by omega)))
    rw [hbit, Bool.and_false, Bool.and_false]

theorem shift_and_ofDigits_map (hg : ∀ f ∈ fs, g f < 2 ^ w) (hk : k ≤ w) (hm : m < 2 ^ (w - k)) :
    ofDigits (2 ^ w) (fs.map g) >>> k &&& ofDigits (2 ^ w) (fs.map fun _ => m) =
      ofDigits (2 ^ w) (fs.map fun f => g f >>> k &&& m) := by
  have hmw : m < 2 ^ w := Nat.lt_of_lt_of_le hm (Nat.pow_le_pow_right (by decide) (Nat.sub_le w k))
  induction fs with
  | nil => simp
  | cons f fs ih =>
    have hf := hg f mem_cons_self
    simp only [map_cons, ofDigits_cons]
    rw [← ih fun x hx => hg x (mem_cons_of_mem f hx)]
    generalize ofDigits (2 ^ w) (fs.map g) = rest
    generalize ofDigits (2 ^ w) (fs.map fun _ => m) = mask
    have hhigh : (g f + 2 ^ w * rest) >>> k / 2 ^ w = rest >>> k := by
      rw [Nat.shiftRight_eq_div_pow, Nat.shiftRight_eq_div_pow, Nat.div_right_comm,
        Nat.add_mul_div_left _ _ (Nat.two_pow_pos w), Nat.div_eq_of_lt hf, Nat.zero_add]
    calc
      (g f + 2 ^ w * rest) >>> k &&& (m + 2 ^ w * mask)
          = ((g f + 2 ^ w * rest) >>> k % 2 ^ w + 2 ^ w * ((g f + 2 ^ w * rest) >>> k / 2 ^ w)) &&& (m + 2 ^ w * mask) := by
        rw [mod_add_div]
      _ = ((g f + 2 ^ w * rest) >>> k % 2 ^ w &&& m) + 2 ^ w * ((g f + 2 ^ w * rest) >>> k / 2 ^ w &&& mask) :=
        split_bitwise (fun _ _ => and_mod_two_pow) (fun _ _ => and_div_two_pow)
          (Nat.mod_lt _ (Nat.two_pow_pos w)) hmw
      _ = (g f >>> k &&& m) + 2 ^ w * (rest >>> k &&& mask) := by rw [shift_and_low hf hk hm, hhigh]

end Fields

/-! ## A slice and the rest -/

section Slices
variable {a a' small n b : Nat}

def slice (a small n : Nat) : Nat := a / 2 ^ small % 2 ^ n

def cut (a small n : Nat) : Nat := 2 ^ small * (a / 2 ^ (small + n)) + a % 2 ^ small

theorem cut_mod : cut a small n % 2 ^ small = a % 2 ^ small := by
  rw [cut, mul_add_mod, mod_mod]

theorem cut_div : cut a small n / 2 ^ small = a / 2 ^ small / 2 ^ n := by
  have hpos := Nat.two_pow_pos small
  rw [cut, Nat.mul_add_div hpos, Nat.div_eq_of_lt (Nat.mod_lt a hpos), Nat.pow_add, Nat.div_div_eq_div_mul]
  rfl

theorem eq_of_slice_of_cut (hslice : slice a small n = slice a' small n) (hcut : cut a small n = cut a' small n) :
    a = a' := by
  have hlow := congrArg (· % 2 ^ small) hcut
  have hhigh := congrArg (· / 2 ^ small) hcut
  simp only [cut_mod, cut_div] at hlow hhigh
  have hdiv : a / 2 ^ small = a' / 2 ^ small := by
    rw [← div_add_mod (a / 2 ^ small) (2 ^ n), ← div_add_mod (a' / 2 ^ small) (2 ^ n), hhigh]
    exact congrArg _ hslice
  rw [← div_add_mod a (2 ^ small), ← div_add_mod a' (2 ^ small), hdiv, hlow]

theorem slice_add : slice a (b + small) n = slice (a / 2 ^ b) small n := by
  rw [slice, slice, Nat.pow_add, Nat.div_div_eq_div_mul]

/-- The lowest bits may be dropped before or after the slice is taken out. -/
theorem cut_div_low : cut a (b + small) n / 2 ^ b = cut (a / 2 ^ b) small n := by
  have hmod : a % 2 ^ (b + small) / 2 ^ b = a / 2 ^ b % 2 ^ small := by
    rw [pow_add, mod_mul_right_div_self]
  rw [cut, cut, Nat.pow_add 2 b small, Nat.mul_assoc, Nat.mul_add_div (Nat.two_pow_pos b), ← Nat.pow_add, hmod,
    Nat.div_div_eq_div_mul, ← Nat.pow_add, Nat.add_assoc]

end Slices

/-! ## Sets of small numbers -/

section Masks
variable {w p q : Nat} {m : BitVec w}

def oneHot (w p : Nat) : BitVec w := 1#w <<< p

theorem getLsbD_oneHot (hp : p < w) : (oneHot w p).getLsbD q = decide (q = p) := by
  unfold oneHot
  rw [← twoPow_eq, getLsbD_twoPow]
  simp [hp, eq_comm]

theorem getLsbD_add (hp : p < w) : (m ||| oneHot w p).getLsbD q = (m.getLsbD q || decide (q = p)) := by
  rw [getLsbD_or, getLsbD_oneHot hp]

theorem getLsbD_remove (hp : p < w) : (m &&& ~~~oneHot w p).getLsbD q = (m.getLsbD q && decide (q ≠ p)) := by
  rw [getLsbD_and, getLsbD_not, getLsbD_oneHot hp]
  by_cases hq : q < w
  · simp [hq]
  · simp [getLsbD_of_ge m q (Nat.le_of_not_lt hq)]

theorem and_oneHot_eq_zero (hp : p < w) : m &&& oneHot w p = 0 ↔ m.getLsbD p = false := by
  unfold oneHot
  rw [← twoPow_eq, and_twoPow]
  constructor
  · intro h
    by_contra hm
    rw [if_pos (Bool.eq_true_of_not_eq_false hm)] at h
    have hbit := congrArg (getLsbD · p) h
    simp [hp] at hbit
  · intro h
    rw [if_neg (by simp [h])]
    rfl

theorem and_oneHot_ne_zero (hp : p < w) : m &&& oneHot w p ≠ 0 ↔ m.getLsbD p = true := by
  rw [Ne, and_oneHot_eq_zero hp, Bool.not_eq_false]

theorem toNat_and_not_low {x mask : BitVec w} {k : Nat} (hmask : mask.toNat = 2 ^ k - 1) :
    (x &&& ~~~mask).toNat = x.toNat / 2 ^ k * 2 ^ k := by
  apply eq_of_testBit_eq
  intro i
  have hlow : mask.getLsbD i = decide (i < k) := by
    rw [← testBit_toNat, hmask, testBit_two_pow_sub_one]
  rw [testBit_toNat, getLsbD_and, getLsbD_not, hlow, testBit_mul_two_pow, testBit_div_two_pow,
    testBit_toNat]
  by_cases hi : i < k
  · simp [hi]
  · have hle : k ≤ i := Nat.le_of_not_lt hi
    by_cases hw : i < w
    · simp [hi, hw, hle]
    · simp [hle, getLsbD_of_ge x i (Nat.le_of_not_lt hw)]

end Masks

end Lib
