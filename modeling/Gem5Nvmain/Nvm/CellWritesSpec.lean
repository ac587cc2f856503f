import Gem5Nvmain.Nvm.CellWrites
import Gem5Nvmain.Lib.Words
import Mathlib.Algebra.BigOperators.Group.List.Basic
import Mathlib.Data.List.Count

/- The counts of cell values are right, and when the write time follows from them.

  1. The parallel count of ones is a computation on the four bytes of the word (`count32MLC1_toNat`).
  2. The pattern that Count32MLC2 makes has one bit for each cell of the value (`count32MLC2_ok`), so the counts of
     a block are those of its cells (`countBitsMLC2_ok`).
  3. The branches after the counts leave out the data that has both 00 and 11 and nothing between (`timed_iff`). -/
namespace Nvm
open Lib List Nat

/-! ## The count of ones -/

theorem ofDigits_mask {m : Nat} {fs : List Nat} (hlen : fs.length = 4) :
    ofDigits (2 ^ 8) (fs.map fun _ => m) = m * 0x01010101 := by
  have hones : ofDigits (2 ^ 8) (replicate 4 1) = 0x01010101 := by decide
  rw [ofDigits_map_const, hlen, hones]

theorem toNat_eq_bytes (x : BitVec 32) : x.toNat = ofDigits (2 ^ 8) ((fields 8 4 x.toNat).map fun b => b) := by
  rw [map_id']
  exact (ofDigits_fields x.isLt).symm

/-- The number of ones in each pair of bits, and in each half of a byte. -/
def pairs (b : Nat) : Nat := b - (b >>> 1 &&& 0x55)
def halves (b : Nat) : Nat := (pairs b &&& 0x33) + (pairs b >>> 2 &&& 0x33)

theorem byte_steps : ∀ b < 256, b >>> 1 &&& 0x55 ≤ b ∧ pairs b < 256 ∧ halves b < 256 ∧ halves b % 16 ≤ 4 ∧
    halves b / 16 ≤ 4 ∧ halves b % 16 + halves b / 16 = (fields 1 8 b).sum := by decide +kernel

section Bytes
variable {x : BitVec 32}

theorem pairs_toNat : (x - ((x >>> 1) &&& 0x55555555#32)).toNat = ofDigits (2 ^ 8) ((fields 8 4 x.toNat).map pairs) := by
  have hbytes : ∀ b ∈ fields 8 4 x.toNat, b < 256 := fun b hb => lt_of_mem_fields hb
  have hmask : (0x55555555#32).toNat = 0x55 * 0x01010101 := by decide
  have hshift : ((x >>> 1) &&& 0x55555555#32).toNat =
      ofDigits (2 ^ 8) ((fields 8 4 x.toNat).map fun b => b >>> 1 &&& 0x55) := by
    rw [← shift_and_ofDigits_map hbytes (by decide) (by decide), ← toNat_eq_bytes, ofDigits_mask length_fields,
      BitVec.toNat_and, BitVec.toNat_ushiftRight, hmask]
  have hle : ((x >>> 1) &&& 0x55555555#32).toNat ≤ x.toNat := by
    rw [hshift]
    conv => rhs; rw [toNat_eq_bytes x]
    exact ofDigits_map_le fun b hb => (byte_steps b (hbytes b hb)).1
  rw [BitVec.toNat_sub_of_le hle, hshift]
  conv => lhs; lhs; rw [toNat_eq_bytes x]
  exact ofDigits_map_sub fun b hb => (byte_steps b (hbytes b hb)).1

variable {y : BitVec 32}

theorem halves_toNat (hy : y.toNat = ofDigits (2 ^ 8) ((fields 8 4 x.toNat).map pairs)) :
    ((y &&& 0x33333333#32) + ((y >>> 2) &&& 0x33333333#32)).toNat = ofDigits (2 ^ 8) ((fields 8 4 x.toNat).map halves) := by
  have hbytes : ∀ b ∈ fields 8 4 x.toNat, b < 256 := fun b hb => lt_of_mem_fields hb
  have hpairs : ∀ b ∈ fields 8 4 x.toNat, pairs b < 2 ^ 8 := fun b hb => (byte_steps b (hbytes b hb)).2.1
  have hmask : (0x33333333#32).toNat = 0x33 * 0x01010101 := by decide
  have hlow : (y &&& 0x33333333#32).toNat = ofDigits (2 ^ 8) ((fields 8 4 x.toNat).map fun b => pairs b &&& 0x33) := by
    rw [← ofDigits_map_and hpairs fun _ _ => by decide, ← hy, ofDigits_mask length_fields, BitVec.toNat_and, hmask]
  have hhigh : ((y >>> 2) &&& 0x33333333#32).toNat =
      ofDigits (2 ^ 8) ((fields 8 4 x.toNat).map fun b => pairs b >>> 2 &&& 0x33) := by
    rw [← shift_and_ofDigits_map hpairs (by decide) (by decide), ← hy, ofDigits_mask length_fields, BitVec.toNat_and,
      BitVec.toNat_ushiftRight, hmask]
  have hsum : (y &&& 0x33333333#32).toNat + ((y >>> 2) &&& 0x33333333#32).toNat =
      ofDigits (2 ^ 8) ((fields 8 4 x.toNat).map halves) := by
    rw [hlow, hhigh, ofDigits_map_add]
    rfl
  have hlt : ofDigits (2 ^ 8) ((fields 8 4 x.toNat).map halves) < (2 ^ 8) ^ 4 := by
    apply ofDigits_lt_base_pow_length (by decide)
    intro h hh
    obtain ⟨b, hb, rfl⟩ := mem_map.mp hh
    exact (byte_steps b (hbytes b hb)).2.2.1
  rw [BitVec.toNat_add_of_lt (by rw [hsum]; exact hlt), hsum]

variable {l0 u0 l1 u1 l2 u2 l3 u3 : Nat}

/-- A byte of the sum of a word and the word shifted by half a byte. -/
theorem fields_halves (hy : y.toNat = ofDigits (2 ^ 8) [l0 + 16 * u0, l1 + 16 * u1, l2 + 16 * u2, l3 + 16 * u3])
    (hl : ∀ n ∈ [l0, u0, l1, u1, l2, u2, l3, u3], n ≤ 4) : fields 8 4 (y + (y >>> 4)).toNat =
      [l0 + u0 + 16 * (u0 + l1), l1 + u1 + 16 * (u1 + l2), l2 + u2 + 16 * (u2 + l3), l3 + u3 + 16 * u3] := by
  simp only [forall_mem_cons] at hl
  have hshift : (y >>> 4).toNat = y.toNat / 16 := by
    rw [BitVec.toNat_ushiftRight, shiftRight_eq_div_pow]
  have hsum : (y + (y >>> 4)).toNat = ofDigits (2 ^ 8)
      [l0 + u0 + 16 * (u0 + l1), l1 + u1 + 16 * (u1 + l2), l2 + u2 + 16 * (u2 + l3), l3 + u3 + 16 * u3] := by
    simp only [ofDigits_cons, ofDigits_nil] at hy ⊢
    rw [BitVec.toNat_add_of_lt (by omega), hshift]
    omega
  rw [hsum]
  refine fields_ofDigits rfl ?_
  simp only [forall_mem_cons, not_mem_nil, false_imp_iff, implies_true, and_true]
  omega

/-- The multiplication adds the bytes up in the highest one. -/
theorem sum_bytes {z0 z1 z2 z3 : Nat} (hz : ∀ z ∈ [z0, z1, z2, z3], z ≤ 8) :
    ofDigits (2 ^ 8) [z0, z1, z2, z3] * 0x01010101 % 2 ^ 32 / 2 ^ 24 = [z0, z1, z2, z3].sum := by
  simp only [forall_mem_cons] at hz
  have hproduct : ofDigits (2 ^ 8) [z0, z1, z2, z3] * 0x01010101 =
      z0 + 2 ^ 8 * (z0 + z1) + 2 ^ 16 * (z0 + z1 + z2) + 2 ^ 24 * (z0 + z1 + z2 + z3) +
        2 ^ 32 * (z1 + z2 + z3 + 2 ^ 8 * (z2 + z3) + 2 ^ 16 * z3) := by
    simp only [ofDigits_cons, ofDigits_nil]
    omega
  rw [hproduct, add_mul_mod_self_left, mod_eq_of_lt (by omega), add_mul_div_left _ _ (by decide),
    div_eq_of_lt (by omega)]
  simp only [sum_cons, sum_nil]
  omega

theorem add_nibbles (hy : y.toNat = ofDigits (2 ^ 8) [l0 + 16 * u0, l1 + 16 * u1, l2 + 16 * u2, l3 + 16 * u3])
    (hl : ∀ n ∈ [l0, u0, l1, u1, l2, u2, l3, u3], n ≤ 4) :
    ((((y + (y >>> 4)) &&& 0x0f0f0f0f#32) * 0x01010101#32) >>> 24).toNat = [l0 + u0, l1 + u1, l2 + u2, l3 + u3].sum := by
  have hmask : (0x0f0f0f0f#32).toNat = 0x0f * 0x01010101 := by decide
  have hones : (0x01010101#32).toNat = 0x01010101 := by decide
  have hlow : ((y + (y >>> 4)) &&& 0x0f0f0f0f#32).toNat =
      ofDigits (2 ^ 8) ((fields 8 4 (y + (y >>> 4)).toNat).map fun b => b &&& 0x0f) := by
    rw [← ofDigits_map_and (fun b hb => lt_of_mem_fields hb) fun _ _ => by decide, ← toNat_eq_bytes,
      ofDigits_mask length_fields, BitVec.toNat_and, hmask]
  have hand : ∀ b, b &&& 0x0f = b % 16 := fun b => and_two_pow_sub_one_eq_mod b 4
  simp only [forall_mem_cons] at hl
  have hbytes : (fields 8 4 (y + (y >>> 4)).toNat).map (fun b => b &&& 0x0f) = [l0 + u0, l1 + u1, l2 + u2, l3 + u3] := by
    rw [fields_halves hy (by simpa using hl)]
    simp only [map_cons, map_nil, hand, cons.injEq, and_true]
    omega
  rw [BitVec.toNat_ushiftRight, BitVec.toNat_mul, hlow, hbytes, hones, shiftRight_eq_div_pow]
  apply sum_bytes
  simp only [forall_mem_cons, not_mem_nil, false_imp_iff, implies_true, and_true]
  omega

theorem add_halves {h0 h1 h2 h3 : Nat} (hy : y.toNat = ofDigits (2 ^ 8) [h0, h1, h2, h3])
    (hb : ∀ h ∈ [h0, h1, h2, h3], h % 16 ≤ 4 ∧ h / 16 ≤ 4) :
    ((((y + (y >>> 4)) &&& 0x0f0f0f0f#32) * 0x01010101#32) >>> 24).toNat =
      ([h0, h1, h2, h3].map fun h => h % 16 + h / 16).sum := by
  rw [← mod_add_div h0 16, ← mod_add_div h1 16, ← mod_add_div h2 16, ← mod_add_div h3 16] at hy
  apply add_nibbles hy
  simp only [forall_mem_cons, not_mem_nil, false_imp_iff, implies_true, and_true] at hb ⊢
  omega

/-- The parallel count is the number of ones. -/
theorem count32MLC1_toNat : (count32MLC1 x).toNat = (fields 1 32 x.toNat).sum := by
  have hbytes : ∀ b ∈ fields 8 4 x.toNat, b < 256 := fun b hb => lt_of_mem_fields hb
  have hhalves := halves_toNat (pairs_toNat (x := x))
  obtain ⟨b0, b1, b2, b3, hx⟩ := length_eq_four.mp (length_fields)
  rw [hx] at hbytes hhalves
  have hcount := add_halves hhalves (by
    intro h hh
    obtain ⟨b, hb, rfl⟩ : ∃ b ∈ [b0, b1, b2, b3], halves b = h := mem_map.mp hh
    exact ⟨(byte_steps b (hbytes b hb)).2.2.2.1, (byte_steps b (hbytes b hb)).2.2.2.2.1⟩)
  have hones : (fields 1 32 x.toNat).sum = ([b0, b1, b2, b3].map fun b => halves b % 16 + halves b / 16).sum := by
    have hsplit : fields 1 32 x.toNat = (fields 8 4 x.toNat).flatMap (fields 1 8) := fields_mul (k := 8) (n := 4)
    rw [hsplit, hx, flatMap_def, sum_flatten, map_map]
    congr 1
    apply map_congr_left
    intro b hb
    exact (byte_steps b (hbytes b hb)).2.2.2.2.2.symm
  rw [hones]
  exact (BitVec.toNat_setWidth_of_le (by decide)).trans hcount

end Bytes

/-! ## The count of cells -/

theorem count_eq_sum (l : List Nat) (n : Nat) : l.count n = (l.map fun f => if f = n then 1 else 0).sum := by
  induction l with
  | nil => rfl
  | cons f l ih =>
    rw [count_cons, map_cons, sum_cons, ih, add_comm]
    simp only [beq_iff_eq]

section Cells
variable {data : BitVec 32} {v : BitVec 2}

/-- The cells of a word, the lowest one first. -/
def cells (data : BitVec 32) : List (BitVec 2) := (range 16).map fun j => data.extractLsb' (2 * j) 2

theorem map_toNat_cells : (cells data).map BitVec.toNat = fields 2 16 data.toNat := by
  rw [fields_eq_map, cells, map_map]
  apply map_congr_left
  intro j _
  show data.toNat >>> (2 * j) % 2 ^ 2 = _
  rw [shiftRight_eq_div_pow]

theorem length_cells : (cells data).length = 16 := by
  rw [cells, length_map, length_range]

/-- What turns the cells of the value into 11. -/
def flipOf (v : BitVec 2) : BitVec 2 := 3 - v

def flipMask (v : BitVec 2) : BitVec 32 := BitVec.ofNat 32 ((flipOf v).toNat * 0x55555555)

/-- The pattern of Count32MLC2, and what it makes of one cell. -/
def pattern (v : BitVec 2) (data : BitVec 32) : BitVec 32 :=
  ((data ^^^ flipMask v) &&& 0x55555555#32) &&& (((data ^^^ flipMask v) &&& 0xAAAAAAAA#32) >>> 1)

def cellPattern (v : BitVec 2) (f : Nat) : Nat :=
  (((f ^^^ (flipOf v).toNat) &&& 2) >>> 1 &&& 1) &&& (f ^^^ (flipOf v).toNat)

theorem cellPattern_eq : ∀ v : BitVec 2, ∀ f < 4, cellPattern v f = if f = v.toNat then 1 else 0 := by decide

theorem ofDigits_cellMask {m : Nat} {fs : List Nat} (hlen : fs.length = 16) :
    ofDigits (2 ^ 2) (fs.map fun _ => m) = m * 0x55555555 := by
  have hones : ofDigits (2 ^ 2) (replicate 16 1) = 0x55555555 := by decide
  rw [ofDigits_map_const, hlen, hones]

theorem flipped_toNat : (data ^^^ flipMask v).toNat =
      ofDigits (2 ^ 2) ((fields 2 16 data.toNat).map fun f => f ^^^ (flipOf v).toNat) := by
  have hcells : ∀ f ∈ fields 2 16 data.toNat, f < 2 ^ 2 := fun f hf => lt_of_mem_fields hf
  have hmask : (flipMask v).toNat = (flipOf v).toNat * 0x55555555 := by
    rw [flipMask, BitVec.toNat_ofNat, mod_eq_of_lt (by omega)]
  have hdata : data.toNat = ofDigits (2 ^ 2) ((fields 2 16 data.toNat).map fun f => f) := by
    rw [map_id']
    exact (ofDigits_fields data.isLt).symm
  rw [← ofDigits_map_xor hcells fun _ _ => (flipOf v).isLt, ofDigits_cellMask length_fields, ← hdata, BitVec.toNat_xor, hmask]

theorem pattern_toNat :
    (pattern v data).toNat = ofDigits (2 ^ 2) ((fields 2 16 data.toNat).map (cellPattern v)) := by
  have hflip : ∀ f ∈ fields 2 16 data.toNat, f ^^^ (flipOf v).toNat < 2 ^ 2 :=
    fun f hf => xor_lt_two_pow (lt_of_mem_fields hf) (flipOf v).isLt
  have hand : ∀ f ∈ fields 2 16 data.toNat, (f ^^^ (flipOf v).toNat) &&& 2 < 2 ^ 2 :=
    fun f hf => and_lt_two_pow _ (by decide)
  have heven : (0x55555555#32).toNat = 1 * 0x55555555 := by decide
  have hodd : (0xAAAAAAAA#32).toNat = 2 * 0x55555555 := by decide
  have hhigh : ((((data ^^^ flipMask v) &&& 0xAAAAAAAA#32) >>> 1) &&& 0x55555555#32).toNat =
      ofDigits (2 ^ 2) ((fields 2 16 data.toNat).map fun f => ((f ^^^ (flipOf v).toNat) &&& 2) >>> 1 &&& 1) := by
    rw [← shift_and_ofDigits_map hand (by decide) (by decide), ← ofDigits_map_and hflip fun _ _ => by decide,
      ofDigits_cellMask length_fields, ofDigits_cellMask length_fields, ← flipped_toNat, BitVec.toNat_and,
      BitVec.toNat_ushiftRight, BitVec.toNat_and, heven, hodd]
  have hswap : pattern v data =
      ((((data ^^^ flipMask v) &&& 0xAAAAAAAA#32) >>> 1) &&& 0x55555555#32) &&& (data ^^^ flipMask v) := by
    unfold pattern
    rw [BitVec.and_assoc, BitVec.and_comm, BitVec.and_comm 0x55555555#32]
  rw [hswap, BitVec.toNat_and, hhigh, flipped_toNat, ofDigits_map_and (fun f hf => and_lt_two_pow _ (by decide)) hflip]
  rfl

theorem count_cells : (count32MLC1 (pattern v data)).toNat = (cells data).count v := by
  have hcells : ∀ f ∈ fields 2 16 data.toNat, f < 4 := fun f hf => lt_of_mem_fields hf
  have hfields : fields 2 16 (pattern v data).toNat = (fields 2 16 data.toNat).map (cellPattern v) := by
    rw [pattern_toNat]
    apply fields_ofDigits ((length_map ..).trans length_fields)
    intro p hp
    obtain ⟨f, hf, rfl⟩ := mem_map.mp hp
    rw [cellPattern_eq v f (hcells f hf)]
    split <;> decide
  have hones : fields 1 32 (pattern v data).toNat = (fields 2 16 (pattern v data).toNat).flatMap (fields 1 2) :=
    fields_mul (k := 2) (n := 16)
  calc
    (count32MLC1 (pattern v data)).toNat = (fields 1 32 (pattern v data).toNat).sum := count32MLC1_toNat
    _ = ((fields 2 16 data.toNat).map fun f => (fields 1 2 (cellPattern v f)).sum).sum := by
      rw [hones, hfields, flatMap_def, sum_flatten, map_map, map_map]
      rfl
    _ = ((fields 2 16 data.toNat).map fun f => if f = v.toNat then 1 else 0).sum := by
      congr 1
      apply map_congr_left
      intro f hf
      rw [cellPattern_eq v f (hcells f hf)]
      split <;> rfl
    _ = (fields 2 16 data.toNat).count v.toNat := (count_eq_sum _ _).symm
    _ = (cells data).count v := by
      rw [← map_toNat_cells]
      exact count_map_of_injective _ _ (fun _ _ h => BitVec.eq_of_toNat_eq h) _

theorem count32MLC2_ok : count32MLC2 (v.setWidth 8) data = .ok (count32MLC1 (pattern v data)) := by
  have hv : v = 0 ∨ v = 1 ∨ v = 2 ∨ v = 3 := by
    revert v
    decide
  obtain rfl | rfl | rfl | rfl := hv
  · rfl
  · rfl
  · rfl
  · have hpattern : pattern 3 data = (data &&& 0x55555555#32) &&& ((data &&& 0xAAAAAAAA#32) >>> 1) := by
      have hzero : data ^^^ flipMask 3 = data := BitVec.xor_zero
      rw [pattern, hzero]
    rw [hpattern]
    rfl

end Cells

section Block
variable {ws : List (BitVec 32)} {v : BitVec 2}

/-- The cells of a block of words. -/
def cellsOf (ws : List (BitVec 32)) : List (BitVec 2) := ws.flatMap cells

theorem count32_eq {data : BitVec 32} : count32MLC1 (pattern v data) = BitVec.ofNat 64 ((cells data).count v) := by
  rw [← count_cells, BitVec.ofNat_toNat, BitVec.setWidth_eq]

theorem countBitsMLC2_take {k : Nat} (hk : k ≤ ws.length) :
    countBitsMLC2 (v.setWidth 8) ws k = .ok (BitVec.ofNat 64 ((cellsOf (ws.take k)).count v)) := by
  induction k with
  | zero => rfl
  | succ k ih =>
    have hword : index ws k = .ok ws[k] := index_eq_ok.mpr (getElem?_eq_getElem hk)
    have hcells : cellsOf (ws.take (k + 1)) = cellsOf (ws.take k) ++ cells ws[k] := by
      rw [cellsOf, take_succ_eq_append_getElem hk, flatMap_append, flatMap_singleton]
      rfl
    rw [countBitsMLC2, ih (le_of_succ_le hk), hcells, count_append]
    show (do let word ← index ws k; let n ← count32MLC2 (v.setWidth 8) word; pure (_ + n)) = _
    rw [hword]
    show (do let n ← count32MLC2 (v.setWidth 8) ws[k]; pure (_ + n)) = _
    rw [count32MLC2_ok, count32_eq]
    show Except.ok (_ + _) = _
    rw [BitVec.ofNat_add]

theorem countBitsMLC2_ok : countBitsMLC2 (v.setWidth 8) ws ws.length = .ok (BitVec.ofNat 64 ((cellsOf ws).count v)) := by
  rw [countBitsMLC2_take (le_refl _), take_length]

theorem length_cellsOf : (cellsOf ws).length = 16 * ws.length := by
  induction ws with
  | nil => rfl
  | cons w ws ih =>
    show (cells w ++ cellsOf ws).length = _
    rw [length_append, length_cells, ih, length_cons]
    omega

theorem counts_sum (l : List (BitVec 2)) : l.count 0 + l.count 1 + l.count 2 + l.count 3 = l.length := by
  induction l with
  | nil => rfl
  | cons c l ih =>
    have hone : ∀ c : BitVec 2, [c].count 0 + [c].count 1 + [c].count 2 + [c].count 3 = 1 := by decide
    have hc := hone c
    simp only [count_cons, count_nil, length_cons] at hc ⊢
    omega

end Block

/-! ## When a write is timed by its cells -/

section Timing
variable {p : CellParams} {early : Bool} {mode : WriteMode} {now draw : BitVec 64} {ws : List (BitVec 32)} {r : CellWrite}

/-- The pulse of a value that needs only one: all pulses are alike where the data is not looked at. -/
def CellParams.pulse (p : CellParams) (early : Bool) (v : BitVec 2) : BitVec 64 :=
  if p.uniformWrites || early then p.tWP else if v = 0 then p.tWP0 else p.tWP1

/-- Some cell takes an intermediate value. -/
def Intermediate (ws : List (BitVec 32)) : Prop := 1 ∈ cellsOf ws ∨ 2 ∈ cellsOf ws

instance : Decidable (Intermediate ws) := inferInstanceAs (Decidable (_ ∨ _))

/-- The counts are those of the cells, no assertion fails, and without intermediate cells the delay is the largest
  pulse of the values that are written. -/
structure TimedByCells (write : BitVec 64 → BitVec 64 → Option (List (BitVec 32)) → Except Stop CellWrite)
    (pulse : BitVec 2 → BitVec 64) (ws : List (BitVec 32)) : Prop where
  counts : ∀ v : BitVec 2, ∃ n, countBitsMLC2 (v.setWidth 8) ws ws.length = .ok n ∧ n.toNat = (cellsOf ws).count v
  sum : ∀ n00 n01 n10 n11, countBitsMLC2 0 ws ws.length = .ok n00 → countBitsMLC2 1 ws ws.length = .ok n01 →
    countBitsMLC2 2 ws ws.length = .ok n10 → countBitsMLC2 3 ws ws.length = .ok n11 →
    n00.toNat + n01.toNat + n10.toNat + n11.toNat = 16 * ws.length
  defined : ∀ now draw, ∃ r, write now draw (some ws) = .ok r
  delay : ∀ now draw r, write now draw (some ws) = .ok r → ¬ Intermediate ws → ws ≠ [] →
    (∃ v ∈ cellsOf ws, r.delay = pulse v) ∧ ∀ v ∈ cellsOf ws, pulse v ≤ r.delay

theorem writeBytes32_toNat (hwords : p.memoryWordSize.toNat = 32 * ws.length) : p.writeBytes32.toNat = ws.length := by
  show (p.memoryWordSize / 32).toNat = _
  rw [BitVec.toNat_udiv, hwords]
  exact Nat.mul_div_cancel_left _ (by decide)

theorem count_lt (hwords : p.memoryWordSize.toNat = 32 * ws.length) (v : BitVec 2) : (cellsOf ws).count v < 2 ^ 64 := by
  have hle : (cellsOf ws).count v ≤ (cellsOf ws).length := count_le_length
  rw [length_cellsOf] at hle
  omega

theorem counts_add (hwords : p.memoryWordSize.toNat = 32 * ws.length) :
    BitVec.ofNat 64 ((cellsOf ws).count 0) + BitVec.ofNat 64 ((cellsOf ws).count 1) +
      BitVec.ofNat 64 ((cellsOf ws).count 2) + BitVec.ofNat 64 ((cellsOf ws).count 3) =
        (p.memoryWordSize / 2).setWidth 64 := by
  rw [← BitVec.ofNat_add, ← BitVec.ofNat_add, ← BitVec.ofNat_add, counts_sum, length_cellsOf]
  apply BitVec.eq_of_toNat_eq
  have hhalf : (p.memoryWordSize / 2).toNat = 16 * ws.length := by
    rw [BitVec.toNat_udiv, hwords]
    show 32 * ws.length / 2 = _
    omega
  rw [BitVec.toNat_setWidth, hhalf, BitVec.toNat_ofNat]

/-- The branch for two bits a cell, with the counts read as what they count. -/
theorem writeMLC2_eq (now draw : BitVec 64) (hwords : p.memoryWordSize.toNat = 32 * ws.length) :
    ∃ intermediate, p.writeMLC2 now draw ws =
      if Intermediate ws then .ok intermediate
      else if 0 ∈ cellsOf ws ∧ 3 ∉ cellsOf ws then .ok (CellParams.pulsed now p.tWP0 0 0)
      else if 0 ∉ cellsOf ws ∧ 3 ∈ cellsOf ws then .ok (CellParams.pulsed now p.tWP1 0 0)
      else .error .assertFailed := by
  have hcount : ∀ v : BitVec 2, countBitsMLC2 (v.setWidth 8) ws p.writeBytes32.toNat =
      .ok (BitVec.ofNat 64 ((cellsOf ws).count v)) := by
    intro v
    rw [writeBytes32_toNat hwords]
    exact countBitsMLC2_ok
  have hzero : ∀ v : BitVec 2, BitVec.ofNat 64 ((cellsOf ws).count v) = 0 ↔ v ∉ cellsOf ws := by
    intro v
    rw [← BitVec.toNat_inj, BitVec.toNat_ofNat, mod_eq_of_lt (count_lt hwords v)]
    exact count_eq_zero
  have h0 : countBitsMLC2 0 ws p.writeBytes32.toNat = _ := hcount 0
  have h1 : countBitsMLC2 1 ws p.writeBytes32.toNat = _ := hcount 1
  have h2 : countBitsMLC2 2 ws p.writeBytes32.toNat = _ := hcount 2
  have h3 : countBitsMLC2 3 ws p.writeBytes32.toNat = _ := hcount 3
  have hmid : Intermediate ws ↔
      BitVec.ofNat 64 ((cellsOf ws).count 1) ≠ 0 ∨ BitVec.ofNat 64 ((cellsOf ws).count 2) ≠ 0 := by
    rw [Ne, Ne, hzero, hzero, not_not, not_not]
    rfl
  have hlow : (0 ∈ cellsOf ws ∧ 3 ∉ cellsOf ws) ↔
      BitVec.ofNat 64 ((cellsOf ws).count 0) ≠ 0 ∧ BitVec.ofNat 64 ((cellsOf ws).count 3) = 0 := by
    rw [Ne, hzero, hzero, not_not]
  have hhigh : (0 ∉ cellsOf ws ∧ 3 ∈ cellsOf ws) ↔
      BitVec.ofNat 64 ((cellsOf ws).count 0) = 0 ∧ BitVec.ofNat 64 ((cellsOf ws).count 3) ≠ 0 := by
    rw [Ne, hzero, hzero, not_not]
  unfold CellParams.writeMLC2
  rw [h0, h1, h2, h3]
  simp only [bind_ok, counts_add hwords, decide_true, require, if_true, hmid, hlow, hhigh]
  by_cases hany : BitVec.ofNat 64 ((cellsOf ws).count 1) ≠ 0 ∨ BitVec.ofNat 64 ((cellsOf ws).count 2) ≠ 0
  · cases p.programMode with
    | srms => exact ⟨_, rfl⟩
    | ssmr => exact ⟨_, rfl⟩
  · simp only [if_neg hany]
    exact ⟨CellParams.pulsed now 0 0 0, rfl⟩

theorem counts_right (hwords : p.memoryWordSize.toNat = 32 * ws.length) (v : BitVec 2) :
    ∃ n, countBitsMLC2 (v.setWidth 8) ws ws.length = .ok n ∧ n.toNat = (cellsOf ws).count v :=
  ⟨_, countBitsMLC2_ok, (BitVec.toNat_ofNat ..).trans (mod_eq_of_lt (count_lt hwords v))⟩

theorem sum_right (hwords : p.memoryWordSize.toNat = 32 * ws.length) {n00 n01 n10 n11 : BitVec 64}
    (h00 : countBitsMLC2 0 ws ws.length = .ok n00) (h01 : countBitsMLC2 1 ws ws.length = .ok n01)
    (h10 : countBitsMLC2 2 ws ws.length = .ok n10) (h11 : countBitsMLC2 3 ws ws.length = .ok n11) :
    n00.toNat + n01.toNat + n10.toNat + n11.toNat = 16 * ws.length := by
  have hright : ∀ (v : BitVec 2) n, countBitsMLC2 (v.setWidth 8) ws ws.length = .ok n → n.toNat = (cellsOf ws).count v := by
    intro v n hn
    obtain ⟨m, hm, hcount⟩ := counts_right hwords v
    obtain rfl : m = n := Except.ok.inj (hm.symm.trans hn)
    exact hcount
  rw [hright 0 n00 h00, hright 1 n01 h01, hright 2 n10 h10, hright 3 n11 h11, counts_sum, length_cellsOf]

variable {d : BitVec 64}

theorem largest_of_alike {pulse : BitVec 2 → BitVec 64} (hall : ∀ v ∈ cellsOf ws, pulse v = d)
    (hws : ws ≠ []) : (∃ v ∈ cellsOf ws, d = pulse v) ∧ ∀ v ∈ cellsOf ws, pulse v ≤ d := by
  have hne : cellsOf ws ≠ [] := by
    intro hnil
    have hlen : (cellsOf ws).length = 16 * ws.length := length_cellsOf
    rw [hnil] at hlen
    exact hws (eq_nil_of_length_eq_zero (by simpa using hlen.symm))
  obtain ⟨v, hv⟩ := exists_mem_of_ne_nil _ hne
  constructor
  · exact ⟨v, hv, (hall v hv).symm⟩
  · intro u hu
    rw [hall u hu]
    exact BitVec.le_refl d

theorem eq_of_single : ∀ v : BitVec 2, v ≠ 1 → v ≠ 2 → (v ≠ 3 → v = 0) ∧ (v ≠ 0 → v = 3) := by decide

theorem timed_of_alike (hwords : p.memoryWordSize.toNat = 32 * ws.length)
    (hwrite : ∀ now draw, ∃ r, p.writeCellData early now draw (some ws) = .ok r ∧ (¬ Intermediate ws → r.delay = d))
    (hall : ¬ Intermediate ws → ∀ v ∈ cellsOf ws, p.pulse early v = d) :
    TimedByCells (p.writeCellData early) (p.pulse early) ws where
  counts := counts_right hwords
  sum _ _ _ _ h00 h01 h10 h11 := sum_right hwords h00 h01 h10 h11
  defined now draw := by
    obtain ⟨r, hr, _⟩ := hwrite now draw
    exact ⟨r, hr⟩
  delay now draw r hr hmid hws := by
    obtain ⟨r', hr', hdelay⟩ := hwrite now draw
    obtain rfl : r' = r := Except.ok.inj (hr'.symm.trans hr)
    rw [hdelay hmid]
    exact largest_of_alike (hall hmid) hws

theorem writeCellData_eq (hmlc : p.mlcLevels = 2) (huniform : p.uniformWrites = false) :
    p.writeCellData false now draw (some ws) = p.writeMLC2 now draw ws := by
  unfold CellParams.writeCellData
  simp [huniform, hmlc]

theorem timed_of_single (hmlc : p.mlcLevels = 2) (hwords : p.memoryWordSize.toNat = 32 * ws.length)
    (huniform : p.uniformWrites = false) {v : BitVec 2} (hall : ∀ u ∈ cellsOf ws, u = v)
    (hwrite : ∀ now draw, p.writeMLC2 now draw ws = .ok (CellParams.pulsed now (p.pulse false v) 0 0)) :
    TimedByCells (p.writeCellData false) (p.pulse false) ws := by
  refine timed_of_alike hwords ?_ fun _ u hu => congrArg _ (hall u hu)
  intro now draw
  refine ⟨_, (writeCellData_eq hmlc huniform).trans (hwrite now draw), fun _ => ?_⟩
  show p.pulse false v + 0 * 0 = p.pulse false v
  exact BitVec.add_zero _

/-- Without intermediate cells there is one value. -/
theorem timed_of_data (hmlc : p.mlcLevels = 2) (hwords : p.memoryWordSize.toNat = 32 * ws.length)
    (huniform : p.uniformWrites = false) (hcond : Intermediate ws ∨ ¬ (0 ∈ cellsOf ws ↔ 3 ∈ cellsOf ws)) :
    TimedByCells (p.writeCellData false) (p.pulse false) ws := by
  by_cases hmid : Intermediate ws
  · refine timed_of_alike (d := 0) hwords ?_ (absurd hmid)
    intro now draw
    obtain ⟨i, hwrite⟩ := writeMLC2_eq now draw hwords
    rw [writeCellData_eq hmlc huniform, hwrite, if_pos hmid]
    exact ⟨i, rfl, absurd hmid⟩
  have hvalues : ∀ v ∈ cellsOf ws, (3 ∉ cellsOf ws → v = 0) ∧ (0 ∉ cellsOf ws → v = 3) := by
    intro v hv
    have hsingle := eq_of_single v (fun h => hmid (.inl (h ▸ hv))) fun h => hmid (.inr (h ▸ hv))
    exact ⟨fun h3 => hsingle.1 fun h => h3 (h ▸ hv), fun h0 => hsingle.2 fun h => h0 (h ▸ hv)⟩
  by_cases h0 : 0 ∈ cellsOf ws
  · have h3 : 3 ∉ cellsOf ws := fun h3 => hcond.resolve_left hmid ⟨fun _ => h3, fun _ => h0⟩
    have hpulse : p.pulse false 0 = p.tWP0 := by
      rw [CellParams.pulse, huniform]
      rfl
    apply timed_of_single hmlc hwords huniform fun v hv => (hvalues v hv).1 h3
    intro now draw
    obtain ⟨i, hwrite⟩ := writeMLC2_eq now draw hwords
    rw [hwrite, if_neg hmid, if_pos ⟨h0, h3⟩, hpulse]
  · have h3 : 3 ∈ cellsOf ws := by
      by_contra h3
      exact hcond.resolve_left hmid ⟨fun h => absurd h h0, fun h => absurd h h3⟩
    have hpulse : p.pulse false 3 = p.tWP1 := by
      rw [CellParams.pulse, huniform]
      rfl
    apply timed_of_single hmlc hwords huniform fun v hv => (hvalues v hv).2 h0
    intro now draw
    obtain ⟨i, hwrite⟩ := writeMLC2_eq now draw hwords
    rw [hwrite, if_neg hmid, if_neg fun h => h0 h.1, if_pos ⟨h0, h3⟩, hpulse]

theorem timed_iff (hmlc : p.mlcLevels = 2) (hwords : p.memoryWordSize.toNat = 32 * ws.length) :
    TimedByCells (p.writeCellData early) (p.pulse early) ws ↔
      p.uniformWrites = true ∨ early = true ∨ Intermediate ws ∨ ¬ (0 ∈ cellsOf ws ↔ 3 ∈ cellsOf ws) := by
  cases huniform : p.uniformWrites with
  | true =>
    refine iff_of_true (timed_of_alike (d := p.tWP) hwords ?_ ?_) (.inl rfl)
    · intro now draw
      exact ⟨_, by rw [CellParams.writeCellData, if_pos huniform], fun _ => rfl⟩
    · intro _ v _
      rw [CellParams.pulse, huniform]
      rfl
  | false =>
    cases early with
    | true =>
      refine iff_of_true (timed_of_alike (d := p.tWP) hwords ?_ ?_) (.inr (.inl rfl))
      · intro now draw
        exact ⟨_, by rw [CellParams.writeCellData, huniform]; rfl, fun _ => rfl⟩
      · intro _ v _
        rw [CellParams.pulse, huniform]
        rfl
    | false =>
      constructor
      · intro h
        obtain ⟨r, hr⟩ := h.defined 0 0
        by_contra hcond
        obtain ⟨hmid, hsame⟩ : ¬ Intermediate ws ∧ (0 ∈ cellsOf ws ↔ 3 ∈ cellsOf ws) := by simpa using hcond
        obtain ⟨i, hwrite⟩ := writeMLC2_eq 0 0 hwords
        rw [writeCellData_eq hmlc huniform, hwrite, if_neg hmid, if_neg fun h => h.2 (hsame.mp h.1),
          if_neg fun h => h.1 (hsame.mpr h.2)] at hr
        cases hr
      · intro hcond
        have hcond : Intermediate ws ∨ ¬ (0 ∈ cellsOf ws ↔ 3 ∈ cellsOf ws) := by simpa using hcond
        exact timed_of_data hmlc hwords huniform hcond

/-- Two bits a cell: the write time follows from the data unless the data has both 00 and 11 and nothing between, or
  no cell at all. -/
theorem cell_writes_timed_iff (hmlc : p.mlcLevels = 2) (hwords : p.memoryWordSize.toNat = 32 * ws.length) :
    (TimedByCells (p.writeCellData1 mode) (p.pulse (p.pcmModel mode)) ws ↔
      p.uniformWrites = true ∨ p.pcmModel mode = true ∨ Intermediate ws ∨ ¬ (0 ∈ cellsOf ws ↔ 3 ∈ cellsOf ws)) ∧
    (TimedByCells p.writeCellData2 (p.pulse false) ws ↔
      p.uniformWrites = true ∨ Intermediate ws ∨ ¬ (0 ∈ cellsOf ws ↔ 3 ∈ cellsOf ws)) := by
  constructor
  · exact timed_iff hmlc hwords
  · show TimedByCells (p.writeCellData false) _ ws ↔ _
    exact (timed_iff hmlc hwords).trans (by simp)

end Timing

/-- One word of data, RESET and SET pulses of 40 and 150 cycles. -/
def oneWord : CellParams where
  tBURST := 1
  rate := 1
  busWidth := 32
  mlcLevels := 2
  uniformWrites := false
  energyCurrent := true
  programMode := .srms
  tWP := 150
  tWP0 := 40
  tWP1 := 150
  nWP00 := 0
  nWP01 := 5
  nWP10 := 3
  nWP11 := 1
  wpMaxVariance := 2

/-- All cells 11: one SET pulse. -/
theorem all_set_timed :
    TimedByCells (oneWord.writeCellData1 .writeThrough) (oneWord.pulse (oneWord.pcmModel .writeThrough)) [0xFFFFFFFF] :=
  (cell_writes_timed_iff rfl rfl).1.mpr
    (.inr (.inr (.inr (by decide))))

/-- Half of the cells 00 and half 11: the last assertion fails. -/
theorem cell_writes_not_timed : ¬ ∀ (p : CellParams) (mode : WriteMode) (ws : List (BitVec 32)), p.mlcLevels = 2 →
      p.memoryWordSize.toNat = 32 * ws.length →
      TimedByCells (p.writeCellData1 mode) (p.pulse (p.pcmModel mode)) ws ∧
        TimedByCells p.writeCellData2 (p.pulse false) ws := by
  intro h
  obtain ⟨r, hr⟩ := (h oneWord .writeThrough [0x0000FFFF] rfl rfl).1.defined 0 0
  have hfails : oneWord.writeCellData1 .writeThrough 0 0 (some [0x0000FFFF]) = .error .assertFailed := by decide
  rw [hfails] at hr
  cases hr

end Nvm
