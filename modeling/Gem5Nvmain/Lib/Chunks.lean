import Mathlib.Data.Nat.Basic
import Mathlib.Algebra.Order.Floor.Div

/- Ranges that are cut at the boundaries of blocks.

  `chunks B e a n` cuts the numbers from `a` to `e` into `n` pieces, of which each one but the last ends with a block
  of `B` numbers. If `n` is the number of blocks that the range touches (`touched`), then the pieces are not empty,
  each is in one block, the blocks follow each other, and the pieces make up the range (`chunks_bytes`). -/
namespace Lib
open Nat

variable {B a b e n k : Nat} {x : Nat × Nat}

/-- The first number behind the block of `a`. -/
def nextBlock (B a : Nat) : Nat := a / B * B + B

/-- The pieces as first number and length. -/
def chunks (B e : Nat) : Nat → Nat → List (Nat × Nat)
  | _, 0 => []
  | a, n + 1 => (a, min (nextBlock B a) e - a) :: chunks B e (nextBlock B a) n

/-- The number of blocks that the numbers from `a` to `e` touch. -/
def touched (B a e : Nat) : Nat := (a % B + (e - a) + B - 1) / B

def inside (x : Nat × Nat) (b : Nat) : Prop := x.1 ≤ b ∧ b < x.1 + x.2

theorem lt_nextBlock (hB : 0 < B) : a < nextBlock B a := by
  have := lt_div_mul_add hB (a := a)
  exact this

theorem nextBlock_le (hB : B ∣ e) (h : a < e) : nextBlock B a ≤ e := by
  obtain ⟨q, rfl⟩ := hB
  calc
    nextBlock B a = (a / B + 1) * B := (succ_mul ..).symm
    _ ≤ q * B := Nat.mul_le_mul_right B (Nat.div_lt_of_lt_mul h)
    _ = B * q := mul_comm q B

theorem nextBlock_div (hB : 0 < B) : nextBlock B a / B = a / B + 1 := by
  unfold nextBlock
  rw [← succ_mul]
  exact Nat.mul_div_cancel _ hB

theorem nextBlock_nextBlock (hB : 0 < B) : nextBlock B (nextBlock B a) = nextBlock B a + B := by
  rw [nextBlock, nextBlock_div hB, add_one_mul]
  rfl

theorem touched_eq (hB : 0 < B) (h : a < e) : touched B a e + a / B = (e - 1) / B + 1 := by
  have hsplit := mod_add_div a B
  have hsum : a % B + (e - a) + B - 1 + B * (a / B) = e - 1 + B := by omega
  unfold touched
  rw [← add_mul_div_left _ _ hB, hsum, add_div_right _ hB]

theorem le_nextBlock (hB : 0 < B) (h : a < e) (hlast : a / B = (e - 1) / B) : e ≤ nextBlock B a := by
  have := lt_nextBlock hB (a := e - 1)
  unfold nextBlock at this ⊢
  rw [hlast]
  omega

theorem nextBlock_lt (hB : 0 < B) (hmore : a / B < (e - 1) / B) : nextBlock B a < e := by
  have hle : (a / B + 1) * B ≤ (e - 1) / B * B := mul_le_mul_right B hmore
  have hdiv := div_mul_le_self (e - 1) B
  rw [add_one_mul] at hle
  unfold nextBlock
  omega

@[simp] theorem chunks_length : (chunks B e a n).length = n := by
  induction n generalizing a with
  | zero => rfl
  | succ n ih => simp [chunks, ih]

theorem chunks_blocks (hB : 0 < B) : (chunks B e a n).map (·.1 / B) = List.range' (a / B) n := by
  induction n generalizing a with
  | zero => rfl
  | succ n ih =>
    rw [chunks, List.map_cons, ih, nextBlock_div hB]
    rfl

/-- Each piece has a number, and all of its numbers are in one block. -/
theorem chunks_inside (hB : 0 < B) (h : a < e) (hn : n + a / B = (e - 1) / B + 1) (hx : x ∈ chunks B e a n) :
    1 ≤ x.2 ∧ x.1 + x.2 ≤ e ∧ ∀ b, inside x b → b / B = x.1 / B := by
  induction n generalizing a with
  | zero => cases hx
  | succ n ih =>
    have hlt := lt_nextBlock hB (a := a)
    rcases List.mem_cons.mp hx with rfl | hx
    · refine ⟨by dsimp only; omega, by dsimp only; omega, fun b hb => ?_⟩
      have hlow : a / B * B ≤ b := (div_mul_le_self a B).trans hb.1
      have hhigh : b < (a / B + 1) * B := by
        have hb := hb.2
        rw [add_one_mul]
        change b < nextBlock B a
        omega
      exact Nat.div_eq_of_lt_le hlow hhigh
    · cases n with
      | zero => cases hx
      | succ n =>
        have hmore : a / B < (e - 1) / B := by omega
        exact ih (nextBlock_lt hB hmore) (by rw [nextBlock_div hB]; omega) hx

/-- The numbers of the pieces, one after the other, are the numbers of the range. -/
theorem chunks_bytes (hB : 0 < B) (h : a < e) (hn : n + a / B = (e - 1) / B + 1) :
    (chunks B e a n).flatMap (fun x => List.range' x.1 x.2) = List.range' a (e - a) := by
  induction n generalizing a with
  | zero =>
    have := Nat.div_le_div_right (c := B) (show a ≤ e - 1 by omega)
    omega
  | succ n ih =>
    have hlt := lt_nextBlock hB (a := a)
    rw [chunks, List.flatMap_cons]
    cases n with
    | zero =>
      have hle := le_nextBlock hB h (by omega)
      rw [min_eq_right hle]
      simp [chunks]
    | succ n =>
      have hmore := nextBlock_lt hB (show a / B < (e - 1) / B by omega)
      rw [ih hmore (by rw [nextBlock_div hB]; omega), min_eq_left hmore.le]
      have hend : a + (nextBlock B a - a) = nextBlock B a := by omega
      have hsum : nextBlock B a - a + (e - nextBlock B a) = e - a := by omega
      rw [← hsum, ← List.range'_append_1, hend]

/-- A piece begins behind the numbers of the earlier ones. -/
theorem chunks_before (hB : 0 < B) (h : a < e) (hn : n + a / B = (e - 1) / B + 1) {l₁ l₂ : List (Nat × Nat)}
    (hl : chunks B e a n = l₁ ++ x :: l₂) : x.1 = a + (l₁.map (·.2)).sum := by
  induction n generalizing a l₁ with
  | zero => cases l₁ <;> cases hl
  | succ n ih =>
    cases l₁ with
    | nil =>
      obtain ⟨rfl, -⟩ := List.cons.inj hl
      simp
    | cons y l₁ =>
      obtain ⟨rfl, hrest⟩ := List.cons.inj hl
      cases n with
      | zero => cases l₁ <;> cases hrest
      | succ n =>
        have hlt := lt_nextBlock hB (a := a)
        have hmore := nextBlock_lt hB (show a / B < (e - 1) / B by omega)
        have hx := ih hmore (by rw [nextBlock_div hB]; omega) hrest
        simp only [List.map_cons, List.sum_cons]
        omega

/-! ## Blocks of a power of two -/

theorem or_mask_succ (a k : Nat) : (a ||| (2 ^ k - 1)) + 1 = nextBlock (2 ^ k) a := by
  have hor : a ||| (2 ^ k - 1) = 2 ^ k * (a / 2 ^ k) + (2 ^ k - 1) := by
    apply eq_of_testBit_eq
    intro i
    rw [Nat.testBit_or, Nat.testBit_two_pow_sub_one, Nat.testBit_two_pow_mul_add _ (Nat.sub_lt (Nat.two_pow_pos k) Nat.one_pos)]
    by_cases hi : i < k
    · simp [hi]
    · have hsum : k + (i - k) = i := by omega
      simp [hi, testBit_div_two_pow, hsum, add_comm]
  have hpos := Nat.two_pow_pos k
  unfold nextBlock
  rw [hor, mul_comm]
  omega

end Lib
