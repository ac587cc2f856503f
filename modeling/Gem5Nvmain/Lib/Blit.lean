import Gem5Nvmain.Lib.Exec

/- Copying a run of elements from one array into another.

  `blit dst i src j n` is `dst` with its elements `i .. i+n-1` replaced by the elements `j .. j+n-1` of `src`.
  `memcpy` is the same operation on offsets and sizes that are computed as signed numbers: it stops when a run leaves
  its array.

  `window l a z` lists the elements of a circular array from the place `a` to the place `z`, over the end of the array
  when `z` is not behind `a`; equal places stand for the whole array. Elements are taken off the front of a window by
  moving `a` (`window_front_straight`, `window_front_wrapped`, `window_over_end`), and put behind it by copying them
  to `z` (`window_append`, `window_append_over`). -/
namespace Lib
open List

section Blit
variable {α : Type} {dst src : List α} {i j n k : Nat}

def blit (dst : List α) (i : Nat) (src : List α) (j n : Nat) : List α :=
  dst.take i ++ ((src.drop j).take n ++ dst.drop (i + n))

theorem length_blit (hi : i + n ≤ dst.length) (hj : j + n ≤ src.length) : (blit dst i src j n).length = dst.length := by
  simp only [blit, length_append, length_take, length_drop]
  omega

theorem getElem?_blit (hi : i + n ≤ dst.length) (hj : j + n ≤ src.length) :
    (blit dst i src j n)[k]? = if i ≤ k ∧ k < i + n then src[j + (k - i)]? else dst[k]? := by
  have hlen : (dst.take i).length = i := by
    rw [length_take]
    omega
  have hrun : ((src.drop j).take n).length = n := by
    rw [length_take, length_drop]
    omega
  unfold blit
  rcases Nat.lt_or_ge k i with hk | hk
  · rw [getElem?_append_left (by omega), getElem?_take_of_lt hk, if_neg (by omega)]
  · rw [getElem?_append_right (by omega), hlen]
    rcases Nat.lt_or_ge k (i + n) with hkn | hkn
    · rw [getElem?_append_left (by omega), getElem?_take_of_lt (by omega), getElem?_drop,
        if_pos ⟨hk, hkn⟩]
    · rw [getElem?_append_right (by omega), hrun, getElem?_drop, if_neg (by omega)]
      congr 1
      omega

theorem blit_whole (h : dst.length = n) : blit dst 0 src j n = (src.drop j).take n := by
  have hrest : dst.drop (0 + n) = [] := drop_of_length_le (by omega)
  unfold blit
  rw [hrest, take_zero, nil_append, append_nil]

/-- `memcpy(dst + i, src + j, n)`. -/
def memcpy (dst : List α) (i : Int) (src : List α) (j n : Int) : Except Stop (List α) :=
  if 0 ≤ i ∧ 0 ≤ j ∧ 0 ≤ n ∧ i + n ≤ dst.length ∧ j + n ≤ src.length then
    .ok (blit dst i.toNat src j.toNat n.toNat)
  else .error .outOfRange

theorem memcpy_eq (hi : i + n ≤ dst.length) (hj : j + n ≤ src.length) :
    memcpy dst (i : Int) src (j : Int) (n : Int) = .ok (blit dst i src j n) := by
  unfold memcpy
  rw [if_pos (by omega)]
  rfl

end Blit

/-! ## Windows of a circular array -/

section Windows
variable {α : Type} {l src : List α} {a z k : Nat}

def window (l : List α) (a z : Nat) : List α :=
  if a < z then (l.drop a).take (z - a) else l.drop a ++ l.take z

theorem length_window (ha : a ≤ l.length) (hz : z ≤ l.length) :
    (window l a z).length = if a < z then z - a else l.length - a + z := by
  unfold window
  split
  · rw [length_take, length_drop]
    omega
  · rw [length_append, length_drop, length_take]
    omega

theorem window_straight (h : a < z) : window l a z = (l.drop a).take (z - a) := if_pos h

theorem window_wrapped (h : z ≤ a) : window l a z = l.drop a ++ l.take z := if_neg (Nat.not_lt.mpr h)

/-! Taking elements off the front. -/

theorem window_front_straight (h : a < z) (hk : k ≤ z - a) : window l a z = (l.drop a).take k ++ (l.drop (a + k)).take (z - (a + k)) := by
  have hsplit : z - a = k + (z - (a + k)) := by omega
  rw [window_straight h, hsplit, take_add, drop_drop]

theorem window_front_wrapped (h : z ≤ a) (k : Nat) : window l a z = (l.drop a).take k ++ window l (a + k) z := by
  rw [window_wrapped h, window_wrapped (by omega), ← append_assoc, ← drop_drop, take_append_drop]

theorem window_over_end (h : z ≤ a) (hk : k ≤ z) : window l a z = l.drop a ++ l.take k ++ (l.drop k).take (z - k) := by
  have hsplit : z = k + (z - k) := by omega
  rw [window_wrapped h, append_assoc, ← take_add, ← hsplit]

/-! Copying elements behind the window. -/

theorem length_take_le (hk : k ≤ src.length) : (src.take k).length = k := by
  rw [length_take]
  omega

theorem drop_blit (ha : a ≤ z) (hz : z ≤ l.length) : (blit l z src 0 k).drop a = (l.drop a).take (z - a) ++ (src.take k ++ l.drop (z + k)) := by
  unfold blit
  rw [drop_append_of_le_length (by rw [length_take]; omega), drop_take, drop_zero]

theorem take_blit (hz : z ≤ l.length) (hk : k ≤ src.length) : (blit l z src 0 k).take (z + k) = l.take z ++ src.take k := by
  unfold blit
  rw [drop_zero, take_append, length_take_le hz, Nat.add_sub_cancel_left, take_of_length_le (by rw [length_take_le hz]; omega),
    take_left' (length_take_le hk)]

theorem drop_blit_behind (hz : z + k ≤ a) (hl : z + k ≤ l.length) (hk : k ≤ src.length) : (blit l z src 0 k).drop a = l.drop a := by
  have hlen : (l.take z ++ src.take k).length = z + k := by
    rw [length_append, length_take_le (by omega), length_take_le hk]
  have hsum : a = z + k + (a - (z + k)) := by omega
  unfold blit
  rw [drop_zero, ← append_assoc, hsum, ← drop_drop, drop_left' hlen, drop_drop]

theorem window_append (h : a ≤ z) (hz : z ≤ l.length) (hk : k ≤ src.length) (hk₀ : 0 < k) :
    window (blit l z src 0 k) a (z + k) = (l.drop a).take (z - a) ++ src.take k := by
  have hlen : ((l.drop a).take (z - a)).length = z - a := length_take_le (by rw [length_drop]; omega)
  have hsum : z + k - a = z - a + k := by omega
  rw [window_straight (by omega), drop_blit h hz, hsum, take_append, hlen, Nat.add_sub_cancel_left, take_of_length_le (by omega),
    take_left' (length_take_le hk)]

theorem window_append_wrapped (h : z + k ≤ a) (ha : a ≤ l.length) (hk : k ≤ src.length) :
    window (blit l z src 0 k) a (z + k) = window l a z ++ src.take k := by
  rw [window_wrapped h, window_wrapped (by omega), drop_blit_behind h (by omega) hk, take_blit (by omega) hk, append_assoc]

/-- The copy goes over the end of the array. -/
theorem window_append_over {e r : Nat} (h : a ≤ z) (hr : r ≤ a) (he : z + e = l.length) (hsrc : e + r ≤ src.length) :
    window (blit (blit l z src 0 e) 0 src e r) a r = (l.drop a).take (z - a) ++ src.take (e + r) := by
  have hend : (blit l z src 0 e).drop a = (l.drop a).take (z - a) ++ src.take e := by
    rw [drop_blit h (by omega), he, drop_of_length_le (Nat.le_refl _), append_nil]
  have hlen : ((src.drop e).take r).length = r := length_take_le (by rw [length_drop]; omega)
  have hsum : a = r + (a - r) := by omega
  have hfront : (blit (blit l z src 0 e) 0 src e r).take r = (src.drop e).take r := by
    unfold blit
    rw [take_zero, nil_append, take_left' hlen]
  have hback : (blit (blit l z src 0 e) 0 src e r).drop a = (blit l z src 0 e).drop a := by
    rw [blit, take_zero, nil_append, Nat.zero_add, hsum, ← drop_drop, drop_left' hlen, drop_drop]
  rw [window_wrapped hr, hback, hfront, hend, append_assoc, ← take_add]

end Windows

end Lib
