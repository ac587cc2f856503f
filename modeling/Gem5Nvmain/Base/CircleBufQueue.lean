import Gem5Nvmain.Base.CircleBuf

/- The queue that a circular buffer stands for.

  A buffer `Represents` a queue of unread characters when its size counts them and they are the window from the start
  to the stop; when there are none the two are equal, or, after a read of nothing at the end of the buffer, at its two
  ends. A read of at most the size takes the oldest characters (`Represents.read`), and a write that `Fits` keeps the
  newest (`Represents.write`): what is written replaces the whole buffer, or there is room for it and the start, which
  moves behind the stop when the write goes over the end, is not moved away from the oldest character. -/
namespace Gem5.Base
open Lib

namespace CircleBuf
variable {α : Type} {s t : CircleBuf α} {q b : List α} {n a z k : Nat} {len : Int}

structure Represents (s : CircleBuf α) (q : List α) (n a z : Nat) : Prop where
  length : s.buf.length = n
  buflen : s.buflen = n
  size : s.size = q.length
  start : s.start = a
  stop : s.stop = z
  start_le : a ≤ n
  stop_le : z ≤ n
  empty : q = [] → a = z ∨ (a = 0 ∧ z = n)
  chars : q ≠ [] → q = window s.buf a z

theorem int_eq {x : Int} (h : -2 ^ 31 ≤ x ∧ x < 2 ^ 31) : int x = .ok x := if_pos h

theorem chars_eq {l : List α} {i m : Nat} (h : i + m ≤ l.length) : Gem5.Base.chars l (i : Int) (m : Int) = .ok ((l.drop i).take m) := by
  unfold Gem5.Base.chars
  rw [if_pos (by omega)]
  rfl

theorem blit_front (src : List α) (j : Nat) : blit b 0 src j k = (src.drop j).take k ++ b.drop k := by
  rw [blit, List.take_zero, List.nil_append, Nat.zero_add]

namespace Represents
variable (r : Represents s q n a z)
include r

theorem length_eq (hq : q ≠ []) : q.length = if a < z then z - a else n - a + z := by
  have hlen := length_window (a := a) (z := z) (by rw [r.length]; exact r.start_le) (by rw [r.length]; exact r.stop_le)
  rw [← r.chars hq, r.length] at hlen
  exact hlen

theorem length_le : q.length ≤ n := by
  by_cases hq : q = []
  · rw [hq]
    exact Nat.zero_le n
  · have hlen := r.length_eq hq
    have ha := r.start_le
    have hz := r.stop_le
    split at hlen <;> omega

theorem advance {a' : Nat} {q' : List α} {start : Int} (hstart : start = a') (ha : a' ≤ n) (hempty : q' = [] → a' = z ∨ (a' = 0 ∧ z = n))
    (hchars : q' ≠ [] → q' = window s.buf a' z) :
    Represents { buf := s.buf, rollover := s.rollover, buflen := n, size := q'.length, start := start, stop := z } q' n a' z :=
  ⟨r.length, rfl, rfl, hstart, rfl, ha, r.stop_le, hempty, hchars⟩

/-- What lies in one piece is read from the start on. -/
theorem front_straight (haz : a < z) (hk : k ≤ q.length) : a + k ≤ z ∧ q.take k = (s.buf.drop a).take k ∧
    (q.drop k = [] → a + k = z ∨ (a + k = 0 ∧ z = n)) ∧ (q.drop k ≠ [] → q.drop k = window s.buf (a + k) z) := by
  have hlength := r.length
  have hstop := r.stop_le
  by_cases hq : q = []
  · obtain rfl : k = 0 := by
      rw [hq] at hk
      exact Nat.le_zero.mp hk
    exact ⟨Nat.le_of_lt haz, rfl, r.empty, r.chars⟩
  · have hlen := r.length_eq hq
    rw [if_pos haz] at hlen
    have hsplit := window_front_straight (l := s.buf) haz (k := k) (by omega)
    rw [← r.chars hq] at hsplit
    have hfront : ((s.buf.drop a).take k).length = k := length_take_le (by rw [List.length_drop]; omega)
    have hrest : q.drop k = (s.buf.drop (a + k)).take (z - (a + k)) := by rw [hsplit, List.drop_left' hfront]
    refine ⟨by omega, ?_, fun hnil => ?_, fun hne => ?_⟩
    · nth_rewrite 1 [hsplit]
      rw [List.take_left' hfront]
    · have hzero := congrArg List.length hnil
      rw [List.length_drop, List.length_nil] at hzero
      exact .inl (by omega)
    · have hpos := List.length_pos_iff.mpr hne
      rw [List.length_drop] at hpos
      rw [hrest, window_straight (by omega)]

/-- What goes over the end is read up to the end first. -/
theorem front_wrapped (hn : 2 ≤ n) (haz : z ≤ a) (hk : k ≤ q.length) (hend : k < n - a) : q.take k = (s.buf.drop a).take k ∧
    (q.drop k = [] → a + k = z ∨ (a + k = 0 ∧ z = n)) ∧ (q.drop k ≠ [] → q.drop k = window s.buf (a + k) z) := by
  have hlength := r.length
  by_cases hq : q = []
  · obtain rfl : k = 0 := by
      rw [hq] at hk
      exact Nat.le_zero.mp hk
    exact ⟨rfl, r.empty, r.chars⟩
  · have hlen := r.length_eq hq
    rw [if_neg (Nat.not_lt.mpr haz)] at hlen
    have hsplit := window_front_wrapped (l := s.buf) haz k
    rw [← r.chars hq] at hsplit
    have hfront : ((s.buf.drop a).take k).length = k := length_take_le (by rw [List.length_drop]; omega)
    refine ⟨?_, fun hnil => ?_, fun _ => ?_⟩
    · nth_rewrite 1 [hsplit]
      rw [List.take_left' hfront]
    · have hzero := congrArg List.length hnil
      rw [List.length_drop, List.length_nil] at hzero
      omega
    · nth_rewrite 1 [hsplit]
      rw [List.drop_left' hfront]

/-- And then from the beginning of the buffer. -/
theorem front_over (hn : 2 ≤ n) (haz : z ≤ a) (hk : k ≤ q.length) (hend : n - a ≤ k) : k - (n - a) ≤ z ∧
    q.take k = s.buf.drop a ++ s.buf.take (k - (n - a)) ∧
    (q.drop k = [] → k - (n - a) = z ∨ (k - (n - a) = 0 ∧ z = n)) ∧ (q.drop k ≠ [] → q.drop k = window s.buf (k - (n - a)) z) := by
  have hlength := r.length
  have hstart := r.start_le
  by_cases hq : q = []
  · obtain rfl : k = 0 := by
      rw [hq] at hk
      exact Nat.le_zero.mp hk
    obtain rfl : a = n := by omega
    obtain rfl : z = a := by
      rcases r.empty hq with h | h <;> omega
    rw [List.take_zero, hq, List.drop_of_length_le (by omega), Nat.zero_sub, List.take_zero, List.drop_nil]
    exact ⟨Nat.zero_le z, rfl, fun _ => .inr ⟨rfl, rfl⟩, absurd rfl⟩
  · have hlen := r.length_eq hq
    rw [if_neg (Nat.not_lt.mpr haz)] at hlen
    have hle : k - (n - a) ≤ z := by omega
    have hsplit := window_over_end (l := s.buf) haz hle
    rw [← r.chars hq] at hsplit
    have hfront : (s.buf.drop a ++ s.buf.take (k - (n - a))).length = k := by
      rw [List.length_append, List.length_drop, length_take_le (by omega)]
      omega
    have hrest : q.drop k = (s.buf.drop (k - (n - a))).take (z - (k - (n - a))) := by rw [hsplit, List.drop_left' hfront]
    refine ⟨hle, ?_, fun hnil => ?_, fun hne => ?_⟩
    · nth_rewrite 1 [hsplit]
      rw [List.take_left' hfront]
    · have hzero := congrArg List.length hnil
      rw [List.length_drop, List.length_nil] at hzero
      exact .inl (by omega)
    · have hpos := List.length_pos_iff.mpr hne
      rw [List.length_drop] at hpos
      rw [hrest, window_straight (by omega)]

/-- A read returns the oldest characters. -/
theorem read (hn : 2 ≤ n) (hmax : n < 2 ^ 31) (hk : k ≤ q.length) (hb : k ≤ b.length) :
    ∃ t a', s.read b k = .ok (q.take k ++ b.drop k, t) ∧ Represents t (q.drop k) n a' z := by
  have hle := r.length_le
  have hstart := r.start_le
  have hstop := r.stop_le
  have hlength := r.length
  have hsize : int (s.size - k) = .ok ((q.drop k).length : Int) := by
    rw [r.size, int_eq (by omega), List.length_drop]
    congr 1
    omega
  have hpos : ¬((q.drop k).length : Int) < 0 := by omega
  unfold CircleBuf.read
  rw [hsize, bind_ok]
  dsimp only
  rw [if_neg hpos, r.start, r.stop, r.buflen]
  rcases Nat.lt_or_ge a z with haz | haz
  · obtain ⟨hkz, hfront, hempty, hchars⟩ := r.front_straight haz hk
    have hmin : min (k : Int) ((z : Int) - a) = k := by omega
    have hcopy : memcpy b 0 s.buf a k = .ok (blit b 0 s.buf a k) := memcpy_eq (i := 0) (by omega) (by omega)
    refine ⟨_, a + k, ?_, r.advance rfl (by omega) hempty hchars⟩
    rw [if_pos (by omega), hmin, hcopy, bind_ok, blit_front, hfront]
    rfl
  · rw [if_neg (by omega)]
    rcases Nat.lt_or_ge k (n - a) with hend | hend
    · obtain ⟨hfront, hempty, hchars⟩ := r.front_wrapped hn haz hk hend
      have hcopy : memcpy b 0 s.buf a k = .ok (blit b 0 s.buf a k) := memcpy_eq (i := 0) (by omega) (by omega)
      refine ⟨_, a + k, ?_, r.advance rfl (by omega) hempty hchars⟩
      rw [if_pos (by omega), hcopy, bind_ok, blit_front, hfront]
      rfl
    · obtain ⟨hkz, hfront, hempty, hchars⟩ := r.front_over hn haz hk hend
      have hlen : (n : Int) - a = (n - a : Nat) := by omega
      have hmin : min ((k : Int) - (n - a : Nat)) (z : Int) = (k - (n - a) : Nat) := by omega
      have hcopy : memcpy b 0 s.buf a (n - a : Nat) = .ok (blit b 0 s.buf a (n - a)) := memcpy_eq (i := 0) (by omega) (by omega)
      have hblit : blit b 0 s.buf a (n - a) = s.buf.drop a ++ b.drop (n - a) := by
        rw [blit_front, List.take_of_length_le (by rw [List.length_drop]; omega)]
      have hfrontlen : (s.buf.drop a).length = n - a := by rw [List.length_drop, hlength]
      have hcopy' : memcpy (s.buf.drop a ++ b.drop (n - a)) (n - a : Nat) s.buf 0 (k - (n - a) : Nat) =
          .ok (blit (s.buf.drop a ++ b.drop (n - a)) (n - a) s.buf 0 (k - (n - a))) :=
        memcpy_eq (j := 0) (by rw [List.length_append, hfrontlen, List.length_drop]; omega) (by omega)
      have hblit' : blit (s.buf.drop a ++ b.drop (n - a)) (n - a) s.buf 0 (k - (n - a)) = q.take k ++ b.drop k := by
        have hsum : n - a + (k - (n - a)) = k := by omega
        have hsum' : k = (n - a) + (k - (n - a)) := by omega
        rw [blit, List.take_left' hfrontlen, List.drop_zero, hsum, hfront, List.append_assoc]
        nth_rewrite 2 [hsum']
        rw [← List.drop_drop, List.drop_left' hfrontlen, List.drop_drop, hsum]
      refine ⟨_, k - (n - a), ?_, r.advance rfl (by omega) hempty hchars⟩
      rw [if_neg (by omega), hlen, hcopy, bind_ok, hblit, hmin, hcopy', bind_ok, hblit']

/-- All characters are put out. -/
theorem readOut (hq : q ≠ []) : ∃ t, s.readOut = .ok (q, t) ∧ Represents t [] n z z := by
  have hstart := r.start_le
  have hstop := r.stop_le
  have hlength := r.length
  refine ⟨{ buf := s.buf, rollover := s.rollover, buflen := n, size := 0, start := z, stop := z }, ?_,
    r.length, rfl, rfl, rfl, rfl, r.stop_le, r.stop_le, fun _ => .inl rfl, absurd rfl⟩
  have hchars := r.chars hq
  unfold CircleBuf.readOut
  rw [r.start, r.stop, r.buflen]
  rcases Nat.lt_or_ge a z with haz | haz
  · have hlen : (z : Int) - a = (z - a : Nat) := by omega
    rw [window_straight haz] at hchars
    rw [if_pos (by omega), hlen, chars_eq (by omega), bind_ok, ← hchars]
  · have hlen : (n : Int) - a = (n - a : Nat) := by omega
    have hzero : Gem5.Base.chars s.buf 0 z = .ok ((s.buf.drop 0).take z) := chars_eq (i := 0) (by omega)
    rw [window_wrapped haz] at hchars
    rw [if_neg (by omega), hlen, chars_eq (by omega), bind_ok, hzero, bind_ok, List.drop_zero,
      List.take_of_length_le (by rw [List.length_drop]; omega), ← hchars]

theorem flush (hq : q = []) : Represents s.flush [] n 0 0 := by
  refine ⟨r.length, r.buflen, ?_, rfl, rfl, Nat.zero_le n, Nat.zero_le n, fun _ => .inl rfl, absurd rfl⟩
  rw [← hq]
  exact r.size

/-- A write of at least the whole buffer replaces everything. -/
theorem write_long (hmax : q.length + k < 2 ^ 31) (hn : 0 < n) (hk : n ≤ k) (hb : k ≤ b.length) :
    ∃ t, s.write b k = .ok t ∧ Represents t ((b.take k).drop (k - n)) n 0 n := by
  have hlength := r.length
  have hlen : ((b.take k).drop (k - n)).length = n := by
    rw [List.length_drop, length_take_le hb]
    omega
  have hsize : int (s.size + k) = .ok ((q.length + k : Nat) : Int) := by
    rw [r.size, int_eq (by omega)]
    rfl
  have hmin : (if ((q.length + k : Nat) : Int) > s.buflen then s.buflen else ((q.length + k : Nat) : Int)) = n := by
    rw [r.buflen]
    split <;> omega
  have hfrom : (k : Int) - s.buflen = (k - n : Nat) := by
    rw [r.buflen]
    omega
  have hcopy : memcpy s.buf 0 b (k - n : Nat) n = .ok ((b.take k).drop (k - n)) := by
    have hwhole : n = k - (k - n) := by omega
    have hcopy : memcpy s.buf 0 b (k - n : Nat) n = .ok (blit s.buf 0 b (k - n) n) := memcpy_eq (i := 0) (by omega) (by omega)
    rw [hcopy, blit_whole hlength, List.drop_take, ← hwhole]
  refine ⟨{ buf := (b.take k).drop (k - n), rollover := true, buflen := n, size := n, start := 0, stop := n }, ?_,
    hlen, rfl, by rw [hlen], rfl, rfl, Nat.zero_le n, Nat.le_refl n, fun _ => .inr ⟨rfl, rfl⟩, fun _ => ?_⟩
  · unfold CircleBuf.write
    rw [if_neg (by omega), hsize, bind_ok]
    rw [hmin, if_pos (by rw [r.buflen]; omega), hfrom, r.buflen, hcopy]
    rfl
  · rw [window_straight hn, List.drop_zero, Nat.sub_zero]
    exact (List.take_of_length_le (Nat.le_of_eq hlen)).symm

theorem room (hk : 0 < k) (hsum : q.length + k ≤ n) : (z < a → q ≠ [] ∧ z + k ≤ a) ∧ (z = a → q = []) := by
  refine ⟨fun hlt => ?_, fun heq => ?_⟩
  · have hq : q ≠ [] := fun h => by
      rcases r.empty h with h' | h' <;> omega
    have hlen := r.length_eq hq
    rw [if_neg (by omega)] at hlen
    exact ⟨hq, by omega⟩
  · by_contra hq
    have hlen := r.length_eq hq
    rw [if_neg (by omega)] at hlen
    omega

theorem chars_straight (hk : 0 < k) (hsum : q.length + k ≤ n) (haz : a ≤ z) (hend : a < z → z = n → a = 0 → q ≠ []) :
    (s.buf.drop a).take (z - a) = q := by
  by_cases hq : q = []
  · rcases r.empty hq with heq | ⟨hzero, hend'⟩
    · rw [heq, Nat.sub_self, hq]
      rfl
    · exact absurd hq (hend (by omega) hend' hzero)
  · rcases Nat.lt_or_eq_of_le haz with hlt | heq
    · rw [r.chars hq, window_straight hlt]
    · exact absurd ((r.room hk hsum).2 heq.symm) hq

theorem copy_before (hk : 0 < k) (hb : k ≤ b.length) (hsum : q.length + k ≤ n) (hend : z + k ≤ n) :
    window (blit s.buf z b 0 k) a (z + k) = q ++ b.take k := by
  have hlength := r.length
  have hstart := r.start_le
  rcases Nat.lt_or_ge z a with hlt | haz
  · obtain ⟨hq, hroom⟩ := (r.room hk hsum).1 hlt
    rw [window_append_wrapped hroom (by omega) hb, ← r.chars hq]
  · rw [window_append haz (by omega) hb hk, r.chars_straight hk hsum haz fun _ hz _ => by omega]

/-- A write of less than the whole buffer, when everything fits, and the start does not move to a wrong place. -/
theorem write_short (hn : 2 ≤ n) (hmax : n < 2 ^ 31) (hk : 0 < k) (hkn : k < n) (hb : k ≤ b.length) (hint : z + k < 2 ^ 31)
    (hsum : q.length + k ≤ n) (hwrap : a < z → n < z + k → q.length + k + 1 = n) :
    ∃ t a' z', s.write b k = .ok t ∧ Represents t (q ++ b.take k) n a' z' := by
  have hlength := r.length
  have hstart := r.start_le
  have hstop := r.stop_le
  have hne : q ++ b.take k ≠ [] := by
    intro h
    have hlen := congrArg List.length h
    rw [List.length_append, length_take_le hb, List.length_nil] at hlen
    omega
  have hcount : (q ++ b.take k).length = q.length + k := by rw [List.length_append, length_take_le hb]
  have hsize : int (s.size + k) = .ok ((q.length + k : Nat) : Int) := by
    rw [r.size, int_eq (by omega)]
    rfl
  have hadd : int ((z : Int) + k) = .ok ((z + k : Nat) : Int) := by
    rw [int_eq (by omega)]
    rfl
  unfold CircleBuf.write
  rw [if_neg (by omega), hsize, bind_ok]
  rw [r.buflen, if_neg (by omega : ¬((q.length + k : Nat) : Int) > (n : Int)), if_neg (by omega : ¬(k : Int) ≥ (n : Int))]
  unfold copyIn
  dsimp only
  rw [r.stop, hadd, bind_ok]
  rcases Nat.lt_or_ge n (z + k) with hover | hbefore
  · have haz : a ≤ z := by
      by_contra hlt
      have := ((r.room hk hsum).1 (Nat.lt_of_not_le hlt)).2
      omega
    have hlen : (n : Int) - z = (n - z : Nat) := by omega
    have hrest : (k : Int) - (n - z : Nat) = (k - (n - z) : Nat) := by omega
    have hcopy : memcpy s.buf z b 0 (n - z : Nat) = .ok (blit s.buf z b 0 (n - z)) := memcpy_eq (j := 0) (by omega) (by omega)
    have hblit : (blit s.buf z b 0 (n - z)).length = n := by
      rw [length_blit (by omega) (by omega)]
      exact hlength
    have hcopy' : memcpy (blit s.buf z b 0 (n - z)) 0 b (n - z : Nat) (k - (n - z) : Nat) =
        .ok (blit (blit s.buf z b 0 (n - z)) 0 b (n - z) (k - (n - z))) := memcpy_eq (i := 0) (by omega) (by omega)
    -- the start moves behind the stop unless it was equal to it, and that is where the characters begin
    have hmove : ∃ a', s.startAfter (k - (n - z) : Nat) = .ok ((a' : Nat) : Int) ∧ a' ≤ z ∧ k - (n - z) ≤ a' ∧
        (s.buf.drop a').take (z - a') = q := by
      unfold startAfter
      rw [r.start, r.stop]
      rcases Nat.lt_or_eq_of_le haz with hlt | heq
      · have hend := hwrap hlt hover
        refine ⟨k - (n - z) + 1, ?_, by omega, by omega, ?_⟩
        · rw [if_pos (by omega), int_eq (by omega)]
          rfl
        · by_cases hq : q = []
          · have hlenq : q.length = 0 := by rw [hq]; rfl
            have hzero : z - (k - (n - z) + 1) = 0 := by
              rcases r.empty hq with h | h <;> omega
            rw [hzero, hq]
            rfl
          · have hlenq := r.length_eq hq
            rw [if_pos hlt] at hlenq
            have hsame : k - (n - z) + 1 = a := by omega
            rw [hsame]
            exact r.chars_straight hk hsum haz fun _ _ _ => hq
      · refine ⟨a, ?_, haz, by omega, r.chars_straight hk hsum haz fun h => by omega⟩
        rw [if_neg (by omega)]
    obtain ⟨a', hmove, haz', hle', hchars⟩ := hmove
    have hwindow : window (blit (blit s.buf z b 0 (n - z)) 0 b (n - z) (k - (n - z))) a' (k - (n - z)) =
        (s.buf.drop a').take (z - a') ++ b.take (n - z + (k - (n - z))) := window_append_over haz' hle' (by omega) (by omega)
    refine ⟨.mk (blit (blit s.buf z b 0 (n - z)) 0 b (n - z) (k - (n - z))) true n (q.length + k : Nat) a' (k - (n - z) : Nat),
      a', k - (n - z), ?_, ?_, rfl, by rw [hcount], rfl, rfl, by omega, by omega, fun h => absurd h hne, fun _ => ?_⟩
    · rw [if_neg (by omega), hlen, hcopy, bind_ok, hrest, hcopy', bind_ok, bind_ok, hmove, bind_ok]
    · rw [length_blit (by omega) (by omega)]
      exact hblit
    · have hall : n - z + (k - (n - z)) = k := by omega
      rw [hchars, hall] at hwindow
      exact hwindow.symm
  · have hcopy : memcpy s.buf z b 0 k = .ok (blit s.buf z b 0 k) := memcpy_eq (j := 0) (by omega) (by omega)
    have hstay : ¬(((a : Int) > z ∧ (a : Int) < (z + k : Nat)) ∨ ((a : Int) < z ∧ ((z + k : Nat) : Int) < z)) := by
      have hroom := (r.room hk hsum).1
      by_cases hlt : z < a
      · omega
      · omega
    refine ⟨.mk (blit s.buf z b 0 k) s.rollover n (q.length + k : Nat) a (z + k : Nat), a, z + k, ?_, ?_, rfl, by rw [hcount], rfl, rfl, hstart, hbefore, fun h => absurd h hne, fun _ => ?_⟩
    · have hmove : s.startAfter (z + k : Nat) = .ok (a : Int) := by
        unfold startAfter
        rw [r.start, r.stop, if_neg hstay]
      rw [if_pos (by omega), hcopy, bind_ok, bind_ok, hmove, bind_ok]
    · rw [length_blit (by omega) (by omega)]
      exact hlength
    · exact (r.copy_before hk hb hsum hbefore).symm

end Represents

/-! The operations. -/

/-- The last `n` characters. -/
def newest (n : Nat) (l : List α) : List α := l.drop (l.length - n)

theorem length_newest (l : List α) : (newest n l).length = min n l.length := by
  unfold newest
  rw [List.length_drop]
  omega

theorem newest_of_le {l : List α} (h : l.length ≤ n) : newest n l = l := by
  unfold newest
  rw [Nat.sub_eq_zero_of_le h, List.drop_zero]

theorem newest_append (hk : n ≤ k) (hb : k ≤ b.length) : newest n (q ++ b.take k) = (b.take k).drop (k - n) := by
  have hlen : (q ++ b.take k).length - n = q.length + (k - n) := by
    rw [List.length_append, length_take_le hb]
    omega
  unfold newest
  rw [hlen, ← List.drop_drop, List.drop_left]

/-- What a write must meet. -/
def Fits (s : CircleBuf α) (len : Int) : Prop := len ≤ 0 ∨ s.size + len < 2 ^ 31 ∧ (s.buflen ≤ len ∨
  s.stop + len < 2 ^ 31 ∧ s.size + len ≤ s.buflen ∧ (s.start < s.stop → s.buflen < s.stop + len → s.size + len + 1 = s.buflen))

instance : Decidable (Fits s len) := by
  unfold Fits
  infer_instance

/-- What can be seen of a buffer: its size, and the characters that it would put out. -/
def Shows (s : CircleBuf α) (q : List α) : Prop := s.size = q.length ∧ (q ≠ [] → ∃ t, s.readOut = .ok (q, t))

namespace Represents
variable (r : Represents s q n a z)
include r

theorem shows : Shows s q := by
  refine ⟨r.size, fun hq => ?_⟩
  obtain ⟨t, ht, -⟩ := r.readOut hq
  exact ⟨t, ht⟩

theorem write (hn : 2 ≤ n) (hmax : n < 2 ^ 31) (hb : len ≤ b.length) (hfits : s.Fits len) :
    ∃ t a' z', s.write b len = .ok t ∧ Represents t (newest n (q ++ b.take len.toNat)) n a' z' := by
  by_cases hneg : len ≤ 0
  · refine ⟨s, a, z, if_pos hneg, ?_⟩
    rw [Int.toNat_of_nonpos hneg, List.take_zero, List.append_nil, newest_of_le r.length_le]
    exact r
  · obtain ⟨k, rfl⟩ := Int.eq_ofNat_of_zero_le (by omega : 0 ≤ len)
    rw [Int.toNat_natCast]
    unfold Fits at hfits
    rw [r.size, r.start, r.stop, r.buflen] at hfits
    rcases hfits with hneg | ⟨hsum, hlong | ⟨hstop, hfit, hwrap⟩⟩
    · omega
    · rw [newest_append (by omega) (by omega)]
      obtain ⟨t, ht, hrep⟩ := r.write_long (b := b) (k := k) (by omega) (by omega) (by omega) (by omega)
      exact ⟨t, 0, n, ht, hrep⟩
    · by_cases hkn : n ≤ k
      · rw [newest_append hkn (by omega)]
        obtain ⟨t, ht, hrep⟩ := r.write_long (b := b) (by omega) (by omega) hkn (by omega)
        exact ⟨t, 0, n, ht, hrep⟩
      · rw [newest_of_le (by rw [List.length_append, length_take_le (by omega)]; omega)]
        exact r.write_short hn hmax (by omega) (by omega) (by omega) (by omega) (by omega) (by omega)

end Represents

end CircleBuf

end Gem5.Base
