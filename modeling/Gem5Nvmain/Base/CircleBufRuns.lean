import Gem5Nvmain.Base.CircleBufQueue

/- Runs of the circular buffer.

  A write that does not fit leaves a start and a stop with more or fewer characters between them than the size says
  (`Represents.fits`), so from a buffer that represents a queue an operation does what a bounded queue does exactly
  when it is `safe`. In a run of safe operations the buffer is a queue that keeps the newest characters
  (`bounded_queue`). -/
namespace Gem5.Base
open Lib

namespace CircleBuf
variable {α : Type} {s t : CircleBuf α} {q b : List α} {n a z : Nat} {len : Int}

theorem int_le {x y : Int} (h : int x = .ok y) : y = x ∧ x < 2 ^ 31 := by
  unfold int at h
  split at h
  · rename_i hx
    cases h
    exact ⟨rfl, hx.2⟩
  · cases h

theorem length_chars {l out : List α} {i m : Int} (h : Gem5.Base.chars l i m = .ok out) : (out.length : Int) = m := by
  unfold Gem5.Base.chars at h
  split at h
  · cases h
    rw [List.length_take, List.length_drop]
    omega
  · cases h

theorem memcpy_nonneg {dst src out : List α} {i j m : Int} (h : memcpy dst i src j m = .ok out) : 0 ≤ m := by
  unfold memcpy at h
  split at h
  · rename_i hin
    exact hin.2.2.1
  · cases h

theorem length_readOut {out : List α} (h : s.readOut = .ok (out, t)) :
    (out.length : Int) = if s.start < s.stop then s.stop - s.start else s.buflen - s.start + s.stop := by
  unfold CircleBuf.readOut at h
  split at h
  · rename_i hlt
    obtain ⟨o, ho, h⟩ := of_bind h
    cases h
    rw [if_pos hlt]
    exact length_chars ho
  · rename_i hlt
    obtain ⟨o, ho, h⟩ := of_bind h
    obtain ⟨o', ho', h⟩ := of_bind h
    cases h
    rw [if_neg hlt, List.length_append, Int.natCast_add, length_chars ho, length_chars ho']

theorem write_sum (hlen : 0 < len) (h : s.write b len = .ok t) : s.size + len < 2 ^ 31 := by
  unfold CircleBuf.write at h
  rw [if_neg (by omega)] at h
  obtain ⟨size, hsize, -⟩ := of_bind h
  exact (int_le hsize).2

theorem copyIn_ends (h : s.copyIn b len = .ok t) : s.stop + len < 2 ^ 31 ∧ t.buflen = s.buflen ∧ t.size = s.size ∧
    t.stop = if s.stop + len ≤ s.buflen then s.stop + len else s.stop + len - s.buflen := by
  obtain ⟨sum, hsum, h⟩ := of_bind h
  obtain ⟨rfl, hlt⟩ := int_le hsum
  refine ⟨hlt, ?_⟩
  split at h
  · rename_i hle
    obtain ⟨_, -, h⟩ := of_bind h
    cases h
    rw [if_pos hle]
    exact ⟨rfl, rfl, rfl⟩
  · rename_i hgt
    obtain ⟨_, -, h⟩ := of_bind h
    obtain ⟨_, -, h⟩ := of_bind h
    cases h
    rw [if_neg hgt]
    refine ⟨rfl, rfl, ?_⟩
    dsimp only
    omega

/-- Where a write of less than the whole buffer leaves the start and the stop. -/
theorem write_ends (hlen : 0 < len) (hshort : len < s.buflen) (h : s.write b len = .ok t) :
    s.stop + len < 2 ^ 31 ∧ t.buflen = s.buflen ∧ t.size = min s.buflen (s.size + len) ∧
    t.stop = (if s.stop + len ≤ s.buflen then s.stop + len else s.stop + len - s.buflen) ∧
    t.start = if s.start > s.stop ∧ s.start < t.stop ∨ s.start < s.stop ∧ t.stop < s.stop then t.stop + 1 else s.start := by
  unfold CircleBuf.write at h
  rw [if_neg (by omega)] at h
  obtain ⟨size, hsize, h⟩ := of_bind h
  obtain ⟨rfl, -⟩ := int_le hsize
  rw [if_neg (by omega)] at h
  obtain ⟨u, hu, h⟩ := of_bind h
  obtain ⟨start, hstart, h⟩ := of_bind h
  cases h
  obtain ⟨hsum, hbuflen, hsize', hstop⟩ := copyIn_ends hu
  refine ⟨hsum, hbuflen, ?_, hstop, ?_⟩
  · refine hsize'.trans ?_
    dsimp only
    split <;> omega
  · unfold startAfter at hstart
    split at hstart
    · rename_i hmove
      rw [if_pos hmove]
      exact (int_le hstart).1
    · rename_i hstay
      cases hstart
      rw [if_neg hstay]

namespace Represents
variable (r : Represents s q n a z)
include r

/-- A write that does not fit leaves more or fewer characters than the size says. -/
theorem fits (h : s.write b len = .ok t) {q' : List α} (hne : 0 < len → q' ≠ []) (hshows : Shows t q') : s.Fits len := by
  by_cases hneg : len ≤ 0
  · exact .inl hneg
  · have hpos : 0 < len := by omega
    have hsum := write_sum hpos h
    refine .inr ⟨hsum, ?_⟩
    by_cases hlong : s.buflen ≤ len
    · exact .inl hlong
    · obtain ⟨hsize, hout⟩ := hshows
      obtain ⟨u, hu⟩ := hout (hne hpos)
      have hlen := length_readOut hu
      obtain ⟨hadd, hbuflen, hmin, hstop, hstart⟩ := write_ends hpos (by omega) h
      rw [hbuflen] at hlen
      have hle := r.length_le
      have hqlen : q = [] ∨ q.length = if a < z then z - a else n - a + z := by
        by_cases hq : q = []
        · exact .inl hq
        · exact .inr (r.length_eq hq)
      have hempty := r.empty
      rw [r.stop, r.buflen] at hstop
      rw [r.start, r.stop] at hstart
      rw [r.buflen, r.size, hsize] at hmin
      rw [r.buflen] at hlen hlong
      have hends : (q.length : Int) + len ≤ n ∧ ((a : Int) < z → (n : Int) < z + len → q.length + len + 1 = n) := by
        have hcases : (q.length = 0 ∧ (a = z ∨ a = 0 ∧ z = n)) ∨ q.length = if a < z then z - a else n - a + z := by
          rcases hqlen with hq | hq
          · rw [hq]
            exact .inl ⟨rfl, hempty hq⟩
          · exact .inr hq
        split_ifs at hlen hstop hstart hcases <;> omega
      rw [r.start, r.stop, r.buflen, r.size]
      exact .inr ⟨by rw [r.stop] at hadd; exact hadd, hends⟩

theorem read_nonneg {out : List α} (h : s.read b len = .ok (out, t)) : 0 ≤ len := by
  have ha := r.start_le
  obtain ⟨size, -, h⟩ := of_bind h
  dsimp only at h
  split at h
  · obtain ⟨_, hcopy, -⟩ := of_bind h
    have hmin := memcpy_nonneg hcopy
    omega
  · rw [r.start, r.buflen] at h
    split at h
    · obtain ⟨_, hcopy, -⟩ := of_bind h
      exact memcpy_nonneg hcopy
    · omega

theorem readOut_pos (hn : 2 ≤ n) (h : s.readOut = .ok (q, t)) : 0 < s.size := by
  have hlen := length_readOut h
  rw [r.start, r.stop, r.buflen] at hlen
  rw [r.size]
  have hpos : q ≠ [] := by
    intro hq
    rw [hq, List.length_nil] at hlen
    rcases r.empty hq with heq | ⟨hzero, hend⟩
    · split_ifs at hlen <;> omega
    · split_ifs at hlen <;> omega
  have := List.length_pos_iff.mpr hpos
  omega

end Represents

end CircleBuf

/-! Runs. -/

/-- The operations on a buffer; `b` is the caller's array. -/
inductive BufOp (α : Type) where
  | write (b : List α) (len : Int)
  | read (b : List α) (len : Int)
  | readOut
  | flush

/-- A buffer, and the newest of the characters that were written and not read. -/
structure BufSystem (α : Type) where
  buf : CircleBuf α
  unread : List α := []

namespace BufSystem
variable {α : Type} {s u : BufSystem α} {op : BufOp α} {ops : List (BufOp α)} {init : List α}

def step (s : BufSystem α) : BufOp α → Except Stop (BufSystem α)
  | .write b len => do
    let t ← s.buf.write b len
    .ok { buf := t, unread := CircleBuf.newest s.buf.buf.length (s.unread ++ b.take len.toNat) }
  | .read b len => do
    let r ← s.buf.read b len
    .ok { buf := r.2, unread := s.unread.drop len.toNat }
  | .readOut => do
    let r ← s.buf.readOut
    .ok { buf := r.2, unread := [] }
  | .flush => .ok { buf := s.buf.flush, unread := [] }

/-- The caller's array is long enough, and no more is read than there is. -/
def legal (s : BufSystem α) : BufOp α → Bool
  | .write b len => decide (len ≤ b.length)
  | .read b len => decide (len ≤ s.buf.size ∧ len ≤ b.length)
  | .readOut => true
  | .flush => true

/-- The condition under which the buffer is a bounded queue. -/
def safe (s : BufSystem α) : BufOp α → Bool
  | .write _ len => decide (s.buf.Fits len)
  | .read _ len => decide (0 ≤ len)
  | .readOut => decide (0 < s.buf.size)
  | .flush => decide (s.buf.size = 0)

/-- The operation does what it does to a bounded queue: it returns the oldest characters, and what can be seen of the
  buffer afterwards are the newest of those that are left. -/
def Right (s : BufSystem α) : BufOp α → Prop
  | .write b len => ∃ t, s.buf.write b len = .ok t ∧ t.Shows (CircleBuf.newest s.buf.buf.length (s.unread ++ b.take len.toNat))
  | .read b len => ∃ t, s.buf.read b len = .ok (s.unread.take len.toNat ++ b.drop len.toNat, t) ∧ t.Shows (s.unread.drop len.toNat)
  | .readOut => ∃ t, s.buf.readOut = .ok (s.unread, t) ∧ t.Shows []
  | .flush => s.buf.flush.Shows []

abbrev SafeStep : BufSystem α → BufOp α → BufSystem α → Prop := StepIf (fun s op => s.legal op && s.safe op) step

/-- The buffer represents what is unread. -/
def BufInv (n : Nat) (s : BufSystem α) : Prop := ∃ a z, s.buf.Represents s.unread n a z

theorem BufInv.start (init : List α) : BufInv init.length { buf := CircleBuf.new init } :=
  ⟨0, 0, rfl, rfl, rfl, rfl, rfl, Nat.zero_le _, Nat.zero_le _, fun _ => .inl rfl, absurd rfl⟩

/-- A safe operation succeeds, and the buffer represents the queue after it. -/
theorem BufInv.step {n : Nat} (hn : 2 ≤ n) (hmax : n < 2 ^ 31) (i : BufInv n s) (hl : s.legal op = true) (hs : s.safe op = true) :
    s.Right op ∧ ∃ u, s.step op = .ok u ∧ BufInv n u := by
  obtain ⟨a, z, r⟩ := i
  cases op with
  | write b len =>
    obtain ⟨t, a', z', ht, hrep⟩ := r.write hn hmax (of_decide_eq_true hl) (of_decide_eq_true hs)
    rw [← r.length] at hrep
    refine ⟨⟨t, ht, hrep.shows⟩, { buf := t, unread := CircleBuf.newest s.buf.buf.length (s.unread ++ b.take len.toNat) }, ?_, a', z', ?_⟩
    · unfold BufSystem.step
      dsimp only
      rw [ht, bind_ok]
    · rw [r.length] at hrep ⊢
      exact hrep
  | read b len =>
    obtain ⟨hsize, hb⟩ := of_decide_eq_true hl
    obtain ⟨k, rfl⟩ := Int.eq_ofNat_of_zero_le (of_decide_eq_true hs)
    rw [r.size] at hsize
    obtain ⟨t, a', ht, hrep⟩ := r.read (k := k) (b := b) hn hmax (by omega) (by omega)
    refine ⟨⟨t, ht, hrep.shows⟩, { buf := t, unread := s.unread.drop k }, ?_, a', z, hrep⟩
    unfold BufSystem.step
    dsimp only
    rw [ht, bind_ok]
    rfl
  | readOut =>
    have hpos : 0 < s.buf.size := of_decide_eq_true hs
    have hq : s.unread ≠ [] := by
      intro h
      rw [r.size, h, List.length_nil] at hpos
      omega
    obtain ⟨t, ht, hrep⟩ := r.readOut hq
    refine ⟨⟨t, ht, hrep.shows⟩, { buf := t, unread := [] }, ?_, z, z, hrep⟩
    unfold BufSystem.step
    rw [ht, bind_ok]
  | flush =>
    have hzero : s.buf.size = 0 := of_decide_eq_true hs
    have hq : s.unread = [] := by
      rw [r.size] at hzero
      exact List.length_eq_zero_iff.mp (by omega)
    have hrep := r.flush hq
    exact ⟨hrep.shows, _, rfl, 0, 0, hrep⟩

/-- An operation that does what it should is safe. -/
theorem BufInv.safe {n : Nat} (hn : 2 ≤ n) (i : BufInv n s) (hl : s.legal op = true) (hr : s.Right op) : s.safe op = true := by
  obtain ⟨a, z, r⟩ := i
  cases op with
  | write b len =>
    obtain ⟨t, ht, hshows⟩ := hr
    have hb : len ≤ b.length := of_decide_eq_true hl
    refine decide_eq_true (r.fits ht (fun hpos hnil => ?_) hshows)
    have hlen := congrArg List.length hnil
    rw [CircleBuf.length_newest, List.length_append, length_take_le (by omega), r.length, List.length_nil] at hlen
    omega
  | read b len =>
    obtain ⟨t, ht, -⟩ := hr
    exact decide_eq_true (r.read_nonneg ht)
  | readOut =>
    obtain ⟨t, ht, -⟩ := hr
    exact decide_eq_true (r.readOut_pos hn ht)
  | flush => exact decide_eq_true hr.1

theorem BufInv.run (hn : 2 ≤ init.length) (hmax : init.length < 2 ^ 31) (hr : Exec SafeStep { buf := CircleBuf.new init } ops s) :
    BufInv init.length s := by
  refine hr.invariant (BufInv.start init) ?_
  rintro t op u i ⟨hc, ht⟩
  obtain ⟨hl, hs⟩ := Bool.and_eq_true_iff.mp hc
  obtain ⟨-, u', hu, i'⟩ := i.step hn hmax hl hs
  cases hu.symm.trans ht
  exact i'

/-- In a run of safe operations the buffer is a bounded queue: it counts what is unread, and the next operation does
  what it should exactly when it is safe; then the run goes on. -/
theorem bounded_queue (hn : 2 ≤ init.length) (hmax : init.length < 2 ^ 31) (hr : Exec SafeStep { buf := CircleBuf.new init } ops s) :
    s.buf.Shows s.unread ∧ s.buf.buf.length = init.length ∧ s.unread.length ≤ init.length ∧
    (∀ op, s.legal op = true → (s.Right op ↔ s.safe op = true)) ∧
    ∀ op, s.legal op = true → s.safe op = true → ∃ u, Exec SafeStep { buf := CircleBuf.new init } (ops ++ [op]) u := by
  have i := BufInv.run hn hmax hr
  have hrep := i
  obtain ⟨a, z, r⟩ := hrep
  refine ⟨r.shows, r.length, r.length_le, fun op hl => ⟨i.safe hn hl, fun hs => (i.step hn hmax hl hs).1⟩, fun op hl hs => ?_⟩
  obtain ⟨-, u, hu, -⟩ := i.step hn hmax hl hs
  exact ⟨u, .snoc hr ⟨Bool.and_eq_true_iff.mpr ⟨hl, hs⟩, hu⟩⟩

/-- The buffer of four is filled, read in part, written over its end and put out. -/
theorem bounded_queue_four : ∃ s, Exec SafeStep { buf := CircleBuf.new ['x', 'x', 'x', 'x'] }
      [.write ['a', 'b', 'c', 'd', 'e'] 5, .read ['y', 'y', 'y'] 3, .readOut, .write ['f', 'g'] 2, .read ['y', 'y'] 1, .write ['h'] 1] s ∧
    s.unread = ['g', 'h'] ∧ s.buf.Shows s.unread ∧ ∀ op, s.legal op = true → (s.Right op ↔ s.safe op = true) := by
  refine Exec.ends_withIf (p := fun s => decide (s.unread = ['g', 'h'])) (by decide) fun s hr hend => ?_
  obtain ⟨hshows, -, -, hright, -⟩ := bounded_queue (by decide) (by decide) hr
  exact ⟨of_decide_eq_true hend, hshows, hright⟩

/-- When a write goes over the end the start is put one behind the stop: of the four newest characters that the size
  counts, the oldest is not put out. -/
theorem oldest_is_lost : ∃ s t, Exec (StepIf legal step) { buf := CircleBuf.new ['x', 'x', 'x', 'x'] }
      [.write ['a', 'b', 'c'] 3, .write ['d', 'e'] 2] s ∧
    s.unread = ['b', 'c', 'd', 'e'] ∧ s.buf.size = 4 ∧ s.buf.readOut = .ok (['c', 'd', 'e'], t) := by
  refine Exec.ends_withIf_two (p := fun s => decide (s.unread = ['b', 'c', 'd', 'e'] ∧ s.buf.size = 4 ∧
        (s.buf.readOut.map Prod.fst).toOption = some ['c', 'd', 'e'])) (by decide) fun s hr hend => ?_
  obtain ⟨hunread, hsize, hout⟩ := of_decide_eq_true hend
  cases hread : s.buf.readOut with
  | error e =>
    rw [hread] at hout
    cases hout
  | ok r =>
    rw [hread] at hout
    obtain ⟨out, t⟩ := r
    cases hout
    exact ⟨t, hunread, hsize, rfl⟩

end BufSystem

end Gem5.Base
