import Gem5Nvmain.Mem.DramQueues

/- The bursts of a packet.

  `burstsOf` cuts the bytes of a packet at the boundaries of the bursts, as `Lib.chunks` does with numbers that have
  no bound, exactly if the numbers do not wrap around (`split_iff_fits`): the bytes have to be below the last burst of
  the addresses, or the packet is the end of that burst. -/
namespace Gem5.Mem
open Lib List

variable {p : DRAMCtrl} {pkt : Packet} {k a e n : Nat} {l : List (Nat × Nat)}

/-- The pieces are what they should be, for numbers without a bound. -/
structure Split (p : DRAMCtrl) (pkt : Packet) (l : List (Nat × Nat)) : Prop where
  /-- `divCeil(offset + size, burstSize)` -/
  count : l.length = (pkt.addr % p.burstSize + pkt.size + p.burstSize - 1) / p.burstSize
  nonempty : ∀ x ∈ l, 1 ≤ x.2
  inBurst : ∀ x ∈ l, ∀ b, inside x b → b / p.burstSize = x.1 / p.burstSize
  consecutive : l.map (·.1 / p.burstSize) = range' (pkt.addr / p.burstSize) l.length
  bytes : (l.flatMap fun x => range' x.1 x.2) = range' pkt.addr pkt.size

/-- No number wraps around when the packet is cut. -/
def Fits (p : DRAMCtrl) (pkt : Packet) : Prop :=
  pkt.addr % p.burstSize + pkt.size + p.burstSize - 1 < 2 ^ 32 ∧
    (nextBlock p.burstSize (pkt.addr + pkt.size - 1) < 2 ^ 64 ∨
      pkt.addr + pkt.size = 2 ^ 64 ∧ pkt.addr / p.burstSize = (pkt.addr + pkt.size - 1) / p.burstSize)

instance : Decidable (Fits p pkt) := inferInstanceAs (Decidable (_ ∧ _))

/-! ## Blocks below the end of the addresses -/

theorem nextBurst_eq (hB : p.burstSize = 2 ^ k) : p.nextBurst a = nextBlock p.burstSize a % 2 ^ 64 := by
  unfold DRAMCtrl.nextBurst add64
  rw [hB, or_mask_succ]

theorem sub64_eq (hle : a ≤ n) (hn : n < 2 ^ 64) : sub64 n a = n - a := by
  unfold sub64
  omega

theorem burst_lt (hk : k < 32) : 2 ^ k < 2 ^ 32 := Nat.pow_lt_pow_right (by decide) hk

theorem nextBlock_sub (a : Nat) (hB : 0 < p.burstSize) : nextBlock p.burstSize a - a ≤ p.burstSize := by
  have := Nat.div_mul_le_self a p.burstSize
  unfold nextBlock
  omega

/-! ## Cutting -/

/-- The loop cuts as numbers without a bound are cut, below the last burst. -/
theorem bursts_eq_chunks (hB : p.burstSize = 2 ^ k) (hk : k < 32) (htop : nextBlock p.burstSize (pkt.addr + pkt.size - 1) < 2 ^ 64)
    (ha : a < pkt.addr + pkt.size) (hn : n + a / p.burstSize = (pkt.addr + pkt.size - 1) / p.burstSize + 1) :
    p.bursts pkt a n = chunks p.burstSize (pkt.addr + pkt.size) a n := by
  have hpos : 0 < p.burstSize := hB ▸ Nat.two_pow_pos k
  have hlt : p.burstSize < 2 ^ 32 := hB ▸ burst_lt hk
  have hend := lt_nextBlock hpos (a := pkt.addr + pkt.size - 1)
  induction n generalizing a with
  | zero => rfl
  | succ n ih =>
    have hnext : nextBlock p.burstSize a ≤ nextBlock p.burstSize (pkt.addr + pkt.size - 1) :=
      Nat.add_le_add_right (Nat.mul_le_mul_right _ (Nat.div_le_div_right (by omega))) _
    have hrest := nextBlock_sub a hpos
    have hbehind := lt_nextBlock hpos (a := a)
    have heq : p.nextBurst a = nextBlock p.burstSize a := by
      rw [nextBurst_eq hB]
      exact Nat.mod_eq_of_lt (by omega)
    have hadd : add64 pkt.addr pkt.size = pkt.addr + pkt.size := Nat.mod_eq_of_lt (by omega)
    unfold DRAMCtrl.bursts chunks
    rw [heq, hadd, sub64_eq (by omega) (by omega), Nat.mod_eq_of_lt (by omega)]
    congr 1
    cases n with
    | zero => rfl
    | succ n => exact ih (nextBlock_lt hpos (by omega)) (by rw [nextBlock_div hpos]; omega)

theorem range'_goes_on {x m : Nat} {r : List Nat} (h : range' a n ++ x :: r = range' a m) : a + n = x := by
  have hget := congrArg (·[n]?) h
  simp only [getElem?_append_right (Nat.le_of_eq length_range'), length_range', Nat.sub_self, getElem?_cons_zero] at hget
  rcases Nat.lt_or_ge n m with hlt | hge
  · rw [getElem?_range' hlt, Nat.one_mul] at hget
    exact (Option.some.inj hget).symm
  · rw [getElem?_eq_none (by simpa using hge)] at hget
    cases hget

/-- If the pieces are in consecutive bursts and make up the bytes, then nothing has wrapped around. -/
theorem fits_of_bursts (hB : p.burstSize = 2 ^ k) (hk : k < 32) (ha64 : a < 2 ^ 64) (ha : a < pkt.addr + pkt.size)
    (hn : n + a / p.burstSize = (pkt.addr + pkt.size - 1) / p.burstSize + 1) (hsize : ∀ x ∈ p.bursts pkt a n, 1 ≤ x.2)
    (hblocks : (p.bursts pkt a n).map (·.1 / p.burstSize) = range' (a / p.burstSize) n)
    (hbytes : ((p.bursts pkt a n).flatMap fun x => range' x.1 x.2) = range' a (pkt.addr + pkt.size - a)) :
    nextBlock p.burstSize (pkt.addr + pkt.size - 1) < 2 ^ 64 ∨
      pkt.addr + pkt.size = 2 ^ 64 ∧ a / p.burstSize = (pkt.addr + pkt.size - 1) / p.burstSize := by
  have hpos : 0 < p.burstSize := hB ▸ Nat.two_pow_pos k
  have hlt : p.burstSize < 2 ^ 32 := hB ▸ burst_lt hk
  induction n generalizing a with
  | zero =>
    have := Nat.div_le_div_right (c := p.burstSize) (show a ≤ pkt.addr + pkt.size - 1 by omega)
    omega
  | succ n ih =>
    have hrest := nextBlock_sub a hpos
    have hle : nextBlock p.burstSize a ≤ 2 ^ 64 := nextBlock_le (hB ▸ Nat.pow_dvd_pow 2 (by omega)) ha64
    unfold DRAMCtrl.bursts at hsize hblocks hbytes
    rw [nextBurst_eq hB] at hsize hblocks hbytes
    cases n with
    | zero =>
      have hlast : a / p.burstSize = (pkt.addr + pkt.size - 1) / p.burstSize := by omega
      rcases Nat.lt_or_eq_of_le hle with hbelow | htop
      · left
        unfold nextBlock at hbelow ⊢
        rw [← hlast]
        exact hbelow
      · rw [htop, Nat.mod_self, Nat.zero_min] at hbytes
        have hlen := congrArg length hbytes
        simp only [DRAMCtrl.bursts, flatMap_cons, flatMap_nil, append_nil, length_range'] at hlen
        unfold sub64 at hlen
        omega
    | succ m =>
      have hmore : a / p.burstSize < (pkt.addr + pkt.size - 1) / p.burstSize := by omega
      have hnext := nextBlock_lt hpos hmore
      -- the second piece does not begin at 0
      have hbelow : nextBlock p.burstSize a < 2 ^ 64 := by
        refine Nat.lt_of_le_of_ne hle fun htop => ?_
        rw [htop, Nat.mod_self] at hblocks
        unfold DRAMCtrl.bursts at hblocks
        simp only [map_cons, range'_succ, cons.injEq, Nat.zero_div] at hblocks
        cases hblocks.2.1
      rw [Nat.mod_eq_of_lt hbelow] at hsize hblocks hbytes
      rw [flatMap_cons] at hbytes
      rw [map_cons, range'_succ, cons.injEq] at hblocks
      generalize hs : sub64 (min (nextBlock p.burstSize a) (add64 pkt.addr pkt.size)) a % 2 ^ 32 = s at hsize hbytes
      have hcut : a + s = nextBlock p.burstSize a := by
        have hsecond := hsize _ (mem_cons_of_mem _ (by unfold DRAMCtrl.bursts; exact mem_cons_self))
        unfold DRAMCtrl.bursts at hbytes
        rw [flatMap_cons] at hbytes
        obtain ⟨t, ht⟩ := Nat.exists_eq_add_of_le' hsecond
        rw [ht, range'_succ, cons_append] at hbytes
        exact range'_goes_on hbytes
      have htail := ih hbelow hnext (by rw [nextBlock_div hpos]; omega) (fun x hx => hsize x (mem_cons_of_mem _ hx))
        (by rw [hblocks.2, nextBlock_div hpos]) (by
          have hsum : s + (pkt.addr + pkt.size - nextBlock p.burstSize a) = pkt.addr + pkt.size - a := by omega
          rw [← hsum, ← range'_append_1, hcut] at hbytes
          exact append_cancel_left hbytes)
      refine htail.imp id ?_
      rintro ⟨htop, hr⟩
      -- then the first piece would have reached the end, too
      exfalso
      have hend := lt_nextBlock hpos (a := pkt.addr + pkt.size - 1)
      have hend' : nextBlock p.burstSize (pkt.addr + pkt.size - 1) = nextBlock p.burstSize a + p.burstSize := by
        have hr' : (pkt.addr + pkt.size - 1) / p.burstSize = a / p.burstSize + 1 := by rw [← hr, nextBlock_div hpos]
        unfold nextBlock
        rw [hr', Nat.add_one_mul]
      have hadd : add64 pkt.addr pkt.size = 0 := by
        unfold add64
        rw [htop, Nat.mod_self]
      rw [hadd, Nat.min_zero] at hs
      unfold sub64 at hs
      omega

/-! ## The bursts of a packet -/

theorem dramPktCount_eq (hB : p.burstSize = 2 ^ k) :
    p.dramPktCount pkt = (pkt.addr % p.burstSize + pkt.size + p.burstSize - 1) % 2 ^ 32 / p.burstSize := by
  unfold DRAMCtrl.dramPktCount
  rw [hB, Nat.and_two_pow_sub_one_eq_mod]

/-- The count is right if it has not wrapped around, and only then. -/
theorem count_iff (hB : p.burstSize = 2 ^ k) (hk : k < 32) : p.dramPktCount pkt = (pkt.addr % p.burstSize + pkt.size + p.burstSize - 1) / p.burstSize ↔
    pkt.addr % p.burstSize + pkt.size + p.burstSize - 1 < 2 ^ 32 := by
  rw [dramPktCount_eq hB]
  generalize pkt.addr % p.burstSize + pkt.size + p.burstSize - 1 = x
  constructor
  · intro h
    by_contra hge
    have hlow : x % 2 ^ 32 / p.burstSize < 2 ^ (32 - k) := by
      rw [hB, Nat.div_lt_iff_lt_mul (Nat.two_pow_pos k), ← Nat.pow_add, Nat.sub_add_cancel hk.le]
      exact Nat.mod_lt _ (Nat.two_pow_pos 32)
    have hhigh : 2 ^ (32 - k) ≤ x / p.burstSize := by
      rw [hB, Nat.le_div_iff_mul_le (Nat.two_pow_pos k), ← Nat.pow_add, Nat.sub_add_cancel hk.le]
      exact Nat.le_of_not_lt hge
    omega
  · intro h
    rw [Nat.mod_eq_of_lt h]

theorem bursts_length : (p.bursts pkt a n).length = n := by
  induction n generalizing a with
  | zero => rfl
  | succ n ih => simp [DRAMCtrl.bursts, ih]

theorem count_touched : (pkt.addr % p.burstSize + pkt.size + p.burstSize - 1) / p.burstSize =
    touched p.burstSize pkt.addr (pkt.addr + pkt.size) := by
  unfold touched
  rw [Nat.add_sub_cancel_left]

/-- The pieces of a packet are right exactly if no number wraps around. -/
theorem split_iff_fits (hB : p.burstSize = 2 ^ k) (hk : k < 32) (ha : pkt.addr < 2 ^ 64) (hsize : 1 ≤ pkt.size) :
    Split p pkt (DramSystem.burstsOf p pkt) ↔ Fits p pkt := by
  have hpos : 0 < p.burstSize := hB ▸ Nat.two_pow_pos k
  have hlt : p.burstSize < 2 ^ 32 := hB ▸ burst_lt hk
  have he : pkt.addr < pkt.addr + pkt.size := Nat.lt_add_of_pos_right hsize
  have htouched := touched_eq hpos he
  unfold DramSystem.burstsOf
  constructor
  · intro h
    have hcount := h.count
    rw [bursts_length] at hcount
    refine ⟨(count_iff hB hk).mp hcount, ?_⟩
    rw [hcount, count_touched] at h
    have hconsecutive := h.consecutive
    rw [bursts_length] at hconsecutive
    apply fits_of_bursts hB hk ha he htouched h.nonempty hconsecutive
    rw [Nat.add_sub_cancel_left]
    exact h.bytes
  · rintro ⟨hcount, hfits⟩
    have hcount := (count_iff hB hk).mpr hcount
    rw [hcount, count_touched]
    rcases hfits with htop | ⟨hend, hsingle⟩
    · rw [bursts_eq_chunks hB hk htop he htouched]
      refine ⟨by rw [chunks_length, count_touched], fun x hx => (chunks_inside hpos he htouched hx).1,
        fun x hx => (chunks_inside hpos he htouched hx).2.2, ?_, ?_⟩
      · rw [chunks_blocks hpos, chunks_length]
      · rw [chunks_bytes hpos he htouched, Nat.add_sub_cancel_left]
    · have hone : touched p.burstSize pkt.addr (pkt.addr + pkt.size) = 1 := by omega
      have htop : nextBlock p.burstSize pkt.addr = 2 ^ 64 := by
        refine Nat.le_antisymm (nextBlock_le (hB ▸ Nat.pow_dvd_pow 2 (by omega)) ha) ?_
        rw [← hend]
        exact le_nextBlock hpos he hsingle
      have hrest := nextBlock_sub pkt.addr hpos
      have hpiece : sub64 (min (p.nextBurst pkt.addr) (add64 pkt.addr pkt.size)) pkt.addr % 2 ^ 32 = pkt.size := by
        rw [nextBurst_eq hB, htop, Nat.mod_self, Nat.zero_min]
        unfold sub64
        omega
      rw [hone]
      unfold DRAMCtrl.bursts DRAMCtrl.bursts
      rw [hpiece]
      refine ⟨by rw [count_touched, hone]; rfl, ?_, ?_, rfl, by simp⟩
      · intro x hx
        rw [mem_singleton.mp hx]
        exact hsize
      · intro x hx b hb
        rw [mem_singleton.mp hx] at hb ⊢
        have hlow : pkt.addr / p.burstSize * p.burstSize ≤ b := (Nat.div_mul_le_self _ _).trans hb.1
        have hhigh : b < (pkt.addr / p.burstSize + 1) * p.burstSize := by
          rw [Nat.add_one_mul]
          change b < nextBlock p.burstSize pkt.addr
          have := hb.2
          omega
        exact Nat.div_eq_of_lt_le hlow hhigh

end Gem5.Mem
