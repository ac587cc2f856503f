import Gem5Nvmain.Mem.CheckFunctional

/- Functional reads see the first holder of each byte.

  `held p bs k` is the abstract answer: byte `k` of the packet as the first of the buffers `bs` that has it holds it.
  A packet is `Right` about the buffers seen so far when its range of found bytes is exactly the set of held bytes,
  with these values. A call keeps this exactly when the buffer meets the condition `meets` (`call_iff`). -/
namespace Gem5.Mem.FunctionalPacket
open Lib Option

variable {p p₀ q : FunctionalPacket} {b : Buffer} {bs : List Buffer} {d : List Byte} {fo n vo k : Nat} {done : Bool}

/-! ## The first holder -/

/-- The buffer's data counts for the packet. -/
def counts (p : Packet) (b : Buffer) : Bool := b.isSecure == p.isSecure && b.data.isSome

/-- The first of the packet's bytes that the buffer has. -/
def lo (p : Packet) (b : Buffer) : Nat := b.addr - p.addr

/-- The end of the packet's bytes that the buffer has. -/
def hi (p : Packet) (b : Buffer) : Nat := min (p.addr + p.size) (b.addr + b.size) - p.addr

/-- Byte `k` of the packet in the buffer. -/
def byteAt (p : Packet) (b : Buffer) (k : Nat) : Option Byte :=
  if counts p b && decide (b.addr ≤ p.addr + k) then (b.data.getD [])[p.addr + k - b.addr]? else none

/-- Byte `k` of the packet in the first buffer that has it. -/
def held (p : Packet) (bs : List Buffer) (k : Nat) : Option Byte := bs.findSome? fun b => byteAt p b k

/-- The range of found bytes is exactly what the buffers hold, and has the bytes of the first holders. -/
def Right (p₀ : FunctionalPacket) (bs : List Buffer) (p : FunctionalPacket) : Prop :=
  (∀ k < p₀.size, p.bytesValidStart ≤ k ∧ k < p.bytesValidEnd ↔ (held p₀.toPacket bs k).isSome = true) ∧
  ∀ k < p₀.size, ∀ x, held p₀.toPacket bs k = some x → p.data[k]? = some x

/-! ## The buffers -/

/-- A buffer of at least one byte that ends within the address space, with an array of its size. -/
def wellFormed (b : Buffer) : Bool :=
  decide (0 < b.size) && decide (b.size < 2 ^ 31) && decide (b.addr + b.size ≤ 2 ^ 64) &&
    b.data.all fun d => d.length == b.size

/-- The buffer has a byte of the packet. -/
def overlaps (p : Packet) (b : Buffer) : Bool :=
  counts p b && decide (b.addr < p.addr + p.size) && decide (p.addr < b.addr + b.size)

def nothingFound (p : FunctionalPacket) : Bool := p.bytesValidStart == 0 && p.bytesValidEnd == 0

/-- The buffer is well formed and leaves no gap to the bytes found so far. -/
def adjoins (p : FunctionalPacket) (b : Buffer) : Bool :=
  wellFormed b && (!overlaps p.toPacket b || p.nothingFound ||
    decide (lo p.toPacket b ≤ p.bytesValidEnd) && decide (p.bytesValidStart ≤ hi p.toPacket b))

/-- The buffers that are recorded rightly. One without a byte of the packet comes while the packet is not complete;
  one around the whole packet comes when the packet is complete, with the bytes that were found; one inside the packet
  ends within 16 bits; and of one that sticks out, the last byte in the packet was found before. -/
def meets (p : FunctionalPacket) (b : Buffer) : Bool :=
  adjoins p b &&
  if !overlaps p.toPacket b then !(p.bytesValidStart == 0 && p.bytesValidEnd == p.size)
  else if b.addr ≤ p.addr ∧ p.addr + p.size ≤ b.addr + b.size then
    p.bytesValidStart == 0 && p.bytesValidEnd == p.size &&
      ((b.data.getD []).drop (p.addr - b.addr)).take p.size == p.data
  else if p.addr ≤ b.addr ∧ b.addr + b.size ≤ p.addr + p.size then decide (hi p.toPacket b < 2 ^ 16)
  else decide (p.bytesValidStart < hi p.toPacket b) && decide (hi p.toPacket b ≤ p.bytesValidEnd)

/-- One call on a buffer. -/
def step (p : FunctionalPacket) (b : Buffer) : Except Stop FunctionalPacket := do
  let (p, _) ← p.checkFunctional b
  pure p

/-- A read that has found nothing yet, with the array of its data. -/
structure Fresh (p : FunctionalPacket) : Prop where
  isRead : p.isRead = true
  size : 0 < p.size
  fits : p.addr + p.size ≤ 2 ^ 64
  length : p.data.length = p.size
  start : p.bytesValidStart = 0
  stop : p.bytesValidEnd = 0

/-! ## Numbers -/

theorem int32_eq {x : Int} (h0 : -2 ^ 31 ≤ x) (h1 : x < 2 ^ 31) : int32 x = x := by
  unfold int32
  omega

theorem uint16_eq {x : Nat} (h : x < 2 ^ 16) : uint16 x = x := by
  unfold uint16
  omega

theorem uint16_lt (x : Int) : uint16 x < 2 ^ 16 := by
  unfold uint16
  omega

theorem lastAddr_eq {addr size : Nat} (h0 : 0 < size) (h : addr + size ≤ 2 ^ 64) :
    lastAddr addr size = addr + size - 1 := by
  unfold lastAddr
  omega

/-! ## Merging an overlap -/

/-- What merging the overlap `fo .. fo+n-1`, found at `vo` in `d`, makes of `p`. -/
structure Merged (p : FunctionalPacket) (d : List Byte) (vo fo n : Nat) (q : FunctionalPacket) : Prop where
  fixed : q = { p with data := q.data, bytesValidStart := q.bytesValidStart, bytesValidEnd := q.bytesValidEnd }
  start : q.bytesValidStart = if p.nothingFound then fo else min p.bytesValidStart fo
  stop : q.bytesValidEnd = if p.nothingFound then fo + n else max p.bytesValidEnd (fo + n)
  length : q.data.length = p.data.length
  byte : ∀ k, q.data[k]? = if p.bytesValidStart ≤ k ∧ k < p.bytesValidEnd then p.data[k]?
    else if fo ≤ k ∧ k < fo + n then d[vo + (k - fo)]? else p.data[k]?

theorem copyFound_eq (hend : p.bytesValidEnd ≤ p.size) (hfo : fo + n ≤ p.data.length) (hvo : vo + n ≤ d.length) :
    copyFound p d vo fo n = .ok ({ p with data := blit p.data fo d vo n },
      p.bytesValidStart == 0 && p.bytesValidEnd == p.size) := by
  unfold copyFound
  rw [decide_eq_true hend, memcpy_eq hfo hvo]
  rfl

section Merge
variable (hlen : p.data.length = p.size) (hend : p.bytesValidEnd ≤ p.size) (hsmall : p.bytesValidEnd < 2 ^ 16)
  (hfo : fo + n ≤ p.size) (hn : fo + n < 2 ^ 16) (hvo : vo + n ≤ d.length)
include hlen hfo hn hvo

theorem merge_first (hnone : p.nothingFound = true) :
    ∃ q, mergeFound p d vo fo n = .ok (q, q.bytesValidStart == 0 && q.bytesValidEnd == q.size) ∧
      Merged p d vo fo n q := by
  have hzero : p.bytesValidStart = 0 ∧ p.bytesValidEnd = 0 := by simpa [nothingFound] using hnone
  have hflag : (p.bytesValidStart == 0 && p.bytesValidEnd == 0) = true := hnone
  unfold mergeFound
  rw [if_pos hflag, show (fo : Int) + n = ((fo + n : Nat) : Int) by omega, uint16_eq hn, uint16_eq (by omega),
    copyFound_eq hfo (by rw [hlen]; exact hfo) hvo]
  refine ⟨_, rfl, rfl, ?_, ?_, ?_, ?_⟩
  · rw [if_pos hnone]
  · rw [if_pos hnone]
  · exact length_blit (by rw [hlen]; exact hfo) hvo
  · intro k
    rw [if_neg (by omega)]
    exact getElem?_blit (by rw [hlen]; exact hfo) hvo

include hend hsmall

/-- An overlap that touches the range found so far extends it on either side or not at all. -/
theorem merge_touching (hnone : ¬p.nothingFound = true) (hrange : p.bytesValidStart < p.bytesValidEnd)
    (hle : fo ≤ p.bytesValidEnd) (hge : p.bytesValidStart ≤ fo + n) :
    ∃ q, mergeFound p d vo fo n = .ok (q, q.bytesValidStart == 0 && q.bytesValidEnd == q.size) ∧
      Merged p d vo fo n q := by
  have hflag : ¬(p.bytesValidStart == 0 && p.bytesValidEnd == 0) = true := hnone
  unfold mergeFound
  rw [if_neg hflag]
  rcases Nat.lt_or_ge fo p.bytesValidStart with hfront | hin
  · have hhead : (p.bytesValidStart : Int) - fo = ((p.bytesValidStart - fo : Nat) : Int) := by omega
    rw [if_neg (by omega)]
    rcases Nat.lt_or_ge p.bytesValidEnd (fo + n) with hback | hin'
    · -- both sides
      have hlenFront : (blit p.data fo d vo (p.bytesValidStart - fo)).length = p.data.length :=
        length_blit (by omega) (by omega)
      rw [if_neg (by omega), if_neg (by omega), if_pos (by omega), hhead, memcpy_eq (by omega) (by omega), bind_ok,
        uint16_eq (by omega), show (p.bytesValidEnd : Int) + (fo + n - p.bytesValidEnd) = ((fo + n : Nat) : Int) by omega,
        uint16_eq hn, show (fo : Int) + n - p.bytesValidEnd = ((fo + n - p.bytesValidEnd : Nat) : Int) by omega,
        show (vo : Int) + (p.bytesValidEnd - fo) = ((vo + (p.bytesValidEnd - fo) : Nat) : Int) by omega,
        copyFound_eq (by exact hfo) (by dsimp only; omega) (by omega)]
      refine ⟨_, rfl, rfl, ?_, ?_, ?_, ?_⟩
      · rw [if_neg hnone]
        dsimp only
        omega
      · rw [if_neg hnone]
        dsimp only
        omega
      · dsimp only
        rw [length_blit (by omega) (by omega), hlenFront]
      · intro k
        dsimp only
        rw [getElem?_blit (by omega) (by omega), getElem?_blit (by omega) (by omega)]
        split_ifs <;> first | rfl | omega | (congr 1; omega)
    · -- in front
      rw [if_pos (by omega), hhead, uint16_eq (by omega), copyFound_eq (by exact hend) (by dsimp only; omega) (by omega)]
      refine ⟨_, rfl, rfl, ?_, ?_, ?_, ?_⟩
      · rw [if_neg hnone]
        dsimp only
        omega
      · rw [if_neg hnone]
        dsimp only
        omega
      · dsimp only
        exact length_blit (by omega) (by omega)
      · intro k
        dsimp only
        rw [getElem?_blit (by omega) (by omega)]
        split_ifs <;> first | rfl | omega
  · rcases Nat.lt_or_ge p.bytesValidEnd (fo + n) with hback | hin'
    · -- behind
      rw [if_neg (by omega), if_neg (by omega), if_pos (by omega),
        show (p.bytesValidEnd : Int) + (fo + n - p.bytesValidEnd) = ((fo + n : Nat) : Int) by omega,
        uint16_eq hn, show (fo : Int) + n - p.bytesValidEnd = ((fo + n - p.bytesValidEnd : Nat) : Int) by omega,
        show (vo : Int) + (p.bytesValidEnd - fo) = ((vo + (p.bytesValidEnd - fo) : Nat) : Int) by omega,
        copyFound_eq (by exact hfo) (by dsimp only; omega) (by omega)]
      refine ⟨_, rfl, rfl, ?_, ?_, ?_, ?_⟩
      · rw [if_neg hnone]
        dsimp only
        omega
      · rw [if_neg hnone]
        dsimp only
        omega
      · dsimp only
        exact length_blit (by omega) (by omega)
      · intro k
        dsimp only
        rw [getElem?_blit (by omega) (by omega)]
        split_ifs <;> first | rfl | omega | (congr 1; omega)
    · -- nothing new
      have hcopy : copyFound p d vo fo 0 = _ := copyFound_eq (n := 0) hend (by omega) (by omega)
      rw [if_pos (by omega), hcopy]
      refine ⟨_, rfl, rfl, ?_, ?_, ?_, ?_⟩
      · rw [if_neg hnone]
        dsimp only
        omega
      · rw [if_neg hnone]
        dsimp only
        omega
      · exact length_blit (by omega) (by omega)
      · intro k
        rw [getElem?_blit (by omega) (by omega)]
        split_ifs <;> first | rfl | omega

end Merge

theorem merge_apart (hnone : ¬p.nothingFound = true) (hrange : p.bytesValidStart < p.bytesValidEnd)
    (hgap : p.bytesValidEnd < fo ∧ 0 < n ∨ fo + n < p.bytesValidStart) : ∃ e, mergeFound p d vo fo n = .error e := by
  have hflag : ¬(p.bytesValidStart == 0 && p.bytesValidEnd == 0) = true := hnone
  unfold mergeFound
  rw [if_neg hflag, if_neg (by omega), if_neg (by omega), if_neg (by omega), if_neg (by omega), if_pos (by omega)]
  exact ⟨_, rfl⟩

/-! ## The 16-bit fields -/

theorem copyFound_stop {x y z : Int} (hp : p.bytesValidEnd < 2 ^ 16) (h : copyFound p d x y z = .ok (q, done)) :
    q.bytesValidEnd < 2 ^ 16 := by
  obtain ⟨_, -, h⟩ := of_bind h
  obtain ⟨bytes, -, h⟩ := of_bind h
  cases h
  exact hp

theorem mergeFound_stop {x y z : Int} (hp : p.bytesValidEnd < 2 ^ 16) (h : mergeFound p d x y z = .ok (q, done)) :
    q.bytesValidEnd < 2 ^ 16 := by
  unfold mergeFound at h
  dsimp only at h
  split at h
  · exact copyFound_stop (uint16_lt _) h
  · split at h
    · exact copyFound_stop hp h
    · split at h
      · exact copyFound_stop (by exact hp) h
      · split at h
        · exact copyFound_stop (uint16_lt _) h
        · split at h
          · obtain ⟨bytes, -, h⟩ := of_bind h
            exact copyFound_stop (uint16_lt _) h
          · split at h
            · cases h
            · exact copyFound_stop hp h

theorem readFunctional_stop (hp : p.bytesValidEnd < 2 ^ 16) (h : p.readFunctional b d = .ok (q, done)) :
    q.bytesValidEnd < 2 ^ 16 := by
  unfold readFunctional at h
  dsimp only at h
  split at h
  · obtain ⟨bytes, -, h⟩ := of_bind h
    cases h
    exact hp
  · obtain ⟨⟨x, y, z⟩, -, h⟩ := of_bind h
    exact mergeFound_stop hp h

/-! ## The bytes of a buffer -/

theorem counts_iff {p : Packet} : counts p b = true ↔ b.isSecure = p.isSecure ∧ ∃ d, b.data = some d := by
  unfold counts
  rw [Bool.and_eq_true, beq_iff_eq, isSome_iff_exists]

theorem wellFormed_iff : wellFormed b = true ↔
    0 < b.size ∧ b.size < 2 ^ 31 ∧ b.addr + b.size ≤ 2 ^ 64 ∧ ∀ d, b.data = some d → d.length = b.size := by
  unfold wellFormed
  simp only [Bool.and_eq_true, decide_eq_true_eq, all_eq_true, beq_iff_eq, and_assoc]

theorem overlaps_iff {p : Packet} : overlaps p b = true ↔
    counts p b = true ∧ b.addr < p.addr + p.size ∧ p.addr < b.addr + b.size := by
  unfold overlaps
  simp only [Bool.and_eq_true, decide_eq_true_eq, and_assoc]

theorem byteAt_eq {p : Packet} (hc : counts p b = true) (hd : b.data = some d) (hk : lo p b ≤ k) :
    byteAt p b k = d[p.addr + k - b.addr]? := by
  have hle : b.addr ≤ p.addr + k := by
    unfold lo at hk
    omega
  unfold byteAt
  rw [hc, hd, decide_eq_true hle]
  rfl

theorem byteAt_isSome {p : Packet} (hwf : wellFormed b = true) (hk : k < p.size) :
    (byteAt p b k).isSome = true ↔ overlaps p b = true ∧ lo p b ≤ k ∧ k < hi p b := by
  obtain ⟨hpos, -, -, hlen⟩ := wellFormed_iff.mp hwf
  rw [overlaps_iff]
  unfold byteAt lo hi
  by_cases hc : counts p b = true
  · obtain ⟨-, d, hd⟩ := counts_iff.mp hc
    have hlen := hlen d hd
    rw [hc, hd, Bool.true_and]
    by_cases hle : b.addr ≤ p.addr + k
    · rw [if_pos (decide_eq_true hle), getD_some, isSome_getElem?]
      simp only [true_and]
      omega
    · rw [if_neg (by simpa using hle)]
      simp only [isSome_none, Bool.false_eq_true, false_iff]
      omega
  · simp [hc]

theorem lo_lt_hi {p : Packet} (hp : 0 < p.size) (hwf : wellFormed b = true) (hov : overlaps p b = true) :
    lo p b < hi p b := by
  obtain ⟨-, hafter, hbefore⟩ := overlaps_iff.mp hov
  have hpos := (wellFormed_iff.mp hwf).1
  unfold lo hi
  omega

/-- How much of a partial overlap is recorded: all of it inside the packet, and one byte less where it sticks out. -/
def recorded (p : Packet) (b : Buffer) : Nat :=
  if p.addr ≤ b.addr ∧ b.addr + b.size ≤ p.addr + p.size then hi p b - lo p b else hi p b - lo p b - 1

theorem recorded_le (p : Packet) (hlohi : lo p b < hi p b) : lo p b + recorded p b ≤ hi p b := by
  unfold recorded
  split <;> omega

theorem held_snoc {p : Packet} : held p (bs ++ [b]) k = (held p bs k).or (byteAt p b k) := by
  unfold held
  rw [List.findSome?_append, List.findSome?_cons]
  cases byteAt p b k <;> rfl

/-! ## What a reading packet keeps -/

/-- The packet is right about the buffers seen so far, and otherwise as it was sent. -/
structure Found (p₀ : FunctionalPacket) (bs : List Buffer) (p : FunctionalPacket) : Prop where
  fixed : p.toPacket = { p₀.toPacket with data := p.data }
  length : p.data.length = p₀.size
  stop : p.bytesValidEnd ≤ p₀.size
  small : p.bytesValidEnd < 2 ^ 16
  range : p.nothingFound = true ∨ p.bytesValidStart < p.bytesValidEnd
  right : Right p₀ bs p

theorem Fresh.found (hp : Fresh p₀) : Found p₀ [] p₀ where
  fixed := rfl
  length := hp.length
  stop := by
    rw [hp.stop]
    exact Nat.zero_le _
  small := by
    rw [hp.stop]
    decide
  range := by
    left
    simp [nothingFound, hp.start, hp.stop]
  right := by
    constructor
    · intro k _
      rw [hp.stop]
      simp [held]
    · intro k _ x hx
      cases hx

section Calls
variable (hf : Found p₀ bs p)
include hf

theorem Found.addr : p.addr = p₀.addr := by rw [hf.fixed]

theorem Found.size : p.size = p₀.size := by rw [hf.fixed]

theorem Found.byteAt_same : byteAt p.toPacket b k = byteAt p₀.toPacket b k := by rw [hf.fixed]; rfl

theorem Found.complete_iff (hp : Fresh p₀) : (p.bytesValidStart == 0 && p.bytesValidEnd == p.size) = true ↔
      ∀ k < p₀.size, (held p₀.toPacket bs k).isSome = true := by
  rw [Bool.and_eq_true, beq_iff_eq, beq_iff_eq, hf.size]
  have hpos := hp.size
  have hstop := hf.stop
  constructor
  · rintro ⟨hstart, hend⟩ k hk
    exact (hf.right.1 k hk).mp (by omega)
  · intro hall
    have hfirst := (hf.right.1 0 hpos).mpr (hall 0 hpos)
    have hlast := (hf.right.1 (p₀.size - 1) (by omega)).mpr (hall _ (by omega))
    omega

/-! ## One call -/

theorem Found.reads (hp : Fresh p₀) : p.isRead = true ∧ p.isPrint = false := by
  have hcmd : p.cmd = p₀.cmd := by rw [hf.fixed]
  have hread : p₀.cmd.testCmdAttrib .isRead = true := hp.isRead
  unfold Packet.isRead Packet.isPrint
  rw [hcmd]
  refine ⟨hread, ?_⟩
  generalize p₀.cmd = c at hread
  cases c <;> first | rfl | cases hread

/-- A buffer without a byte of the packet changes nothing. -/
theorem Found.misses (hp : Fresh p₀) (hwf : wellFormed b = true) (hno : ¬overlaps p.toPacket b = true) :
    p.checkFunctional b = .ok (p, b.data, false) ∧ Found p₀ (bs ++ [b]) p := by
  obtain ⟨hpos, -, hfits, -⟩ := wellFormed_iff.mp hwf
  have hpfits : p.addr + p.size ≤ 2 ^ 64 := by
    rw [hf.addr, hf.size]
    exact hp.fits
  have hppos : 0 < p.size := by
    rw [hf.size]
    exact hp.size
  constructor
  · unfold checkFunctional
    rw [lastAddr_eq hpos hfits, lastAddr_eq hppos hpfits]
    split
    · rfl
    · rename_i hmeet
      rw [if_neg (by rw [(hf.reads hp).2]; exact Bool.false_ne_true)]
      cases hd : b.data with
      | none => rfl
      | some d =>
        exfalso
        apply hno
        simp only [Bool.or_eq_true, bne_iff_ne, decide_eq_true_eq, not_or, Decidable.not_not] at hmeet
        rw [overlaps_iff, counts_iff]
        exact ⟨⟨hmeet.1.1, d, hd⟩, by omega, by omega⟩
  · have hnone : ∀ k < p₀.size, byteAt p₀.toPacket b k = none := by
      intro k hk
      rw [← hf.byteAt_same, ← not_isSome_iff_eq_none, byteAt_isSome hwf (by rw [hf.size]; exact hk)]
      exact fun h => hno h.1
    have hsame : ∀ k < p₀.size, held p₀.toPacket (bs ++ [b]) k = held p₀.toPacket bs k := by
      intro k hk
      rw [held_snoc, hnone k hk, or_none]
    refine ⟨hf.fixed, hf.length, hf.stop, hf.small, hf.range, ?_, ?_⟩
    · intro k hk
      rw [hsame k hk]
      exact hf.right.1 k hk
    · intro k hk
      rw [hsame k hk]
      exact hf.right.2 k hk

/-- A buffer with a byte of the packet is read. -/
theorem Found.overlapping (hp : Fresh p₀) (hwf : wellFormed b = true) (hov : overlaps p.toPacket b = true)
    (hd : b.data = some d) : p.checkFunctional b = p.readFunctional b d >>= fun r => pure (r.1, some d, r.2) := by
  obtain ⟨hpos, -, hfits, -⟩ := wellFormed_iff.mp hwf
  have hpfits : p.addr + p.size ≤ 2 ^ 64 := by
    rw [hf.addr, hf.size]
    exact hp.fits
  obtain ⟨hc, hafter, hbefore⟩ := overlaps_iff.mp hov
  have hsecure := (counts_iff.mp hc).1
  have hppos := hp.size
  rw [← hf.size] at hppos
  unfold checkFunctional
  rw [lastAddr_eq hpos hfits, lastAddr_eq hppos hpfits, if_neg, if_neg, hd]
  · dsimp only
    rw [if_pos (hf.reads hp).1]
  · rw [(hf.reads hp).2]
    exact Bool.false_ne_true
  · simp only [Bool.or_eq_true, bne_iff_ne, decide_eq_true_eq, not_or, Decidable.not_not]
    exact ⟨⟨hsecure, by omega⟩, by omega⟩

/-- A buffer around the whole packet is copied. -/
theorem Found.around (hp : Fresh p₀) (hwf : wellFormed b = true) (hd : b.data = some d)
    (hle : b.addr ≤ p.addr) (hge : p.addr + p.size ≤ b.addr + b.size) :
    p.readFunctional b d = .ok ({ p with data := blit p.data 0 d (p.addr - b.addr) p.size }, true) := by
  obtain ⟨hpos, hsmall, hfits, hlen⟩ := wellFormed_iff.mp hwf
  have hlen := hlen d hd
  have hplen := hf.length
  have hppos := hp.size
  rw [← hf.size] at hplen hppos
  have hoffset : int32 ((p.addr : Int) - b.addr) = ((p.addr - b.addr : Nat) : Int) := by
    rw [int32_eq (by omega) (by omega)]
    omega
  have hcopy : memcpy p.data 0 d ((p.addr - b.addr : Nat) : Int) (p.size : Int) = _ :=
    memcpy_eq (i := 0) (by omega) (by omega)
  unfold readFunctional
  rw [lastAddr_eq hpos hfits, lastAddr_eq hppos (by omega), if_pos (by omega), hoffset, hcopy]
  rfl

theorem Found.partly (hp : Fresh p₀) (hwf : wellFormed b = true) (hov : overlaps p.toPacket b = true)
    (hpart : ¬(b.addr ≤ p.addr ∧ p.addr + p.size ≤ b.addr + b.size)) (hhi : hi p.toPacket b < 2 ^ 16) :
    p.readFunctional b d =
      p.mergeFound d (p.addr - b.addr : Nat) (lo p.toPacket b) (recorded p.toPacket b) := by
  obtain ⟨hpos, hsmall, hfits, -⟩ := wellFormed_iff.mp hwf
  obtain ⟨-, hafter, hbefore⟩ := overlaps_iff.mp hov
  have hpfits : p.addr + p.size ≤ 2 ^ 64 := by
    rw [hf.addr, hf.size]
    exact hp.fits
  have hppos := hp.size
  rw [← hf.size] at hppos
  unfold readFunctional partialOverlap recorded
  unfold hi at hhi ⊢
  unfold lo
  rw [lastAddr_eq hpos hfits, lastAddr_eq hppos hpfits, if_neg (by omega)]
  rcases Nat.lt_or_ge b.addr p.addr with hleft | hright
  · rw [Nat.min_eq_right (by omega)] at hhi ⊢
    rw [if_pos (by omega), bind_ok, int32_eq (by omega) (by omega), int32_eq (by omega) (by omega), if_neg (by omega)]
    dsimp only
    congr 1 <;> omega
  · rcases Nat.lt_or_ge (p.addr + p.size) (b.addr + b.size) with hout | hin
    · rw [Nat.min_eq_left (by omega)] at hhi ⊢
      rw [if_neg (by omega), if_pos (by omega), bind_ok, int32_eq (by omega) (by omega), int32_eq (by omega) (by omega),
        if_neg (by omega)]
      dsimp only
      congr 1 <;> omega
    · rw [Nat.min_eq_right (by omega)] at hhi ⊢
      rw [if_neg (by omega), if_neg (by omega), if_pos (by omega), bind_ok, int32_eq (by omega) (by omega),
        if_pos (by omega)]
      dsimp only
      congr 1 <;> omega

theorem Found.range_iff (hk : k < p₀.size) :
    (p.bytesValidStart ≤ k ∧ k < p.bytesValidEnd) ↔ (held p₀.toPacket bs k).isSome = true := hf.right.1 k hk

/-- A merged overlap that makes one range with what was found is recorded rightly. -/
theorem Found.merged (hp : Fresh p₀) (hwf : wellFormed b = true) (hov : overlaps p.toPacket b = true) (hd : b.data = some d)
    (hm : Merged p d (p.addr - b.addr) (lo p.toPacket b) n q) (hn : lo p.toPacket b + n ≤ hi p.toPacket b)
    (hsmall : hi p.toPacket b < 2 ^ 16) (htouch : p.nothingFound = true ∨ p.bytesValidStart ≤ lo p.toPacket b + n)
    (hunion : ∀ k < p₀.size, q.bytesValidStart ≤ k ∧ k < q.bytesValidEnd ↔
      p.bytesValidStart ≤ k ∧ k < p.bytesValidEnd ∨ lo p.toPacket b ≤ k ∧ k < hi p.toPacket b) :
    Found p₀ (bs ++ [b]) q := by
  have hc := (overlaps_iff.mp hov).1
  have hsize := hf.size
  have hhi : hi p.toPacket b ≤ p₀.size := by
    unfold hi
    omega
  have hstop := hf.stop
  have hpsmall := hf.small
  have hbyte : ∀ k < p₀.size, (byteAt p₀.toPacket b k).isSome = true ↔ lo p.toPacket b ≤ k ∧ k < hi p.toPacket b := by
    intro k hk
    rw [← hf.byteAt_same, byteAt_isSome hwf (by rw [hsize]; exact hk)]
    exact and_iff_right hov
  have hqstop : q.bytesValidEnd ≤ hi p.toPacket b ∨ q.bytesValidEnd ≤ p.bytesValidEnd := by
    rw [hm.stop]
    split <;> omega
  have hfixed : q.toPacket = { p.toPacket with data := q.data } := by rw [hm.fixed]
  refine ⟨?_, ?_, by omega, by omega, ?_, ?_, ?_⟩
  · rw [hfixed, hf.fixed]
  · rw [hm.length]
    exact hf.length
  · rcases Nat.lt_or_ge q.bytesValidStart q.bytesValidEnd with hlt | hge
    · exact .inr hlt
    · -- an overlap has a byte, so the range is not empty
      have hlohi := lo_lt_hi (by rw [hsize]; exact hp.size) hwf hov
      have hin := (hunion (lo p.toPacket b) (by omega)).mpr (.inr ⟨Nat.le_refl _, hlohi⟩)
      omega
  · intro k hk
    rw [hunion k hk, hf.range_iff hk, held_snoc, isSome_or, Bool.or_eq_true, hbyte k hk]
  · intro k hk x hx
    rw [held_snoc] at hx
    rw [hm.byte k]
    by_cases hin : p.bytesValidStart ≤ k ∧ k < p.bytesValidEnd
    · rw [if_pos hin]
      obtain ⟨y, hy⟩ := isSome_iff_exists.mp ((hf.range_iff hk).mp hin)
      rw [hy] at hx
      rw [← hx]
      exact hf.right.2 k hk y hy
    · have hnone : held p₀.toPacket bs k = none := by
        rw [← not_isSome_iff_eq_none, ← hf.range_iff hk]
        exact hin
      rw [hnone, none_or] at hx
      have hown : lo p.toPacket b ≤ k ∧ k < hi p.toPacket b := (hbyte k hk).mp (by rw [hx]; rfl)
      have hnew : k < lo p.toPacket b + n := by
        have hq := (hunion k hk).mpr (.inr hown)
        have hqstop := hm.stop
        by_cases hnothing : p.nothingFound = true
        · rw [if_pos hnothing] at hqstop
          omega
        · rw [if_neg hnothing] at hqstop
          have htouch := htouch.resolve_left hnothing
          omega
      rw [if_neg hin, if_pos ⟨hown.1, hnew⟩]
      rw [← hf.byteAt_same, byteAt_eq hc hd hown.1] at hx
      rw [← hx]
      unfold lo at hown ⊢
      congr 1
      omega

theorem Found.snoc_held (hall : ∀ k < p₀.size, (held p₀.toPacket bs k).isSome = true) : Found p₀ (bs ++ [b]) p := by
  have hsame : ∀ k < p₀.size, held p₀.toPacket (bs ++ [b]) k = held p₀.toPacket bs k := by
    intro k hk
    obtain ⟨x, hx⟩ := isSome_iff_exists.mp (hall k hk)
    rw [held_snoc, hx]
    rfl
  refine ⟨hf.fixed, hf.length, hf.stop, hf.small, hf.range, ?_, ?_⟩
  · intro k hk
    rw [hsame k hk]
    exact hf.right.1 k hk
  · intro k hk
    rw [hsame k hk]
    exact hf.right.2 k hk

/-- A partial overlap that touches what was found is merged with it. -/
theorem Found.touching (hp : Fresh p₀) (hwf : wellFormed b = true) (hov : overlaps p.toPacket b = true)
    (hd : b.data = some d) (hpart : ¬(b.addr ≤ p.addr ∧ p.addr + p.size ≤ b.addr + b.size))
    (hsmall : hi p.toPacket b < 2 ^ 16) (htouch : p.nothingFound = true ∨ lo p.toPacket b ≤ p.bytesValidEnd ∧
      p.bytesValidStart ≤ lo p.toPacket b + recorded p.toPacket b) :
    ∃ q, p.checkFunctional b = .ok (q, some d, q.bytesValidStart == 0 && q.bytesValidEnd == q.size) ∧
      Merged p d (p.addr - b.addr) (lo p.toPacket b) (recorded p.toPacket b) q := by
  have hlohi := lo_lt_hi (by rw [hf.size]; exact hp.size) hwf hov
  have hrec := recorded_le p.toPacket hlohi
  have hsize := hf.size
  have hhi : hi p.toPacket b ≤ p.size := by
    unfold hi
    omega
  have hlen : p.data.length = p.size := by rw [hf.length, hsize]
  have hvo : p.addr - b.addr + recorded p.toPacket b ≤ d.length := by
    rw [(wellFormed_iff.mp hwf).2.2.2 d hd]
    have hend : hi p.toPacket b + p.addr ≤ b.addr + b.size := by
      unfold lo hi at hlohi
      unfold hi
      omega
    unfold lo at hrec
    omega
  have hstop : p.bytesValidEnd ≤ p.size := by
    rw [hsize]
    exact hf.stop
  have hmerge : ∃ q, mergeFound p d (p.addr - b.addr : Nat) (lo p.toPacket b) (recorded p.toPacket b) =
      .ok (q, q.bytesValidStart == 0 && q.bytesValidEnd == q.size) ∧
      Merged p d (p.addr - b.addr) (lo p.toPacket b) (recorded p.toPacket b) q := by
    by_cases hnone : p.nothingFound = true
    · exact merge_first hlen (by omega) (by omega) hvo hnone
    · obtain ⟨hle, hge⟩ := htouch.resolve_left hnone
      exact merge_touching hlen hstop hf.small (by omega) (by omega) hvo hnone (hf.range.resolve_left hnone) hle hge
  obtain ⟨q, hq, hm⟩ := hmerge
  refine ⟨q, ?_, hm⟩
  rw [hf.overlapping hp hwf hov hd, hf.partly hp hwf hov hpart hsmall, hq]
  rfl

/-- A call on a buffer that meets the condition returns, keeps the packet right and says whether it is complete. -/
theorem Found.call (hp : Fresh p₀) (hm : meets p b = true) :
    ∃ q data done, p.checkFunctional b = .ok (q, data, done) ∧ Found p₀ (bs ++ [b]) q ∧
      (done = true ↔ ∀ k < p₀.size, (held p₀.toPacket (bs ++ [b]) k).isSome = true) := by
  unfold meets at hm
  rw [Bool.and_eq_true] at hm
  obtain ⟨hadj, hm⟩ := hm
  unfold adjoins at hadj
  rw [Bool.and_eq_true] at hadj
  obtain ⟨hwf, hadj⟩ := hadj
  by_cases hov : overlaps p.toPacket b = true
  · obtain ⟨hc, -, -⟩ := overlaps_iff.mp hov
    obtain ⟨-, d, hd⟩ := counts_iff.mp hc
    rw [hf.overlapping hp hwf hov hd]
    rw [hov] at hm hadj
    simp only [Bool.not_true, Bool.false_eq_true, if_false, Bool.false_or] at hm hadj
    split at hm
    · -- around the packet, and nothing is missing
      rename_i haround
      rw [Bool.and_eq_true, beq_iff_eq, hd] at hm
      obtain ⟨hcomplete, hsame⟩ := hm
      rw [getD_some] at hsame
      have hall := (hf.complete_iff hp).mp hcomplete
      have hcopy : blit p.data 0 d (p.addr - b.addr) p.size = p.data := by
        rw [blit_whole (by rw [hf.length, hf.size]), hsame]
      refine ⟨p, some d, true, ?_, hf.snoc_held hall, ?_⟩
      · rw [hf.around hp hwf hd haround.1 haround.2, hcopy]
        rfl
      · rw [← (hf.snoc_held hall).complete_iff hp, hcomplete]
    · rename_i hpart
      have hlohi := lo_lt_hi (by rw [hf.size]; exact hp.size) hwf hov
      have hrange : p.nothingFound = true → p.bytesValidStart = 0 ∧ p.bytesValidEnd = 0 := by
        simp [nothingFound]
      -- the recorded overlap touches what was found, and completes its union with the overlap
      have hshape : hi p.toPacket b < 2 ^ 16 ∧
          (p.nothingFound = true ∨ lo p.toPacket b ≤ p.bytesValidEnd ∧
            p.bytesValidStart ≤ lo p.toPacket b + recorded p.toPacket b) ∧
          ∀ k, (if p.nothingFound then lo p.toPacket b else min p.bytesValidStart (lo p.toPacket b)) ≤ k ∧
            k < (if p.nothingFound then lo p.toPacket b + recorded p.toPacket b
              else max p.bytesValidEnd (lo p.toPacket b + recorded p.toPacket b)) ↔
            p.bytesValidStart ≤ k ∧ k < p.bytesValidEnd ∨ lo p.toPacket b ≤ k ∧ k < hi p.toPacket b := by
        have hpsmall := hf.small
        unfold recorded
        split at hm
        · rename_i hinside
          rw [if_pos hinside]
          rw [decide_eq_true_eq] at hm
          simp only [Bool.or_eq_true, Bool.and_eq_true, decide_eq_true_eq] at hadj
          refine ⟨hm, hadj.imp_right fun h => ⟨h.1, by omega⟩, ?_⟩
          by_cases hnone : p.nothingFound = true
          · have hzero := hrange hnone
            rw [if_pos hnone, if_pos hnone]
            omega
          · have hadj := hadj.resolve_left hnone
            rw [if_neg hnone, if_neg hnone]
            omega
        · rename_i hout
          rw [if_neg hout]
          simp only [Bool.and_eq_true, decide_eq_true_eq] at hm
          have hnone : ¬p.nothingFound = true := by
            intro hnone
            have hzero := hrange hnone
            omega
          refine ⟨by omega, .inr ⟨by omega, by omega⟩, ?_⟩
          rw [if_neg hnone, if_neg hnone]
          omega
      obtain ⟨hsmall, htouch, hunion⟩ := hshape
      obtain ⟨q, hcall, hmerged⟩ := hf.touching hp hwf hov hd hpart hsmall htouch
      have hfound : Found p₀ (bs ++ [b]) q := by
        apply hf.merged hp hwf hov hd hmerged (recorded_le p.toPacket hlohi) hsmall
        · exact htouch.imp_right And.right
        · intro k _
          rw [hmerged.start, hmerged.stop]
          exact hunion k
      exact ⟨q, some d, _, by rw [← hf.overlapping hp hwf hov hd]; exact hcall, hfound, hfound.complete_iff hp⟩
  · obtain ⟨hcall, hfound⟩ := hf.misses hp hwf hov
    refine ⟨p, b.data, false, hcall, hfound, ?_⟩
    rw [if_pos (by simpa using hov), Bool.not_eq_true'] at hm
    rw [← hfound.complete_iff hp, hm]

/-! ## A call that keeps the packet right meets the condition -/

/-- A call that returns, keeps the packet right and says whether it is complete was on a buffer that meets the
  condition. -/
theorem Found.meets {data : Option (List Byte)} (hp : Fresh p₀) (hadj : adjoins p b = true)
    (hcall : p.checkFunctional b = .ok (q, data, done)) (hr : Right p₀ (bs ++ [b]) q)
    (hdone : done = true ↔ ∀ k < p₀.size, (held p₀.toPacket (bs ++ [b]) k).isSome = true) :
    FunctionalPacket.meets p b = true := by
  unfold FunctionalPacket.meets
  rw [hadj, Bool.true_and]
  unfold adjoins at hadj
  rw [Bool.and_eq_true] at hadj
  obtain ⟨hwf, hadj⟩ := hadj
  by_cases hov : overlaps p.toPacket b = true
  · obtain ⟨hc, -, -⟩ := overlaps_iff.mp hov
    obtain ⟨-, d, hd⟩ := counts_iff.mp hc
    have hsize := hf.size
    have hlohi := lo_lt_hi (by rw [hsize]; exact hp.size) hwf hov
    have hhi : hi p.toPacket b ≤ p₀.size := by
      unfold hi
      omega
    -- the last byte of the overlap
    have hlast : q.bytesValidStart ≤ hi p.toPacket b - 1 ∧ hi p.toPacket b - 1 < q.bytesValidEnd := by
      rw [hr.1 _ (by omega), held_snoc, isSome_or, ← hf.byteAt_same, Bool.or_eq_true,
        byteAt_isSome hwf (by omega)]
      exact .inr ⟨hov, by omega, by omega⟩
    rw [hf.overlapping hp hwf hov hd] at hcall
    obtain ⟨⟨q', done'⟩, hread, hcall⟩ := of_bind hcall
    simp only at hcall
    obtain ⟨rfl, -, rfl⟩ := hcall
    have hstop := readFunctional_stop hf.small hread
    rw [hov] at hadj ⊢
    simp only [Bool.not_true, Bool.false_eq_true, if_false, Bool.false_or] at hadj ⊢
    split
    · rename_i haround
      rw [hf.around hp hwf hd haround.1 haround.2] at hread
      cases hread
      have hall := hdone.mp rfl
      have hpos := hp.size
      have hpstop := hf.stop
      have hfirst := (hr.1 0 hpos).mpr (hall 0 hpos)
      have hend := (hr.1 (p₀.size - 1) (by omega)).mpr (hall _ (by omega))
      dsimp only at hfirst hend
      have hcopy : blit p.data 0 d (p.addr - b.addr) p.size = p.data := by
        apply List.ext_getElem?
        intro k
        rcases Nat.lt_or_ge k p₀.size with hk | hk
        · obtain ⟨x, hx⟩ := isSome_iff_exists.mp ((hf.range_iff hk).mp (by omega))
          rw [hf.right.2 k hk x hx]
          apply hr.2 k hk x
          rw [held_snoc, hx]
          rfl
        · have hlen := hf.length
          have hdlen := (wellFormed_iff.mp hwf).2.2.2 d hd
          have hblit : (blit p.data 0 d (p.addr - b.addr) p.size).length = p.data.length :=
            length_blit (by omega) (by omega)
          rw [List.getElem?_eq_none (by omega), List.getElem?_eq_none (by omega)]
      rw [blit_whole (by rw [hf.length, hsize])] at hcopy
      simp only [Bool.and_eq_true, beq_iff_eq, hd]
      exact ⟨⟨by omega, by omega⟩, hcopy⟩
    · rename_i hpart
      split
      · exact decide_eq_true (by omega)
      · rename_i hout
        have hrec : recorded p.toPacket b = hi p.toPacket b - lo p.toPacket b - 1 := by
          unfold recorded
          rw [if_neg hout]
        rw [Bool.and_eq_true, decide_eq_true_eq, decide_eq_true_eq]
        by_cases htouch : p.nothingFound = true ∨ lo p.toPacket b ≤ p.bytesValidEnd ∧
            p.bytesValidStart ≤ lo p.toPacket b + recorded p.toPacket b
        · obtain ⟨q', hcall, hm⟩ := hf.touching hp hwf hov hd hpart (by omega) htouch
          rw [hf.overlapping hp hwf hov hd, hread] at hcall
          simp only [bind_ok] at hcall
          obtain ⟨rfl, -, -⟩ := hcall
          have hqstop := hm.stop
          by_cases hnone : p.nothingFound = true
          · rw [if_pos hnone] at hqstop
            omega
          · have htouch := htouch.resolve_left hnone
            rw [if_neg hnone] at hqstop
            omega
        · -- the missing byte is the one that touches what was found
          obtain ⟨hnone, hgap⟩ := not_or.mp htouch
          simp only [Bool.or_eq_true, Bool.and_eq_true, decide_eq_true_eq] at hadj
          have hadj := hadj.resolve_left hnone
          have hapart : ∃ e, mergeFound p d (p.addr - b.addr : Nat) (lo p.toPacket b) (recorded p.toPacket b) = .error e :=
            merge_apart hnone (hf.range.resolve_left hnone) (.inr (by omega))
          obtain ⟨e, he⟩ := hapart
          rw [hf.partly hp hwf hov hpart (by omega), he] at hread
          cases hread
  · obtain ⟨hsame, hfound⟩ := hf.misses hp hwf hov
    rw [hsame] at hcall
    cases hcall
    rw [if_pos (by simpa using hov), Bool.not_eq_true', ← Bool.not_eq_true, hfound.complete_iff hp, ← hdone]
    exact Bool.false_ne_true

end Calls

/-! ## Runs of calls -/

theorem Found.step (hp : Fresh p₀) (hf : Found p₀ bs p) (hs : StepIf FunctionalPacket.meets step p b q) :
    Found p₀ (bs ++ [b]) q := by
  obtain ⟨hm, hs⟩ := hs
  obtain ⟨q', data, done, hcall, hfound, -⟩ := hf.call hp hm
  unfold FunctionalPacket.step at hs
  rw [hcall] at hs
  cases hs
  exact hfound

/-- A read that is checked against buffers that meet the condition has found exactly the bytes they hold, each as the
  first of them holds it. On the next buffer a call does so again, and returns true exactly when no byte of the packet
  is missing, if and only if that buffer meets the condition. -/
theorem first_holder (hp : Fresh p₀) (hr : Exec (StepIf FunctionalPacket.meets step) p₀ bs p) :
    Right p₀ bs p ∧ ∀ b, adjoins p b = true →
      ((∃ q data done, p.checkFunctional b = .ok (q, data, done) ∧ Right p₀ (bs ++ [b]) q ∧
        (done = true ↔ ∀ k < p₀.size, (held p₀.toPacket (bs ++ [b]) k).isSome = true)) ↔
      FunctionalPacket.meets p b = true) := by
  have hf : Found p₀ bs p := hr.history_invariant hp.found fun _ _ _ _ hf hs => hf.step hp hs
  refine ⟨hf.right, ?_⟩
  intro b hadj
  constructor
  · rintro ⟨q, data, done, hcall, hright, hdone⟩
    exact hf.meets hp hadj hcall hright hdone
  · intro hm
    obtain ⟨q, data, done, hcall, hfound, hdone⟩ := hf.call hp hm
    exact ⟨q, data, done, hcall, hfound.right, hdone⟩

/-- A read of four bytes at 256. -/
def readFour : FunctionalPacket :=
  { cmd := .readReq, req := { paddr := 256, size := 4, masterId := 0 }, addr := 256, size := 4, data := [0, 0, 0, 0] }

theorem readFour_fresh : Fresh readFour := ⟨rfl, by decide, by decide, rfl, rfl, rfl⟩

/-- Two buffers inside the packet, which overlap in one byte. -/
theorem first_holder_two : ∃ p, Right readFour [{ addr := 257, isSecure := false, size := 2, data := some [1, 2] },
      { addr := 258, isSecure := false, size := 2, data := some [7, 8] }] p := by
  obtain ⟨p, hr, -⟩ := Exec.of_endsInIf (c := FunctionalPacket.meets) (f := step) (s := readFour)
    (l := [{ addr := 257, isSecure := false, size := 2, data := some [1, 2] },
      { addr := 258, isSecure := false, size := 2, data := some [7, 8] }])
    (p := fun q => q.data == [0, 1, 2, 8]) (by decide)
  exact ⟨p, (first_holder readFour_fresh hr).1⟩

/-- A buffer that begins in front of the packet holds its first two bytes, and one is recorded. -/
theorem last_byte_missed : ¬∀ (p₀ p : FunctionalPacket) (bs : List Buffer), Fresh p₀ →
    Exec (StepIf adjoins step) p₀ bs p → Right p₀ bs p := by
  intro hall
  obtain ⟨p, hr, hp⟩ := Exec.of_endsInIf (c := adjoins) (f := step) (s := readFour)
    (l := [{ addr := 254, isSecure := false, size := 4, data := some [1, 2, 3, 4] }])
    (p := fun q => q.bytesValidEnd == 1) (by decide)
  have hright := (hall readFour p _ readFour_fresh hr).1 1 (by decide)
  rw [beq_iff_eq.mp hp] at hright
  have hheld := hright.mpr (by decide)
  omega

/-- The check of a queue is a run over its first packets, and over all of them when it is not complete. -/
theorem queue_run {l l' : List Packet} (h : PacketQueue.checkFunctional p l = .ok (q, l', done)) :
    ∃ n, Exec (StepOf FunctionalPacket.step) p ((l.take n).map Packet.buffer) q ∧ (done = false → l.length ≤ n) := by
  induction l generalizing p l' with
  | nil =>
    cases h
    exact ⟨0, .nil, fun _ => Nat.le_refl 0⟩
  | cons other l ih =>
    obtain ⟨⟨p', data, found⟩, hcall, h⟩ := of_bind h
    have hone : Exec (StepOf FunctionalPacket.step) p [other.buffer] p' := by
      apply Exec.one
      unfold StepOf FunctionalPacket.step
      rw [hcall]
      rfl
    dsimp only at h
    split at h
    · obtain ⟨rfl, -, rfl⟩ := h
      exact ⟨1, by simpa using hone, nofun⟩
    · obtain ⟨⟨p'', rest, found'⟩, hrest, h⟩ := of_bind h
      simp only [pure_eq_ok, Except.ok.injEq, Prod.mk.injEq] at h
      obtain ⟨rfl, -, rfl⟩ := h
      obtain ⟨n, hr, hn⟩ := ih hrest
      refine ⟨n + 1, ?_, ?_⟩
      · exact .append hone hr
      · intro hdone
        exact Nat.succ_le_succ (hn hdone)

end Gem5.Mem.FunctionalPacket
