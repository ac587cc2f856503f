import Gem5Nvmain.Lib.Chunks
import Gem5Nvmain.Lib.Exec
import Gem5Nvmain.Lib.Words

/- The chunk generator of `base/chunk_generator.hh`.

  Addresses have 64 bits and sizes have 32, and sums of either wrap. `visits` is the loop of the comment of the class:
  what the body sees, one chunk after the other. The chunks are `Lib.chunks` (`At.visits`), also where the last block
  of the address space makes `nextAddr` wrap to 0. -/
namespace Gem5.Base
open Lib List BitVec Nat

/-- `isPowerOf2`, with `leastSigBit`. -/
def isPowerOf2 (n : BitVec 32) : Bool := n != 0 && (n &&& ~~~(n - 1)) == n

/-- `std::min`. -/
def stdMin (a b : BitVec 32) : BitVec 32 := if b < a then b else a

/-- `roundUp`. -/
def roundUp (val : BitVec 64) (align : BitVec 32) : BitVec 64 :=
  let mask := align.setWidth 64 - 1
  (val + mask) &&& ~~~mask

structure ChunkGenerator where
  curAddr : BitVec 64
  nextAddr : BitVec 64
  curSize : BitVec 32
  sizeLeft : BitVec 32
  startAddr : BitVec 64
  chunkSize : BitVec 32

/-- What one pass of the loop sees: `addr()`, `size()` and `complete()`. -/
structure Chunk where
  addr : BitVec 64
  size : BitVec 32
  complete : BitVec 32
  deriving DecidableEq

/-- The first byte and the number of bytes. -/
def Chunk.piece (c : Chunk) : Nat × Nat := (c.addr.toNat, c.size.toNat)

namespace ChunkGenerator

/-- The address behind the first chunk, before the size of the region is looked at. -/
def firstEnd (start : BitVec 64) (total chunk : BitVec 32) : BitVec 64 :=
  if chunk = 0 then start + total.setWidth 64
  else
    let next := roundUp start chunk
    if start = next then next + chunk.setWidth 64 else next

/-- The constructor. -/
def new (start : BitVec 64) (total chunk : BitVec 32) : Except Stop ChunkGenerator := do
  require (chunk == 0 || isPowerOf2 chunk)
  let next := firstEnd start total chunk
  let leftInChunk := (next - start).setWidth 32
  let size := stdMin total leftInChunk
  return { curAddr := start, nextAddr := next, curSize := size, sizeLeft := total - size, startAddr := start, chunkSize := chunk }

def complete (g : ChunkGenerator) : BitVec 32 := (g.curAddr - g.startAddr).setWidth 32

def done (g : ChunkGenerator) : Bool := g.curSize == 0

def next (g : ChunkGenerator) : Bool × ChunkGenerator :=
  if g.sizeLeft = 0 then (false, { g with curSize := 0 })
  else
    let size := stdMin g.sizeLeft g.chunkSize
    (true, { g with curAddr := g.nextAddr, curSize := size, sizeLeft := g.sizeLeft - size, nextAddr := g.nextAddr + size.setWidth 64 })

/-- `for (...; !gen.done(); gen.next())`. -/
def visits : Nat → ChunkGenerator → Except Stop (List Chunk)
  | 0, _ => .error .outOfFuel
  | fuel + 1, g =>
    if g.done then .ok []
    else do
      let later ← visits fuel g.next.2
      return ⟨g.curAddr, g.curSize, g.complete⟩ :: later

/-! ## Where the loop is -/

variable {g : ChunkGenerator} {start : BitVec 64} {total chunk : BitVec 32} {k a e n : Nat}

/-- The size of a block; without chunks the whole address space is one. -/
def block (chunk : BitVec 32) : Nat := if chunk = 0 then 2 ^ 64 else chunk.toNat

/-- The generator is at `a`, and the region ends at `e`. -/
structure At (g : ChunkGenerator) (a e : Nat) : Prop where
  addr : g.curAddr.toNat = a
  size : g.curSize.toNat = min (nextBlock (block g.chunkSize) a) e - a
  left : g.sizeLeft.toNat = e - min (nextBlock (block g.chunkSize) a) e
  behind : nextBlock (block g.chunkSize) a < e → g.nextAddr.toNat = nextBlock (block g.chunkSize) a
  low : g.startAddr.toNat ≤ a ∧ a < e
  high : e ≤ 2 ^ 64 ∧ e < g.startAddr.toNat + 2 ^ 32

theorem toNat_stdMin (x y : BitVec 32) : (stdMin x y).toNat = min x.toNat y.toNat := by
  unfold stdMin
  split
  next h => exact (min_eq_right (le_of_lt h)).symm
  next h => exact (Nat.min_eq_left (Nat.le_of_not_lt h)).symm

theorem toNat_mask {w : Nat} {x : BitVec w} (hx : x.toNat = 2 ^ k) (hw : 0 < w) : (x - 1).toNat = 2 ^ k - 1 := by
  have hone : (1 : BitVec w).toNat = 1 := toNat_one hw
  have hle : 1 ≤ x := by
    rw [le_def, hone, hx]
    exact Nat.two_pow_pos k
  rw [toNat_sub_of_le hle, hone, hx]

section
variable (hk : chunk.toNat = 2 ^ k)
include hk

theorem ne_zero_of_two_pow : chunk ≠ 0 := by
  rintro rfl
  exact (Nat.two_pow_pos k).ne hk

theorem block_eq : block chunk = 2 ^ k := by
  rw [← hk]
  exact if_neg (ne_zero_of_two_pow hk)

theorem isPowerOf2_of : isPowerOf2 chunk = true := by
  have hself : chunk &&& ~~~(chunk - 1) = chunk := by
    apply eq_of_toNat_eq
    rw [toNat_and_not_low (toNat_mask hk (by decide)), hk, Nat.div_self (Nat.two_pow_pos k), Nat.one_mul]
  unfold isPowerOf2
  rw [hself]
  simpa using ne_zero_of_two_pow hk

theorem dvd_space : 2 ^ k ∣ 2 ^ 64 := by
  have hlt : 2 ^ k < 2 ^ 32 := hk ▸ chunk.isLt
  exact Nat.pow_dvd_pow 2 (by have := (Nat.pow_lt_pow_iff_right (by decide)).mp hlt; omega)

theorem toNat_align : (chunk.setWidth 64).toNat = 2 ^ k := by
  rw [toNat_setWidth_of_le (by decide), hk]

/-- Rounding up wraps in the last block. -/
theorem toNat_roundUp : (roundUp start chunk).toNat = (start.toNat + 2 ^ k - 1) / 2 ^ k * 2 ^ k % 2 ^ 64 := by
  have hpos := Nat.two_pow_pos k
  obtain ⟨m, hm⟩ := dvd_space hk
  have hsum : start.toNat + (2 ^ k - 1) = start.toNat + 2 ^ k - 1 := by omega
  have hmask := toNat_mask (toNat_align hk) (by decide)
  unfold roundUp
  rw [toNat_and_not_low hmask, toNat_add, hmask, hsum, hm, mod_mul_right_div_self,
    mul_comm (2 ^ k) m, mul_mod_mul_right]

theorem toNat_firstEnd : (firstEnd start total chunk).toNat = nextBlock (block chunk) start.toNat % 2 ^ 64 := by
  have hpos := Nat.two_pow_pos k
  have hround : (roundUp start chunk).toNat = _ := toNat_roundUp hk
  have hdiv := div_add_mod start.toNat (2 ^ k)
  have hsplit : start.toNat + 2 ^ k - 1 = start.toNat % 2 ^ k + 2 ^ k - 1 + 2 ^ k * (start.toNat / 2 ^ k) := by omega
  rw [hsplit, add_mul_div_left _ _ hpos] at hround
  unfold firstEnd
  rw [if_neg (ne_zero_of_two_pow hk), block_eq hk]
  obtain hmod | hmod := Nat.eq_zero_or_pos (start.toNat % 2 ^ k)
  · have hself : start = roundUp start chunk := by
      apply eq_of_toNat_eq
      rw [hround, hmod, zero_add, div_eq_of_lt (sub_lt hpos one_pos), zero_add, mul_comm]
      omega
    rw [if_pos hself, ← hself, toNat_add, toNat_align hk]
    unfold nextBlock
    rw [mul_comm]
    omega
  · have hup : (start.toNat % 2 ^ k + 2 ^ k - 1) / 2 ^ k = 1 := by
      have := mod_lt start.toNat hpos
      exact Nat.div_eq_of_lt_le (by omega) (by omega)
    rw [hup, Nat.add_comm, Nat.add_one_mul] at hround
    have hother : start ≠ roundUp start chunk := by
      intro h
      rw [h, hround, mod_mod_of_dvd _ (dvd_space hk), ← add_one_mul, mul_mod_left] at hmod
      cases hmod
    rw [if_neg hother]
    exact hround

end

/-! ## The loop -/

theorem block_dvd (hchunk : chunk = 0 ∨ chunk.toNat = 2 ^ k) : block chunk ∣ 2 ^ 64 := by
  unfold block
  split
  next => exact dvd_refl _
  next hne => exact (hchunk.resolve_left hne) ▸ dvd_space (hchunk.resolve_left hne)

theorem block_pos (hB : block chunk ∣ 2 ^ 64) : 0 < block chunk := pos_of_dvd_of_pos hB (by decide)

theorem nextBlock_zero : 2 ^ 64 ≤ nextBlock (block 0) a := Nat.le_add_left ..

theorem toNat_firstSize (hchunk : chunk = 0 ∨ chunk.toNat = 2 ^ k) (hfit : start.toNat + total.toNat ≤ 2 ^ 64) :
    (stdMin total ((firstEnd start total chunk - start).setWidth 32)).toNat =
      min (nextBlock (block chunk) start.toNat) (start.toNat + total.toNat) - start.toNat := by
  have hlt := lt_nextBlock (block_pos (block_dvd hchunk)) (a := start.toNat)
  have hnext := nextBlock_le (block_dvd hchunk) start.isLt
  have hlow := div_mul_le_self start.toNat (block chunk)
  rw [toNat_stdMin, toNat_setWidth, toNat_sub]
  obtain rfl | hk := hchunk
  · have hend := le_antisymm hnext nextBlock_zero
    have hfirst : (firstEnd start total 0).toNat = (start.toNat + total.toNat) % 2 ^ 64 := by
      show (start + total.setWidth 64).toNat = _
      rw [toNat_add, toNat_setWidth_of_le (by decide)]
    have htotal := total.isLt
    rw [hend, hfirst]
    omega
  · have hsmall := chunk.isLt
    rw [hk, ← block_eq hk] at hsmall
    rw [toNat_firstEnd hk]
    unfold nextBlock at *
    omega

theorem new_at (hchunk : chunk = 0 ∨ chunk.toNat = 2 ^ k) (hfit : start.toNat + total.toNat ≤ 2 ^ 64) :
    ∃ g, new start total chunk = .ok g ∧ g.startAddr = start ∧ g.chunkSize = chunk ∧
      if total = 0 then g.curSize = 0 else At g start.toNat (start.toNat + total.toNat) := by
  have hcheck : (chunk == 0 || isPowerOf2 chunk) = true := by
    obtain rfl | hk := hchunk
    · rfl
    · rw [isPowerOf2_of hk, Bool.or_true]
  have hlt := lt_nextBlock (block_pos (block_dvd hchunk)) (a := start.toNat)
  have hsize := toNat_firstSize hchunk hfit
  have htotal := total.isLt
  refine ⟨_, by unfold new; rw [hcheck]; rfl, rfl, rfl, ?_⟩
  split
  next h =>
    subst h
    exact eq_of_toNat_eq ((toNat_stdMin ..).trans (zero_min _))
  next h =>
    have hpos : 0 < total.toNat := pos_of_ne_zero fun h0 => h (eq_of_toNat_eq h0)
    constructor
    case addr => rfl
    case size => exact hsize
    case left =>
      dsimp only
      rw [toNat_sub_of_le, hsize]
      · omega
      · rw [le_def, hsize]
        omega
    case behind =>
      intro hmore
      obtain rfl | hk := hchunk
      · have hspace := nextBlock_zero (a := start.toNat)
        dsimp only at hmore
        omega
      · exact (toNat_firstEnd hk).trans (mod_eq_of_lt (hmore.trans_le hfit))
    case low => exact ⟨le_refl _, by omega⟩
    case high => exact ⟨hfit, by dsimp only; omega⟩

theorem At.next (h : At g a e) (hB : block g.chunkSize ∣ 2 ^ 64) (hmore : nextBlock (block g.chunkSize) a < e) :
    At g.next.2 (nextBlock (block g.chunkSize) a) e := by
  obtain ⟨haddr, hsize, hleft, hbehind, hlow, hhigh⟩ := h
  have hle := lt_nextBlock (block_pos hB) (a := a)
  have htwice := nextBlock_nextBlock (block_pos hB) (a := a)
  rw [min_eq_left hmore.le] at hleft
  have hsome : g.sizeLeft ≠ 0 := by
    intro h0
    rw [h0] at hleft
    change 0 = _ at hleft
    omega
  have hchunk : block g.chunkSize = g.chunkSize.toNat := by
    apply if_neg
    intro h0
    have hspace := nextBlock_zero (a := a)
    rw [h0] at hmore
    omega
  have hstep : (stdMin g.sizeLeft g.chunkSize).toNat =
      min (nextBlock (block g.chunkSize) (nextBlock (block g.chunkSize) a)) e - nextBlock (block g.chunkSize) a := by
    rw [toNat_stdMin, hleft, htwice, ← hchunk]
    omega
  unfold ChunkGenerator.next
  rw [if_neg hsome]
  constructor
  case addr => exact hbehind hmore
  case size => exact hstep
  case left =>
    dsimp only
    rw [toNat_sub_of_le, hstep, hleft]
    · omega
    · rw [le_def, hstep, hleft]
      omega
  case behind =>
    intro hmore'
    dsimp only at hmore' ⊢
    rw [toNat_add, toNat_setWidth_of_le (by decide), hstep, hbehind hmore]
    omega
  case low => exact ⟨hlow.1.trans hle.le, hmore⟩
  case high => exact hhigh

theorem At.visits (h : At g a e) (hB : block g.chunkSize ∣ 2 ^ 64)
    (hn : n + a / block g.chunkSize = (e - 1) / block g.chunkSize + 1) :
    ∃ l, g.visits (n + 1) = .ok l ∧ l.map Chunk.piece = chunks (block g.chunkSize) e a n ∧
      ∀ c ∈ l, g.startAddr.toNat + c.complete.toNat = c.addr.toNat := by
  induction n generalizing g a with
  | zero =>
    have := Nat.div_le_div_right (c := block g.chunkSize) (show a ≤ e - 1 by have := h.low; omega)
    omega
  | succ n ih =>
    obtain ⟨haddr, hsize, hleft, hbehind, hlow, hhigh⟩ := id h
    have hlt := lt_nextBlock (block_pos hB) (a := a)
    have hsome : ¬g.done = true := by
      intro h0
      rw [eq_of_beq h0] at hsize
      change 0 = _ at hsize
      omega
    have hcomplete : g.startAddr.toNat + g.complete.toNat = g.curAddr.toNat := by
      unfold complete
      rw [toNat_setWidth, toNat_sub]
      omega
    unfold ChunkGenerator.visits
    rw [if_neg hsome]
    cases n with
    | zero =>
      have hlast := le_nextBlock (block_pos hB) hlow.2 (by omega)
      have hnone : g.sizeLeft = 0 := eq_of_toNat_eq (by rw [hleft, Nat.min_eq_right hlast]; exact Nat.sub_self e)
      have hend : g.next.2.visits 1 = .ok [] := by
        unfold ChunkGenerator.next
        rw [if_pos hnone]
        rfl
      rw [hend]
      exact ⟨_, rfl, by simp [chunks, Chunk.piece, haddr, hsize], by simpa using hcomplete⟩
    | succ n =>
      have hmore := nextBlock_lt (block_pos hB) (show a / block g.chunkSize < (e - 1) / block g.chunkSize by omega)
      have hsame : g.next.2.chunkSize = g.chunkSize ∧ g.next.2.startAddr = g.startAddr := by
        unfold ChunkGenerator.next
        split <;> exact ⟨rfl, rfl⟩
      have hlater := ih (h.next hB hmore)
      rw [hsame.1, hsame.2, nextBlock_div (block_pos hB)] at hlater
      obtain ⟨l, hl, hmap, hall⟩ := hlater hB (by omega)
      rw [hl]
      exact ⟨_, rfl, by rw [map_cons, hmap, Chunk.piece, haddr, hsize]; rfl, by simpa using ⟨hcomplete, hall⟩⟩

/-! ## The region -/

/-- The chunks of the region of `total` bytes from `start`. -/
structure Tiling (start : BitVec 64) (total chunk : BitVec 32) (l : List Chunk) : Prop where
  nonempty : ∀ c ∈ l, c.size ≠ 0
  inBlock : chunk ≠ 0 → ∀ c ∈ l, ∀ b, inside c.piece b → b / chunk.toNat = c.addr.toNat / chunk.toNat
  adjacent : ∀ l₁ c d l₂, l = l₁ ++ c :: d :: l₂ → c.addr.toNat + c.size.toNat = d.addr.toNat
  bytes : (l.flatMap fun c => range' c.addr.toNat c.size.toNat) = range' start.toNat total.toNat
  complete : ∀ l₁ c l₂, l = l₁ ++ c :: l₂ → c.complete.toNat = (l₁.map (·.size.toNat)).sum

theorem tiles (hchunk : chunk = 0 ∨ ∃ k, chunk.toNat = 2 ^ k) (hfit : start.toNat + total.toNat ≤ 2 ^ 64) :
    ∃ g fuel l, new start total chunk = .ok g ∧ g.visits fuel = .ok l ∧ Tiling start total chunk l := by
  obtain ⟨k, hk⟩ : ∃ k, chunk = 0 ∨ chunk.toNat = 2 ^ k := by
    obtain h0 | ⟨k, hk⟩ := hchunk
    · exact ⟨0, .inl h0⟩
    · exact ⟨k, .inr hk⟩
  obtain ⟨g, hg, rfl, rfl, hat⟩ := new_at hk hfit
  have hB := block_dvd hk
  split at hat
  next h0 =>
    subst h0
    refine ⟨g, 1, [], hg, if_pos (beq_iff_eq.mpr hat), ?_⟩
    constructor <;> simp
  next h0 =>
    have hlt := hat.low.2
    have hn : touched (block g.chunkSize) g.startAddr.toNat (g.startAddr.toNat + total.toNat) +
        g.startAddr.toNat / block g.chunkSize = _ := touched_eq (block_pos hB) hlt
    obtain ⟨l, hl, hmap, hcomplete⟩ := hat.visits hB hn
    have hmem : ∀ c ∈ l, _ := fun c hc => chunks_inside (block_pos hB) hlt hn (hmap ▸ mem_map_of_mem hc)
    have hbefore : ∀ l₁ c l₂, l = l₁ ++ c :: l₂ →
        c.addr.toNat = g.startAddr.toNat + (l₁.map (·.size.toNat)).sum := by
      rintro l₁ c l₂ rfl
      rw [map_append, map_cons] at hmap
      have hsum := chunks_before (block_pos hB) hlt hn hmap.symm
      rw [map_map] at hsum
      exact hsum
    refine ⟨g, _, l, hg, hl, ?_⟩
    constructor
    case nonempty =>
      intro c hc hsize
      have hone := (hmem c hc).1
      rw [Chunk.piece, hsize] at hone
      contradiction
    case inBlock =>
      intro hne c hc b hb
      have hblock : block g.chunkSize = g.chunkSize.toNat := if_neg hne
      rw [← hblock]
      exact (hmem c hc).2.2 b hb
    case adjacent =>
      intro l₁ c d l₂ hsplit
      have hc := hbefore l₁ c (d :: l₂) hsplit
      have hd := hbefore (l₁ ++ [c]) d l₂ (by simpa using hsplit)
      rw [map_append, List.sum_append, map_singleton, sum_singleton] at hd
      omega
    case bytes =>
      have hbytes := chunks_bytes (block_pos hB) hlt hn
      rw [← hmap, flatMap_map, Nat.add_sub_cancel_left] at hbytes
      exact hbytes
    case complete =>
      rintro l₁ c l₂ rfl
      have hc := hcomplete c (by simp)
      have haddr := hbefore l₁ c l₂ rfl
      omega

theorem tiles_unaligned : ∃ g fuel l, new 0xFFFFFFFFFFFFFFE3 0x1D 8 = .ok g ∧ g.visits fuel = .ok l ∧
    Tiling 0xFFFFFFFFFFFFFFE3 0x1D 8 l :=
  tiles (.inr ⟨3, by decide⟩) (by decide)

end ChunkGenerator

end Gem5.Base
