import Gem5Nvmain.Lib.Words
import Gem5Nvmain.Ruby.CacheMemory

/- The slices of a Ruby address (src/mem/ruby/common/Address.hh), and the two maps of the directory that are made of
  them (src/mem/ruby/structures/DirectoryMemory.cc).

  `bitSelect` is `Lib.slice` at all positions. `bitRemove` is `Lib.cut` in its last branch; of the three branches for
  positions at an end of the address, the second happens to be right when it cuts the address in two halves. -/
namespace Gem5.Ruby
open Lib BitVec

/-- The ones from bit `n` on, `(physical_address_t)~0 << n`. -/
def onesFrom (n : Nat) : BitVec 64 := allOnes 64 <<< n

def bitSelect (a : PhysAddress) (small big : Nat) : Except Stop PhysAddress := do
  require (small ≤ big)
  if 63 ≤ big then return a >>> small
  else return (a &&& ~~~onesFrom (big + 1)) >>> small

def bitRemove (a : PhysAddress) (small big : Nat) : Except Stop PhysAddress := do
  require (small ≤ big)
  if 63 ≤ small then return a
  else if 63 ≤ big then return a &&& (allOnes 64 >>> small)
  else if small = 0 then return a &&& onesFrom big
  else
    let lowerBits := a &&& ~~~onesFrom small
    let higherBits := (a &&& onesFrom (big + 1)) >>> (big - small + 1)
    return higherBits ||| lowerBits

structure DirectoryMemory where
  numaHighBit : Int
  numDirectoriesBits : Int
  blockSizeBits : Nat

namespace DirectoryMemory

/-- An `int` argument of a function that takes an `unsigned int`. -/
def unsigned (i : Int) : Nat := (i % 2 ^ 32).toNat

def mapAddressToDirectoryVersion (d : DirectoryMemory) (a : PhysAddress) : Except Stop PhysAddress :=
  if d.numDirectoriesBits = 0 then .ok 0
  else bitSelect a (unsigned (d.numaHighBit - d.numDirectoriesBits + 1)) (unsigned d.numaHighBit)

def mapAddressToLocalIdx (d : DirectoryMemory) (a : PhysAddress) : Except Stop PhysAddress := do
  let ret ←
    if 0 < d.numDirectoriesBits then
      bitRemove a (unsigned (d.numaHighBit - d.numDirectoriesBits + 1)) (unsigned d.numaHighBit)
    else .ok a
  return ret >>> d.blockSizeBits

/-- Two lines of one directory have two entries there. -/
def Lossless (d : DirectoryMemory) : Prop :=
  ∀ a a' : PhysAddress, a.toNat / 2 ^ d.blockSizeBits ≠ a'.toNat / 2 ^ d.blockSizeBits →
    d.mapAddressToDirectoryVersion a = d.mapAddressToDirectoryVersion a' →
    d.mapAddressToLocalIdx a ≠ d.mapAddressToLocalIdx a'

end DirectoryMemory

/-- The addresses are determined by their two parts. -/
def Determined (small big : Nat) : Prop :=
  ∀ a a' : PhysAddress, bitSelect a small big = bitSelect a' small big → bitRemove a small big = bitRemove a' small big →
    a = a'

def Removes (a : PhysAddress) (small big : Nat) : Prop :=
  (bitRemove a small big).map BitVec.toNat = .ok (cut a.toNat small (big - small + 1))

/-! ## The parts are slices -/

variable {a a' : PhysAddress} {small big b n i : Nat}

theorem getLsbD_onesFrom : (onesFrom n).getLsbD i = decide (n ≤ i ∧ i < 64) := by
  unfold onesFrom
  rw [getLsbD_shiftLeft, getLsbD_allOnes]
  by_cases hn : n ≤ i
  · simp [hn, Nat.not_lt.mpr hn]
    omega
  · simp [hn, Nat.lt_of_not_le hn]

theorem toNat_below : (a &&& ~~~onesFrom n).toNat = a.toNat % 2 ^ n := by
  apply Nat.eq_of_testBit_eq
  intro i
  rw [testBit_toNat, getLsbD_and, getLsbD_not, getLsbD_onesFrom, Nat.testBit_mod_two_pow, testBit_toNat]
  by_cases hi : i < 64
  · simp [hi, Bool.and_comm, ← decide_not]
  · simp [getLsbD_of_ge a i (Nat.le_of_not_lt hi)]

theorem eq_of_map_toNat {x y : Except Stop PhysAddress} (h : x.map BitVec.toNat = y.map BitVec.toNat) : x = y := by
  cases x with
  | error => cases y with
    | error => exact congrArg _ (Except.error.inj h)
    | ok => cases h
  | ok => cases y with
    | error => cases h
    | ok => exact congrArg _ (eq_of_toNat_eq (Except.ok.inj h))

theorem bitSelect_eq (hle : small ≤ big) (hbig : big ≤ 63) :
    (bitSelect a small big).map BitVec.toNat = .ok (slice a.toNat small (big - small + 1)) := by
  have hadd : big + 1 = small + (big - small + 1) := by omega
  unfold bitSelect
  rw [require, if_pos (decide_eq_true hle)]
  change Except.map _ (if 63 ≤ big then _ else _) = _
  split
  · have hlt := a.isLt
    obtain rfl : big = 63 := by omega
    show Except.ok (a >>> small).toNat = _
    rw [toNat_ushiftRight, Nat.shiftRight_eq_div_pow, slice, Nat.mod_eq_of_lt]
    apply Nat.div_lt_of_lt_mul
    rwa [← Nat.pow_add, ← hadd]
  · show Except.ok ((a &&& ~~~onesFrom (big + 1)) >>> small).toNat = _
    rw [toNat_ushiftRight, toNat_below, Nat.shiftRight_eq_div_pow, hadd, Nat.pow_add, Nat.mod_mul_right_div_self]
    rfl

/-- The last branch. -/
theorem removes_inside (hpos : 0 < small) (hle : small ≤ big) (hbig : big < 63) : Removes a small big := by
  unfold Removes bitRemove
  rw [require, if_pos (decide_eq_true hle)]
  change Except.map _ (if 63 ≤ small then _ else _) = _
  rw [if_neg (by omega), if_neg (by omega), if_neg (by omega)]
  apply congrArg Except.ok
  apply Nat.eq_of_testBit_eq
  intro i
  rw [testBit_toNat, getLsbD_or, getLsbD_ushiftRight, getLsbD_and, getLsbD_onesFrom, ← testBit_toNat (_ &&& _),
    toNat_below, cut, Nat.testBit_two_pow_mul_add _ (Nat.mod_lt _ (Nat.two_pow_pos small)), Nat.testBit_mod_two_pow,
    Nat.testBit_div_two_pow, testBit_toNat, testBit_toNat]
  by_cases hi : i < small
  · rw [if_pos hi, decide_eq_true hi, decide_eq_false (by omega)]
    simp
  · have hidx : i - small + (small + (big - small + 1)) = big - small + 1 + i := by omega
    rw [if_neg hi, decide_eq_false hi, hidx]
    by_cases hw : big - small + 1 + i < 64
    · simp [hw]
      omega
    · simp [getLsbD_of_ge a _ (Nat.le_of_not_lt hw)]

theorem removes_half : Removes a 32 63 := by
  have hlt : a.toNat / 2 ^ 64 = 0 := Nat.div_eq_of_lt a.isLt
  apply congrArg Except.ok
  show (a &&& (allOnes 64 >>> 32)).toNat = 2 ^ 32 * (a.toNat / 2 ^ 64) + a.toNat % 2 ^ 32
  rw [hlt, toNat_and]
  exact (Nat.and_two_pow_sub_one_eq_mod a.toNat 32).trans (Nat.zero_add _).symm

instance : Decidable (Removes a small big) := inferInstanceAs (Decidable (_ = _))

theorem of_removes_ones : ∀ big < 64, ∀ small ≤ big, Removes (allOnes 64) small big →
    (0 < small ∧ big < 63) ∨ (small = 32 ∧ big = 63) := by
  decide +kernel

/-! ## The directory -/

namespace DirectoryMemory
variable {d : DirectoryMemory}

/-- The directory whose number is in the bits from `small` to `big`. -/
def numa (small big b : Nat) : DirectoryMemory := ⟨big, big - small + 1, b⟩

theorem unsigned_ofNat (hn : n < 64) : unsigned n = n := by
  unfold unsigned
  omega

theorem numa_positions (hle : small ≤ big) (hbig : big ≤ 63) : 0 < (numa small big b).numDirectoriesBits ∧
    unsigned ((numa small big b).numaHighBit - (numa small big b).numDirectoriesBits + 1) = small ∧
    unsigned (numa small big b).numaHighBit = big := by
  simp only [numa]
  have hsmall : (big : Int) - (big - small + 1) + 1 = small := by omega
  rw [hsmall, unsigned_ofNat (by omega), unsigned_ofNat (by omega)]
  omega

theorem numa_version (hle : small ≤ big) (hbig : big ≤ 63) :
    (numa small big b).mapAddressToDirectoryVersion a = bitSelect a small big := by
  obtain ⟨hbits, hs, hh⟩ := numa_positions (b := b) hle hbig
  rw [mapAddressToDirectoryVersion, if_neg (Int.ne_of_gt hbits), hs, hh]

theorem numa_localIdx (hle : small ≤ big) (hbig : big ≤ 63) (hr : Removes a small big) :
    ((numa small big b).mapAddressToLocalIdx a).map BitVec.toNat = .ok (cut a.toNat small (big - small + 1) / 2 ^ b) := by
  obtain ⟨hbits, hs, hh⟩ := numa_positions (b := b) hle hbig
  rw [mapAddressToLocalIdx, if_pos hbits, hs, hh]
  unfold Removes at hr
  cases h : bitRemove a small big with
  | error e =>
    rw [h] at hr
    cases hr
  | ok v =>
    rw [h] at hr
    rw [← Except.ok.inj hr]
    show Except.ok (v >>> b).toNat = Except.ok (v.toNat / 2 ^ b)
    rw [toNat_ushiftRight, Nat.shiftRight_eq_div_pow]

theorem numa_lossless (hle : small ≤ big) (hbig : big ≤ 63) (hb : b ≤ small) (hr : ∀ a, Removes a small big) :
    (numa small big b).Lossless := by
  intro a a' hne hversion hidx
  obtain ⟨k, rfl⟩ := Nat.exists_eq_add_of_le hb
  have hslice := congrArg (Except.map BitVec.toNat) hversion
  have hcut := congrArg (Except.map BitVec.toNat) hidx
  rw [numa_version hle hbig, numa_version hle hbig, bitSelect_eq hle hbig, bitSelect_eq hle hbig, slice_add,
    slice_add] at hslice
  rw [numa_localIdx hle hbig (hr a), numa_localIdx hle hbig (hr a'), cut_div_low, cut_div_low] at hcut
  exact hne (eq_of_slice_of_cut (Except.ok.inj hslice) (Except.ok.inj hcut))

/-- The lowest bit of a line that is moved down goes out of the index when the cut starts inside the block. -/
theorem numa_collide (hle : small ≤ big) (hbig : big < 63) (hb : small < b) (hb32 : b < 32)
    (hr : ∀ a, Removes a small big) : ¬ (numa small big b).Lossless := by
  intro h
  obtain ⟨p, hp, hbp, hlow, hlt⟩ : ∃ p < 64, b ≤ p ∧ big + 1 ≤ p ∧ p < b + (big - small + 1) := by
    by_cases hbb : b ≤ big + 1
    · exact ⟨big + 1, by omega, hbb, Nat.le_refl _, by omega⟩
    · exact ⟨b, by omega, Nat.le_refl _, by omega, by omega⟩
  have hpow : (BitVec.ofNat 64 (2 ^ p)).toNat = 2 ^ p := by
    rw [toNat_ofNat, Nat.mod_eq_of_lt (Nat.pow_lt_pow_right (by decide) hp)]
  have hslice : slice (2 ^ p) small (big - small + 1) = 0 := by
    rw [slice, Nat.pow_div (by omega) (by decide)]
    exact Nat.mod_eq_zero_of_dvd (Nat.pow_dvd_pow 2 (by omega))
  have hcut : cut (2 ^ p) small (big - small + 1) / 2 ^ b = 0 := by
    rw [cut, Nat.mod_eq_zero_of_dvd (Nat.pow_dvd_pow 2 (by omega)), Nat.pow_div (by omega) (by decide), Nat.add_zero,
      ← Nat.pow_add]
    exact Nat.div_eq_of_lt (Nat.pow_lt_pow_right (by decide) (by omega))
  have hslice0 : slice 0 small (big - small + 1) = 0 := by simp [slice]
  have hcut0 : cut 0 small (big - small + 1) / 2 ^ b = 0 := by simp [cut]
  apply h (BitVec.ofNat 64 (2 ^ p)) 0
  · show (BitVec.ofNat 64 (2 ^ p)).toNat / 2 ^ b ≠ 0 / 2 ^ b
    rw [hpow, Nat.pow_div hbp (by decide), Nat.zero_div]
    exact Nat.ne_of_gt (Nat.two_pow_pos _)
  · apply eq_of_map_toNat
    rw [numa_version hle hbig.le, numa_version hle hbig.le, bitSelect_eq hle hbig.le, bitSelect_eq hle hbig.le, hpow,
      hslice]
    exact congrArg _ hslice0.symm
  · apply eq_of_map_toNat
    rw [numa_localIdx hle hbig.le (hr _), numa_localIdx hle hbig.le (hr _), hpow, hcut]
    exact congrArg _ hcut0.symm

theorem one_lossless {h : Int} : (⟨h, 0, b⟩ : DirectoryMemory).Lossless := by
  intro a a' hne _ hidx
  have hnat := congrArg (Except.map BitVec.toNat) hidx
  change Except.ok (a >>> b).toNat = Except.ok (a' >>> b).toNat at hnat
  rw [toNat_ushiftRight, toNat_ushiftRight, Nat.shiftRight_eq_div_pow, Nat.shiftRight_eq_div_pow] at hnat
  exact hne (Except.ok.inj hnat)

end DirectoryMemory

/-- All that the two parts of an address are used for. -/
def LosslessSlices (small big b : Nat) : Prop :=
  (∀ a, (bitSelect a small big).map BitVec.toNat = .ok (slice a.toNat small (big - small + 1))) ∧
  (∀ a, Removes a small big) ∧ Determined small big ∧ (DirectoryMemory.numa small big b).Lossless

/-- The positions at which the slicing is lossless. -/
theorem slices_iff (hle : small ≤ big) (hbig : big ≤ 63) (hb : b < 32) :
    (LosslessSlices small big b ↔ (0 < small ∧ big < 63 ∧ b ≤ small) ∨ (small = 32 ∧ big = 63)) ∧
      (∀ a, (bitSelect a small big).map BitVec.toNat = .ok (slice a.toNat small (big - small + 1))) ∧
      ∀ h, (⟨h, 0, b⟩ : DirectoryMemory).Lossless := by
  have hselect : ∀ a, _ := fun a => bitSelect_eq (a := a) hle hbig
  refine ⟨⟨?_, ?_⟩, hselect, fun h => DirectoryMemory.one_lossless⟩
  · rintro ⟨-, hr, -, hlossless⟩
    obtain ⟨hpos, hlt⟩ | hhalf := of_removes_ones big (by omega) small hle (hr _)
    · refine .inl ⟨hpos, hlt, ?_⟩
      by_contra hsb
      exact DirectoryMemory.numa_collide hle hlt (Nat.lt_of_not_le hsb) hb hr hlossless
    · exact .inr hhalf
  · intro h
    have hr : ∀ a, Removes a small big := by
      intro a
      obtain ⟨hpos, hlt, -⟩ | ⟨rfl, rfl⟩ := h
      · exact removes_inside hpos hle hlt
      · exact removes_half
    refine ⟨hselect, hr, ?_, DirectoryMemory.numa_lossless hle hbig (by omega) hr⟩
    intro a a' hs hc
    have hslice := congrArg (Except.map BitVec.toNat) hs
    have hcut := congrArg (Except.map BitVec.toNat) hc
    rw [hselect, hselect] at hslice
    rw [hr a, hr a'] at hcut
    exact eq_of_toNat_eq (eq_of_slice_of_cut (Except.ok.inj hslice) (Except.ok.inj hcut))

theorem slices_iff_blocks : LosslessSlices 6 7 6 :=
  (slices_iff (by decide) (by decide) (by decide)).1.mpr (by decide)

/-- Four directories at the upper end of the addresses: all lines of a directory have one index. -/
theorem top_collides : ¬ LosslessSlices 62 63 6 := by
  rintro ⟨-, hr, -⟩
  have h := of_removes_ones 63 (by decide) 62 (by decide) (hr _)
  omega

/-- The set of a cache line is a slice of its address. -/
theorem CacheGeometry.cacheSet_eq {g : CacheGeometry} (hpos : 0 < g.numSetBits)
    (hfit : g.startIndexBit + g.numSetBits ≤ 64) :
    (bitSelect a g.startIndexBit (g.startIndexBit + g.numSetBits - 1)).map BitVec.toNat = .ok (g.cacheSet a) := by
  rw [bitSelect_eq (by omega) (by omega)]
  congr 3
  omega

end Gem5.Ruby
