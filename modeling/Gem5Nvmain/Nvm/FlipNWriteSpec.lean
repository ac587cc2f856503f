import Gem5Nvmain.Lib.MixedRadix
import Gem5Nvmain.Nvm.FlipNWrite
import Mathlib.Tactic.Ring

/- Flip-N-Write stores the data.

  Partitions are made of whole bytes, and to invert a byte twice gives it back (`flipByte_flipByte`). So what the code
  does to a word is to invert the bytes of some of its partitions (`invertedBy`), and `write` ends with the flags of
  the word equal to the partitions that are inverted (`write_spec`). Inverting these again gives the data of the
  request, whatever the flags were before (`write_stores`), and after any writes every word that was written is read
  back (`stored_unflip`).

  The addresses of the set are unique as long as the row's fit into 64 bits (`Fits`); from there on they come round to
  those of row 0 (`far_row_flips`). -/
namespace Nvm
open Lib Function Except Nat

/-! ## Bytes -/

/-- A byte that is inverted as a whole. -/
def flipByte (b : UInt8) : UInt8 := invertByte 0 8 0 b

theorem flipByte_flipByte (b : UInt8) : flipByte (flipByte b) = b := by
  have h : ∀ v : BitVec 8, flipByte (flipByte ⟨v⟩) = ⟨v⟩ := by decide +kernel
  exact h b.toBitVec

theorem invertByte_inside {startBit endBit i : Nat} (hs : startBit ≤ i * 8) (he : i * 8 + 8 ≤ endBit) (b : UInt8) :
    invertByte startBit endBit i b = flipByte b := by
  refine congrArg Prod.snd (foldl_congr (fun j hj bytes => ?_) _)
  have hj := List.mem_range.mp hj
  have hleft : ¬ (i * 8 + j < startBit ∨ endBit ≤ i * 8 + j) := by omega
  have hright : ¬ (0 * 8 + j < 0 ∨ 8 ≤ 0 * 8 + j) := by omega
  simp only [invertBit, hleft, hright]

/-! ## Words -/

namespace NVMDataBlock
variable {d : NVMDataBlock} {n : Nat} {f f' : Nat → Bool} {a b i : Nat}

/-- The data with the bytes of `f` inverted. -/
def invertedAt (f : Nat → Bool) (d : NVMDataBlock) : NVMDataBlock :=
  { d with rawData := d.rawData.mapIdx fun i x => if f i then flipByte x else x }

theorem Holds.invertedAt (h : d.Holds n) : (d.invertedAt f).Holds n :=
  h.of_length rfl List.length_mapIdx

theorem rawData_invertedAt (i : Nat) : (d.invertedAt f).rawData[i]? =
    d.rawData[i]?.map fun x => if f i then flipByte x else x := List.getElem?_mapIdx

theorem ext_rawData {d' : NVMDataBlock} (hv : d.isValid = d'.isValid) (hr : ∀ i : Nat, d.rawData[i]? = d'.rawData[i]?) : d = d' := by
  cases d
  cases hv
  cases List.ext_getElem? hr
  rfl

theorem invertedAt_false (h : ∀ i, f i = false) : d.invertedAt f = d := by
  refine ext_rawData rfl fun i => ?_
  rw [rawData_invertedAt, h]
  simp

theorem invertedAt_invertedAt : (d.invertedAt f).invertedAt f' = d.invertedAt fun i => f i ^^ f' i := by
  refine ext_rawData rfl fun i => ?_
  rw [rawData_invertedAt, rawData_invertedAt, rawData_invertedAt, Option.map_map]
  congr 1
  funext x
  cases f i <;> cases f' i <;> simp [Function.comp, flipByte_flipByte]

theorem invertedAt_congr (h : ∀ i, f i = f' i) : d.invertedAt f = d.invertedAt f' := by
  rw [show f = f' from funext h]

end NVMDataBlock

section Invert
variable {d : NVMDataBlock} {n startBit endBit a b : Nat}

theorem invertByteAt_eq {i : Nat} (h : d.Holds n) (hi : i < n) (hs : startBit ≤ i * 8) (he : i * 8 + 8 ≤ endBit) :
    invertByteAt startBit endBit d i = .ok (d.invertedAt fun j => decide (j = i)) := by
  unfold invertByteAt
  rw [h.getByte hi, bind_ok, h.setByte hi]
  refine congrArg ok (NVMDataBlock.ext_rawData rfl fun j => ?_)
  rw [NVMDataBlock.rawData_invertedAt, invertByte_inside hs he]
  have hlt : i < d.rawData.length := lt_of_lt_of_le hi h.2
  show (d.rawData.set i _)[j]? = _
  obtain rfl | hne := eq_or_ne j i
  · rw [List.getElem?_set_self hlt, List.getElem?_eq_getElem hlt]
    simp
  · rw [List.getElem?_set_ne hne.symm, decide_eq_false hne]
    simp

/-- The loop inverts the bytes one after the other. -/
theorem foldlM_invertByteAt (len : Nat) (h : d.Holds n) (hn : a + len ≤ n) (hs : startBit ≤ a * 8) (he : (a + len) * 8 ≤ endBit) :
    (List.range' a len).foldlM (invertByteAt startBit endBit) d =
      .ok (d.invertedAt fun j => decide (a ≤ j ∧ j < a + len)) := by
  induction len generalizing a d with
  | zero =>
    refine congrArg ok (NVMDataBlock.invertedAt_false fun j => ?_).symm
    rw [decide_eq_false_iff_not]
    omega
  | succ len ih =>
    rw [List.range'_succ, List.foldlM_cons, invertByteAt_eq h (by omega) hs (by omega), bind_ok,
      ih h.invertedAt (by omega) (by omega) (by omega), NVMDataBlock.invertedAt_invertedAt]
    refine congrArg ok (NVMDataBlock.invertedAt_congr fun j => ?_)
    rw [Bool.eq_iff_iff, Bool.xor_iff_ne, ne_eq, Bool.eq_iff_iff]
    simp only [decide_eq_true_eq]
    omega

theorem invertData_eq (h : d.Holds n) (hab : a < b) (hn : b ≤ n) :
    invertData d (8 * a) (8 * b) = .ok (d.invertedAt fun j => decide (a ≤ j ∧ j < b)) := by
  have hstart : 8 * a / 8 = a := by omega
  have hcount : (8 * b - 1) / 8 + 1 - a = b - a := by omega
  unfold invertData
  simp only [hstart, hcount]
  rw [foldlM_invertByteAt (b - a) h (by omega) (by omega) (by omega)]
  refine congrArg ok (NVMDataBlock.invertedAt_congr fun j => ?_)
  rw [Bool.eq_iff_iff, decide_eq_true_eq, decide_eq_true_eq]
  omega

end Invert

/-! ## Partitions -/

namespace FlipConfig
variable {c : FlipConfig} {row row' col col' i i' : Nat}

/-- The bytes of a partition. -/
def fpBytes (c : FlipConfig) : Nat := c.fpSize / 8

theorem fpSize_eq (c : FlipConfig) : c.fpSize = 8 * c.fpBytes := (Nat.mul_div_cancel' c.byte_dvd).symm

theorem fpBytes_pos (c : FlipConfig) : 0 < c.fpBytes := by
  have hpos := c.fpSize_pos
  have heq := c.fpSize_eq
  omega

theorem wordSize_eq (c : FlipConfig) : c.wordSize = c.flipPartitions * c.fpBytes := by
  have hword : c.wordSize * 8 = c.busWidth * (c.tBURST * c.rate) :=
    Nat.div_mul_cancel (Nat.dvd_trans c.byte_dvd c.fpSize_dvd)
  have hbits : c.flipPartitions * c.fpSize = c.wordSize * 8 :=
    Nat.div_mul_cancel (by rw [hword]; exact c.fpSize_dvd)
  have h8 : c.flipPartitions * c.fpBytes * 8 = c.wordSize * 8 := by
    rw [← hbits, mul_assoc, mul_comm c.fpBytes, ← c.fpSize_eq]
  omega

theorem flipPartitions_lt (c : FlipConfig) : c.flipPartitions < 2 ^ 64 := by
  have hword : c.wordSize * 8 ≤ c.busWidth * (c.tBURST * c.rate) := div_mul_le_self _ _
  exact (div_le_self _ _).trans_lt (hword.trans_lt c.word_lt)

theorem curAddr_inj (hi : i < c.flipPartitions) (hi' : i' < c.flipPartitions)
    (h : c.curAddr row col i = c.curAddr row col i') : i = i' := by
  have hlt := c.flipPartitions_lt
  have hmod : i ≡ i' [MOD 2 ^ 64] := Nat.ModEq.add_left_cancel' _ h
  exact Nat.ModEq.eq_of_lt_of_lt hmod (hi.trans hlt) (hi'.trans hlt)

theorem rowPartitions_eq (c : FlipConfig) : c.rowPartitions = c.cols * c.flipPartitions := by
  calc
    c.cols * c.wordSize * 8 / c.fpSize = c.cols * c.flipPartitions * c.fpSize / c.fpSize := by
      rw [c.wordSize_eq, c.fpSize_eq, mul_comm 8, ← mul_assoc, ← mul_assoc]
    _ = c.cols * c.flipPartitions := Nat.mul_div_cancel _ c.fpSize_pos

/-- The addresses of the row are numbers of 64 bits. -/
def Fits (c : FlipConfig) (row : Nat) : Prop := (row + 1) * c.rowPartitions ≤ 2 ^ 64

instance (row : Nat) : Decidable (c.Fits row) := inferInstanceAs (Decidable (_ ≤ _))

/-- A partition of the memory. -/
structure Triple (c : FlipConfig) where
  row : Nat
  col : Nat
  i : Nat
  fits : c.Fits row
  col_lt : col < c.cols
  i_lt : i < c.flipPartitions

def Triple.addr (t : c.Triple) : Nat := c.curAddr t.row t.col t.i

theorem Triple.addr_eq (t : c.Triple) : t.addr = t.i + c.flipPartitions * (t.col + c.cols * t.row) := by
  have hword : t.col * c.flipPartitions + t.i < (t.col + 1) * c.flipPartitions := by
    rw [add_mul, one_mul]
    exact Nat.add_lt_add_left t.i_lt _
  have hcols : (t.col + 1) * c.flipPartitions ≤ c.rowPartitions := by
    rw [c.rowPartitions_eq]
    exact mul_le_mul_right _ t.col_lt
  have hfits := t.fits
  unfold Fits at hfits
  rw [add_mul, one_mul] at hfits
  unfold addr curAddr
  rw [mod_eq_of_lt (by omega), c.rowPartitions_eq]
  ring

theorem Triple.addr_inj {t u : c.Triple} (h : t.addr = u.addr) : t.row = u.row ∧ t.col = u.col ∧ t.i = u.i := by
  rw [t.addr_eq, u.addr_eq] at h
  obtain ⟨hi, h⟩ := digit_inj t.i_lt u.i_lt h
  obtain ⟨hcol, hrow⟩ := digit_inj t.col_lt u.col_lt h
  exact ⟨hrow, hcol, hi⟩

end FlipConfig

namespace FlipNWrite
variable {c : FlipConfig} {s s' : FlipNWrite} {row col n i : Nat} {d : NVMDataBlock} {f : Nat → Bool}

/-- The bytes of the first `n` partitions that `f` says. -/
def partsOf (c : FlipConfig) (n : Nat) (f : Nat → Bool) (byte : Nat) : Bool :=
  decide (byte / c.fpBytes < n) && f (byte / c.fpBytes)

theorem partsOf_succ (c : FlipConfig) (n : Nat) (f : Nat → Bool) (byte : Nat) :
    partsOf c (n + 1) f byte = (partsOf c n f byte ^^ (decide (byte / c.fpBytes = n) && f n)) := by
  unfold partsOf
  obtain heq | hne := eq_or_ne (byte / c.fpBytes) n
  · rw [heq]
    cases f n <;> simp
  · have hiff : byte / c.fpBytes < n + 1 ↔ byte / c.fpBytes < n := by omega
    simp only [decide_eq_false hne, hiff, Bool.false_and, Bool.xor_false]

theorem invertPartition (h : d.Holds c.wordSize) (hi : i < c.flipPartitions) :
    invertData d (i * c.fpSize) ((i + 1) * c.fpSize) = .ok (d.invertedAt fun j => decide (j / c.fpBytes = i)) := by
  have hpos := c.fpBytes_pos
  have hle : (i + 1) * c.fpBytes ≤ c.wordSize := by
    rw [c.wordSize_eq]
    exact mul_le_mul_right _ hi
  have hstart : i * c.fpSize = 8 * (i * c.fpBytes) := by
    rw [c.fpSize_eq]
    ring
  have hend : (i + 1) * c.fpSize = 8 * ((i + 1) * c.fpBytes) := by
    rw [c.fpSize_eq]
    ring
  rw [hstart, hend, invertData_eq h (mul_lt_mul_of_pos_right (lt_succ_self i) hpos) hle]
  refine congrArg ok (NVMDataBlock.invertedAt_congr fun j => ?_)
  rw [Bool.eq_iff_iff, decide_eq_true_eq, decide_eq_true_eq, ← le_div_iff_mul_le hpos, ← div_lt_iff_lt_mul hpos]
  omega

theorem unflipPartition_eq (h : d.Holds c.wordSize) (hi : i < c.flipPartitions) : s.unflipPartition c row col d i =
      .ok (d.invertedAt fun j => decide (j / c.fpBytes = i) && s.flippedAddresses (c.curAddr row col i)) := by
  unfold unflipPartition
  cases hflag : s.flippedAddresses (c.curAddr row col i) with
  | true =>
    rw [if_pos rfl, invertPartition h hi]
    refine congrArg ok (NVMDataBlock.invertedAt_congr fun j => ?_)
    rw [Bool.and_true]
  | false =>
    refine congrArg ok (NVMDataBlock.invertedAt_false fun j => ?_).symm
    rw [Bool.and_false]

/-- What is inverted again are the partitions of the word that are flagged. -/
theorem unflip_eq (h : d.Holds c.wordSize) : s.unflip c row col d =
    .ok (d.invertedAt (partsOf c c.flipPartitions fun i => s.flippedAddresses (c.curAddr row col i))) := by
  have hstart : d.invertedAt (partsOf c 0 fun i => s.flippedAddresses (c.curAddr row col i)) = d :=
    NVMDataBlock.invertedAt_false fun j => by simp [partsOf]
  have hloop := foldlM_range_eq (g := s.unflipPartition c row col)
    (fun n => d.invertedAt (partsOf c n fun i => s.flippedAddresses (c.curAddr row col i))) fun n hn => by
      rw [unflipPartition_eq h.invertedAt hn, NVMDataBlock.invertedAt_invertedAt]
      refine congrArg ok (NVMDataBlock.invertedAt_congr fun j => ?_)
      exact (partsOf_succ c n _ j).symm
  rw [hstart] at hloop
  exact hloop

/-! ## Write -/

theorem countByte_ok {old new : NVMDataBlock} (ho : old.Holds c.wordSize) (hn : new.Holds c.wordSize) (hi : i < c.wordSize)
    (counts : Nat × (Nat → Nat)) : ∃ counts', countByte c old new counts i = .ok counts' := by
  unfold countByte
  rw [ho.getByte hi, hn.getByte hi, bind_ok, bind_ok]
  split
  · exact ⟨_, rfl⟩
  · exact ⟨_, rfl⟩

theorem flipPartition_eq {t : FlipNWrite × NVMDataBlock} {modifyCount : Nat → Nat} (h : t.2.Holds c.wordSize)
    (hi : i < c.flipPartitions) : flipPartition c row col modifyCount t i =
      .ok (⟨update t.1.flippedAddresses (c.curAddr row col i) (decide (modifyCount i > c.fpSize / 2))⟩,
        t.2.invertedAt fun j => decide (j / c.fpBytes = i) && decide (modifyCount i > c.fpSize / 2)) := by
  unfold flipPartition
  by_cases hmore : modifyCount i > c.fpSize / 2
  · simp only [if_pos hmore, invertPartition h hi, bind_ok, decide_eq_true hmore, Bool.and_true, pure_eq_ok]
  · simp only [if_neg hmore, decide_eq_false hmore, Bool.and_false]
    rw [NVMDataBlock.invertedAt_false fun _ => rfl]

/-- The flags of the word when the partitions before `n` have been gone through. -/
def flagsAfter (c : FlipConfig) (row col : Nat) (f : Nat → Bool) (flags : Nat → Bool) : Nat → Nat → Bool
  | 0 => flags
  | n + 1 => update (flagsAfter c row col f flags n) (c.curAddr row col n) (f n)

theorem flagsAfter_other {addr : Nat} {flags : Nat → Bool} (h : ∀ i < n, addr ≠ c.curAddr row col i) :
    flagsAfter c row col f flags n addr = flags addr := by
  induction n with
  | zero => rfl
  | succ n ih =>
    unfold flagsAfter
    rw [update_of_ne (h n (lt_succ_self n))]
    exact ih fun i hi => h i (lt_succ_of_lt hi)

theorem flagsAfter_own {flags : Nat → Bool} (hinj : ∀ i < n, ∀ j < n, c.curAddr row col i = c.curAddr row col j → i = j)
    (hi : i < n) : flagsAfter c row col f flags n (c.curAddr row col i) = f i := by
  induction n with
  | zero => cases hi
  | succ n ih =>
    unfold flagsAfter
    obtain rfl | hne := eq_or_ne i n
    · rw [update_self]
    · have hlt : i < n := by omega
      have haddr : c.curAddr row col i ≠ c.curAddr row col n := fun h => hne (hinj i hi n (lt_succ_self n) h)
      rw [update_of_ne haddr]
      exact ih (fun a ha b hb => hinj a (lt_succ_of_lt ha) b (lt_succ_of_lt hb)) hlt

/-- `write` inverts some partitions of the data, and flags these and no others of the word. -/
theorem write_spec (s : FlipNWrite) (r : FlipRequest c) : ∃ f, s.write c r =
    .ok (⟨flagsAfter c r.row r.col f s.flippedAddresses c.flipPartitions⟩,
      r.data.invertedAt (partsOf c c.flipPartitions f)) := by
  have hold : (r.oldData.invertedAt (partsOf c c.flipPartitions fun i =>
      s.flippedAddresses (c.curAddr r.row r.col i))).Holds c.wordSize := r.oldData_holds.invertedAt
  obtain ⟨counts, hcounts⟩ := foldlM_ok
    (fun counts i hi => countByte_ok hold r.data_holds (List.mem_range.mp hi) counts) (0, fun _ => 0)
  refine ⟨fun i => decide (counts.2 i > c.fpSize / 2), ?_⟩
  unfold write
  rw [unflip_eq r.oldData_holds, bind_ok, hcounts, bind_ok]
  have hstart : r.data.invertedAt (partsOf c 0 fun i => decide (counts.2 i > c.fpSize / 2)) = r.data :=
    NVMDataBlock.invertedAt_false fun j => by simp [partsOf]
  have hloop := foldlM_range_eq (g := flipPartition c r.row r.col counts.2)
    (fun n => (⟨flagsAfter c r.row r.col (fun i => decide (counts.2 i > c.fpSize / 2)) s.flippedAddresses n⟩,
      r.data.invertedAt (partsOf c n fun i => decide (counts.2 i > c.fpSize / 2)))) fun n hn => by
      rw [flipPartition_eq r.data_holds.invertedAt hn, NVMDataBlock.invertedAt_invertedAt]
      refine congrArg (fun x => ok (_, x)) (NVMDataBlock.invertedAt_congr fun j => ?_)
      exact (partsOf_succ c n _ j).symm
  rw [hstart] at hloop
  exact hloop

/-- After a write the data with the flagged partitions inverted again is the data of the request, and the flags of the
  other words are as they were, if the addresses of the row fit. -/
theorem write_stores (s : FlipNWrite) (r : FlipRequest c) : ∃ s' d, s.write c r = .ok (s', d) ∧
    s'.unflip c r.row r.col d = .ok r.data ∧ (c.Fits r.row → ∀ t : c.Triple, ¬ (t.row = r.row ∧ t.col = r.col) →
      s'.flippedAddresses t.addr = s.flippedAddresses t.addr) := by
  obtain ⟨f, hwrite⟩ := s.write_spec r
  refine ⟨_, _, hwrite, ?_, fun hfits t hother => ?_⟩
  · rw [unflip_eq r.data_holds.invertedAt, NVMDataBlock.invertedAt_invertedAt]
    refine congrArg ok (NVMDataBlock.invertedAt_false fun j => ?_)
    unfold partsOf
    by_cases hj : j / c.fpBytes < c.flipPartitions
    · have hown : flagsAfter c r.row r.col f s.flippedAddresses c.flipPartitions (c.curAddr r.row r.col (j / c.fpBytes)) =
          f (j / c.fpBytes) := flagsAfter_own (fun i hi i' hi' h => FlipConfig.curAddr_inj hi hi' h) hj
      show (_ && f (j / c.fpBytes) ^^ _ && flagsAfter c r.row r.col f s.flippedAddresses c.flipPartitions _) = _
      rw [hown, Bool.xor_self]
    · rw [decide_eq_false hj]
      rfl
  · refine flagsAfter_other fun i hi haddr => hother ?_
    have hinj := FlipConfig.Triple.addr_inj (u := ⟨r.row, r.col, i, hfits, r.col_lt, hi⟩) haddr
    exact ⟨hinj.1, hinj.2.1⟩

/-! ## Words of one byte in two columns -/

def byteWords : FlipConfig where
  busWidth := 8
  tBURST := 1
  rate := 1
  cols := 2
  fpSize := 8
  fpSize_pos := eight_pos
  byte_dvd := by decide
  fpSize_dvd := by decide
  word_lt := by decide

/-- A byte that is written over a byte of zeros. -/
def overZero (row : Nat) (hrow : row < 2 ^ 64) (byte : UInt8) : FlipRequest byteWords where
  row
  row_lt := hrow
  col := 0
  col_lt := by decide
  data := ⟨[byte], true⟩
  oldData := ⟨[0], true⟩
  data_holds := ⟨rfl, le_refl _⟩
  oldData_holds := ⟨rfl, le_refl _⟩

theorem write_stores_byte : ∃ s' d, ({} : FlipNWrite).write byteWords (overZero 5 (by decide) 255) = .ok (s', d) ∧
    s'.unflip byteWords 5 0 d = .ok ⟨[255], true⟩ ∧ s'.flippedAddresses (byteWords.curAddr 5 1 0) = false := by
  obtain ⟨s', d, hwrite, hdata, hflags⟩ := write_stores {} (overZero 5 (by decide) 255)
  exact ⟨s', d, hwrite, hdata, hflags (by decide) ⟨5, 1, 0, by decide, by decide, by decide⟩ (by decide)⟩

/-- The addresses of row `2 ^ 63` come round to those of row 0: a write there flags a partition of row 0. -/
theorem far_row_flips : ∃ s' d, ({} : FlipNWrite).write byteWords (overZero (2 ^ 63) (by decide) 255) = .ok (s', d) ∧
    s'.flippedAddresses (byteWords.curAddr 0 0 0) = true ∧
    ({} : FlipNWrite).flippedAddresses (byteWords.curAddr 0 0 0) = false := by
  have hrun : (match ({} : FlipNWrite).write byteWords (overZero (2 ^ 63) (by decide) 255) with
      | .ok t => t.1.flippedAddresses (byteWords.curAddr 0 0 0)
      | .error _ => false) = true := by decide
  split at hrun
  next t ht => exact ⟨t.1, t.2, ht, hrun, rfl⟩
  · cases hrun

end FlipNWrite

end Nvm
