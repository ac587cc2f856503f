import Gem5Nvmain.Nvm.AddressTranslator
import Mathlib.Data.List.Nodup
import Mathlib.Data.List.Perm.Subperm
import Mathlib.Tactic.Ring

/- The round trip of the address translation.

  The two loops are `pack` and `unpack` in mixed radix, the digits being the fields in their order (`addField_foldlM`,
  `takeField_foldlM`): all arithmetic of `ReverseTranslate` is modulo the word, which changes nothing as long as the
  address fits in one. So `Translate` and `ReverseTranslate` are inverse to each other but for the offset in the burst
  (`translate_reverseTranslate`, `reverseTranslate_translate`, `round_trip`).

  A field that is as wide as the word is shifted by 64, and a product of bus width and burst length beyond an `int`
  overflows: neither is defined (`wide_not_translated`). -/
namespace Nvm
open Lib Function List Nat

theorem mlog2Loop_mono {fuel a b : Nat} (h : a ≤ b) : mlog2Loop fuel a ≤ mlog2Loop fuel b := by
  induction fuel generalizing a b with
  | zero => exact le_refl _
  | succ fuel ih =>
    unfold mlog2Loop
    by_cases ha : a = 0
    · rw [if_pos ha]
      exact zero_le _
    · rw [if_neg ha, if_neg (by omega)]
      refine succ_le_succ (ih ?_)
      exact Nat.div_le_div_right h

theorem mlog2Loop_le (fuel a : Nat) : mlog2Loop fuel a ≤ fuel := by
  induction fuel generalizing a with
  | zero => exact le_refl _
  | succ fuel ih =>
    unfold mlog2Loop
    split
    · exact zero_le _
    · exact succ_le_succ (ih _)

theorem mlog2_mono {a b : Nat} (h : a ≤ b) : mlog2 a ≤ mlog2 b := by
  unfold mlog2
  by_cases ha : a < 2
  · rw [if_pos ha]
    exact zero_le _
  · rw [if_neg ha, if_neg (by omega)]
    exact Nat.sub_le_sub_right (mlog2Loop_mono h) 1

theorem mlog2_lt (a : Nat) : mlog2 a < 64 := by
  have := mlog2Loop_le 32 a
  unfold mlog2
  split <;> omega

namespace AddressTranslator
variable {t : AddressTranslator} {fields : Fields} {ks : List MemoryPartition} {a b : Nat}

/-- The radix of a field. -/
abbrev radix (t : AddressTranslator) (p : MemoryPartition) : Nat := 2 ^ t.bitWidths p

/-- The fields in their order, each of them once. -/
structure Sequence (t : AddressTranslator) (ks : List MemoryPartition) : Prop where
  order : (range 6).map t.findOrder = ks.map some
  nodup : ks.Nodup
  perm : ks.Perm MemoryPartition.all

theorem Sequence.mem (h : t.Sequence ks) (p : MemoryPartition) : p ∈ ks := h.perm.mem_iff.mpr p.mem_all

theorem Valid.find (h : t.Valid) {i : Nat} (hi : i < 6) : ∃ p, t.findOrder i = some p ∧ t.order p = (i : Int) := by
  obtain ⟨p, hp⟩ := h.order i hi
  cases hf : t.findOrder i with
  | none =>
    have := find?_eq_none.mp hf p p.mem_all
    exact absurd hp (by simpa using this)
  | some q =>
    have := find?_some hf
    exact ⟨q, rfl, by simpa using this⟩

theorem Valid.sequence (h : t.Valid) : ∃ ks, t.Sequence ks := by
  choose! part hfind horder using fun i (hi : i < 6) => h.find hi
  have hnodup : ((range 6).map part).Nodup := by
    refine List.Nodup.map_on (fun i hi j hj hij => ?_) nodup_range
    have hcast : (i : Int) = j := by
      rw [← horder i (mem_range.mp hi), ← horder j (mem_range.mp hj), hij]
    exact Int.ofNat.inj hcast
  refine ⟨(range 6).map part, ?_, hnodup, ?_⟩
  · exact map_congr_left fun i hi => hfind i (mem_range.mp hi)
  · exact (subperm_of_subset hnodup fun p _ => p.mem_all).perm_of_length_le (by simp [MemoryPartition.all])

theorem Valid.total_eq (h : t.Sequence ks) : 2 ^ t.burstBits * size t.radix ks = 2 ^ t.total := by
  rw [size_perm h.perm, size_two_pow, ← pow_add]
  rfl

theorem Valid.lowColBits (h : t.Valid) :
    t.lowColBits = .ok (t.burstBits - t.busOffsetBits) ∧ t.busOffsetBits ≤ t.burstBits := by
  have hle : t.busOffsetBits ≤ t.burstBits :=
    mlog2_mono (Nat.div_le_div_right (Nat.le_mul_of_pos_right t.busWidth h.burstLength))
  exact ⟨if_pos ⟨h.int, hle⟩, hle⟩

theorem shiftLeft_mod {k : Nat} (hk : k < 64) (a : Nat) : shiftLeft (a % 2 ^ 64) k = .ok (a * 2 ^ k % 2 ^ 64) := by
  unfold shiftLeft
  rw [if_pos hk, mod_mul_mod]

/-- The loop of `ReverseTranslate`, modulo the word. -/
theorem addField_foldlM (fields : Fields) (hw : ∀ p ∈ ks, t.bitWidths p < 64) (phyAddr unitAddr : Nat) :
    (ks.map some).foldlM (t.addField fields) (phyAddr % 2 ^ 64, unitAddr % 2 ^ 64) =
      .ok ((phyAddr + unitAddr * pack t.radix ks fields) % 2 ^ 64, unitAddr * size t.radix ks % 2 ^ 64) := by
  induction ks generalizing phyAddr unitAddr with
  | nil =>
    show Except.ok _ = Except.ok _
    rw [pack, Lib.size, map_nil, prod_nil, mul_zero, add_zero, mul_one]
  | cons p ks ih =>
    have hstep : t.addField fields (phyAddr % 2 ^ 64, unitAddr % 2 ^ 64) (some p) =
        .ok ((phyAddr + fields p * unitAddr) % 2 ^ 64, unitAddr * t.radix p % 2 ^ 64) := by
      unfold addField
      simp only [shiftLeft_mod (hw p mem_cons_self)]
      have hsum : (phyAddr % 2 ^ 64 + fields p * (unitAddr % 2 ^ 64)) % 2 ^ 64 = (phyAddr + fields p * unitAddr) % 2 ^ 64 := by
        rw [add_mod, mod_mod, mul_mod_mod, ← add_mod]
      rw [hsum]
      rfl
    rw [map_cons, foldlM_cons, hstep, bind_ok, ih fun q hq => hw q (mem_cons_of_mem p hq)]
    have hpack : phyAddr + fields p * unitAddr + unitAddr * t.radix p * pack t.radix ks fields =
        phyAddr + unitAddr * pack t.radix (p :: ks) fields := by
      rw [pack]
      ring
    have hsize : unitAddr * t.radix p * size t.radix ks = unitAddr * size t.radix (p :: ks) := by
      rw [Lib.size, Lib.size, map_cons, prod_cons, mul_assoc]
    rw [hpack, hsize]

/-- The loop of `Translate`. -/
theorem takeField_foldlM (hw : ∀ p ∈ ks, t.bitWidths p < 64) (refAddress : Nat) (fields : Fields) :
    (ks.map some).foldlM t.takeField (refAddress, fields) =
      .ok (refAddress / size t.radix ks, unpack t.radix ks refAddress fields) := by
  induction ks generalizing refAddress fields with
  | nil => simp [Lib.size, unpack]
  | cons p ks ih =>
    have hp := hw p mem_cons_self
    have hword : 1 * 2 ^ t.bitWidths p % 2 ^ 64 = 2 ^ t.bitWidths p := by
      rw [one_mul]
      exact Nat.mod_eq_of_lt (Nat.pow_lt_pow_right Nat.one_lt_two hp)
    have hstep : t.takeField (refAddress, fields) (some p) =
        .ok (refAddress / t.radix p, update fields p (refAddress % t.radix p)) := by
      unfold takeField modulo divide shiftLeft shiftRight
      simp only [if_pos hp, bind_ok, hword, pure_eq_ok]
    rw [map_cons, foldlM_cons, hstep, bind_ok, ih fun q hq => hw q (mem_cons_of_mem p hq)]
    rw [Nat.div_div_eq_div_mul, Lib.size, Lib.size, map_cons, prod_cons, unpack]

theorem Valid.translate_eq (h : t.Valid) (hk : t.Sequence ks) (a : Nat) :
    t.translate a = .ok (unpack t.radix ks (a / 2 ^ t.burstBits) fun _ => 0) := by
  obtain ⟨hlow, hle⟩ := h.lowColBits
  have hoffset : t.busOffsetBits < 64 := mlog2_lt _
  have hburst : t.burstBits < 64 := mlog2_lt _
  have hdiv : a / 2 ^ t.busOffsetBits / 2 ^ (t.burstBits - t.busOffsetBits) = a / 2 ^ t.burstBits := by
    rw [Nat.div_div_eq_div_mul, ← Nat.pow_add, Nat.add_sub_cancel' hle]
  unfold translate shiftRight
  rw [hlow, bind_ok, if_pos hoffset, bind_ok, if_pos (by omega), bind_ok, hdiv, ← foldlM_map, hk.order,
    takeField_foldlM fun p _ => h.width p, bind_ok]
  rfl

theorem Valid.reverseTranslate_eq (h : t.Valid) (hk : t.Sequence ks) (fields : Fields) :
    t.reverseTranslate fields = .ok (2 ^ t.burstBits * pack t.radix ks fields % 2 ^ 64) := by
  obtain ⟨hlow, hle⟩ := h.lowColBits
  have hoffset : t.busOffsetBits < 64 := mlog2_lt _
  have hburst : t.burstBits < 64 := mlog2_lt _
  have hunit : shiftLeft 1 t.busOffsetBits = .ok (2 ^ t.busOffsetBits % 2 ^ 64) := by
    unfold shiftLeft
    rw [if_pos hoffset, one_mul]
  unfold reverseTranslate
  rw [hlow, bind_ok, hunit, bind_ok, shiftLeft_mod (by omega), bind_ok, ← Nat.pow_add, Nat.add_sub_cancel' hle,
    ← foldlM_map, hk.order]
  have hfold := addField_foldlM fields (fun p (_ : p ∈ ks) => h.width p) 0 (2 ^ t.burstBits)
  rw [zero_mod] at hfold
  rw [hfold, bind_ok, zero_add]
  rfl

/-- The address of fields that are below their widths is the one from which they are translated. -/
theorem translate_reverseTranslate (h : t.Valid) (hf : ∀ p, fields p < 2 ^ t.bitWidths p) :
    ∃ a, t.reverseTranslate fields = .ok a ∧ a < 2 ^ t.total ∧ t.translate a = .ok fields := by
  obtain ⟨ks, hk⟩ := h.sequence
  have hpos : 0 < 2 ^ t.burstBits := Nat.two_pow_pos _
  have hlt : 2 ^ t.burstBits * pack t.radix ks fields < 2 ^ t.total := by
    rw [← Valid.total_eq hk]
    exact mul_lt_mul_of_pos_left (pack_lt fun p _ => hf p) hpos
  have hword : 2 ^ t.burstBits * pack t.radix ks fields % 2 ^ 64 = 2 ^ t.burstBits * pack t.radix ks fields :=
    Nat.mod_eq_of_lt (hlt.trans_le (Nat.pow_le_pow_right Nat.two_pos h.total))
  refine ⟨2 ^ t.burstBits * pack t.radix ks fields, ?_, hlt, ?_⟩
  · rw [h.reverseTranslate_eq hk, hword]
  · rw [h.translate_eq hk, Nat.mul_div_cancel_left _ hpos]
    refine congrArg Except.ok (funext fun p => ?_)
    exact unpack_pack hk.nodup (fun p _ => hf p) (hk.mem p)

theorem translate_lt (h : t.Valid) (a : Nat) : ∃ fields, t.translate a = .ok fields ∧ ∀ p, fields p < 2 ^ t.bitWidths p := by
  obtain ⟨ks, hk⟩ := h.sequence
  exact ⟨_, h.translate_eq hk a, fun p => unpack_lt (Nat.two_pow_pos _) (hk.mem p)⟩

theorem reverseTranslate_translate (h : t.Valid) (ha : a < 2 ^ t.total) (hf : t.translate a = .ok fields) :
    t.reverseTranslate fields = .ok (a - a % 2 ^ t.burstBits) := by
  obtain ⟨ks, hk⟩ := h.sequence
  rw [h.translate_eq hk] at hf
  cases hf
  have hsize : a / 2 ^ t.burstBits < size t.radix ks := by
    rw [Nat.div_lt_iff_lt_mul (Nat.two_pow_pos _), Nat.mul_comm, Valid.total_eq hk]
    exact ha
  have hword : a - a % 2 ^ t.burstBits < 2 ^ 64 :=
    (Nat.sub_le _ _).trans_lt (ha.trans_le (Nat.pow_le_pow_right Nat.two_pos h.total))
  rw [h.reverseTranslate_eq hk, pack_unpack hk.nodup, mod_eq_of_lt hsize, mul_div_self_eq_mod_sub_self,
    mod_eq_of_lt hword]

/-- Translation and its inverse: the fields come back from their address, an address comes back from its fields up to
  the offset in the burst, each field is below its width, and addresses of different bursts have different fields. -/
theorem round_trip (h : t.Valid) : (∀ fields : Fields, (∀ p, fields p < 2 ^ t.bitWidths p) →
      ∃ a, t.reverseTranslate fields = .ok a ∧ a < 2 ^ t.total ∧ t.translate a = .ok fields) ∧
    (∀ a, ∃ fields, t.translate a = .ok fields ∧ (∀ p, fields p < 2 ^ t.bitWidths p) ∧
      (a < 2 ^ t.total → t.reverseTranslate fields = .ok (a - a % 2 ^ t.burstBits))) ∧
    ∀ a b, a < 2 ^ t.total → b < 2 ^ t.total → t.translate a = t.translate b →
      a / 2 ^ t.burstBits = b / 2 ^ t.burstBits := by
  refine ⟨fun fields hf => translate_reverseTranslate h hf, fun a => ?_, fun a b ha hb hab => ?_⟩
  · obtain ⟨fields, hf, hlt⟩ := translate_lt h a
    exact ⟨fields, hf, hlt, fun ha => reverseTranslate_translate h ha hf⟩
  · obtain ⟨fields, hf, -⟩ := translate_lt h a
    have hra := reverseTranslate_translate h ha hf
    have hrb := reverseTranslate_translate h hb (hab ▸ hf)
    have hbase : a - a % 2 ^ t.burstBits = b - b % 2 ^ t.burstBits := Except.ok.inj (hra.symm.trans hrb)
    rw [← mul_div_self_eq_mod_sub_self, ← mul_div_self_eq_mod_sub_self] at hbase
    exact Nat.eq_of_mul_eq_mul_left (Nat.two_pow_pos _) hbase

/-- The widths and the order that `TranslationMethod` starts with. -/
def initial : AddressTranslator where
  bitWidths
    | .row => 10
    | .col => 8
    | .bank => 3
    | .rank => 1
    | .channel => 1
    | .subarray => 6
  order
    | .row => 3
    | .col => 0
    | .bank => 2
    | .rank => 4
    | .channel => 5
    | .subarray => 1

theorem initial_valid : initial.Valid where
  order i hi := by
    obtain rfl | rfl | rfl | rfl | rfl | rfl : i = 0 ∨ i = 1 ∨ i = 2 ∨ i = 3 ∨ i = 4 ∨ i = 5 := by omega
    exacts [⟨.col, rfl⟩, ⟨.subarray, rfl⟩, ⟨.bank, rfl⟩, ⟨.row, rfl⟩, ⟨.rank, rfl⟩, ⟨.channel, rfl⟩]
  width p := by cases p <;> decide
  total := by decide
  busWidth := by decide
  burstLength := by decide
  int := by decide

theorem round_trip_initial :
    ∃ fields, initial.translate 305419896 = .ok fields ∧ initial.reverseTranslate fields = .ok (305419896 - 305419896 % 64) := by
  obtain ⟨fields, hf, -, hr⟩ := (round_trip initial_valid).2.1 305419896
  exact ⟨fields, hf, hr (by decide)⟩

/-- One field as wide as the word, on a bus of one byte; and a bus and a burst whose product is not an `int`. -/
def wide : AddressTranslator :=
  { initial with bitWidths := fun p => if p = .row then 64 else 0, busWidth := 8, burstLength := 1 }

def longBurst : AddressTranslator := { initial with busWidth := 2 ^ 16, burstLength := 2 ^ 15 }

theorem wide_not_translated :
    wide.total = 64 ∧ wide.translate 5 = .error .outOfRange ∧ wide.reverseTranslate (fun _ => 0) = .error .outOfRange ∧
      longBurst.total = 57 ∧ longBurst.translate 5 = .error .outOfRange :=
  ⟨by decide, rfl, by decide, by decide, rfl⟩

end AddressTranslator

end Nvm
