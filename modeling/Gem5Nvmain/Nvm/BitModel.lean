import Gem5Nvmain.Lib.MixedRadix
import Gem5Nvmain.Nvm.DataBlock
import Mathlib.Data.Finset.Card
import Mathlib.Data.List.TakeWhile
import Mathlib.Logic.Function.Basic
import Mathlib.Tactic.Ring

/- The endurance of single bits (`BitModel`, `EnduranceModel`).

  A life is drawn for a cell from the distribution the first time that the cell is changed, and is decremented each
  time after that. The table of the lives has a key of 64 bits for each cell. The values of `GetEndurance` are those
  of `draw`, one after the other; `drawn` is the number of the calls.

  A write decrements the lives of the cells that it changes, one after the other (`changedKeys`), so the table is what
  `decrementLife` makes of the list of all changes (`history`). The life that is drawn at the first change is not
  decremented by it: after `k` changes a cell has `e - (k - 1)` left of the `e` that was drawn (`life_eq`). That is
  what should be left only if `e < k`; and two cells never share a key only if all keys of the memory are numbers of
  64 bits (`accounts_iff`). -/
namespace Nvm
open Lib Function

/-- The parameters of a memory of `rows` rows. -/
structure BitGeometry where
  busWidth : Nat
  tBURST : Nat
  rate : Nat
  rows : Nat
  cols : Nat

namespace BitGeometry
variable (g : BitGeometry)

def wordSize : Nat := g.busWidth * (g.tBURST * g.rate) / 8

def rowSize : Nat := g.cols * g.wordSize

/-- `wordkey`, of the bit `j` of the byte `i` of a word. -/
def wordkey (row col i j : Nat) : Nat := (row * (g.rowSize * 8) + col * g.wordSize * 8 + i * 8 + j) % 2 ^ 64

end BitGeometry

structure BitRequest (g : BitGeometry) where
  row : Nat
  row_lt : row < g.rows
  col : Nat
  col_lt : col < g.cols
  data : NVMDataBlock
  oldData : NVMDataBlock

structure EnduranceModel where
  life : Nat → Option Nat := fun _ => none
  drawn : Nat := 0

namespace EnduranceModel
variable (draw : Nat → Nat) (m : EnduranceModel)

/-- `DecrementLife`, which returns false if there is no life left. -/
def decrementLife (addr : Nat) : EnduranceModel × Bool :=
  match m.life addr with
  | none => ({ life := update m.life addr (some (draw m.drawn)), drawn := m.drawn + 1 }, true)
  | some 0 => (m, false)
  | some (life + 1) => ({ m with life := update m.life addr (some life) }, true)

def isDead (addr : Nat) : Bool := decide (m.life addr = some 0)

end EnduranceModel

/-- The bit `j` of two bytes is different. -/
def bitDiffers (oldByte newByte : UInt8) (j : Nat) : Bool :=
  let oldBit := (oldByte >>> UInt8.ofNat j) &&& 1
  let newBit := (newByte >>> UInt8.ofNat j) &&& 1
  decide (oldBit ≠ newBit)

namespace BitModel
variable {g : BitGeometry} (draw : Nat → Nat) (m : EnduranceModel)

/-- The loop over the bits of a byte, with the value to return. -/
def writeBit (r : BitRequest g) (i : Nat) (oldByte newByte : UInt8) (t : EnduranceModel × Int) (j : Nat) :
    EnduranceModel × Int :=
  if bitDiffers oldByte newByte j then
    let d := t.1.decrementLife draw (g.wordkey r.row r.col i j)
    (d.1, if d.2 then t.2 else -1)
  else t

def writeByte (r : BitRequest g) (t : EnduranceModel × Int) (i : Nat) : Except Stop (EnduranceModel × Int) := do
  let oldByte ← r.oldData.getByte i
  let newByte ← r.data.getByte i
  if oldByte = newByte then pure t else pure ((List.range 8).foldl (writeBit draw r i oldByte newByte) t)

/-- `Write`: -1 is a hard error. -/
def write (r : BitRequest g) : Except Stop (EnduranceModel × Int) :=
  (List.range g.wordSize).foldlM (writeByte draw r) (m, 0)

/-- `Read`: -1 if a bit of the word is dead. -/
def read (g : BitGeometry) (row col : Nat) : Int :=
  if (List.range g.wordSize).any fun i => (List.range 8).any fun j => m.isDead (g.wordkey row col i j) then -1 else 0

def step (r : BitRequest g) : Except Stop EnduranceModel := do
  let t ← write draw m r
  pure t.1

end BitModel

/-! ## The accounts -/

open List Nat

namespace EnduranceModel
variable {draw : Nat → Nat} {m : EnduranceModel} {keys : List Nat} {k k' : Nat}

/-- The lives after the changes of a list of cells. -/
def afterChanges (draw : Nat → Nat) (m : EnduranceModel) (keys : List Nat) : EnduranceModel :=
  keys.foldl (fun m k => (m.decrementLife draw k).1) m

theorem afterChanges_append (l₁ l₂ : List Nat) :
    m.afterChanges draw (l₁ ++ l₂) = (m.afterChanges draw l₁).afterChanges draw l₂ := foldl_append

theorem decrementLife_other (h : k' ≠ k) : (m.decrementLife draw k).1.life k' = m.life k' := by
  unfold decrementLife
  split
  · exact update_of_ne h _ _
  · rfl
  · exact update_of_ne h _ _

theorem decrementLife_fails : (m.decrementLife draw k).2 = false ↔ m.isDead k = true := by
  unfold decrementLife isDead
  split
  next h => simp [h]
  next h => simp [h]
  next h => simp [h]

/-- The life that was drawn for a cell: as many lives were drawn before as there are other cells before its first
  change. -/
def endurance (draw : Nat → Nat) (keys : List Nat) (k : Nat) : Nat := draw (keys.takeWhile (· ≠ k)).toFinset.card

theorem endurance_append (h : k ∈ keys) (l : List Nat) : endurance draw (keys ++ l) k = endurance draw keys k := by
  have hshort : ¬ (keys.takeWhile (· ≠ k)).length = keys.length := by
    intro hlen
    have hall := takeWhile_eq_self_iff.mp ((takeWhile_sublist _).eq_of_length hlen)
    simpa using hall k h
  unfold endurance
  rw [takeWhile_append, if_neg hshort]

theorem endurance_new (h : k ∉ keys) : endurance draw (keys ++ [k]) k = draw keys.toFinset.card := by
  have hall : ∀ j ∈ keys, decide (j ≠ k) = true := by
    intro j hj
    rw [decide_eq_true_eq]
    rintro rfl
    exact h hj
  unfold endurance
  rw [takeWhile_append_of_pos hall]
  simp

theorem decrementLife_self {e n : Nat} (hlife : m.life k = some (e - (n - 1))) (hn : 0 < n) :
    (m.decrementLife draw k).1.life k = some (e - n) := by
  unfold decrementLife
  split
  next h =>
    rw [h] at hlife
    cases hlife
  next h =>
    rw [h] at hlife
    have hzero := Option.some.inj hlife
    exact h.trans (congrArg some (by omega))
  next life h =>
    rw [h] at hlife
    have hsucc := Option.some.inj hlife
    exact (update_self _ _ _).trans (congrArg some (by omega))

theorem decrementLife_drawn (h : m.life k ≠ none) : (m.decrementLife draw k).1.drawn = m.drawn := by
  unfold decrementLife
  split
  next hnone => exact absurd hnone h
  · rfl
  · rfl

/-- After any changes, each cell that was changed has what was drawn for it less the changes after the first. -/
theorem life_eq (draw : Nat → Nat) (keys : List Nat) :
    (afterChanges draw {} keys).drawn = keys.toFinset.card ∧ ∀ k, (afterChanges draw {} keys).life k =
      if k ∈ keys then some (endurance draw keys k - (keys.count k - 1)) else none := by
  induction keys using reverseRecOn with
  | nil => exact ⟨rfl, fun _ => rfl⟩
  | append_singleton keys x ih =>
    obtain ⟨hdrawn, hlife⟩ := ih
    rw [afterChanges_append]
    generalize hm : afterChanges draw {} keys = m at hdrawn hlife
    show (m.decrementLife draw x).1.drawn = _ ∧ ∀ k, (m.decrementLife draw x).1.life k = _
    have hother : ∀ k, k ≠ x → (m.decrementLife draw x).1.life k =
        if k ∈ keys ++ [x] then some (endurance draw (keys ++ [x]) k - ((keys ++ [x]).count k - 1)) else none := by
      intro k hk
      have hcount : (keys ++ [x]).count k = keys.count k := by
        simp [hk.symm]
      have hmem : k ∈ keys ++ [x] ↔ k ∈ keys := by simp [hk]
      rw [decrementLife_other hk, hlife]
      by_cases hin : k ∈ keys
      · rw [if_pos hin, if_pos (hmem.mpr hin), hcount, endurance_append hin]
      · rw [if_neg hin, if_neg (mt hmem.mp hin)]
    have hself : x ∈ keys ++ [x] := mem_append_right _ mem_cons_self
    have hcount : (keys ++ [x]).count x = keys.count x + 1 := by
      rw [count_append, count_singleton_self]
    by_cases hin : x ∈ keys
    · have hpos : 0 < keys.count x := count_pos_iff.mpr hin
      have hx := hlife x
      rw [if_pos hin] at hx
      refine ⟨?_, fun k => ?_⟩
      · rw [decrementLife_drawn (by rw [hx]; exact Option.some_ne_none _), hdrawn, toFinset_append]
        simp [hin]
      · obtain rfl | hk := eq_or_ne k x
        · rw [if_pos hself, hcount, endurance_append hin, decrementLife_self hx hpos]
          rfl
        · exact hother k hk
    · have hzero : keys.count x = 0 := count_eq_zero.mpr hin
      have hx := hlife x
      rw [if_neg hin] at hx
      have hnew : m.decrementLife draw x = ({ life := update m.life x (some (draw m.drawn)), drawn := m.drawn + 1 }, true) := by
        unfold decrementLife
        rw [hx]
      refine ⟨?_, fun k => ?_⟩
      · rw [hnew, toFinset_append, hdrawn]
        have hcard := Finset.card_insert_of_notMem (s := keys.toFinset) (by simpa using hin)
        have hset : insert x keys.toFinset = keys.toFinset ∪ [x].toFinset := by
          simp
        exact hcard.symm.trans (congrArg Finset.card hset)
      · obtain rfl | hk := eq_or_ne k x
        · rw [if_pos hself, hcount, hzero, endurance_new hin, hnew, ← hdrawn]
          exact update_self _ _ _
        · exact hother k hk

end EnduranceModel

/-! ## Cells -/

namespace BitGeometry
variable {g : BitGeometry}

structure Cell (g : BitGeometry) where
  row : Nat
  col : Nat
  i : Nat
  j : Nat
  row_lt : row < g.rows
  col_lt : col < g.cols
  i_lt : i < g.wordSize
  j_lt : j < 8

/-- The number of the cells. -/
def cells (g : BitGeometry) : Nat := g.rows * (g.cols * (g.wordSize * 8))

def Cell.key (a : Cell g) : Nat := g.wordkey a.row a.col a.i a.j

/-- The cells before the cell. -/
def Cell.number (a : Cell g) : Nat := a.j + 8 * (a.i + g.wordSize * (a.col + g.cols * a.row))

theorem Cell.key_eq (a : Cell g) : a.key = a.number % 2 ^ 64 := by
  unfold key wordkey rowSize number
  congr 1
  ring

theorem Cell.number_inj {a b : Cell g} (h : a.number = b.number) : a = b := by
  obtain ⟨hj, h⟩ := digit_inj a.j_lt b.j_lt h
  obtain ⟨hi, h⟩ := digit_inj a.i_lt b.i_lt h
  obtain ⟨hcol, hrow⟩ := digit_inj a.col_lt b.col_lt h
  cases a
  cases hj
  cases hi
  cases hcol
  cases hrow
  rfl

theorem digit_lt {a b n k : Nat} (ha : a < n) (hb : b < k) : a + n * b < k * n := by
  calc
    a + n * b < n + n * b := Nat.add_lt_add_right ha _
    _ = (b + 1) * n := by ring
    _ ≤ k * n := mul_le_mul_right n hb

theorem Cell.number_lt (a : Cell g) : a.number < g.cells := by
  have hrow := digit_lt a.col_lt a.row_lt
  have hcol := digit_lt a.i_lt hrow
  have hbit := digit_lt a.j_lt hcol
  unfold cells
  exact hbit.trans_eq (by ring)

/-- The cell of a number. -/
def cellAt (g : BitGeometry) (n : Nat) (h : n < g.cells) : Cell g where
  row := n / (g.cols * (g.wordSize * 8))
  col := n / (g.wordSize * 8) % g.cols
  i := n / 8 % g.wordSize
  j := n % 8
  row_lt := Nat.div_lt_of_lt_mul (by rw [Nat.mul_comm]; exact h)
  col_lt := by
    refine mod_lt _ (pos_of_ne_zero fun hzero => ?_)
    rw [cells, hzero, zero_mul, mul_zero] at h
    exact not_lt_zero n h
  i_lt := by
    refine mod_lt _ (pos_of_ne_zero fun hzero => ?_)
    rw [cells, hzero, zero_mul, mul_zero, mul_zero] at h
    exact not_lt_zero n h
  j_lt := mod_lt n (by decide)

theorem number_cellAt (n : Nat) (h : n < g.cells) : (g.cellAt n h).number = n := by
  show n % 8 + 8 * (n / 8 % g.wordSize + g.wordSize * (n / (g.wordSize * 8) % g.cols + g.cols * (n / (g.cols * (g.wordSize * 8))))) = n
  have hcols : n / (g.cols * (g.wordSize * 8)) = n / (g.wordSize * 8) / g.cols := by
    rw [Nat.mul_comm g.cols, ← Nat.div_div_eq_div_mul]
  have hword : n / (g.wordSize * 8) = n / 8 / g.wordSize := by rw [Nat.mul_comm, ← Nat.div_div_eq_div_mul]
  rw [hcols, mod_add_div, hword, mod_add_div, mod_add_div]

theorem keys_distinct_iff : (∀ a b : Cell g, a ≠ b → a.key ≠ b.key) ↔ g.cells ≤ 2 ^ 64 := by
  constructor
  · intro hdistinct
    by_contra hmany
    have hzero : 0 < g.cells := by omega
    have hlast : 2 ^ 64 < g.cells := by omega
    refine hdistinct (g.cellAt 0 hzero) (g.cellAt (2 ^ 64) hlast) (fun heq => ?_) ?_
    · have hnumber := congrArg Cell.number heq
      rw [number_cellAt, number_cellAt] at hnumber
      omega
    · rw [Cell.key_eq, Cell.key_eq, number_cellAt, number_cellAt]
      rfl
  · intro hcells a b hne hkey
    rw [Cell.key_eq, Cell.key_eq, mod_eq_of_lt (a.number_lt.trans_le hcells),
      mod_eq_of_lt (b.number_lt.trans_le hcells)] at hkey
    exact hne (Cell.number_inj hkey)

end BitGeometry

/-! ## Writes -/

namespace BitModel
open BitGeometry EnduranceModel
variable {g : BitGeometry} {draw : Nat → Nat} {m m' : EnduranceModel} {r : BitRequest g} {rs : List (BitRequest g)}
  {a : Cell g} {rv : Int}

/-- What is read of a byte. -/
def byteAt (d : NVMDataBlock) (i : Nat) : UInt8 :=
  match d.getByte i with
  | .ok byte => byte
  | .error _ => 0

/-- The request changes the bit `j` of the byte `i`. -/
def flips (r : BitRequest g) (i j : Nat) : Bool := bitDiffers (byteAt r.oldData i) (byteAt r.data i) j

/-- The request changes the cell. -/
def changes (a : Cell g) (r : BitRequest g) : Bool := decide (r.row = a.row ∧ r.col = a.col) && flips r a.i a.j

/-- The keys of the cells of the byte that the request changes. -/
def byteKeys (r : BitRequest g) (i : Nat) : List Nat :=
  ((range 8).filter (flips r i)).map (g.wordkey r.row r.col i)

def changedKeys (r : BitRequest g) : List Nat := (range g.wordSize).flatMap (byteKeys r)

/-- One change and the value to return. -/
def change (draw : Nat → Nat) (t : EnduranceModel × Int) (k : Nat) : EnduranceModel × Int :=
  let d := t.1.decrementLife draw k
  (d.1, if d.2 then t.2 else -1)

theorem writeBits_eq (r : BitRequest g) (i : Nat) (t : EnduranceModel × Int) (js : List Nat) :
    js.foldl (writeBit draw r i (byteAt r.oldData i) (byteAt r.data i)) t =
      ((js.filter (flips r i)).map (g.wordkey r.row r.col i)).foldl (change draw) t := by
  induction js generalizing t with
  | nil => rfl
  | cons j js ih =>
    rw [foldl_cons, ih]
    unfold writeBit
    by_cases hflip : flips r i j = true
    · rw [filter_cons_of_pos hflip, map_cons, foldl_cons]
      rw [if_pos (show bitDiffers _ _ j = true from hflip)]
      rfl
    · rw [filter_cons_of_neg hflip, if_neg (show ¬ bitDiffers _ _ j = true from hflip)]

theorem bitDiffers_self (b : UInt8) (j : Nat) : bitDiffers b b j = false := by simp [bitDiffers]

theorem writeByte_eq {t t' : EnduranceModel × Int} {i : Nat} (h : writeByte draw r t i = .ok t') :
    t' = (byteKeys r i).foldl (change draw) t := by
  obtain ⟨oldByte, hold, h⟩ := of_bind h
  obtain ⟨newByte, hnew, h⟩ := of_bind h
  have hold : byteAt r.oldData i = oldByte := by rw [byteAt, hold]
  have hnew : byteAt r.data i = newByte := by rw [byteAt, hnew]
  subst hold
  subst hnew
  unfold byteKeys
  split at h
  next heq =>
    -- The bytes are equal: no bit of them differs.
    cases h
    have hnone : (range 8).filter (flips r i) = [] := by
      rw [filter_eq_nil_iff]
      intro j _
      rw [flips, heq, bitDiffers_self]
      decide
    rw [hnone]
    rfl
  · cases h
    exact writeBits_eq r i t _

theorem writeBytes_eq {t t' : EnduranceModel × Int} {is : List Nat} (h : is.foldlM (writeByte draw r) t = .ok t') :
    t' = (is.flatMap (byteKeys r)).foldl (change draw) t := by
  induction is generalizing t with
  | nil =>
    cases h
    rfl
  | cons i is ih =>
    obtain ⟨u, hu, h⟩ := of_bind h
    rw [flatMap_cons, foldl_append, ← writeByte_eq hu]
    exact ih h

theorem write_eq (h : write draw m r = .ok (m', rv)) : (m', rv) = (changedKeys r).foldl (change draw) (m, 0) :=
  writeBytes_eq h

theorem foldl_change_fst (keys : List Nat) (t : EnduranceModel × Int) :
    (keys.foldl (change draw) t).1 = t.1.afterChanges draw keys := by
  induction keys generalizing t with
  | nil => rfl
  | cons k keys ih => exact ih _

/-- A hard error is reported exactly if a cell is dead. -/
theorem foldl_change_snd {keys : List Nat} (hnd : keys.Nodup) (t : EnduranceModel × Int) :
    (keys.foldl (change draw) t).2 = if ∃ k ∈ keys, t.1.isDead k = true then -1 else t.2 := by
  induction keys generalizing t with
  | nil => simp
  | cons k keys ih =>
    obtain ⟨hk, hnd⟩ := nodup_cons.mp hnd
    rw [foldl_cons, ih hnd]
    have hsame : (∃ k' ∈ keys, (change draw t k).1.isDead k' = true) ↔ ∃ k' ∈ keys, t.1.isDead k' = true := by
      refine exists_congr fun k' => and_congr_right fun hk' => ?_
      have hne : k' ≠ k := fun heq => hk (heq ▸ hk')
      unfold isDead
      rw [show (change draw t k).1.life k' = t.1.life k' from decrementLife_other hne]
    have hcons : (∃ k' ∈ k :: keys, t.1.isDead k' = true) ↔ t.1.isDead k = true ∨ ∃ k' ∈ keys, t.1.isDead k' = true := by
      simp only [mem_cons, exists_eq_or_imp]
    simp only [hsame, hcons]
    by_cases hrest : ∃ k' ∈ keys, t.1.isDead k' = true
    · rw [if_pos hrest, if_pos (.inr hrest)]
    · rw [if_neg hrest]
      cases hfail : (t.1.decrementLife draw k).2 with
      | false =>
        rw [if_pos (.inl (decrementLife_fails.mp hfail))]
        simp [change, hfail]
      | true =>
        have halive : ¬ t.1.isDead k = true := by
          rw [← decrementLife_fails, hfail]
          decide
        rw [if_neg (not_or.mpr ⟨halive, hrest⟩)]
        simp [change, hfail]

/-! ## The keys of a request -/

theorem key_inj (hcells : g.cells ≤ 2 ^ 64) {a b : Cell g} (h : a.key = b.key) : a = b := by
  by_contra hne
  exact keys_distinct_iff.mpr hcells a b hne h

/-- The cells of the word of a request. -/
def cellOf (r : BitRequest g) (i j : Nat) (hi : i < g.wordSize) (hj : j < 8) : Cell g :=
  ⟨r.row, r.col, i, j, r.row_lt, r.col_lt, hi, hj⟩

theorem mem_byteKeys {i k : Nat} : k ∈ byteKeys r i ↔ ∃ j, j < 8 ∧ flips r i j = true ∧ g.wordkey r.row r.col i j = k := by
  simp only [byteKeys, mem_map, mem_filter, mem_range, and_assoc]

theorem mem_changedKeys {k : Nat} : k ∈ changedKeys r ↔
    ∃ i, i < g.wordSize ∧ ∃ j, j < 8 ∧ flips r i j = true ∧ g.wordkey r.row r.col i j = k := by
  simp only [changedKeys, mem_flatMap, mem_range, mem_byteKeys]

theorem nodup_changedKeys (hcells : g.cells ≤ 2 ^ 64) : (changedKeys r).Nodup := by
  refine nodup_flatMap.mpr ⟨fun i hi => ?_, ?_⟩
  · refine List.Nodup.map_on (fun j hj j' hj' heq => ?_) (nodup_range.filter _)
    have hi := mem_range.mp hi
    have hj := mem_range.mp (mem_filter.mp hj).1
    have hj' := mem_range.mp (mem_filter.mp hj').1
    exact congrArg Cell.j (key_inj hcells (a := cellOf r i j hi hj) (b := cellOf r i j' hi hj') heq)
  · refine nodup_range.pairwise_of_forall_ne fun i hi i' hi' hne => ?_
    have hi := mem_range.mp hi
    have hi' := mem_range.mp hi'
    intro k hk hk'
    obtain ⟨j, hj, -, hkey⟩ := mem_byteKeys.mp hk
    obtain ⟨j', hj', -, hkey'⟩ := mem_byteKeys.mp hk'
    exact hne (congrArg Cell.i (key_inj hcells (a := cellOf r i j hi hj) (b := cellOf r i' j' hi' hj') (hkey.trans hkey'.symm)))

theorem key_mem_changedKeys (hcells : g.cells ≤ 2 ^ 64) : a.key ∈ changedKeys r ↔ changes a r = true := by
  rw [mem_changedKeys]
  unfold changes
  rw [Bool.and_eq_true, decide_eq_true_eq]
  constructor
  · rintro ⟨i, hi, j, hj, hflip, hkey⟩
    obtain rfl := key_inj hcells (a := cellOf r i j hi hj) hkey
    exact ⟨⟨rfl, rfl⟩, hflip⟩
  · rintro ⟨⟨hrow, hcol⟩, hflip⟩
    exact ⟨a.i, a.i_lt, a.j, a.j_lt, hflip, by rw [hrow, hcol]; rfl⟩

/-! ## Runs -/

/-- All changes of a run. -/
def history (rs : List (BitRequest g)) : List Nat := rs.flatMap changedKeys

/-- How many times the cell was changed. -/
def changeCount (rs : List (BitRequest g)) (a : Cell g) : Nat := rs.countP (changes a)

/-- The life that was drawn for the cell. -/
def drawnEndurance (draw : Nat → Nat) (rs : List (BitRequest g)) (a : Cell g) : Nat := endurance draw (history rs) a.key

theorem count_history (hcells : g.cells ≤ 2 ^ 64) (rs : List (BitRequest g)) (a : Cell g) :
    (history rs).count a.key = changeCount rs a := by
  induction rs with
  | nil => rfl
  | cons r rs ih =>
    have hword : (changedKeys r).count a.key = if changes a r = true then 1 else 0 := by
      split
      next hchange => exact count_eq_one_of_mem (nodup_changedKeys hcells) ((key_mem_changedKeys hcells).mpr hchange)
      next hchange => exact count_eq_zero.mpr (mt (key_mem_changedKeys hcells).mp hchange)
    calc
      (history (r :: rs)).count a.key = (changedKeys r).count a.key + (history rs).count a.key := count_append
      _ = (if changes a r = true then 1 else 0) + changeCount rs a := by rw [hword, ih]
      _ = changeCount (r :: rs) a := by rw [changeCount, changeCount, countP_cons, add_comm]

theorem step_eq (h : step draw m r = .ok m') : m' = m.afterChanges draw (changedKeys r) := by
  obtain ⟨⟨m₁, rv⟩, hwrite, h⟩ := of_bind h
  cases h
  exact (congrArg Prod.fst (write_eq hwrite)).trans (foldl_change_fst _ _)

theorem afterChanges_history (hr : Exec (StepOf (step draw)) {} rs m) : m = afterChanges draw {} (history rs) := by
  refine hr.history_invariant (P := fun rs m => m = afterChanges draw {} (history rs)) rfl fun rs m r m' hm hs => ?_
  rw [history, flatMap_append, afterChanges_append, ← history, ← hm, step_eq hs, flatMap_singleton]

/-- The accounts are right: the keys are distinct, a cell has `e - k` of its life `e` after `k` changes, it is dead
  when `k` has come to `e`, and a write that changes a dead cell is a hard error. -/
structure Accounts (draw : Nat → Nat) (rs : List (BitRequest g)) (m : EnduranceModel) : Prop where
  distinct : ∀ a b : Cell g, a ≠ b → a.key ≠ b.key
  life : ∀ a : Cell g, 0 < changeCount rs a → m.life a.key = some (drawnEndurance draw rs a - changeCount rs a)
  dead : ∀ a : Cell g, 0 < changeCount rs a → (m.isDead a.key = true ↔ drawnEndurance draw rs a ≤ changeCount rs a)
  hardError : ∀ (r : BitRequest g) m' rv, write draw m r = .ok (m', rv) →
    (rv = -1 ↔ ∃ a : Cell g, changes a r = true ∧ m.isDead a.key = true)

theorem life_of_run (hcells : g.cells ≤ 2 ^ 64) (hr : Exec (StepOf (step draw)) {} rs m) (a : Cell g)
    (hk : 0 < changeCount rs a) : m.life a.key = some (drawnEndurance draw rs a - (changeCount rs a - 1)) := by
  have hcount := count_history hcells rs a
  have hmem : a.key ∈ history rs := count_pos_iff.mp (by rw [hcount]; exact hk)
  rw [afterChanges_history hr, (life_eq draw (history rs)).2 a.key, if_pos hmem, hcount]
  rfl

/-- A hard error is reported exactly when a dead cell is changed. -/
theorem hardError_iff (hcells : g.cells ≤ 2 ^ 64) (h : write draw m r = .ok (m', rv)) :
    rv = -1 ↔ ∃ a : Cell g, changes a r = true ∧ m.isDead a.key = true := by
  have hrv : rv = if ∃ k ∈ changedKeys r, m.isDead k = true then -1 else 0 :=
    (congrArg Prod.snd (write_eq h)).trans (foldl_change_snd (nodup_changedKeys hcells) (m, 0))
  have hcell : (∃ k ∈ changedKeys r, m.isDead k = true) ↔ ∃ a : Cell g, changes a r = true ∧ m.isDead a.key = true := by
    constructor
    · rintro ⟨k, hk, hdead⟩
      obtain ⟨i, hi, j, hj, -, hkey⟩ := mem_changedKeys.mp hk
      have hcellKey : (cellOf r i j hi hj).key = k := hkey
      exact ⟨cellOf r i j hi hj, (key_mem_changedKeys hcells).mp (hcellKey ▸ hk), hcellKey ▸ hdead⟩
    · rintro ⟨a, hchange, hdead⟩
      exact ⟨a.key, (key_mem_changedKeys hcells).mpr hchange, hdead⟩
  rw [hrv, ← hcell]
  split
  next h => simp [h]
  next h => simp [h]

/-- In the state that a run leads to the accounts are right exactly if all keys of the memory are numbers of 64 bits
  and every cell that was changed has been changed more often than the life that was drawn for it. -/
theorem accounts_iff (hr : Exec (StepOf (step draw)) {} rs m) : Accounts (g := g) draw rs m ↔
    g.cells ≤ 2 ^ 64 ∧ ∀ a : Cell g, 0 < changeCount rs a → drawnEndurance draw rs a < changeCount rs a := by
  constructor
  · intro h
    have hcells := keys_distinct_iff.mp h.distinct
    refine ⟨hcells, fun a hk => ?_⟩
    have hlife := (life_of_run hcells hr a hk).symm.trans (h.life a hk)
    have heq := Option.some.inj hlife
    omega
  · rintro ⟨hcells, hworn⟩
    refine ⟨keys_distinct_iff.mpr hcells, fun a hk => ?_, fun a hk => ?_, fun r m' rv h => hardError_iff hcells h⟩
    · have hlt := hworn a hk
      rw [life_of_run hcells hr a hk]
      exact congrArg some (by omega)
    · have hlt := hworn a hk
      unfold isDead
      rw [decide_eq_true_eq, life_of_run hcells hr a hk, Option.some.injEq]
      omega

/-! ## A memory of one byte -/

def oneByte : BitGeometry where
  busWidth := 8
  tBURST := 1
  rate := 1
  rows := 1
  cols := 1

/-- The lowest bit is changed. -/
def lowBit : BitRequest oneByte where
  row := 0
  row_lt := by decide
  col := 0
  col_lt := by decide
  data := ⟨[1], true⟩
  oldData := ⟨[0], true⟩

theorem accounts_worn : ∃ m, Exec (StepOf (step (g := oneByte) fun _ => 0)) {} [lowBit] m ∧
    Accounts (g := oneByte) (fun _ => 0) [lowBit] m := by
  refine Exec.ends_with (p := fun _ => true) (by decide) fun m hm _ => ?_
  exact (accounts_iff hm).mpr ⟨by decide, fun a hk => hk⟩

/-- A life of 5 is drawn for a bit that is changed once, and all 5 are left. -/
theorem first_change_free : ∃ m, Exec (StepOf (step (g := oneByte) fun _ => 5)) {} [lowBit] m ∧
    ¬ Accounts (g := oneByte) (fun _ => 5) [lowBit] m := by
  refine Exec.ends_with (p := fun m => decide (m.life 0 = some 5)) (by decide) fun m hm hlife => ?_
  refine fun h => ?_
  have hcell := h.life ⟨0, 0, 0, 0, by decide, by decide, by decide, by decide⟩ (by decide)
  have hzero : m.life 0 = some 5 := of_decide_eq_true hlife
  rw [show (Cell.key ⟨0, 0, 0, 0, by decide, by decide, by decide, by decide⟩) = 0 from rfl, hzero] at hcell
  revert hcell
  decide

end BitModel

end Nvm
