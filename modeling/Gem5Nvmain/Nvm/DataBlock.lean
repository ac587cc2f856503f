import Gem5Nvmain.Lib.Exec

/- The data of a request (`NVMDataBlock`).

  A block that has not been given a size has no bytes and is not valid. `getByte` and `setByte` let the byte after the
  last one through, which is outside the array. A block `Holds` a word when it is valid and has a byte for each byte
  of the word.

  `DataArray` is the same block with the array as it was allocated. `operator=` copies into the array that is there,
  which may be shorter than the data or longer. -/
namespace Nvm
open Lib Function

structure NVMDataBlock where
  rawData : List UInt8 := []
  isValid : Bool := false
  deriving DecidableEq, Repr

namespace NVMDataBlock
variable (d : NVMDataBlock)

def size : Nat := d.rawData.length

def getByte (byte : Nat) : Except Stop UInt8 :=
  if d.isValid && decide (byte ≤ d.size) then index d.rawData byte else .ok 0

def setByte (byte : Nat) (value : UInt8) : Except Stop NVMDataBlock :=
  if byte ≤ d.size then
    if byte < d.size then .ok { d with rawData := d.rawData.set byte value } else .error .outOfRange
  else .error .assertFailed

/-- The block is valid and has at least `n` bytes. -/
def Holds (n : Nat) : Prop := d.isValid = true ∧ n ≤ d.size

instance (n : Nat) : Decidable (d.Holds n) := inferInstanceAs (Decidable (_ ∧ _))

variable {d} {n i : Nat} {value : UInt8}

theorem Holds.getByte (h : d.Holds n) (hi : i < n) : d.getByte i = .ok (d.rawData[i]?.getD 0) := by
  have hlt : i < d.rawData.length := Nat.lt_of_lt_of_le hi h.2
  have hget : d.getByte i = index d.rawData i := by
    unfold NVMDataBlock.getByte
    rw [h.1, Bool.true_and]
    exact if_pos (decide_eq_true (Nat.le_of_lt hlt))
  rw [hget, index_eq_ok, List.getElem?_eq_getElem hlt]
  rfl

theorem Holds.setByte (h : d.Holds n) (hi : i < n) (value : UInt8) :
    d.setByte i value = .ok { d with rawData := d.rawData.set i value } := by
  have hlt : i < d.size := Nat.lt_of_lt_of_le hi h.2
  unfold NVMDataBlock.setByte
  rw [if_pos (Nat.le_of_lt hlt), if_pos hlt]

theorem Holds.of_length {d' : NVMDataBlock} (h : d.Holds n) (hv : d'.isValid = d.isValid)
    (hl : d'.rawData.length = d.rawData.length) : d'.Holds n :=
  ⟨hv.trans h.1, Nat.le_trans h.2 (Nat.le_of_eq hl.symm)⟩

end NVMDataBlock

/-! ## Arrays -/

/-- A block whose array can have another length than `size`. -/
structure DataArray where
  rawData : Option (List UInt8) := none
  size : Nat := 0
  isValid : Bool := false

namespace DataArray
variable (d m : DataArray)

/-- The bytes that were allocated. -/
def cells : List UInt8 := d.rawData.getD []

/-- `SetSize`: `fresh` is what the new array holds. -/
def setSize (fresh : List UInt8) : Except Stop DataArray := do
  require d.rawData.isNone
  return ⟨some fresh, fresh.length, true⟩

def getByte (byte : Nat) : Except Stop UInt8 := if d.isValid && decide (byte ≤ d.size) then index d.cells byte else .ok 0

def setByte (byte : Nat) (value : UInt8) : Except Stop DataArray :=
  if byte ≤ d.size then
    if byte < d.cells.length then .ok { d with rawData := some (d.cells.set byte value) } else .error .outOfRange
  else .error .assertFailed

/-- `operator=`. Of a new array, all bytes are written. -/
def assign : Except Stop DataArray :=
  match m.rawData with
  | none => .ok { d with size := m.size, isValid := m.isValid }
  | some source =>
    let target := d.rawData.getD (List.replicate m.size 0)
    if m.size ≤ source.length ∧ m.size ≤ target.length then
      .ok ⟨some (source.take m.size ++ target.drop m.size), m.size, m.isValid⟩
    else .error .outOfRange

/-- The bytes of the block. -/
def bytes : List UInt8 := d.cells.take d.size

inductive Op where
  | setSize (i : Nat) (fresh : List UInt8)
  | setValid (i : Nat) (valid : Bool)
  | getByte (i byte : Nat)
  | setByte (i byte : Nat) (value : UInt8)
  | assign (i j : Nat)

/-- The blocks of a program. -/
def step (s : Nat → DataArray) : Op → Except Stop (Nat → DataArray)
  | .setSize i fresh => do
    let d ← (s i).setSize fresh
    return update s i d
  | .setValid i valid => .ok (update s i { s i with isValid := valid })
  | .getByte i byte => do
    let _ ← (s i).getByte byte
    return s
  | .setByte i byte value => do
    let d ← (s i).setByte byte value
    return update s i d
  | .assign i j => do
    let d ← (s i).assign (s j)
    return update s i d

/-- No byte is behind the last one of the block. -/
def Full : Prop := d.cells.length = d.size

/-- The byte behind the last one is not asked for where there is none, and data are not put into an array that is too short. -/
def Op.Fits (s : Nat → DataArray) : Op → Prop
  | .getByte i byte => ¬ ((s i).isValid = true ∧ byte = (s i).size ∧ (s i).Full)
  | .setByte i byte _ => ¬ (byte = (s i).size ∧ (s i).Full)
  | .assign i j => (s j).rawData.isSome → ∀ target, (s i).rawData = some target → (s j).size ≤ target.length
  | _ => True

/-- What `NVMDataBlock` is of an array without such a byte. -/
def block : NVMDataBlock := ⟨d.cells, d.isValid⟩

variable {d m d' : DataArray} {s t : Nat → DataArray} {op : Op} {h : List Op}

theorem getByte_block (hd : d.Full) (byte : Nat) : d.getByte byte = d.block.getByte byte := by
  unfold getByte NVMDataBlock.getByte
  rw [← hd]
  rfl

theorem setByte_block (hd : d.Full) (byte : Nat) (value : UInt8) :
    (d.setByte byte value).map block = d.block.setByte byte value := by
  unfold setByte NVMDataBlock.setByte
  rw [← hd]
  change Except.map _ (if byte ≤ d.cells.length then _ else _) = if byte ≤ d.cells.length then _ else _
  split
  · change Except.map _ (if byte < d.cells.length then _ else _) = if byte < d.cells.length then _ else _
    split <;> rfl
  · rfl

theorem assign_spec (hm : m.size ≤ m.cells.length) (h : d.assign m = .ok d') :
    (d'.size = m.size ∧ d'.isValid = m.isValid ∧ d'.bytes = m.bytes) ∧ d'.size ≤ d'.cells.length := by
  unfold assign at h
  split at h
  next hnone =>
    have hcells : m.cells = [] := by rw [cells, hnone, Option.getD_none]
    rw [hcells] at hm
    have hzero : m.size = 0 := Nat.le_zero.mp hm
    cases h
    simp [bytes, hcells, hzero]
  next source hsource =>
    have hcells : m.cells = source := by rw [cells, hsource, Option.getD_some]
    dsimp only at h
    split at h <;> cases h
    next hle =>
      have hlen : (source.take m.size).length = m.size := List.length_take_of_le hle.1
      refine ⟨⟨rfl, rfl, ?_⟩, ?_⟩
      · rw [bytes, bytes, hcells]
        exact List.take_left' hlen
      · simp only [cells, Option.getD_some, List.length_append, hlen]
        exact Nat.le_add_right _ _

/-- No block is longer than its array. -/
def Allocated (s : Nat → DataArray) : Prop := ∀ i, (s i).size ≤ (s i).cells.length

theorem Allocated.update (hs : Allocated s) {i : Nat} (hd : d.size ≤ d.cells.length) :
    Allocated (update s i d) := by
  intro j
  obtain rfl | hne := eq_or_ne j i
  · rwa [update_self]
  · rw [update_of_ne hne]
    exact hs j

theorem Allocated.step (hs : Allocated s) (h : step s op = .ok t) : Allocated t := by
  cases op with
  | setSize i fresh =>
    obtain ⟨d, hd, h⟩ := of_bind h
    obtain ⟨_, -, hd⟩ := of_bind hd
    cases hd
    cases h
    exact hs.update (Nat.le_refl _)
  | setValid i valid =>
    cases h
    exact hs.update (hs i)
  | getByte i byte =>
    obtain ⟨_, -, h⟩ := of_bind h
    cases h
    exact hs
  | setByte i byte value =>
    obtain ⟨d, hd, h⟩ := of_bind h
    cases h
    unfold setByte at hd
    split at hd
    · split at hd <;> cases hd
      exact hs.update (Nat.le_trans (hs i) (Nat.le_of_eq List.length_set.symm))
    · cases hd
  | assign i j =>
    obtain ⟨d, hd, h⟩ := of_bind h
    cases h
    exact hs.update (assign_spec (hs j) hd).2

theorem getByte_inside (hd : d.size ≤ d.cells.length) {byte : Nat} :
    d.getByte byte ≠ .error .outOfRange ↔ ¬ (d.isValid = true ∧ byte = d.size ∧ d.Full) := by
  unfold getByte Full
  by_cases hread : d.isValid = true ∧ byte ≤ d.size
  · rw [hread.1, Bool.true_and, decide_eq_true hread.2, if_pos rfl]
    obtain hlt | hle := Nat.lt_or_ge byte d.cells.length
    · rw [index_eq_ok.mpr (List.getElem?_eq_getElem hlt)]
      exact iff_of_true nofun (by omega)
    · have hout : index d.cells byte = .error .outOfRange := by
        unfold index
        rw [List.getElem?_eq_none hle]
      rw [hout]
      exact iff_of_false (absurd rfl) (not_not_intro ⟨rfl, by omega, by omega⟩)
  · have hzero : (d.isValid && decide (byte ≤ d.size)) = false := by simpa using hread
    rw [hzero]
    exact iff_of_true nofun fun h => hread ⟨h.1, Nat.le_of_eq h.2.1⟩

theorem setByte_inside (hd : d.size ≤ d.cells.length) {byte : Nat} {value : UInt8} :
    d.setByte byte value ≠ .error .outOfRange ↔ ¬ (byte = d.size ∧ d.Full) := by
  unfold setByte Full
  split
  · split
    · exact iff_of_true nofun (by omega)
    · exact iff_of_false (absurd rfl) (by omega)
  · exact iff_of_true nofun (by omega)

theorem assign_inside (hm : m.size ≤ m.cells.length) : d.assign m ≠ .error .outOfRange ↔
      (m.rawData.isSome → ∀ target, d.rawData = some target → m.size ≤ target.length) := by
  unfold assign
  split
  next hnone =>
    rw [hnone]
    exact iff_of_true nofun nofun
  next source hsource =>
    have hcells : m.cells = source := by rw [cells, hsource, Option.getD_some]
    rw [hcells] at hm
    dsimp only
    cases d.rawData with
    | none => simp [hm]
    | some target => simp [hm, hsource]

/-- A step touches no byte outside an array exactly if it fits. -/
theorem Allocated.inside_iff (hs : Allocated s) : DataArray.step s op ≠ .error .outOfRange ↔ op.Fits s := by
  have hbind : ∀ {α : Type} {x : Except Stop α} {f : α → Nat → DataArray},
      ((x >>= fun a => pure (f a)) ≠ .error .outOfRange ↔ x ≠ .error .outOfRange) := by
    intro α x f
    cases x <;> simp
  cases op with
  | setSize i fresh =>
    refine hbind.trans (iff_of_true ?_ trivial)
    unfold setSize require
    split <;> nofun
  | setValid i valid => exact iff_of_true nofun trivial
  | getByte i byte => exact hbind.trans (getByte_inside (hs i))
  | setByte i byte value => exact hbind.trans (setByte_inside (hs i))
  | assign i j => exact hbind.trans (assign_inside (hs j))

/-- In every state of a run, the steps that touch no byte outside an array are those that fit, and a block that is
  assigned has the data of the other one. -/
theorem run_inside (hr : Exec (StepOf step) (fun _ => {}) h s) (op : Op) :
    (step s op ≠ .error .outOfRange ↔ op.Fits s) ∧
      ∀ i j t, op = .assign i j → step s op = .ok t →
        (t i).size = (s j).size ∧ (t i).isValid = (s j).isValid ∧ (t i).bytes = (s j).bytes := by
  have hs : Allocated s := hr.invariant (fun _ => Nat.le_refl _) fun _ _ _ hs => hs.step
  refine ⟨hs.inside_iff, ?_⟩
  rintro i j t rfl h
  obtain ⟨d, hd, h⟩ := of_bind h
  cases h
  rw [update_self]
  exact (assign_spec (hs j) hd).1

/-- A block that took a smaller one has a byte behind its last one. -/
theorem run_inside_spare : ∃ s, Exec (StepOf step) (fun _ => {}) [.setSize 0 [0], .setSize 1 [0, 0], .assign 1 0] s ∧
    step s (.setByte 1 1 7) ≠ .error .outOfRange := by
  have hr : Exec (StepOf step) (fun _ => {}) [.setSize 0 [0], .setSize 1 [0, 0], .assign 1 0] _ := Exec.of_run rfl
  exact ⟨_, hr, (run_inside hr _).1.mpr fun h => nomatch h.2⟩

theorem outside_array : ∃ s, Exec (StepOf step) (fun _ => {}) [.setSize 0 [0], .setSize 1 [0, 0]] s ∧
    step s (.assign 0 1) = .error .outOfRange ∧ step s (.setByte 0 1 7) = .error .outOfRange ∧
    step s (.getByte 0 1) = .error .outOfRange :=
  ⟨_, Exec.of_run rfl, rfl, rfl, rfl⟩

end DataArray

end Nvm
