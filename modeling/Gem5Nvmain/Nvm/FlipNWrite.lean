import Gem5Nvmain.Nvm.DataBlock
import Mathlib.Logic.Function.Basic

/- Flip-N-Write (`FlipNWrite`).

  A word is cut into partitions of `fpSize` bits. A write that would change more than half of the bits of a partition
  stores the partition inverted, and the set of flipped addresses remembers which partitions are. `invertData` inverts
  the bits of a byte and turns their order round.

  An address of the set is a number of 64 bits made of the row, the column and the partition. The word is far smaller
  than an `int`, so the counts and the positions in it are natural numbers. The counters of `modifyCount` are as many
  as the partitions, as `fpSize` divides the word. The statistics are left out. -/
namespace Nvm
open Lib Function

/-- The parameters; `fpSize` is `FlipNWriteGranularity`. -/
structure FlipConfig where
  busWidth : Nat
  tBURST : Nat
  rate : Nat
  cols : Nat
  fpSize : Nat
  fpSize_pos : 0 < fpSize
  byte_dvd : 8 ∣ fpSize
  fpSize_dvd : fpSize ∣ busWidth * (tBURST * rate)
  word_lt : busWidth * (tBURST * rate) < 2 ^ 64

namespace FlipConfig
variable (c : FlipConfig)

/-- The bytes of a word. -/
def wordSize : Nat := c.busWidth * (c.tBURST * c.rate) / 8

def flipPartitions : Nat := c.wordSize * 8 / c.fpSize

def rowPartitions : Nat := c.cols * c.wordSize * 8 / c.fpSize

/-- `curAddr`. -/
def curAddr (row col i : Nat) : Nat := (row * c.rowPartitions + col * c.flipPartitions + i) % 2 ^ 64

end FlipConfig

/-- A write request to a column of the row, with the data of a word. -/
structure FlipRequest (c : FlipConfig) where
  row : Nat
  row_lt : row < 2 ^ 64
  col : Nat
  col_lt : col < c.cols
  data : NVMDataBlock
  oldData : NVMDataBlock
  data_holds : data.Holds c.wordSize
  oldData_holds : oldData.Holds c.wordSize

/-- The loop over the bits of the byte `i`, with the byte that is shifted and the new one. -/
def invertBit (startBit endBit i : Nat) (bytes : UInt8 × UInt8) (j : Nat) : UInt8 × UInt8 :=
  let currentBit := i * 8 + j
  let shiftByte := bytes.1
  let newByte := bytes.2
  if currentBit < startBit ∨ endBit ≤ currentBit then (shiftByte >>> 1, newByte)
  else (shiftByte >>> 1, if shiftByte &&& 1 = 0 then newByte ||| (1 <<< UInt8.ofNat (7 - j)) else newByte)

def invertByte (startBit endBit i : Nat) (originalByte : UInt8) : UInt8 :=
  ((List.range 8).foldl (invertBit startBit endBit i) (originalByte, 0)).2

def invertByteAt (startBit endBit : Nat) (data : NVMDataBlock) (i : Nat) : Except Stop NVMDataBlock := do
  let originalByte ← data.getByte i
  data.setByte i (invertByte startBit endBit i originalByte)

def invertData (data : NVMDataBlock) (startBit endBit : Nat) : Except Stop NVMDataBlock :=
  let startByte := startBit / 8
  let endByte := (endBit - 1) / 8
  (List.range' startByte (endByte + 1 - startByte)).foldlM (invertByteAt startBit endBit) data

/-- `flippedAddresses`. -/
structure FlipNWrite where
  flippedAddresses : Nat → Bool := fun _ => false

namespace FlipNWrite
variable (c : FlipConfig) (s : FlipNWrite)

/-- The partition `i` of the word, inverted if it is flipped. -/
def unflipPartition (row col : Nat) (data : NVMDataBlock) (i : Nat) : Except Stop NVMDataBlock :=
  if s.flippedAddresses (c.curAddr row col i) then invertData data (i * c.fpSize) ((i + 1) * c.fpSize) else .ok data

/-- The data with every flipped partition of the word inverted. -/
def unflip (row col : Nat) (data : NVMDataBlock) : Except Stop NVMDataBlock :=
  (List.range c.flipPartitions).foldlM (s.unflipPartition c row col) data

/-- The bits in which two bytes differ. -/
def countBit (fpSize currentBit : Nat) (oldByte newByte : UInt8) (modifyCount : Nat → Nat) (j : Nat) : Nat → Nat :=
  let oldBit := (oldByte >>> UInt8.ofNat j) &&& 1
  let newBit := (newByte >>> UInt8.ofNat j) &&& 1
  let partition := (currentBit + j) / fpSize
  if oldBit ≠ newBit then update modifyCount partition (modifyCount partition + 1) else modifyCount

/-- The loop over the bytes; `currentBit` is the number of bits looked at. -/
def countByte (oldData newData : NVMDataBlock) (counts : Nat × (Nat → Nat)) (i : Nat) : Except Stop (Nat × (Nat → Nat)) := do
  let currentBit := counts.1
  let modifyCount := counts.2
  let oldByte ← oldData.getByte i
  let newByte ← newData.getByte i
  if oldByte = newByte then pure (currentBit + 8, modifyCount)
  else pure (currentBit + 8, (List.range 8).foldl (countBit c.fpSize currentBit oldByte newByte) modifyCount)

/-- A partition is inverted if more than half of its bits are modified. -/
def flipPartition (row col : Nat) (modifyCount : Nat → Nat) (t : FlipNWrite × NVMDataBlock) (i : Nat) :
    Except Stop (FlipNWrite × NVMDataBlock) :=
  let curAddr := c.curAddr row col i
  if modifyCount i > c.fpSize / 2 then do
    let newData ← invertData t.2 (i * c.fpSize) ((i + 1) * c.fpSize)
    pure (⟨update t.1.flippedAddresses curAddr true⟩, newData)
  else .ok (⟨update t.1.flippedAddresses curAddr false⟩, t.2)

/-- `Write`, with the data that the request carries afterwards. -/
def write (r : FlipRequest c) : Except Stop (FlipNWrite × NVMDataBlock) := do
  let oldData ← s.unflip c r.row r.col r.oldData
  let counts ← (List.range c.wordSize).foldlM (countByte c oldData r.data) (0, fun _ => 0)
  (List.range c.flipPartitions).foldlM (flipPartition c r.row r.col counts.2) (s, r.data)

end FlipNWrite

end Nvm
