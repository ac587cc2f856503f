import Gem5Nvmain.Lib.Exec

/- How long a sub-array takes to write its cells (SubArray::WriteCellData1, SubArray::WriteCellData2 and the counts
  they use, nvmain-test/src/SubArray.cpp).

  With two bits a cell the data decides: the cells that take 00, 01, 10 and 11 are counted, and the write takes one
  pulse or, when there is an intermediate value, a number of pulses that is drawn from a normal distribution. The draw
  is an argument here. The two functions differ in one early return, so they are one definition.

  | here | in the source |
  | `CellWrite.delay` | the value returned |
  | `CellWrite.starts` | `writeIterationStarts`, in increasing order |
  | `draw` | `norm.GetEndurance( )` |
  | `energyCurrent` | `EnergyModel == "current"` |

  Left out: the energies and the histogram `mlcTimingMap` with `worstCaseWrite`, which only statistics read. -/
namespace Nvm
open Lib

/-! ## Counting cells -/

def count32MLC1 (data : BitVec 32) : BitVec 64 :=
  let count := data - ((data >>> 1) &&& 0x55555555#32)
  let count := (count &&& 0x33333333#32) + ((count >>> 2) &&& 0x33333333#32)
  let count := (((count + (count >>> 4)) &&& 0x0f0f0f0f#32) * 0x01010101#32) >>> 24
  count.setWidth 64

def count32MLC2 (value : BitVec 8) (data : BitVec 32) : Except Stop (BitVec 64) := do
  -- the pattern that is looked for becomes 11
  let data :=
    if value = 0 then data ^^^ 0xFFFFFFFF#32
    else if value = 1 then data ^^^ 0xAAAAAAAA#32
    else if value = 2 then data ^^^ 0x55555555#32
    else data
  require (decide (value < 4))
  pure (count32MLC1 ((data &&& 0x55555555#32) &&& ((data &&& 0xAAAAAAAA#32) >>> 1)))

/-- The loop over the first words of the data. -/
def countBitsMLC2 (value : BitVec 8) (data : List (BitVec 32)) : Nat → Except Stop (BitVec 64)
  | 0 => pure 0
  | i + 1 => do
    let count ← countBitsMLC2 value data i
    let word ← index data i
    let n ← count32MLC2 value word
    pure (count + n)

/-! ## Write times -/

inductive ProgramMode where
  /-- Single reset, multiple set. -/
  | srms
  /-- Single set, multiple reset. -/
  | ssmr
  deriving DecidableEq

inductive WriteMode where
  | writeBack | writeThrough
  deriving DecidableEq

structure CellParams where
  tBURST : BitVec 64
  rate : BitVec 64
  busWidth : BitVec 64
  mlcLevels : BitVec 64
  uniformWrites : Bool
  energyCurrent : Bool
  programMode : ProgramMode
  tWP : BitVec 64
  tWP0 : BitVec 64
  tWP1 : BitVec 64
  nWP00 : BitVec 64
  nWP01 : BitVec 64
  nWP10 : BitVec 64
  nWP11 : BitVec 64
  wpMaxVariance : BitVec 64

structure CellWrite where
  delay : BitVec 64
  starts : List (BitVec 64)
  deriving DecidableEq

/-- `writeIterationStarts.insert`. -/
def insertStart (t : BitVec 64) : List (BitVec 64) → List (BitVec 64)
  | [] => [t]
  | u :: us =>
    if t < u then t :: u :: us
    else if u < t then u :: insertStart t us
    else u :: us

/-- `MAX`. -/
def maxOf (a b : BitVec 64) : BitVec 64 := if b < a then a else b

namespace CellParams
variable (p : CellParams)

def memoryWordSize : BitVec 32 := (p.tBURST * p.rate * p.busWidth).setWidth 32

def writeBytes32 : BitVec 32 := p.memoryWordSize / 32

/-- `averageWriteIterations` (SubArray::SetConfig). -/
def averageWriteIterations : BitVec 64 := (p.nWP00 + p.nWP01 + p.nWP10 + p.nWP11 + 2) / 4

def uniformStarts (now : BitVec 64) : List (BitVec 64) :=
  (List.range p.averageWriteIterations.toNat).foldl
    (fun starts iter => insertStart (now + BitVec.ofNat 64 iter * (p.tWP / p.averageWriteIterations)) starts) []

/-- The pulses of an intermediate value: what was drawn, at most `WPMaxVariance` away from the mean. -/
def thisPulseCount (programPulseCount draw : BitVec 64) : BitVec 64 :=
  let maxPulseCount := p.wpMaxVariance + programPulseCount
  let difference := programPulseCount - p.wpMaxVariance
  -- signed, as the source has it
  let minPulseCount := if difference.slt 0 then 0 else difference
  let pulses := if draw > maxPulseCount then maxPulseCount else draw
  if pulses < minPulseCount then minPulseCount else pulses

/-- The loop that inserts the start of each repeated pulse. -/
def pulseStarts (repeatPulseDelay : BitVec 64) : Nat → BitVec 64 → List (BitVec 64) → List (BitVec 64)
  | 0, _, starts => starts
  | n + 1, iterStart, starts => pulseStarts repeatPulseDelay n (iterStart + repeatPulseDelay) (insertStart iterStart starts)

def pulsed (now oncePulseDelay repeatPulseDelay pulses : BitVec 64) : CellWrite where
  delay := oncePulseDelay + pulses * repeatPulseDelay
  starts := pulseStarts repeatPulseDelay pulses.toNat (now + oncePulseDelay) (insertStart now [])

/-- The branch for two bits a cell. -/
def writeMLC2 (now draw : BitVec 64) (rawData : List (BitVec 32)) : Except Stop CellWrite := do
  let writeCount00 ← countBitsMLC2 0 rawData p.writeBytes32.toNat
  let writeCount01 ← countBitsMLC2 1 rawData p.writeBytes32.toNat
  let writeCount10 ← countBitsMLC2 2 rawData p.writeBytes32.toNat
  let writeCount11 ← countBitsMLC2 3 rawData p.writeBytes32.toNat
  require (decide (writeCount00 + writeCount01 + writeCount10 + writeCount11 = (p.memoryWordSize / 2).setWidth 64))
  let delay00 := if writeCount00 = 0 then 0 else p.nWP00
  let delay01 := if writeCount01 = 0 then 0 else p.nWP01
  let delay10 := if writeCount10 = 0 then 0 else p.nWP10
  let delay11 := if writeCount11 = 0 then 0 else p.nWP11
  let programPulseCount := maxOf (maxOf delay00 delay01) (maxOf delay10 delay11)
  if writeCount01 ≠ 0 ∨ writeCount10 ≠ 0 then
    match p.programMode with
    | .srms => pure (pulsed now p.tWP0 p.tWP1 (p.thisPulseCount programPulseCount draw))
    | .ssmr => pure (pulsed now p.tWP1 p.tWP0 (p.thisPulseCount programPulseCount draw))
  else if writeCount00 ≠ 0 ∧ writeCount11 = 0 then pure (pulsed now p.tWP0 0 0)
  else if writeCount00 = 0 ∧ writeCount11 ≠ 0 then pure (pulsed now p.tWP1 0 0)
  else .error .assertFailed

/-- The two functions: `early` is what makes the first one return before it looks at the data. -/
def writeCellData (early : Bool) (now draw : BitVec 64) (rawData : Option (List (BitVec 32))) : Except Stop CellWrite :=
  if p.uniformWrites then
    .ok ⟨p.tWP, if 1 < p.mlcLevels then p.uniformStarts now else []⟩
  else if early then .ok ⟨p.tWP, []⟩
  else
    match rawData with
    | none => .ok ⟨p.tWP0, []⟩
    | some data =>
      if p.mlcLevels = 1 then .ok ⟨p.tWP, []⟩
      else if p.mlcLevels = 2 then p.writeMLC2 now draw data
      else .ok ⟨0, []⟩

/-- The energy model of a phase change memory that writes through. -/
def pcmModel (mode : WriteMode) : Bool := !p.energyCurrent && mode == .writeThrough

def writeCellData1 (mode : WriteMode) (now draw : BitVec 64) (rawData : Option (List (BitVec 32))) : Except Stop CellWrite :=
  p.writeCellData (p.pcmModel mode) now draw rawData

def writeCellData2 (now draw : BitVec 64) (rawData : Option (List (BitVec 32))) : Except Stop CellWrite :=
  p.writeCellData false now draw rawData

end CellParams

end Nvm
