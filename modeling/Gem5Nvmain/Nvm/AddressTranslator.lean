import Gem5Nvmain.Lib.Exec
import Gem5Nvmain.Lib.MixedRadix

/- The address translator (`AddressTranslator`, `TranslationMethod`).

  A physical address is the offset in a burst and the six fields, in an order that the translation method sets. The
  fields have widths in bits. `ReverseTranslate` adds up the fields, each one shifted to its place, and `Translate`
  takes them off from the lowest one, with `Modulo` and `Divide`; both find the field of a place with `FindOrder`.

  The arithmetic is that of `uint64_t`. A shift by 64 or more is not defined, and no step of the model; nor is a
  product of bus width and burst length that is not an `int`. -/
namespace Nvm
open Lib Function

/-- `MemoryPartition`, but for `MEM_UNKNOWN`. -/
inductive MemoryPartition where
  | row
  | col
  | bank
  | rank
  | channel
  | subarray
  deriving DecidableEq, Repr, Inhabited

/-- In the order in which `FindOrder` looks at them. -/
def MemoryPartition.all : List MemoryPartition := [.row, .col, .bank, .rank, .channel, .subarray]

theorem MemoryPartition.mem_all (p : MemoryPartition) : p ∈ all := by cases p <;> decide

/-- The values of the six fields. -/
abbrev Fields := MemoryPartition → Nat

/-- The shifts of `mlog2` until the number is zero; the fuel is the width of an `int`. -/
def mlog2Loop : Nat → Nat → Nat
  | 0, _ => 0
  | fuel + 1, newNum => if newNum = 0 then 0 else mlog2Loop fuel (newNum >>> 1) + 1

/-- `mlog2`: the loop counts from `-1`. -/
def mlog2 (num : Nat) : Nat := if num < 2 then 0 else mlog2Loop 32 num - 1

/-- `a << k` and `a >> k`. -/
def shiftLeft (a k : Nat) : Except Stop Nat := if k < 64 then .ok (a * 2 ^ k % 2 ^ 64) else .error .outOfRange

def shiftRight (a k : Nat) : Except Stop Nat := if k < 64 then .ok (a / 2 ^ k) else .error .outOfRange

/-- The translation method, and the bus width and the burst length of the translator. -/
structure AddressTranslator where
  bitWidths : MemoryPartition → Nat
  order : MemoryPartition → Int
  busWidth : Nat := 64
  burstLength : Nat := 8

namespace AddressTranslator
variable (t : AddressTranslator)

def busOffsetBits : Nat := mlog2 (t.busWidth / 8)

def burstBits : Nat := mlog2 (t.busWidth * t.burstLength / 8)

/-- `lowColBits`, where `busWidth * burstLength` is an `int`. -/
def lowColBits : Except Stop Nat :=
  if t.busWidth * t.burstLength < 2 ^ 31 ∧ t.busOffsetBits ≤ t.burstBits then .ok (t.burstBits - t.busOffsetBits)
  else .error .outOfRange

/-- `FindOrder`; `none` is `MEM_UNKNOWN`. -/
def findOrder (i : Nat) : Option MemoryPartition := MemoryPartition.all.find? fun p => t.order p == (i : Int)

def divide (partSize : Nat) (p : MemoryPartition) : Except Stop Nat := shiftRight partSize (t.bitWidths p)

def modulo (partialAddr : Nat) (p : MemoryPartition) : Except Stop Nat := do
  let moduloSize ← shiftLeft 1 (t.bitWidths p)
  pure (partialAddr % moduloSize)

/-- One iteration of `ReverseTranslate`, on `phyAddr` and `unitAddr`. -/
def addField (fields : Fields) (acc : Nat × Nat) (part : Option MemoryPartition) : Except Stop (Nat × Nat) :=
  match part with
  | some p => do
    let unitAddr ← shiftLeft acc.2 (t.bitWidths p)
    pure ((acc.1 + fields p * acc.2) % 2 ^ 64, unitAddr)
  | none => .ok acc

def reverseTranslate (fields : Fields) : Except Stop Nat := do
  let lowColBits ← t.lowColBits
  let unitAddr ← shiftLeft 1 t.busOffsetBits
  let unitAddr ← shiftLeft unitAddr lowColBits
  let acc ← (List.range 6).foldlM (fun acc i => t.addField fields acc (t.findOrder i)) (0, unitAddr)
  pure acc.1

/-- One iteration of `Translate`, on `refAddress` and the fields. -/
def takeField (acc : Nat × Fields) (part : Option MemoryPartition) : Except Stop (Nat × Fields) :=
  match part with
  | some p => do
    let value ← t.modulo acc.1 p
    let refAddress ← t.divide acc.1 p
    pure (refAddress, update acc.2 p value)
  | none => .error .outOfRange

def translate (address : Nat) : Except Stop Fields := do
  let lowColBits ← t.lowColBits
  let refAddress ← shiftRight address t.busOffsetBits
  let refAddress ← shiftRight refAddress lowColBits
  let acc ← (List.range 6).foldlM (fun acc i => t.takeField acc (t.findOrder i)) (refAddress, fun _ => 0)
  pure acc.2

/-- The bits of an address. -/
def total : Nat := t.burstBits + (MemoryPartition.all.map t.bitWidths).sum

/-- The orders are those of 0 to 5, each field is shorter than a word and all fit in one, and the burst is at least
  one beat on a bus of at least one byte. -/
structure Valid : Prop where
  order : ∀ i : Nat, i < 6 → ∃ p, t.order p = (i : Int)
  width : ∀ p, t.bitWidths p < 64
  total : t.total ≤ 64
  busWidth : 8 ≤ t.busWidth
  burstLength : 1 ≤ t.burstLength
  int : t.busWidth * t.burstLength < 2 ^ 31

end AddressTranslator

end Nvm
