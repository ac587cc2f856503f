import Gem5Nvmain.Lib.Exec

/- The rename maps, the free lists and the register classes of the out-of-order processor (src/cpu/o3/rename_map.cc,
  rename_map.hh, free_list.hh, regfile.hh, src/cpu/reg_class.hh).

  The three simple maps and the three free lists of the unified classes are kept under their class (`RenameClass`);
  the member functions for one class are the function for a class applied to it. A free list is a queue: its head is
  the next register handed out. -/
namespace Gem5.Cpu
open Lib

/-- The sizes and bases of the unified architectural index space (`TheISA`). -/
structure TheISA where
  numIntRegs : Nat
  fpRegBase : Nat
  numFloatRegs : Nat
  numCCRegs : Nat
  /-- Every index from `miscRegBase` up to `maxRegIndex`. -/
  numMiscRegs : Nat
  int_le : numIntRegs ≤ fpRegBase

namespace TheISA

def ccRegBase (isa : TheISA) : Nat := isa.fpRegBase + isa.numFloatRegs

def miscRegBase (isa : TheISA) : Nat := isa.ccRegBase + isa.numCCRegs

def maxRegIndex (isa : TheISA) : Nat := isa.miscRegBase + isa.numMiscRegs

end TheISA

/-- The register classes that are renamed. -/
inductive RenameClass where
  | int
  | float
  | cc
  deriving DecidableEq, Repr

inductive RegClass where
  | renamed (c : RenameClass)
  | misc
  deriving DecidableEq, Repr

def regIdxToClass (isa : TheISA) (regIdx : Nat) : Except Stop (RegClass × Nat) := do
  require (regIdx < isa.maxRegIndex)
  if regIdx < isa.fpRegBase then
    return (.renamed .int, regIdx)
  else if regIdx < isa.ccRegBase then
    return (.renamed .float, regIdx - isa.fpRegBase)
  else if regIdx < isa.miscRegBase then
    return (.renamed .cc, regIdx - isa.ccRegBase)
  else
    return (.misc, regIdx - isa.miscRegBase)

/-! The physical register file: integer registers, then floating-point, then condition-code ones. -/

structure PhysRegFile where
  numPhysicalIntRegs : Nat
  numPhysicalFloatRegs : Nat
  numPhysicalCCRegs : Nat
  deriving DecidableEq, Repr

namespace PhysRegFile
variable (rf : PhysRegFile)

def baseFloatRegIndex : Nat := rf.numPhysicalIntRegs

def baseCCRegIndex : Nat := rf.numPhysicalIntRegs + rf.numPhysicalFloatRegs

def totalNumPhysRegs : Nat := rf.numPhysicalIntRegs + rf.numPhysicalFloatRegs + rf.numPhysicalCCRegs

def isIntPhysReg (regIdx : Nat) : Bool := decide (regIdx < rf.baseFloatRegIndex)

def isFloatPhysReg (regIdx : Nat) : Bool := decide (rf.baseFloatRegIndex ≤ regIdx) && decide (regIdx < rf.baseCCRegIndex)

def isCCPhysReg (regIdx : Nat) : Bool := decide (rf.baseCCRegIndex ≤ regIdx) && decide (regIdx < rf.totalNumPhysRegs)

def isPhysReg : RenameClass → Nat → Bool
  | .int => rf.isIntPhysReg
  | .float => rf.isFloatPhysReg
  | .cc => rf.isCCPhysReg

end PhysRegFile

/-! The free lists. -/

/-- `SimpleFreeList::getReg`. -/
def getReg (freeRegs : List Nat) : Except Stop (Nat × List Nat) :=
  match freeRegs with
  | [] => .error .assertFailed
  | r :: rest => .ok (r, rest)

structure UnifiedFreeList where
  intList : List Nat
  floatList : List Nat
  ccList : List Nat
  deriving DecidableEq, Repr

namespace UnifiedFreeList

def list (l : UnifiedFreeList) : RenameClass → List Nat
  | .int => l.intList
  | .float => l.floatList
  | .cc => l.ccList

def setList (l : UnifiedFreeList) (free : List Nat) : RenameClass → UnifiedFreeList
  | .int => { l with intList := free }
  | .float => { l with floatList := free }
  | .cc => { l with ccList := free }

/-- `SimpleFreeList::addReg` on the list of a class. -/
def addTo (l : UnifiedFreeList) (c : RenameClass) (freedReg : Nat) : UnifiedFreeList := l.setList (l.list c ++ [freedReg]) c

def addReg (rf : PhysRegFile) (l : UnifiedFreeList) (freedReg : Nat) : Except Stop UnifiedFreeList :=
  if rf.isIntPhysReg freedReg then
    return l.addTo .int freedReg
  else if rf.isFloatPhysReg freedReg then
    return l.addTo .float freedReg
  else do
    require (rf.isCCPhysReg freedReg)
    return l.addTo .cc freedReg

/-- The registers on the three lists. -/
def regs (l : UnifiedFreeList) : List Nat := l.intList ++ l.floatList ++ l.ccList

end UnifiedFreeList

/-! The rename maps. -/

/-- The new and the previous physical register of a renamed register. -/
structure RenameInfo where
  renamedReg : Nat
  prevReg : Nat
  deriving DecidableEq, Repr

/-- A map of `size` architectural registers, as `init` resizes it. -/
@[ext]
structure SimpleRenameMap (size : Nat) where
  map : List Nat
  /-- An index that never matches when the class has no zero register. -/
  zeroReg : Nat
  length_map : map.length = size
  deriving DecidableEq

namespace SimpleRenameMap
variable {size : Nat}

/-- `map[archReg] = physReg`. -/
def put (m : SimpleRenameMap size) (archReg physReg : Nat) : SimpleRenameMap size :=
  { m with map := m.map.set archReg physReg, length_map := by rw [List.length_set, m.length_map] }

def setEntry (m : SimpleRenameMap size) (archReg physReg : Nat) : Except Stop (SimpleRenameMap size) := do
  let _ ← index m.map archReg
  return m.put archReg physReg

def rename (m : SimpleRenameMap size) (freeRegs : List Nat) (archReg : Nat) :
    Except Stop (RenameInfo × SimpleRenameMap size × List Nat) := do
  let prevReg ← index m.map archReg
  if archReg ≠ m.zeroReg then
    let (renamedReg, freeRegs) ← getReg freeRegs
    return (⟨renamedReg, prevReg⟩, m.put archReg renamedReg, freeRegs)
  else
    require (prevReg = m.zeroReg)
    return (⟨m.zeroReg, prevReg⟩, m, freeRegs)

end SimpleRenameMap

/-- The condition-code map is initialised with the number of floating-point registers. -/
def mapSize (isa : TheISA) : RenameClass → Nat
  | .int => isa.numIntRegs
  | .float => isa.numFloatRegs
  | .cc => isa.numFloatRegs

@[ext]
structure UnifiedRenameMap (isa : TheISA) where
  intMap : SimpleRenameMap (mapSize isa .int)
  floatMap : SimpleRenameMap (mapSize isa .float)
  ccMap : SimpleRenameMap (mapSize isa .cc)
  deriving DecidableEq

namespace UnifiedRenameMap
variable {isa : TheISA}

def mapOf (u : UnifiedRenameMap isa) : (c : RenameClass) → SimpleRenameMap (mapSize isa c)
  | .int => u.intMap
  | .float => u.floatMap
  | .cc => u.ccMap

def setMap (u : UnifiedRenameMap isa) : (c : RenameClass) → SimpleRenameMap (mapSize isa c) → UnifiedRenameMap isa
  | .int, m => { u with intMap := m }
  | .float, m => { u with floatMap := m }
  | .cc, m => { u with ccMap := m }

/-- `renameInt`, `renameFloat` and `renameCC`. -/
def renameIn (rf : PhysRegFile) (c : RenameClass) (u : UnifiedRenameMap isa) (l : UnifiedFreeList) (relArchReg : Nat) :
    Except Stop (RenameInfo × UnifiedRenameMap isa × UnifiedFreeList) := do
  let (info, m, free) ← (u.mapOf c).rename (l.list c) relArchReg
  require (rf.isPhysReg c info.renamedReg)
  return (info, u.setMap c m, l.setList free c)

def renameInt (rf : PhysRegFile) (u : UnifiedRenameMap isa) := renameIn rf .int u

def renameFloat (rf : PhysRegFile) (u : UnifiedRenameMap isa) := renameIn rf .float u

def renameCC (rf : PhysRegFile) (u : UnifiedRenameMap isa) := renameIn rf .cc u

def lookupMisc (rf : PhysRegFile) (relArchReg : Nat) : Nat := relArchReg + rf.totalNumPhysRegs

def renameMisc (rf : PhysRegFile) (relArchReg : Nat) : RenameInfo := ⟨lookupMisc rf relArchReg, lookupMisc rf relArchReg⟩

/-- `setIntEntry`, `setFloatEntry` and `setCCEntry`. -/
def setEntryIn (rf : PhysRegFile) (c : RenameClass) (u : UnifiedRenameMap isa) (archReg physReg : Nat) :
    Except Stop (UnifiedRenameMap isa) := do
  require (rf.isPhysReg c physReg)
  let m ← (u.mapOf c).setEntry archReg physReg
  return u.setMap c m

def setEntry (rf : PhysRegFile) (u : UnifiedRenameMap isa) (archReg physReg : Nat) : Except Stop (UnifiedRenameMap isa) := do
  let (regClass, relArchReg) ← regIdxToClass isa archReg
  match regClass with
  | .renamed c => u.setEntryIn rf c relArchReg physReg
  | .misc =>
    require (physReg = lookupMisc rf relArchReg)
    return u

/-- The physical registers of the architectural registers. -/
def mapped (u : UnifiedRenameMap isa) : List Nat :=
  u.intMap.map ++ u.floatMap.map ++ u.ccMap.map.take isa.numCCRegs

end UnifiedRenameMap

end Gem5.Cpu
