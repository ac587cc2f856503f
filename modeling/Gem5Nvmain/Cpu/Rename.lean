import Gem5Nvmain.Cpu.RenameMap

/- The rename stage of one thread (src/cpu/o3/rename_impl.hh).

  The history buffer lists the renamed destinations, the newest first. A squash takes entries off its front and undoes
  them; a commit takes entries off its back and frees what they replaced. The scoreboard and the operands of the
  instruction itself are written there and read by other stages, and are left out. -/
namespace Gem5.Cpu
open Lib

structure RenameHistory where
  instSeqNum : Nat
  archReg : Nat
  newPhysReg : Nat
  prevPhysReg : Nat
  deriving DecidableEq, Repr

/-- The state of the rename stage for a thread. -/
structure Rename (isa : TheISA) where
  renameMap : UnifiedRenameMap isa
  freeList : UnifiedFreeList
  historyBuffer : List RenameHistory
  deriving DecidableEq

/-- An instruction, with the way its thread context flattens the integer and floating-point indices. -/
structure Inst where
  seqNum : Nat
  destRegs : List Nat
  flattenIntIndex : Nat → Nat
  flattenFloatIndex : Nat → Nat

namespace Rename
variable {isa : TheISA} (rf : PhysRegFile)

/-- The renaming of a destination in the map of its class: the flattened unified index and what was renamed. -/
def renameDestReg (inst : Inst) (u : UnifiedRenameMap isa) (l : UnifiedFreeList) (destReg : Nat) :
    Except Stop (Nat × RenameInfo × UnifiedRenameMap isa × UnifiedFreeList) := do
  let (regClass, relDestReg) ← regIdxToClass isa destReg
  match regClass with
  | .renamed .int =>
    let flatRelDestReg := inst.flattenIntIndex relDestReg
    let result ← u.renameInt rf l flatRelDestReg
    return (flatRelDestReg, result)
  | .renamed .float =>
    let flatRelDestReg := inst.flattenFloatIndex relDestReg
    let result ← u.renameFloat rf l flatRelDestReg
    return (flatRelDestReg + isa.fpRegBase, result)
  | .renamed .cc =>
    -- `flattenCCIndex` is the identity in every architecture
    let result ← u.renameCC rf l relDestReg
    return (relDestReg + isa.ccRegBase, result)
  | .misc => return (relDestReg + isa.miscRegBase, UnifiedRenameMap.renameMisc rf relDestReg, u, l)

/-- One turn of the loop of `renameDestRegs`. -/
def renameDest (inst : Inst) (s : Rename isa) (destReg : Nat) : Except Stop (Rename isa) := do
  let (flatUniDestReg, info, u, l) ← renameDestReg rf inst s.renameMap s.freeList destReg
  let hbEntry : RenameHistory := ⟨inst.seqNum, flatUniDestReg, info.renamedReg, info.prevReg⟩
  return ⟨u, l, hbEntry :: s.historyBuffer⟩

def renameDests (inst : Inst) : List Nat → Rename isa → Except Stop (Rename isa)
  | [], s => return s
  | destReg :: rest, s => do
    let s ← renameDest rf inst s destReg
    renameDests inst rest s

def renameDestRegs (inst : Inst) (s : Rename isa) : Except Stop (Rename isa) := renameDests rf inst inst.destRegs s

/-- What a squash does for an entry: registers that were not really renamed keep their mapping. -/
def undoEntry (u : UnifiedRenameMap isa) (l : UnifiedFreeList) (hb : RenameHistory) :
    Except Stop (UnifiedRenameMap isa × UnifiedFreeList) :=
  if hb.newPhysReg ≠ hb.prevPhysReg then do
    let u ← u.setEntry rf hb.archReg hb.prevPhysReg
    let l ← l.addReg rf hb.newPhysReg
    return (u, l)
  else
    return (u, l)

def squashLoop (squashedSeqNum : Nat) : List RenameHistory → UnifiedRenameMap isa → UnifiedFreeList → Except Stop (Rename isa)
  | [], u, l => return ⟨u, l, []⟩
  | hb :: rest, u, l =>
    if hb.instSeqNum > squashedSeqNum then do
      let (u, l) ← undoEntry rf u l hb
      squashLoop squashedSeqNum rest u l
    else
      return ⟨u, l, hb :: rest⟩

def doSquash (squashedSeqNum : Nat) (s : Rename isa) : Except Stop (Rename isa) :=
  squashLoop rf squashedSeqNum s.historyBuffer s.renameMap s.freeList

/-- What a commit does for an entry. -/
def freeEntry (l : UnifiedFreeList) (hb : RenameHistory) : Except Stop UnifiedFreeList :=
  if hb.newPhysReg ≠ hb.prevPhysReg then l.addReg rf hb.prevPhysReg else return l

/-- The loop of `removeFromHistory` over the entries from the oldest on; what is left of them. -/
def removeLoop (instSeqNum : Nat) : List RenameHistory → UnifiedFreeList → Except Stop (List RenameHistory × UnifiedFreeList)
  | [], l => return ([], l)
  | hb :: newer, l =>
    if hb.instSeqNum ≤ instSeqNum then do
      let l ← freeEntry rf l hb
      removeLoop instSeqNum newer l
    else
      return (hb :: newer, l)

def removeFromHistory (instSeqNum : Nat) (s : Rename isa) : Except Stop (Rename isa) := do
  let (left, l) ← removeLoop rf instSeqNum s.historyBuffer.reverse s.freeList
  return { s with freeList := l, historyBuffer := left.reverse }

end Rename

/-- What the rename stage of a thread is asked to do. -/
inductive RenameEvent where
  | renameDestRegs (inst : Inst)
  | removeFromHistory (instSeqNum : Nat)
  | doSquash (squashedSeqNum : Nat)

def Rename.step {isa : TheISA} (rf : PhysRegFile) (s : Rename isa) : RenameEvent → Except Stop (Rename isa)
  | .renameDestRegs inst => s.renameDestRegs rf inst
  | .removeFromHistory n => s.removeFromHistory rf n
  | .doSquash n => s.doSquash rf n

end Gem5.Cpu
