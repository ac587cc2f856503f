import Mathlib.Logic.Function.Basic
import Gem5Nvmain.Lib.Exec

/- The instruction queue and its dependency graph (src/cpu/o3/inst_queue_impl.hh, src/cpu/o3/dep_graph.hh).

  Instructions are named by their sequence numbers. A chain of the dependency graph is the list of its consumers, the
  newest first. `readyInsts` and `regsReady` list every instruction that was pushed on a ready list and every one
  whose registers were reported to the memory dependence unit, the newest last. The memory dependence unit decides
  whether an inserted instruction waits for a store; its other doings, the entry counts, the order of the ready lists
  and the producer in the head node of a chain are left out. -/
namespace Gem5.Cpu
open Lib Function

/-- A renamed source operand and its ready bit. -/
structure SrcReg where
  reg : Nat
  ready : Bool
  deriving DecidableEq, Repr

/-- An instruction as rename hands it on. -/
structure RenamedInst where
  threadNumber : Nat
  isLoad : Bool
  isStore : Bool
  isNonSpeculative : Bool
  isStoreConditional : Bool
  isMemBarrier : Bool
  isWriteBarrier : Bool
  srcs : List SrcReg
  destRegs : List Nat
  deriving DecidableEq, Repr

namespace RenamedInst

def isMemRef (i : RenamedInst) : Bool := i.isLoad || i.isStore

def isAcqRel (i : RenamedInst) : Bool := i.isMemBarrier && (i.isLoad || i.isStore && !i.isStoreConditional)

/-- The instructions whose operands `doSquash` takes off the dependency graph. -/
def speculative (i : RenamedInst) : Bool :=
  i.isAcqRel || !i.isNonSpeculative && !i.isStoreConditional && !i.isMemBarrier && !i.isWriteBarrier

/-- `add_to_iq`: the dispatch of IEW gives the instruction to `insert`, or else to `insertNonSpec`. -/
def addToIq (i : RenamedInst) : Bool :=
  !i.isNonSpeculative &&
    if i.isLoad then true else if i.isStore then !i.isStoreConditional else !i.isMemBarrier && !i.isWriteBarrier

/-- The flags that the instruction sets combine: a store conditional is a store, a memory access that is a write
  barrier is a memory barrier as well, and one with acquire or release semantics is speculative. -/
def flagged (i : RenamedInst) : Bool :=
  (!i.isStoreConditional || i.isStore && !i.isLoad) && (!i.isMemRef || !i.isWriteBarrier || i.isMemBarrier) &&
  (!i.isAcqRel || !i.isNonSpeculative)

theorem speculative_eq_addToIq {i : RenamedInst} (h : i.flagged = true) : i.speculative = i.addToIq := by
  revert h
  unfold flagged speculative addToIq isAcqRel isMemRef
  cases i.isLoad <;> cases i.isStore <;> cases i.isStoreConditional <;> cases i.isMemBarrier <;>
    cases i.isWriteBarrier <;> cases i.isNonSpeculative <;> decide

end RenamedInst

structure DynInst extends RenamedInst where
  readyRegs : Nat
  canIssue : Bool
  issued : Bool
  memOpDone : Bool
  squashedInIQ : Bool
  completed : Bool
  hasFault : Bool
  deriving DecidableEq, Repr

namespace DynInst

/-- Rename has counted the operands that were ready. -/
def renamed (i : RenamedInst) : DynInst :=
  let readyRegs := i.srcs.countP SrcReg.ready
  ⟨i, readyRegs, decide (readyRegs = i.srcs.length), false, false, false, false, false⟩

def markSrcRegReady (d : DynInst) : DynInst :=
  { d with readyRegs := d.readyRegs + 1, canIssue := d.canIssue || decide (d.readyRegs + 1 = d.srcs.length) }

def markSrcRegReadyAt (d : DynInst) (srcIdx : Nat) : DynInst :=
  markSrcRegReady { d with srcs := d.srcs.modify srcIdx fun o => { o with ready := true } }

/-- Still held by the queue: not issued, or a memory access that is not done. -/
def waiting (d : DynInst) : Bool := !d.issued || d.isMemRef && !d.memOpDone

end DynInst

/-! The dependency graph. -/

/-- The loop of `remove` over a chain; its assertion is that the chain has not ended. -/
def removeFrom (inst : Nat) : List Nat → Except Stop (List Nat)
  | [] => .error .assertFailed
  | curr :: next => if curr = inst then .ok next else do
    let next ← removeFrom inst next
    return curr :: next

structure InstructionQueue where
  insts : Nat → DynInst
  /-- The sequence numbers that were inserted. -/
  arrived : List Nat
  /-- The instructions of each thread, the oldest first. -/
  instList : Nat → List Nat
  dependGraph : Nat → List Nat
  regScoreboard : Nat → Bool
  nonSpecInsts : List Nat
  readyInsts : List Nat
  regsReady : List Nat

namespace InstructionQueue

def init : InstructionQueue where
  insts _ := .renamed ⟨0, false, false, false, false, false, false, [], []⟩
  arrived := []
  instList _ := []
  dependGraph _ := []
  regScoreboard _ := false
  nonSpecInsts := []
  readyInsts := []
  regsReady := []

def modify (s : InstructionQueue) (inst : Nat) (f : DynInst → DynInst) : InstructionQueue :=
  { s with insts := update s.insts inst (f (s.insts inst)) }

def setChain (s : InstructionQueue) (idx : Nat) (chain : List Nat) : InstructionQueue :=
  { s with dependGraph := update s.dependGraph idx chain }

def setReg (s : InstructionQueue) (reg : Nat) (b : Bool) : InstructionQueue :=
  { s with regScoreboard := update s.regScoreboard reg b }

/-- `DependencyGraph::insert`. -/
def link (s : InstructionQueue) (idx inst : Nat) : InstructionQueue := s.setChain idx (inst :: s.dependGraph idx)

/-- `DependencyGraph::remove`: nothing to do on an empty chain. -/
def remove (s : InstructionQueue) (idx inst : Nat) : Except Stop InstructionQueue :=
  if s.dependGraph idx = [] then .ok s else do
    let chain ← removeFrom inst (s.dependGraph idx)
    return s.setChain idx chain

/-- What the ready lists and the memory dependence unit have been told about an instruction. -/
def signals (s : InstructionQueue) (inst : Nat) : Nat := (s.readyInsts ++ s.regsReady).count inst

/-- `readyInsts[op_class].push(inst)`, or `regsReady(inst)` of the memory dependence unit. -/
def signal (s : InstructionQueue) (inst : Nat) : InstructionQueue :=
  if (s.insts inst).isMemRef then
    { s with regsReady := s.regsReady ++ [inst] }
  else
    { s with readyInsts := s.readyInsts ++ [inst] }

def addIfReady (s : InstructionQueue) (inst : Nat) : InstructionQueue :=
  if (s.insts inst).canIssue then s.signal inst else s

/-- One turn of the loop of `addToDependents`, for the operand `o` at `srcIdx`. -/
def addDependent (numPhysRegs inst srcIdx : Nat) (o : SrcReg) (s : InstructionQueue) : InstructionQueue :=
  if o.ready then s
  else if numPhysRegs ≤ o.reg then s
  else if s.regScoreboard o.reg then s.modify inst fun d => d.markSrcRegReadyAt srcIdx
  else s.link o.reg inst

/-- A turn changes no operand but its own, so each is met as the instruction came with it. -/
def addDependents (numPhysRegs inst : Nat) : Nat → List SrcReg → InstructionQueue → InstructionQueue
  | _, [], s => s
  | srcIdx, o :: srcs, s => addDependents numPhysRegs inst (srcIdx + 1) srcs (s.addDependent numPhysRegs inst srcIdx o)

def addToDependents (numPhysRegs inst : Nat) (s : InstructionQueue) : InstructionQueue :=
  s.addDependents numPhysRegs inst 0 (s.insts inst).srcs

/-- Registers that are not renamed have no chain. -/
def addToProducers (numPhysRegs : Nat) : List Nat → InstructionQueue → Except Stop InstructionQueue
  | [], s => .ok s
  | destReg :: destRegs, s =>
    if numPhysRegs ≤ destReg then
      addToProducers numPhysRegs destRegs s
    else if s.dependGraph destReg ≠ [] then
      .error (.fatal s!"Dependency graph {destReg} not empty!")
    else
      addToProducers numPhysRegs destRegs (s.setReg destReg false)

/-- The instruction `inst` at the end of its thread's list. -/
def arrive (s : InstructionQueue) (inst : Nat) (i : RenamedInst) : InstructionQueue :=
  { s with
    insts := update s.insts inst (.renamed i)
    arrived := inst :: s.arrived
    instList := update s.instList i.threadNumber (s.instList i.threadNumber ++ [inst]) }

/-- The memory dependence unit takes note of ready registers, and stops an instruction that waits for a store. -/
def memDepInsert (s : InstructionQueue) (inst : Nat) (dependent : Bool) : InstructionQueue :=
  let s := s.addIfReady inst
  if dependent then s.modify inst fun d => { d with canIssue := false } else s

def insert (numPhysRegs : Nat) (s : InstructionQueue) (inst : Nat) (i : RenamedInst) (dependent : Bool) :
    Except Stop InstructionQueue := do
  let s := (s.arrive inst i).addToDependents numPhysRegs inst
  let s ← s.addToProducers numPhysRegs i.destRegs
  if i.isMemRef then return s.memDepInsert inst dependent else return s.addIfReady inst

def insertNonSpec (numPhysRegs : Nat) (s : InstructionQueue) (inst : Nat) (i : RenamedInst) : Except Stop InstructionQueue :=
  let s := s.arrive inst i
  { s with nonSpecInsts := s.nonSpecInsts ++ [inst] }.addToProducers numPhysRegs i.destRegs

def scheduleNonSpec (s : InstructionQueue) (inst : Nat) : Except Stop InstructionQueue := do
  require (decide (inst ∈ s.nonSpecInsts))
  let s := (s.modify inst fun d => { d with canIssue := true }).addIfReady inst
  return { s with nonSpecInsts := s.nonSpecInsts.erase inst }

/-- `scheduleReadyInsts` issues an instruction of a ready list. -/
def issue (s : InstructionQueue) (inst : Nat) : InstructionQueue := s.modify inst fun d => { d with issued := true }

/-- A blocked or replayed memory access is to be issued once more. -/
def rescheduleMemInst (s : InstructionQueue) (inst : Nat) : InstructionQueue :=
  s.modify inst fun d => { d with issued := false, canIssue := false }

/-- What execution notes in an instruction. -/
def report (s : InstructionQueue) (inst : Nat) (completed hasFault : Bool) : InstructionQueue :=
  s.modify inst fun d => { d with completed := completed, hasFault := hasFault }

def commit (s : InstructionQueue) (inst tid : Nat) : InstructionQueue :=
  { s with instList := update s.instList tid ((s.instList tid).dropWhile fun i => decide (i ≤ inst)) }

/-- The consumers popped off a chain, one after another. -/
def wakeChain : List Nat → InstructionQueue → InstructionQueue
  | [], s => s
  | depInst :: rest, s => wakeChain rest ((s.modify depInst DynInst.markSrcRegReady).addIfReady depInst)

def wakeReg (s : InstructionQueue) (destReg : Nat) : InstructionQueue :=
  (wakeChain (s.dependGraph destReg) (s.setChain destReg [])).setReg destReg true

def wakeRegs (numPhysRegs : Nat) : List Nat → InstructionQueue → InstructionQueue
  | [], s => s
  | destReg :: destRegs, s => wakeRegs numPhysRegs destRegs (if numPhysRegs ≤ destReg then s else s.wakeReg destReg)

def completeMemInst (s : InstructionQueue) (inst : Nat) : InstructionQueue :=
  if (s.insts inst).isMemRef then s.modify inst fun d => { d with memOpDone := true } else s

def wakeDependents (numPhysRegs : Nat) (s : InstructionQueue) (inst : Nat) : InstructionQueue :=
  (s.completeMemInst inst).wakeRegs numPhysRegs (s.insts inst).destRegs

/-! Squashing. -/

def removeSources (numPhysRegs inst : Nat) : List SrcReg → InstructionQueue → Except Stop InstructionQueue
  | [], s => .ok s
  | o :: srcs, s =>
    if !o.ready && decide (o.reg < numPhysRegs) then do
      let s ← s.remove o.reg inst
      removeSources numPhysRegs inst srcs s
    else
      removeSources numPhysRegs inst srcs s

/-- An instruction that is not in the dependency graph leaves the non-speculative ones. -/
def forgetNonSpec (s : InstructionQueue) (inst : Nat) : Except Stop InstructionQueue :=
  let d := s.insts inst
  if !d.isStoreConditional || !d.completed then
    if inst ∈ s.nonSpecInsts then
      .ok { s with nonSpecInsts := s.nonSpecInsts.erase inst }
    else do
      require (d.hasFault || d.isMemRef)
      return s
  else
    .ok s

/-- The instruction off the dependency graph, or out of the non-speculative ones. -/
def leaveGraph (numPhysRegs : Nat) (s : InstructionQueue) (inst : Nat) : Except Stop InstructionQueue :=
  if (s.insts inst).speculative then s.removeSources numPhysRegs inst (s.insts inst).srcs else s.forgetNonSpec inst

/-- An instruction that the queue still holds is marked so that it flows through the rest of the pipeline. -/
def squashWaiting (numPhysRegs : Nat) (s : InstructionQueue) (inst : Nat) : Except Stop InstructionQueue :=
  if (s.insts inst).waiting then do
    let s ← s.leaveGraph numPhysRegs inst
    return s.modify inst fun d => { d with squashedInIQ := true, issued := true }
  else
    .ok s

def squashInst (numPhysRegs tid : Nat) (s : InstructionQueue) (inst : Nat) : Except Stop InstructionQueue :=
  if (s.insts inst).threadNumber ≠ tid ∨ (s.insts inst).squashedInIQ = true then
    .ok s
  else do
    let s ← s.squashWaiting numPhysRegs inst
    return { s with instList := update s.instList tid ((s.instList tid).erase inst) }

/-- The loop of `doSquash` over the instructions from the youngest on. -/
def squashLoop (numPhysRegs tid squashedSeqNum : Nat) : List Nat → InstructionQueue → Except Stop InstructionQueue
  | [], s => .ok s
  | inst :: older, s =>
    if inst > squashedSeqNum then do
      let s ← s.squashInst numPhysRegs tid inst
      squashLoop numPhysRegs tid squashedSeqNum older s
    else
      .ok s

def doSquash (numPhysRegs : Nat) (s : InstructionQueue) (tid squashedSeqNum : Nat) : Except Stop InstructionQueue :=
  s.squashLoop numPhysRegs tid squashedSeqNum (s.instList tid).reverse

end InstructionQueue

/-- What the rest of the pipeline asks of the instruction queue. -/
inductive IqEvent where
  | insert (inst : Nat) (i : RenamedInst) (dependent : Bool)
  | insertNonSpec (inst : Nat) (i : RenamedInst)
  | scheduleNonSpec (inst : Nat)
  | issue (inst : Nat)
  | rescheduleMemInst (inst : Nat)
  | report (inst : Nat) (completed hasFault : Bool)
  | commit (inst tid : Nat)
  | wakeDependents (inst : Nat)
  | doSquash (tid squashedSeqNum : Nat)
  deriving DecidableEq, Repr

namespace InstructionQueue

def step (numPhysRegs : Nat) (s : InstructionQueue) : IqEvent → Except Stop InstructionQueue
  | .insert inst i dependent => s.insert numPhysRegs inst i dependent
  | .insertNonSpec inst i => s.insertNonSpec numPhysRegs inst i
  | .scheduleNonSpec inst => s.scheduleNonSpec inst
  | .issue inst => return s.issue inst
  | .rescheduleMemInst inst => return s.rescheduleMemInst inst
  | .report inst completed hasFault => return s.report inst completed hasFault
  | .commit inst tid => return s.commit inst tid
  | .wakeDependents inst => return s.wakeDependents numPhysRegs inst
  | .doSquash tid n => s.doSquash numPhysRegs tid n

/-- The instruction is in the queue. -/
def inQueue (s : InstructionQueue) (inst : Nat) : Bool :=
  decide (inst ∈ s.instList (s.insts inst).threadNumber) && (s.insts inst).waiting

/-- A new instruction in program order: registers that are not renamed are ready, and no instruction in the queue, nor
  the new one, reads a register that it is to produce. -/
def canInsert (numPhysRegs : Nat) (s : InstructionQueue) (inst : Nat) (i : RenamedInst) : Bool :=
  decide (inst ∉ s.arrived) && (s.instList i.threadNumber).all (fun c => decide (c < inst)) &&
  i.srcs.all (fun o => o.ready || decide (o.reg < numPhysRegs)) &&
  i.destRegs.all fun r => decide (numPhysRegs ≤ r) ||
    i.srcs.all (fun o => decide (o.reg ≠ r)) &&
    s.arrived.all fun c => !s.inQueue c || (s.insts c).srcs.all fun o => decide (o.reg ≠ r)

/-- The order in which the pipeline works. Only what was signalled is issued, what has left the queue is committed,
  and what was issued and not squashed completes. -/
def legal (numPhysRegs : Nat) (s : InstructionQueue) : IqEvent → Bool
  | .insert inst i _ => i.flagged && i.addToIq && s.canInsert numPhysRegs inst i
  | .insertNonSpec inst i => i.flagged && !i.addToIq && s.canInsert numPhysRegs inst i
  | .scheduleNonSpec inst => decide (inst ∈ s.nonSpecInsts)
  | .issue inst => decide (0 < s.signals inst) && !(s.insts inst).issued
  | .rescheduleMemInst inst =>
    let d := s.insts inst
    decide (inst ∈ s.arrived) && d.isMemRef && d.issued && !d.memOpDone && !d.squashedInIQ
  | .report _ _ _ => true
  | .commit inst tid => ((s.instList tid).takeWhile fun i => decide (i ≤ inst)).all fun i => !(s.insts i).waiting
  | .wakeDependents inst => decide (inst ∈ s.arrived) && (s.insts inst).issued && !(s.insts inst).squashedInIQ
  | .doSquash _ _ => true

/-- The assertion of `doSquash` about an instruction that is not in the dependency graph: when it has left
  `nonSpecInsts` and waits for no memory access, it has a fault. -/
def faultShows (s : InstructionQueue) (inst : Nat) : Bool :=
  (s.insts inst).speculative || !(s.insts inst).waiting || decide (inst ∈ s.nonSpecInsts) ||
    (s.insts inst).hasFault || (s.insts inst).isMemRef

def faultsShow (s : InstructionQueue) : IqEvent → Bool
  | .doSquash tid n => (s.instList tid).all fun c => decide (c ≤ n) || s.faultShows c
  | _ => true

end InstructionQueue

end Gem5.Cpu
