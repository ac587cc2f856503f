import Gem5Nvmain.Lib.Exec

/- The memory dependence unit of a thread (src/cpu/o3/mem_dep_unit_impl.hh).

  Entries are shared by reference between the hash and the lists of dependents, so they are kept in the order in which
  they were made and named by their place; an entry that has left the hash is still there for those that name it.
  `ready` lists the instructions given to the instruction queue, the newest last. The store that the dependence
  predictor names for an instruction is part of its insertion. Instructions that are rescheduled and replayed, and
  non-speculative ones, come to the ready list on other paths and are left out. -/
namespace Gem5.Cpu
open Lib

structure MemInst where
  seqNum : Nat
  isLoad : Bool
  isStore : Bool
  isMemBarrier : Bool
  isWriteBarrier : Bool
  deriving DecidableEq, Repr

structure MemDepEntry where
  inst : MemInst
  dependInsts : List Nat
  regsReady : Bool
  memDepReady : Bool
  squashed : Bool
  deriving DecidableEq, Repr

structure MemDepUnit where
  entries : List MemDepEntry
  memDepHash : List (Nat × Nat)
  /-- The instructions in the unit, the oldest first. -/
  instList : List MemInst
  loadBarrier : Bool
  loadBarrierSN : Nat
  storeBarrier : Bool
  storeBarrierSN : Nat
  ready : List MemInst
  deriving DecidableEq, Repr

namespace MemDepUnit

def init : MemDepUnit := ⟨[], [], [], false, 0, false, 0, []⟩

def findInHash (s : MemDepUnit) (seqNum : Nat) : Except Stop Nat :=
  match s.memDepHash.lookup seqNum with
  | some p => .ok p
  | none => .error .assertFailed

/-- A new entry in the hash and at the end of the list; a number that is in the hash keeps its entry. -/
def addEntry (s : MemDepUnit) (inst : MemInst) : MemDepUnit :=
  { s with
    entries := s.entries ++ [⟨inst, [], false, false, false⟩]
    memDepHash := if (s.memDepHash.lookup inst.seqNum).isSome then s.memDepHash else (inst.seqNum, s.entries.length) :: s.memDepHash
    instList := s.instList ++ [inst] }

def modify (s : MemDepUnit) (p : Nat) (f : MemDepEntry → MemDepEntry) : MemDepUnit :=
  { s with entries := s.entries.modify p f }

def moveToReady (s : MemDepUnit) (p : Nat) : Except Stop MemDepUnit := do
  let e ← index s.entries p
  require (!e.squashed)
  return { s with ready := s.ready ++ [e.inst] }

/-- The barrier that is asked first, or else what the dependence predictor says. -/
def producingStore (s : MemDepUnit) (inst : MemInst) (checkInst : Nat) : Nat :=
  if inst.isLoad && s.loadBarrier then s.loadBarrierSN
  else if inst.isStore && s.storeBarrier then s.storeBarrierSN
  else checkInst

/-- The instruction `p` can issue as soon as its registers are ready. -/
def independent (s : MemDepUnit) (p : Nat) (readyToIssue : Bool) : Except Stop MemDepUnit :=
  let s := s.modify p fun e => { e with memDepReady := true }
  if readyToIssue then
    (s.modify p fun e => { e with regsReady := true }).moveToReady p
  else
    .ok s

/-- The instruction `p` waits for the entry `q`. -/
def dependent (s : MemDepUnit) (p q : Nat) (readyToIssue : Bool) : MemDepUnit :=
  let s := if readyToIssue then s.modify p fun e => { e with regsReady := true } else s
  s.modify q fun e => { e with dependInsts := e.dependInsts ++ [p] }

/-- With no entry for the producing store the instruction is independent. -/
def link (s : MemDepUnit) (p : Nat) (readyToIssue : Bool) : Option Nat → Except Stop MemDepUnit
  | none => s.independent p readyToIssue
  | some q => .ok (s.dependent p q readyToIssue)

/-- The entry of the producing store, if there is one. -/
def findProducer (s : MemDepUnit) (producingStore : Nat) : Option Nat :=
  if producingStore ≠ 0 then s.memDepHash.lookup producingStore else none

def insert (s : MemDepUnit) (inst : MemInst) (readyToIssue : Bool) (checkInst : Nat) : Except Stop MemDepUnit := do
  let storeEntry := (s.addEntry inst).findProducer (s.producingStore inst checkInst)
  let t ← (s.addEntry inst).link s.entries.length readyToIssue storeEntry
  if inst.isStore || inst.isLoad then return t else .error (.fatal "Unknown type! (most likely a barrier).")

/-- Memory barriers block loads and stores, write barriers only stores. -/
def insertBarrier (s : MemDepUnit) (barrInst : MemInst) : MemDepUnit :=
  let sn := barrInst.seqNum
  let s :=
    if barrInst.isMemBarrier then { s with loadBarrier := true, loadBarrierSN := sn, storeBarrier := true, storeBarrierSN := sn }
    else if barrInst.isWriteBarrier then { s with storeBarrier := true, storeBarrierSN := sn }
    else s
  s.addEntry barrInst

def regsReady (s : MemDepUnit) (inst : MemInst) : Except Stop MemDepUnit := do
  let p ← s.findInHash inst.seqNum
  let e ← index s.entries p
  let s := s.modify p fun e => { e with regsReady := true }
  if e.memDepReady then s.moveToReady p else return s

/-- The unit without an instruction in its list and its hash. -/
def remove (s : MemDepUnit) (seqNum : Nat) : MemDepUnit :=
  { s with
    instList := s.instList.eraseP fun i => decide (i.seqNum = seqNum)
    memDepHash := s.memDepHash.filter fun e => !decide (e.1 = seqNum) }

def completed (s : MemDepUnit) (inst : MemInst) : Except Stop MemDepUnit := do
  let _ ← s.findInHash inst.seqNum
  return s.remove inst.seqNum

/-- One dependent of the entry that wakes its dependents. -/
def wake (s : MemDepUnit) (p : Nat) : Except Stop MemDepUnit := do
  let woken ← index s.entries p
  if woken.regsReady && !woken.squashed then s.moveToReady p
  else return s.modify p fun e => { e with memDepReady := true }

def wakeAll : List Nat → MemDepUnit → Except Stop MemDepUnit
  | [], s => return s
  | p :: rest, s => do
    let s ← s.wake p
    wakeAll rest s

def wakeDependents (s : MemDepUnit) (inst : MemInst) : Except Stop MemDepUnit :=
  if !inst.isStore && !inst.isMemBarrier && !inst.isWriteBarrier then
    .ok s
  else do
    let p ← s.findInHash inst.seqNum
    let e ← index s.entries p
    let s ← wakeAll e.dependInsts s
    return s.modify p fun e => { e with dependInsts := [] }

/-- A barrier flag when the instruction `sn` is done with: cleared when it is the one remembered. -/
def clearFlag (flag : Bool) (flagSN sn : Nat) : Bool := if flagSN = sn then false else flag

theorem clearFlag_eq_true {flag : Bool} {flagSN sn : Nat} : clearFlag flag flagSN sn = true ↔ flag = true ∧ flagSN ≠ sn := by
  unfold clearFlag
  split <;> simp [*]

/-- The barrier flags after the barrier `inst` has completed. -/
def clearBarrier (s : MemDepUnit) (inst : MemInst) : MemDepUnit :=
  if inst.isMemBarrier then
    { s with
      loadBarrier := clearFlag s.loadBarrier s.loadBarrierSN inst.seqNum
      storeBarrier := clearFlag s.storeBarrier s.storeBarrierSN inst.seqNum }
  else if inst.isWriteBarrier then
    { s with storeBarrier := clearFlag s.storeBarrier s.storeBarrierSN inst.seqNum }
  else
    s

def completeBarrier (s : MemDepUnit) (inst : MemInst) : Except Stop MemDepUnit := do
  let s ← s.wakeDependents inst
  let s ← s.completed inst
  return s.clearBarrier inst

/-- One turn of the loop of `squash`: the youngest instruction is squashed. -/
def squashInst (s : MemDepUnit) (inst : MemInst) : Except Stop MemDepUnit := do
  let p ← s.findInHash inst.seqNum
  let s := s.modify p fun e => { e with squashed := true }
  return { s with
    loadBarrier := clearFlag s.loadBarrier s.loadBarrierSN inst.seqNum
    storeBarrier := clearFlag s.storeBarrier s.storeBarrierSN inst.seqNum
    memDepHash := s.memDepHash.filter fun e => !decide (e.1 = inst.seqNum)
    instList := s.instList.dropLast }

/-- The loop of `squash` over the instructions from the youngest on. -/
def squashLoop (squashedNum : Nat) : List MemInst → MemDepUnit → Except Stop MemDepUnit
  | [], s => return s
  | inst :: older, s =>
    if inst.seqNum > squashedNum then do
      let s ← s.squashInst inst
      squashLoop squashedNum older s
    else
      return s

def squash (s : MemDepUnit) (squashedNum : Nat) : Except Stop MemDepUnit := squashLoop squashedNum s.instList.reverse s

end MemDepUnit

/-- What the memory dependence unit is asked to do. -/
inductive MemDepEvent where
  | insert (inst : MemInst) (readyToIssue : Bool) (checkInst : Nat)
  | insertBarrier (barrInst : MemInst)
  | regsReady (inst : MemInst)
  | completed (inst : MemInst)
  | completeBarrier (inst : MemInst)
  | wakeDependents (inst : MemInst)
  | squash (squashedNum : Nat)
  deriving DecidableEq, Repr

def MemDepUnit.step (s : MemDepUnit) : MemDepEvent → Except Stop MemDepUnit
  | .insert inst readyToIssue checkInst => s.insert inst readyToIssue checkInst
  | .insertBarrier inst => return s.insertBarrier inst
  | .regsReady inst => s.regsReady inst
  | .completed inst => s.completed inst
  | .completeBarrier inst => s.completeBarrier inst
  | .wakeDependents inst => s.wakeDependents inst
  | .squash n => s.squash n

/-! Runs that take the instructions in program order. -/

namespace MemInst

def isMemRef (i : MemInst) : Bool := i.isLoad || i.isStore

/-- An instruction that the instruction queue inserts as a barrier. -/
def isBarrier (i : MemInst) : Bool := !i.isMemRef && (i.isMemBarrier || i.isWriteBarrier)

/-- An older barrier that a load or a store has to wait for. -/
def blocks (b i : MemInst) : Bool :=
  b.isBarrier && decide (b.seqNum < i.seqNum) && (i.isLoad && b.isMemBarrier || i.isStore && (b.isMemBarrier || b.isWriteBarrier))

end MemInst

/-- A unit and the highest sequence number it has been given. Sequence numbers start at 1. -/
structure MemDepRun where
  unit : MemDepUnit
  last : Nat

namespace MemDepRun

def start : MemDepRun := ⟨.init, 0⟩

def step (s : MemDepRun) (e : MemDepEvent) : Except Stop MemDepRun := do
  let unit ← s.unit.step e
  match e with
  | .insert inst _ _ => return ⟨unit, inst.seqNum⟩
  | .insertBarrier inst => return ⟨unit, inst.seqNum⟩
  | _ => return { s with unit }

/-- Instructions are inserted in program order, loads and stores and barriers each on their way; what completes is in
  the unit, and barriers complete in program order. -/
def legal (s : MemDepRun) : MemDepEvent → Bool
  | .insert inst _ _ => inst.isMemRef && decide (s.last < inst.seqNum)
  | .insertBarrier inst => inst.isBarrier && decide (s.last < inst.seqNum)
  | .regsReady inst => decide (inst ∈ s.unit.instList)
  | .completed inst => inst.isMemRef && decide (inst ∈ s.unit.instList)
  | .wakeDependents inst => inst.isMemRef && decide (inst ∈ s.unit.instList)
  | .completeBarrier inst => inst.isBarrier && decide (inst ∈ s.unit.instList) &&
      s.unit.instList.all fun b => !b.isBarrier || decide (inst.seqNum ≤ b.seqNum)
  | .squash _ => true

/-- A barrier that is asked when the instruction is inserted. -/
def asks (s : MemDepUnit) (inst : MemInst) : Option Nat :=
  if inst.isLoad && s.loadBarrier then some s.loadBarrierSN
  else if inst.isStore && s.storeBarrier then some s.storeBarrierSN
  else none

/-- When barriers in flight block an instruction that is inserted, one as young as the youngest of them is asked. -/
def covered (s : MemDepRun) : MemDepEvent → Bool
  | .insert inst _ _ => s.unit.instList.all fun b => !b.blocks inst || match asks s.unit inst with
    | some sn => decide (b.seqNum ≤ sn)
    | none => false
  | _ => true

end MemDepRun

end Gem5.Cpu
