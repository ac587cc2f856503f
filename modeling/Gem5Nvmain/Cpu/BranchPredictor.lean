import Gem5Nvmain.Cpu.ReturnAddrStack

/- The branch predictor of one thread (src/cpu/pred/bpred_unit_impl.hh).

  What the direction predictor and the branch target buffer answer is part of the branch that is predicted (`lookup`,
  `btbValid`); they keep no record that the stack depends on, and the predicted target is not modelled. The history
  lists the branches in flight, the newest first. -/
namespace Gem5.Cpu
open Lib

structure PredictorHistory (α : Type) where
  seqNum : Nat
  /-- Only valid for a return that used the stack. -/
  rasTarget : α
  rasIndex : Nat
  predTaken : Bool
  usedRAS : Bool := false
  pushedRAS : Bool := false
  wasCall : Bool := false
  wasReturn : Bool := false
  wasSquashed : Bool := false
  deriving DecidableEq, Repr

structure BPredUnit (α : Type) where
  ras : ReturnAddrStack α
  predHist : List (PredictorHistory α)
  deriving DecidableEq, Repr

/-- A branch at `pc`, with what the direction predictor and the target buffer say of it. -/
structure Branch (α : Type) where
  seqNum : Nat
  pc : α
  isUncondCtrl : Bool
  isCall : Bool
  isReturn : Bool
  lookup : Bool
  btbValid : Bool
  deriving DecidableEq, Repr

/-- The direction that is looked up: an unconditional branch is taken. -/
def Branch.direction {α : Type} (b : Branch α) : Bool := if b.isUncondCtrl then true else b.lookup

namespace BPredUnit
variable {α : Type}

/-- A branch that is predicted taken and not a return pushes when it is a call. -/
def predictCall (b : Branch α) (ras : ReturnAddrStack α) (record : PredictorHistory α) :
    Except Stop (ReturnAddrStack α × PredictorHistory α) :=
  if b.isCall then do
    let ras ← ras.push b.pc
    return (ras, { record with pushedRAS := true, wasCall := true })
  else
    return (ras, record)

/-- Without an entry in the target buffer it is not taken; a conditional call is popped again. -/
def predictTarget (b : Branch α) (ras : ReturnAddrStack α) (record : PredictorHistory α) :
    Bool × ReturnAddrStack α × PredictorHistory α :=
  if b.btbValid then
    (true, ras, record)
  else if b.isCall && !b.isUncondCtrl then
    (false, ras.pop, { record with pushedRAS := false })
  else
    (false, ras, record)

def predictRAS (b : Branch α) (ras : ReturnAddrStack α) (record : PredictorHistory α) :
    Except Stop (Bool × ReturnAddrStack α × PredictorHistory α) :=
  if record.predTaken then
    if b.isReturn then do
      let rasTop ← ras.top
      return (true, ras.pop, { record with wasReturn := true, usedRAS := true, rasIndex := ras.topIdx, rasTarget := rasTop })
    else do
      let (ras, record) ← predictCall b ras record
      return predictTarget b ras record
  else
    return (false, ras, if b.isReturn then { record with wasReturn := true } else record)

def predict [Inhabited α] (b : Branch α) (s : BPredUnit α) : Except Stop (Bool × BPredUnit α) := do
  let (predTaken, ras, record) ← predictRAS b s.ras ⟨b.seqNum, default, 0, b.direction, false, false, false, false, false⟩
  return (predTaken, ⟨ras, record :: s.predHist⟩)

/-- Commits the branches up to `doneSn`, from the oldest on. -/
def update (doneSn : Nat) (s : BPredUnit α) : BPredUnit α :=
  { s with predHist := (s.predHist.reverse.dropWhile fun h => decide (h.seqNum ≤ doneSn)).reverse }

/-- What a squash does to the stack for a branch. -/
def undoRAS (h : PredictorHistory α) (ras : ReturnAddrStack α) : Except Stop (ReturnAddrStack α) :=
  if h.usedRAS then ras.restore h.rasIndex h.rasTarget
  else if h.wasCall && h.pushedRAS then return ras.pop
  else return ras

def squashLoop (squashedSn : Nat) : List (PredictorHistory α) → ReturnAddrStack α → Except Stop (BPredUnit α)
  | [], ras => return ⟨ras, []⟩
  | h :: rest, ras =>
    if h.seqNum > squashedSn then do
      let ras ← undoRAS h ras
      squashLoop squashedSn rest ras
    else
      return ⟨ras, h :: rest⟩

def squash (squashedSn : Nat) (s : BPredUnit α) : Except Stop (BPredUnit α) := squashLoop squashedSn s.predHist s.ras

/-- Corrects the stack and the record of a branch that turned out taken or not taken. -/
def fixUp (actuallyTaken : Bool) (h : PredictorHistory α) (ras : ReturnAddrStack α) :
    Except Stop (ReturnAddrStack α × PredictorHistory α) :=
  if actuallyTaken then
    if h.wasReturn && !h.usedRAS then
      return (ras.pop, { h with wasSquashed := true, usedRAS := true })
    else
      return (ras, { h with wasSquashed := true })
  else
    if h.usedRAS then do
      let ras ← ras.restore h.rasIndex h.rasTarget
      return (ras, { h with wasSquashed := true, usedRAS := false })
    else if h.wasCall && h.pushedRAS then
      return (ras.pop, { h with wasSquashed := true, pushedRAS := false })
    else
      return (ras, { h with wasSquashed := true })

/-- The squash of everything after a mispredicted branch, which then corrects the branch. -/
def squashCorrect (squashedSn : Nat) (actuallyTaken : Bool) (s : BPredUnit α) : Except Stop (BPredUnit α) := do
  let s ← s.squash squashedSn
  match s.predHist with
  | [] => return s
  | h :: rest => do
    require (h.seqNum = squashedSn)
    let (ras, h) ← fixUp actuallyTaken h s.ras
    return ⟨ras, h :: rest⟩

end BPredUnit

/-- What the branch predictor is asked to do. -/
inductive BranchEvent (α : Type) where
  | predict (b : Branch α)
  | update (doneSn : Nat)
  | squash (squashedSn : Nat)
  | squashCorrect (squashedSn : Nat) (actuallyTaken : Bool)

/-! The branches processed so far. -/

/-- A stack and how many of its entries are live. -/
structure Snapshot (α : Type) where
  ras : ReturnAddrStack α
  live : Nat

/-- The same top of stack and the same live entries. -/
def Snapshot.Same {α : Type} (s t : Snapshot α) : Prop :=
  s.ras.tos = t.ras.tos ∧ s.live = t.live ∧ ∀ i, i < s.live → s.ras.entry i = t.ras.entry i

/-- A branch that is not squashed: its record, and the stack right before and right after it was processed. -/
structure Processed (α : Type) where
  record : PredictorHistory α
  before : Snapshot α
  after : Snapshot α

/-- A branch predictor with the branches it has processed, the newest first. A push adds a live entry to the stack, a
  pop takes one off, and a squash goes back to the live entries there were. -/
structure Predicted (α : Type) where
  unit : BPredUnit α
  live : Nat
  processed : List (Processed α)
  /-- The highest committed and the highest predicted sequence number. -/
  committed : Nat
  last : Nat

/-- How many entries are live after a branch, when `live` were before it. -/
def PredictorHistory.liveAfter {α : Type} (h : PredictorHistory α) (live : Nat) : Nat :=
  if h.usedRAS then live - 1 else if h.pushedRAS then live + 1 else live

/-- A return that was predicted not taken and then corrected: it has popped an entry that its record does not hold. -/
def PredictorHistory.unrecorded {α : Type} (h : PredictorHistory α) : Bool := h.wasReturn && h.usedRAS && !h.predTaken

/-- The branch pushes its address, at least until the target buffer has no entry for it. -/
def Branch.pushes {α : Type} (b : Branch α) : Bool := b.direction && !b.isReturn && b.isCall

namespace Predicted
variable {α : Type} [Inhabited α]

def start (numEntries : Nat) : Predicted α := ⟨⟨.init numEntries, []⟩, 0, [], 0, 0⟩

def snapshot (s : Predicted α) : Snapshot α := ⟨s.unit.ras, s.live⟩

/-- The branches that a squash to `n` leaves. -/
def upTo (n : Nat) (s : Predicted α) : List (Processed α) := s.processed.filter fun p => decide (p.record.seqNum ≤ n)

/-- What held right after the last branch up to `n`, or at the start when there is none. -/
def afterUpTo (numEntries n : Nat) (s : Predicted α) : Snapshot α :=
  (((s.upTo n).head?).map Processed.after).getD (start numEntries).snapshot

def step (numEntries : Nat) (s : Predicted α) : BranchEvent α → Except Stop (Predicted α)
  | .predict b => do
    let (_, unit) ← s.unit.predict b
    match unit.predHist with
    | [] => return { s with unit }
    | h :: _ =>
      let live := h.liveAfter s.live
      return { s with unit, live, processed := ⟨h, s.snapshot, ⟨unit.ras, live⟩⟩ :: s.processed, last := b.seqNum }
  | .update n => return { s with unit := s.unit.update n, committed := max s.committed n }
  | .squash n => do
    let unit ← s.unit.squash n
    return { s with unit, live := (s.afterUpTo numEntries n).live, processed := s.upTo n }
  | .squashCorrect n taken => do
    let unit ← s.unit.squashCorrect n taken
    match unit.predHist, s.upTo n with
    | h :: _, p :: rest =>
      let live := h.liveAfter p.before.live
      return { s with unit, live, processed := ⟨h, p.before, ⟨unit.ras, live⟩⟩ :: rest }
    | _, left => return { s with unit, live := (s.afterUpTo numEntries n).live, processed := left }

/-- Branches come in order, nothing that is committed is squashed, and no push goes over a live entry. -/
def legal (numEntries : Nat) (s : Predicted α) : BranchEvent α → Bool
  | .predict b => decide (s.last < b.seqNum) && decide (s.committed < b.seqNum) && (!b.pushes || decide (s.live < numEntries))
  | .update _ => true
  | .squash n => decide (s.committed ≤ n)
  | .squashCorrect n _ => decide (s.committed ≤ n)

/-- No return that was corrected to be taken is squashed by a squash to `n`. -/
def records (n : Nat) (s : Predicted α) : Bool := s.unit.predHist.all fun h => decide (h.seqNum ≤ n) || !h.unrecorded

/-- No return that was corrected to be taken is squashed, or corrected again to be not taken. -/
def recorded (s : Predicted α) : BranchEvent α → Bool
  | .predict _ => true
  | .update _ => true
  | .squash n => s.records n
  | .squashCorrect n taken =>
    s.records n && (taken || s.unit.predHist.all fun h => !decide (h.seqNum = n) || !h.unrecorded)

end Predicted

end Gem5.Cpu
