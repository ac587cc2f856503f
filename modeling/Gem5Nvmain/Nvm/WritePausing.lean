import Gem5Nvmain.Nvm.Banks
import Gem5Nvmain.Nvm.CellWrites
import Gem5Nvmain.Lib.OrderedKeys

/- Pausing and cancelling the writes of a sub-array (SubArray::CheckWritePausing, nvmain-test/src/SubArray.cpp).

  A write keeps the cells busy from `writeStart` to `writeEnd`, and its event comes later, when the data were on the
  bus. Until then an ACTIVATE or READ interrupts it: what is left of it is recorded in the request, the request goes
  back to the controller in the next cycle, and another Write of it takes the time that is left (it was paused) or
  begins again (it was cancelled).

  Cycles are 64-bit numbers here, as a difference of two of them can wrap. `Banks` has the same sub-array for the
  timing rules, with cycles that do not.

  | here | in the source |
  | `exceedsThreshold progress timer` | `1.0f - progress / timer > PauseThreshold`, in floats |
  | `writeEvent` | `writeEvent`, with `writeEventTime` |
  | `responses` | the events of the sub-array that change it when they come |
  | `encLat`, `endrLat`, `decLat`, `data` | what the encoder and the endurance model return, and the data they leave |

  Left out: energy, statistics and power-down, with `nextCommand`, which is never set. -/
namespace Nvm
open Lib

/-- When to interrupt, and what to keep. -/
inductive PauseMode where
  /-- Wait until the write pulse ends. -/
  | normal
  /-- Cancel the iteration. -/
  | iiwc
  /-- Take the iteration as complete. -/
  | optimal
  deriving DecidableEq

structure PausingParams where
  cells : CellParams
  writeMode : WriteMode
  writePausing : Bool
  pauseMode : PauseMode
  exceedsThreshold : BitVec 64 → BitVec 64 → Bool
  maxCancellations : BitVec 64
  usePrecharge : Bool
  rows : BitVec 64
  tAL : BitVec 64
  tCAS : BitVec 64
  tCCD : BitVec 64
  tCWD : BitVec 64
  tRAS : BitVec 64
  tRCD : BitVec 64
  tRFC : BitVec 64
  tRP : BitVec 64
  tRTP : BitVec 64
  tRTRS : BitVec 64
  tWR : BitVec 64
  tWTR : BitVec 64

namespace PausingParams
variable (p : PausingParams)

def tBURST : BitVec 64 := p.cells.tBURST

/-- `MAX(tBURST, tCCD)`. -/
def burst : BitVec 64 := maxOf p.tBURST p.tCCD

end PausingParams

/-! ## Requests -/

structure ColumnRequest where
  row : BitVec 64
  burstCount : BitVec 64
  /-- READ_PRECHARGE or WRITE_PRECHARGE. -/
  implicitPrecharge : Bool

structure WriteRequest extends ColumnRequest where
  writeProgress : BitVec 64 := 0
  cancellations : BitVec 64 := 0
  /-- `FLAG_PAUSED`. -/
  paused : Bool := false
  /-- `FLAG_CANCELLED`. -/
  cancelled : Bool := false
  /-- `FLAG_FORCED`. -/
  forced : Bool := false

/-- What `CheckWritePausing` does to the request. -/
def WriteRequest.interrupt (p : PausingParams) (writeProgress writeTimer writeEnd : BitVec 64) (w : WriteRequest) :
    WriteRequest :=
  let w := { w with writeProgress := writeProgress }
  if p.exceedsThreshold writeProgress writeTimer then
    if writeProgress ≠ writeEnd then { w with paused := true } else w
  else
    { w with
      cancelled := true
      cancellations := w.cancellations + 1
      -- forced after several cancellations, so that the write makes progress
      forced := w.forced || decide (p.maxCancellations ≤ w.cancellations + 1) }

/-! ## The sub-array -/

/-- The `next*` registers. -/
structure NextCycles where
  activate : BitVec 64 := 0
  read : BitVec 64 := 0
  write : BitVec 64 := 0
  precharge : BitVec 64 := 0

/-- `next = MAX(next, ...)`. -/
def NextCycles.meet (n m : NextCycles) : NextCycles :=
  ⟨maxOf n.activate m.activate, maxOf n.read m.read, maxOf n.write m.write, maxOf n.precharge m.precharge⟩

inductive ResponseType where
  /-- The write `r` is complete, or comes back paused or cancelled. -/
  | write (r : Nat)
  /-- The implicit precharge begins. -/
  | implicitPrecharge
  /-- A PRECHARGE or REFRESH ends. -/
  | closed
  deriving DecidableEq

structure Response where
  type : ResponseType
  time : BitVec 64
  deriving DecidableEq

/-- A sub-array with the requests that are written to it. -/
structure WritingArray where
  /-- `GetCurrentCycle`. -/
  now : BitVec 64 := 0
  state : SubArrayState := .closed
  openRow : BitVec 64 := 0
  next : NextCycles := {}
  /-- `nextActivatePreWrite` and so on. -/
  preWrite : NextCycles := {}
  writeCycle : Bool := false
  isWriting : Bool := false
  writeRequest : Option Nat := none
  writeStart : BitVec 64 := 0
  writeEnd : BitVec 64 := 0
  /-- In increasing order. -/
  writeIterationStarts : List (BitVec 64) := []
  writeEvent : Option Response := none
  responses : List Response := []
  requests : Nat → WriteRequest

namespace WritingArray
variable (p : PausingParams) (s : WritingArray)

/-- Before the first command. -/
def new (columns : Nat → ColumnRequest) : WritingArray where
  requests := fun r => { columns r with }

/-- The write that an ACTIVATE or READ interrupts. -/
def interrupted : Option Nat := if p.writePausing && s.isWriting then s.writeRequest else none

/-- The loop over `writeIterationStarts`. -/
def nextIterationStart : BitVec 64 := lastUpTo BitVec.toNat s.now.toNat s.writeStart s.writeIterationStarts

def writeProgress : BitVec 64 :=
  if p.pauseMode = .optimal then s.writeEnd - s.now else s.writeEnd - s.nextIterationStart

def setRequest (r : Nat) (w : WriteRequest) : WritingArray :=
  { s with requests := Function.update s.requests r w }

def checkWritePausing : WritingArray :=
  match s.interrupted p with
  | none => s
  | some r =>
    let w := (s.requests r).interrupt p (s.writeProgress p) (s.writeEnd - s.writeStart) s.writeEnd
    -- the event of the write is removed
    let responses := match s.writeEvent with
      | some e => s.responses.erase e
      | none => s.responses
    { s.setRequest r w with
      writeEvent := none
      responses := responses ++ [⟨.write r, s.now + 1⟩]
      next := s.preWrite }

def betweenWriteIterations : Bool := s.isWriting && s.writeIterationStarts.contains s.now

/-! ## Commands -/

/-- The commands, with what the encoder, the endurance model and `NormalDistribution` return on the way. -/
inductive Command where
  | activate (row : BitVec 64) (priority : Bool)
  | read (request : ColumnRequest) (decLat : BitVec 64)
  | write (r : Nat) (data : Option (List (BitVec 32))) (draw draw' encLat endrLat : BitVec 64)
  | precharge (data : Option (List (BitVec 32))) (draw encLat endrLat : BitVec 64)
  | refresh

/-- A write in progress that can not be paused. -/
def forcedWrite : Bool := (s.interrupted p).any fun r => (s.requests r).forced

def isIssuable : Command → Bool
  | .activate _ priority => decide (s.next.activate ≤ s.now) && !(p.usePrecharge && s.state != .closed) &&
      !s.forcedWrite p && !(p.writePausing && s.isWriting && !priority)
  | .read request _ => decide (s.next.read ≤ s.now) && s.state == .opened && request.row == s.openRow &&
      !s.forcedWrite p
  | .write r _ _ _ _ _ => decide (s.next.write ≤ s.now) && s.state == .opened && (s.requests r).row == s.openRow
  | .precharge _ _ _ _ => decide (s.next.precharge ≤ s.now) && (s.state == .opened || s.state == .closed)
  | .refresh => decide (s.next.activate ≤ s.now) && s.state == .closed

def activate (row : BitVec 64) : WritingArray :=
  let s := s.checkWritePausing p
  if s.now < s.next.activate ∨ (p.usePrecharge ∧ s.state ≠ .closed) then s
  else
    let next : NextCycles :=
      { precharge := s.now + maxOf p.tRCD p.tRAS, read := s.now + p.tRCD - p.tAL, write := s.now + p.tRCD - p.tAL }
    { s with
      next := s.next.meet next
      openRow := row
      state := .opened
      writeCycle := false }

/-- The registers and the event of an implicit precharge that begins at cycle `t`. -/
def closeBehind (t : BitVec 64) : WritingArray :=
  let next := maxOf s.next.activate (t + p.tRP)
  { s with
    next := s.next.meet ⟨next, next, next, next⟩
    responses := s.responses ++ [⟨.implicitPrecharge, t⟩] }

def read (request : ColumnRequest) (decLat : BitVec 64) : WritingArray :=
  let s := s.checkWritePausing p
  if s.now < s.next.read ∨ s.state ≠ .opened ∨ request.row ≠ s.openRow then s
  else
    let bursts := p.burst * (request.burstCount - 1)
    if request.implicitPrecharge then s.closeBehind p (s.now + p.tAL + p.tRTP + decLat + bursts)
    else
      let next : NextCycles :=
        { precharge := s.now + bursts + p.tAL + p.tBURST + p.tRTP - p.tCCD + decLat
          read := s.now + p.burst * request.burstCount
          write := s.now + bursts + p.tCAS + p.tBURST + p.tRTRS - p.tCWD + decLat }
      { s with next := s.next.meet next }

/-- How long the cells are written, with the iterations of `WriteCellData1`: a write that was paused has those of a
  whole write and takes what it had left. -/
def cellWrite (w : WriteRequest) (data : Option (List (BitVec 32))) (draw draw' : BitVec 64) : Except Stop CellWrite := do
  let first ← p.cells.writeCellData1 p.writeMode s.now draw data
  let write ← (if w.paused then pure ⟨w.writeProgress, first.starts⟩
    else p.cells.writeCellData1 p.writeMode s.now draw' data : Except Stop CellWrite)
  pure (if p.writeMode = .writeBack ∧ s.writeCycle then ⟨0, write.starts⟩ else write)

/-- The registers and events after a write that takes `writeTimer` cycles. -/
def occupy (r : Nat) (w : WriteRequest) (writeTimer : BitVec 64) : WritingArray :=
  let bursts := p.burst * (w.burstCount - 1)
  let done := s.now + bursts + p.tAL + p.tCWD + p.tBURST + writeTimer + p.tWR
  let s :=
    if w.implicitPrecharge then s.closeBehind p done
    else
      let next : NextCycles :=
        { precharge := done
          read := s.now + bursts + p.tCWD + p.tBURST + p.tWTR + writeTimer
          write := s.now + p.burst * w.burstCount + writeTimer }
      { s with next := s.next.meet next }
  let writeEvent : Response := ⟨.write r, s.now + p.tCWD + p.burst * w.burstCount + writeTimer⟩
  { s with
    isWriting := true
    writeRequest := some r
    writeStart := s.now
    writeEnd := s.now + writeTimer
    writeEvent := some writeEvent
    responses := s.responses ++ [writeEvent]
    writeCycle := true }

def write (r : Nat) (data : Option (List (BitVec 32))) (draw draw' encLat endrLat : BitVec 64) :
    Except Stop WritingArray :=
  let w := s.requests r
  if s.now < s.next.write ∨ s.state ≠ .opened ∨ w.row ≠ s.openRow then .ok s
  else do
    let write ← s.cellWrite p w data draw draw'
    let restarted := { w with paused := false, cancelled := false }
    let s := { s with writeIterationStarts := write.starts, preWrite := s.next }
    match p.writeMode with
    | .writeBack => pure ((s.setRequest r restarted).occupy p r w write.delay)
    | .writeThrough =>
      pure ((s.setRequest r { restarted with writeProgress := write.delay }).occupy p r w
        (write.delay + (encLat + endrLat)))

/-- How long a PRECHARGE takes, with the iterations of `WriteCellData2`. -/
def prechargeTimer (data : Option (List (BitVec 32))) (draw encLat endrLat : BitVec 64) :
    Except Stop (BitVec 64 × List (BitVec 64)) :=
  if p.writeMode = .writeBack ∧ s.writeCycle then do
    let write ← p.cells.writeCellData2 s.now draw data
    pure (maxOf 1 (p.tRP + write.delay) + (encLat + endrLat), write.starts)
  else .ok (maxOf 1 p.tRP, s.writeIterationStarts)

def precharge (data : Option (List (BitVec 32))) (draw encLat endrLat : BitVec 64) : Except Stop WritingArray :=
  if s.now < s.next.precharge ∨ (s.state ≠ .closed ∧ s.state ≠ .opened) then .ok s
  else do
    let (writeTimer, starts) ← s.prechargeTimer p data draw encLat endrLat
    pure { s with
      writeIterationStarts := starts
      next := s.next.meet { activate := s.now + writeTimer }
      responses := s.responses ++ [⟨.closed, s.now + writeTimer⟩]
      state := .precharging }

def refresh : WritingArray :=
  if s.now < s.next.activate ∨ s.state ≠ .closed then s
  else
    { s with
      next := s.next.meet { activate := s.now + p.tRFC }
      responses := s.responses ++ [⟨.closed, s.now + p.tRFC⟩]
      state := .refreshing }

/-- A command that is not issuable changes nothing. -/
def issueCommand (c : Command) : Except Stop WritingArray :=
  if s.isIssuable p c then
    match c with
    | .activate row _ => .ok (s.activate p row)
    | .read request decLat => .ok (s.read p request decLat)
    | .write r data draw draw' encLat endrLat => s.write p r data draw draw' encLat endrLat
    | .precharge data draw encLat endrLat => s.precharge p data draw encLat endrLat
    | .refresh => .ok (s.refresh p)
  else .ok s

def requestComplete : ResponseType → WritingArray
  | .write r => if s.writeRequest = some r then { s with isWriting := false } else s
  | .implicitPrecharge =>
    { s with state := .precharging, responses := s.responses ++ [⟨.closed, s.now + p.tRP⟩] }
  | .closed => { s with state := .closed, openRow := p.rows }

/-! ## Steps -/

inductive Op where
  /-- The clock goes on, not past an event. -/
  | advance (t : BitVec 64)
  /-- The `i`-th event comes; one whose cycle has passed comes at once. -/
  | respond (i : Nat)
  /-- The controller sets `FLAG_FORCED`. -/
  | force (r : Nat)
  | issue (c : Command)

def step : Op → Except Stop WritingArray
  | .advance t => do
    require (decide (s.now ≤ t) && s.responses.all fun e => decide (t ≤ e.time))
    pure { s with now := t }
  | .respond i => do
    let e ← index s.responses i
    require (decide (e.time ≤ s.now))
    pure ({ s with responses := s.responses.eraseIdx i }.requestComplete p e.type)
  | .force r => pure (s.setRequest r { s.requests r with forced := true })
  | .issue c => s.issueCommand p c

end WritingArray

end Nvm
