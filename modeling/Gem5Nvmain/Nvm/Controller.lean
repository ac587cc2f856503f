import Gem5Nvmain.Lib.Exec
import Gem5Nvmain.Nvm.Request
import Mathlib.Logic.Function.Basic

/- The memory controller of NVMain (nvmain-test/src/MemoryController.cpp).

  The controller takes transactions out of its transaction queues, breaks them into commands in its command queues,
  and issues the heads of these to the memory below, one command a cycle. It predicts the rows that will be open when
  a command is queued, not when it is issued. Refresh pulses are counted for each group of banks, and a group whose
  counter reaches the threshold gets a REFRESH command.

  The memory below is a `Memory`: whether it takes a command now, and what it is afterwards. What it has not yet
  returned is in `below`.

  Correspondence (C++ ↔ Lean):
    `a[rank][bank]`, `a[rank][bank][subarray]` ↔ functions of `(rank, bank)` and `(rank, bank, subarray)`
    an index that can leave its array ↔ checked by `inBounds`
    `NVMainRequest *` ↔ the request: a queue and the memory below may both have it
    the event of `CleanupCallback` ↔ `cleanup`: it comes first in the next cycle
    `handledRefresh` before any refresh ↔ `none`
    `ncounter_t`, `ncycle_t` (64 bits) ↔ `Nat`, except where a counter could go below 0: a refresh
      counter rises by less than one a cycle
  `ScheduleCommandWake`, which the functions call last, is in `Nvm/Wake`: besides events it only makes further calls
  of `HandleRefresh`. Left out: low power, the events that wake the transaction scheduler, and statistics. -/
namespace Nvm
open Lib Function

/-- What the controller sees of a sub-array. -/
structure Writing where
  isWriting : Bool
  betweenWriteIterations : Bool

structure Memory (p : Params) (M : Type) where
  isIssuable : M → Nat → Request p → Bool
  issueCommand : M → Nat → Request p → M
  /-- `FindChild(req, SubArray)`. -/
  subArray : M → Nat → Request p → Option Writing

/-- A memory that takes every command while it is ready. -/
def readyMemory (p : Params) : Memory p Bool where
  isIssuable := fun ready _ r => ready && r.type != .cachedRead && r.type != .cachedWrite
  issueCommand := fun m _ _ => m
  subArray := fun _ _ _ => some ⟨false, false⟩

structure Controller (p : Params) where
  transactionQueues : Nat → List (Request p) := fun _ => []
  commandQueues : Nat → List (Request p) := fun _ => []
  activateQueued : Nat × Nat → Bool := fun _ => false
  activeSubArray : Nat × Nat × Nat → Bool := fun _ => false
  effectiveRow : Nat × Nat × Nat → Nat := fun _ => p.rows
  effectiveMuxedRow : Nat × Nat × Nat → Nat := fun _ => p.rows
  starvationCounter : Nat × Nat × Nat → Nat := fun _ => 0
  bankNeedRefresh : Nat × Nat → Bool := fun _ => false
  refreshQueued : Nat × Nat → Bool := fun _ => false
  delayedRefreshCounter : Nat × Nat → Nat := fun _ => 0
  nextRefreshRank : Nat := 0
  nextRefreshBank : Nat := 0
  handledRefresh : Option Nat := none
  curQueue : Nat := 0
  lastIssueCycle : Nat := 0
  cycle : Nat := 0
  cleanup : Bool := false
  /-- `m_draining` and `force_drain` of `FRFCFS_WQF`. -/
  draining : Bool := false
  forceDrain : Bool := false

/-- Going outside an array. -/
def inBounds (c : Bool) : Except Stop Unit := if c then .ok () else .error .outOfRange

@[simp] theorem inBounds_eq_ok {c : Bool} {u : Unit} : inBounds c = .ok u ↔ c = true := by
  cases c <;> simp [inBounds]

variable {p : Params}

namespace Controller

/-- `commandQueues[queueId].push_back(r)`. -/
def push (s : Controller p) (queueId : Nat) (r : Request p) : Controller p :=
  { s with commandQueues := update s.commandQueues queueId (s.commandQueues queueId ++ [r]) }

/-! ## Refresh -/

/-- `NeedRefresh(bank, rank)`. -/
def needRefresh (s : Controller p) (bank rank : Nat) : Except Stop Bool :=
  if p.useRefresh then do
    inBounds (rank < p.ranks && bank / p.banksPerRefresh < p.refreshBankNum)
    pure (s.delayedRefreshCounter (rank, bank / p.banksPerRefresh) ≥ p.delayedRefreshThreshold)
  else pure false

/-- The banks of the group of a bank, from the head of the group on. -/
def groupBanks (p : Params) (bank : Nat) : List Nat :=
  (List.range p.banksPerRefresh).map fun i => bank / p.banksPerRefresh * p.banksPerRefresh + i

/-- `bankNeedRefresh[rank][b] = v`. -/
def setNeed (rank : Nat) (v : Bool) (s : Controller p) (b : Nat) : Except Stop (Controller p) := do
  inBounds (b < p.banks)
  pure { s with bankNeedRefresh := update s.bankNeedRefresh (rank, b) v }

/-- A loop over a bank group that sets `bankNeedRefresh`. -/
def setBankNeedRefresh (s : Controller p) (bank rank : Nat) (v : Bool) : Except Stop (Controller p) :=
  (groupBanks p bank).foldlM (setNeed rank v) s

def setRefresh (s : Controller p) (bank rank : Nat) : Except Stop (Controller p) :=
  s.setBankNeedRefresh bank rank true

def resetRefresh (s : Controller p) (bank rank : Nat) : Except Stop (Controller p) :=
  s.setBankNeedRefresh bank rank false

/-- One round of the loop of `ResetRefreshQueued`. -/
def resetQueued (rank : Nat) (s : Controller p) (b : Nat) : Except Stop (Controller p) := do
  inBounds (b < p.banks)
  require (s.refreshQueued (rank, b))
  pure { s with refreshQueued := update s.refreshQueued (rank, b) false }

def resetRefreshQueued (s : Controller p) (bank rank : Nat) : Except Stop (Controller p) :=
  (groupBanks p bank).foldlM (resetQueued rank) s

/-- `IncrementRefreshCounter(bank, rank)`. -/
def incrementRefreshCounter (s : Controller p) (bank rank : Nat) : Except Stop (Controller p) := do
  let group := (rank, bank / p.banksPerRefresh)
  inBounds (rank < p.ranks && group.2 < p.refreshBankNum)
  pure { s with delayedRefreshCounter := update s.delayedRefreshCounter group (s.delayedRefreshCounter group + 1) }

/-- `DecrementRefreshCounter(bank, rank)`: below 0 the counter wraps around. -/
def decrementRefreshCounter (s : Controller p) (bank rank : Nat) : Except Stop (Controller p) := do
  let group := (rank, bank / p.banksPerRefresh)
  inBounds (rank < p.ranks && group.2 < p.refreshBankNum)
  let counter := s.delayedRefreshCounter group
  let counter := if counter = 0 then 2 ^ 64 - 1 else counter - 1
  pure { s with delayedRefreshCounter := update s.delayedRefreshCounter group counter }

/-- `ProcessRefreshPulse` for the pulse of a bank group. -/
def processRefreshPulse (s : Controller p) (bank rank : Nat) : Except Stop (Controller p) := do
  let s ← s.incrementRefreshCounter bank rank
  if ← s.needRefresh bank rank then s.setRefresh bank rank else pure s

/-- Closing the open sub-arrays of a bank before its refresh. -/
def prechargeBank (s : Controller p) (a : Address p) : Controller p :=
  if p.usePrecharge && s.activateQueued (a.rank, a.bank) then
    let s := s.push (getCommandQueueId a) (makePrechargeAllRequest s.cycle a)
    let here := fun k : Nat × Nat × Nat => k.1 = a.rank ∧ k.2.1 = a.bank ∧ k.2.2 < p.subArrayNum
    { s with
      activeSubArray := fun k => if here k then false else s.activeSubArray k
      effectiveRow := fun k => if here k then p.rows else s.effectiveRow k
      effectiveMuxedRow := fun k => if here k then p.rows else s.effectiveMuxedRow k
      activateQueued := update s.activateQueued (a.rank, a.bank) false }
  else s

/-- The bank `tmpBank` places behind `a`, around the end of the rank. -/
def refreshBank (a : Address p) (tmpBank : Nat) : Address p :=
  Address.ofBank ((tmpBank + a.bank) % p.banks) a.rank (Nat.mod_lt _ p.banks_pos) a.rank_lt

/-- Precharging the banks of the group whose head is `a`. -/
def prechargeGroup (s : Controller p) (a : Address p) : Controller p :=
  (List.range p.banksPerRefresh).foldl (fun s tmpBank => s.prechargeBank (refreshBank a tmpBank)) s

/-- "Disallow queuing commands to non-bank-head queues." -/
def markRefreshQueued (s : Controller p) (a : Address p) : Controller p :=
  (List.range p.banksPerRefresh).foldl (fun s tmpBank =>
    { s with refreshQueued := update s.refreshQueued (a.rank, (refreshBank a tmpBank).bank) true }) s

/-- The round-robin over the bank groups. -/
def moveRefresh (s : Controller p) : Controller p :=
  let nextRefreshBank := s.nextRefreshBank + p.banksPerRefresh
  if nextRefreshBank ≥ p.banks then
    let nextRefreshRank := s.nextRefreshRank + 1
    { s with nextRefreshBank := 0, nextRefreshRank := if nextRefreshRank = p.ranks then 0 else nextRefreshRank }
  else { s with nextRefreshBank := nextRefreshBank }

/-- The commands of a refresh of the group whose head is `a`. -/
def enterRefresh (s : Controller p) (a : Address p) : Controller p :=
  let s := s.prechargeGroup a
  (s.push (getCommandQueueId a) (makeRefreshRequest s.cycle a)).markRefreshQueued a

/-- "if do not need refresh anymore, reset the refresh flag". -/
def settleNeed (s : Controller p) (a : Address p) : Except Stop (Controller p) := do
  let need ← s.needRefresh a.bank a.rank
  if need then pure s else s.resetRefresh a.bank a.rank

/-- `HandleRefresh` once it has found a bank group. -/
def queueRefresh (s : Controller p) (a : Address p) : Except Stop (Controller p) := do
  let s ← (s.enterRefresh a).decrementRefreshCounter a.bank a.rank
  let s ← s.settleNeed a
  pure { s with handledRefresh := some s.cycle }.moveRefresh

/-- The order in which `HandleRefresh` looks at the bank groups. -/
def refreshOrder (s : Controller p) : List (Address p) :=
  (List.range p.ranks).flatMap fun rankIdx =>
    (List.range p.refreshBankNum).map fun bankIdx =>
      Address.ofBank ((s.nextRefreshBank + bankIdx * p.banksPerRefresh) % p.banks)
        ((s.nextRefreshRank + rankIdx) % p.ranks) (Nat.mod_lt _ p.banks_pos) (Nat.mod_lt _ p.ranks_pos)

/-- The loops of `HandleRefresh`. -/
def handleRefreshFrom (s : Controller p) : List (Address p) → Except Stop (Controller p × Bool)
  | [] => .ok (s, false)
  | a :: rest => do
    if ← s.needRefresh a.bank a.rank then
      let s ← s.queueRefresh a
      pure (s, true)
    else s.handleRefreshFrom rest

def handleRefresh (s : Controller p) : Except Stop (Controller p × Bool) := s.handleRefreshFrom s.refreshOrder

/-- "First of all, see whether we can issue a necessary refresh." -/
def refreshFirst (s : Controller p) : Except Stop (Controller p × Bool) :=
  if p.useRefresh && !p.eventDriven then s.handleRefresh else .ok (s, false)

/-! ## From transactions to commands -/

/-- `MakeCachedRequest`: the copy has none of the flags. -/
def makeCachedRequest (r : Request p) : Except Stop (Request p) := do
  require (isReadOrWrite r)
  pure { type := if r.type = .read then .cachedRead else .cachedWrite
         address := r.address, arrivalCycle := r.arrivalCycle, issueCycle := r.issueCycle }

/-- The row of the request is the one that will be open. -/
def rowBufferHit (s : Controller p) (a : Address p) : Bool :=
  let here := (a.rank, a.bank, a.subarray)
  s.activeSubArray here && s.effectiveRow here == a.row && s.effectiveMuxedRow here == a.col / p.rbSize

/-- The bookkeeping of a row that is about to be opened. -/
def openRow (s : Controller p) (a : Address p) : Controller p :=
  let here := (a.rank, a.bank, a.subarray)
  { s with
    activateQueued := update s.activateQueued (a.rank, a.bank) true
    activeSubArray := update s.activeSubArray here true
    effectiveRow := update s.effectiveRow here a.row
    effectiveMuxedRow := update s.effectiveMuxedRow here (a.col / p.rbSize)
    starvationCounter := update s.starvationCounter here 0 }

/-- The bookkeeping of a row that an implicit precharge is about to close. -/
def closeRow (s : Controller p) (a : Address p) : Controller p :=
  let here := (a.rank, a.bank, a.subarray)
  { s with
    activeSubArray := update s.activeSubArray here false
    effectiveRow := update s.effectiveRow here p.rows
    effectiveMuxedRow := update s.effectiveMuxedRow here p.rows }

/-- No sub-array of the bank is active. -/
def bankIdle (s : Controller p) (a : Address p) : Bool :=
  (List.range p.subArrayNum).all fun i => !s.activeSubArray (a.rank, a.bank, i)

def noActivate (s : Controller p) (a : Address p) : Controller p :=
  { s with activateQueued := update s.activateQueued (a.rank, a.bank) false }

section Below
variable {M : Type} (mem : Memory p M) (m : M)

/-- The ACTIVATE of a request, which may interrupt a write. -/
def activateFor (s : Controller p) (r : Request p) : Request p :=
  let writing := match mem.subArray m s.cycle r with
    | some w => w.isWriting
    | none => false
  { makeActivateRequest s.cycle r with priority := writing }

/-- A request that is accessible by other means than the row buffer. -/
def queueCached (s : Controller p) (r : Request p) : Controller p :=
  s.push (getCommandQueueId r.address) { r with issueCycle := s.cycle }

/-- The commands for a bank without an open row. -/
def queueClosed (s : Controller p) (r : Request p) : Controller p :=
  let a := r.address
  let queueId := getCommandQueueId a
  let req := { r with issueCycle := s.cycle }
  let act := (s.openRow a).push queueId (activateFor mem m s r)
  if r.lastRequest && p.usePrecharge then
    ((act.push queueId (makeImplicitPrechargeRequest s.cycle req)).closeRow a).noActivate a
  else act.push queueId req

/-- The commands for a bank with open rows, where the row of the request is not open. -/
def queueMiss (s : Controller p) (r : Request p) : Controller p :=
  let a := r.address
  let queueId := getCommandQueueId a
  let here := (a.rank, a.bank, a.subarray)
  let pre := if s.activeSubArray here && p.usePrecharge then
      s.push queueId (makePrechargeRequest s.cycle (s.effectiveRow here) a)
    else s
  ((pre.push queueId (activateFor mem m s r)).push queueId { r with issueCycle := s.cycle }).openRow a

def starve (s : Controller p) (a : Address p) : Controller p :=
  let here := (a.rank, a.bank, a.subarray)
  { s with starvationCounter := update s.starvationCounter here (s.starvationCounter here + 1) }

/-- The command for an open row. -/
def queueHit (s : Controller p) (r : Request p) : Except Stop (Controller p) :=
  let a := r.address
  let queueId := getCommandQueueId a
  let req := { r with issueCycle := s.cycle }
  if r.lastRequest && p.usePrecharge then do
    -- "if Restricted Close-Page is applied, we should never be here"
    require (p.closePage != 2)
    let s := ((s.starve a).push queueId (makeImplicitPrechargeRequest s.cycle req)).closeRow a
    pure (if s.bankIdle a then s.noActivate a else s)
  else pure ((s.starve a).push queueId req)

/-- `IssueMemoryCommands`: the new state, and whether the request was queued. -/
def issueMemoryCommands (s : Controller p) (r : Request p) : Except Stop (Controller p × Bool) := do
  let a := r.address
  let active := s.activateQueued (a.rank, a.bank)
  let empty := (s.commandQueues (getCommandQueueId a)).isEmpty
  let cachedRequest ← makeCachedRequest r
  if mem.isIssuable m s.cycle cachedRequest && !(active && s.rowBufferHit a) then pure (s.queueCached r, true)
  else if !active && empty then pure (s.queueClosed mem m r, true)
  else if active && !s.rowBufferHit a && empty then pure (s.queueMiss mem m r, true)
  else if active && s.rowBufferHit a then do
    let s ← s.queueHit r
    pure (s, true)
  else pure (s, false)

/-! ## Choosing a transaction -/

/-- `IsLastRequest`: whether the row can be closed behind the request. -/
def isLastRequest (transactionQueue : List (Request p)) (r : Request p) : Bool :=
  if p.closePage = 0 then false
  else if p.closePage = 1 then
    !transactionQueue.any fun x => x.address.rank == r.address.rank && x.address.bank == r.address.bank &&
      x.address.row == r.address.row && x.address.subarray == r.address.subarray
  else true

/-- The functions that take a request out of a transaction queue. -/
inductive Find where
  | starvedRequest | rowBufferHit | cachedAddress | writeStalledRead | oldestReadyRequest | closedBankRequest
  deriving DecidableEq, Repr

/-- What such a function does with the request it looks at. -/
inductive Choice where
  | pass
  | take
  /-- The scheduler stalls until the write can be paused. -/
  | stall
  /-- The search ends without a request. -/
  | giveUp
  deriving DecidableEq, Repr

/-- The conditions that all searches but that of cached addresses share. -/
def ready (s : Controller p) (r : Request p) : Bool :=
  let bk := (r.address.rank, r.address.bank)
  !s.bankNeedRefresh bk && !s.refreshQueued bk && r.arrivalCycle != s.cycle

def look (s : Controller p) (f : Find) (r : Request p) : Except Stop Choice :=
  let a := r.address
  let active := s.activateQueued (a.rank, a.bank)
  let select := fun c : Bool => (.ok (if c then .take else .pass) : Except Stop Choice)
  let empty := (s.commandQueues (getCommandQueueId a)).isEmpty
  match f with
  | .starvedRequest => select (empty && active && !s.rowBufferHit a && s.ready r &&
      decide (s.starvationCounter (a.rank, a.bank, a.subarray) ≥ p.starvationThreshold))
  | .rowBufferHit => select (empty && active && s.rowBufferHit a && s.ready r)
  | .cachedAddress => do
    let cachedRequest ← makeCachedRequest r
    select (empty && mem.isIssuable m s.cycle cachedRequest && r.arrivalCycle != s.cycle)
  | .writeStalledRead =>
    if !p.writePausing then .ok .giveUp
    else if r.type ≠ .read || !empty then .ok .pass
    else
      match mem.subArray m s.cycle r with
      | none => .ok .giveUp
      | some w =>
        let testActivate := { makeActivateRequest s.cycle r with priority := true }
        if s.ready r && w.isWriting &&
            (mem.isIssuable m s.cycle r || mem.isIssuable m s.cycle testActivate) then
          .ok (if !w.betweenWriteIterations && p.pauseNormal then .stall else .take)
        else .ok .pass
  | .oldestReadyRequest => select (empty && active && s.ready r)
  | .closedBankRequest => select (empty && !active && s.ready r)

/-- What a search finds: a request, with the queue without it. -/
inductive Found (p : Params) where
  | nothing
  | stalled
  | taken (r : Request p) (rest : List (Request p))

/-- The loop of a search, before it marks the last request. -/
def search (s : Controller p) (f : Find) : List (Request p) → Except Stop (Found p)
  | [] => .ok .nothing
  | r :: l => do
    match ← look mem m s f r with
    | .take => pure (.taken r l)
    | .stall => pure .stalled
    | .giveUp => pure .nothing
    | .pass =>
      match ← s.search f l with
      | .taken x rest => pure (.taken x (r :: rest))
      | x => pure x

/-- All but `FindCachedAddress` mark the last request for a row. -/
def find (s : Controller p) (f : Find) (transactionQueue : List (Request p)) : Except Stop (Found p) := do
  match ← s.search mem m f transactionQueue with
  | .taken r rest =>
    let last := f ≠ .cachedAddress && isLastRequest rest r
    pure (.taken { r with lastRequest := r.lastRequest || last } rest)
  | x => pure x

/-- The searches of a scheduler, one after the other. -/
def findNext (s : Controller p) (transactionQueue : List (Request p)) : List Find → Except Stop (Found p)
  | [] => .ok .nothing
  | f :: fs => do
    match ← s.find mem m f transactionQueue with
    | .nothing => s.findNext transactionQueue fs
    | x => pure x

end Below

/-! ## Issuing commands -/

def moveCurrentQueue (s : Controller p) : Controller p :=
  if p.scheduleScheme = .fixed then s
  else
    let curQueue := s.curQueue + 1
    { s with curQueue := if curQueue > p.commandQueueCount then 0 else curQueue }

/-- What the controller does when the memory has taken the head of a queue. -/
def markIssued (s : Controller p) (queueId : Nat) (head : Request p) (rest : List (Request p)) :
    Except Stop (Controller p) := do
  let s := { s with commandQueues := update s.commandQueues queueId ({ head with issued := true } :: rest) }
  let s ← if head.type = .refresh then s.resetRefreshQueued head.address.bank head.address.rank else pure s
  pure { s with lastIssueCycle := s.cycle, cleanup := true }.moveCurrentQueue

/-- `CleanupCallback`. -/
def cleanupCallback (s : Controller p) : Controller p :=
  { s with commandQueues := fun q => (s.commandQueues q).filter fun r => !r.issued }

/-- The next cycle begins. -/
def tick (s : Controller p) : Controller p :=
  let s := if s.cleanup then s.cleanupCallback else s
  { s with cycle := s.cycle + 1, cleanup := false }

end Controller

/-- The controller with the memory below, and the requests that it has not returned. -/
structure System (p : Params) (M : Type) where
  ctl : Controller p := {}
  mem : M
  below : List (Request p) := []

namespace System
variable {M : Type} (mem : Memory p M)

/-- The loop of `CycleCommandQueues`: the first queue whose head the memory takes. -/
def nextQueue (x : System p M) : List Nat → Except Stop (Option Nat)
  | [] => .ok none
  | queueId :: rest =>
    match x.ctl.commandQueues queueId with
    | [] => x.nextQueue rest
    | head :: _ =>
      if x.ctl.lastIssueCycle ≠ x.ctl.cycle ∧ mem.isIssuable x.mem x.ctl.cycle head = true then .ok (some queueId)
      else if x.ctl.cycle - head.issueCycle > p.deadlockTimer then
        .error (.fatal "Operation could not be sent to memory after a very long time")
      else x.nextQueue rest

/-- The head of a queue goes to the memory. -/
def issueHead (x : System p M) (queueId : Nat) : Except Stop (System p M) :=
  match x.ctl.commandQueues queueId with
  | [] => .ok x
  | head :: tail => do
    let ctl ← x.ctl.markIssued queueId head tail
    pure { ctl := ctl
           mem := mem.issueCommand x.mem x.ctl.cycle head
           below := if head.id.isSome then { head with issued := true } :: x.below else x.below }

/-- The first part of `CycleCommandQueues`: a refresh that is queued now uses up the cycle. -/
def chooseQueue (x : System p M) : Except Stop (Controller p × Option Nat) := do
  let (ctl, queued) ← x.ctl.refreshFirst
  if queued || (p.eventDriven && ctl.handledRefresh == some ctl.cycle) then pure (ctl, none)
  else
    let order := (List.range p.commandQueueCount).map fun i => (ctl.curQueue + i) % p.commandQueueCount
    let queueId ← nextQueue mem { x with ctl := ctl } order
    pure (ctl, queueId)

def cycleCommandQueues (x : System p M) : Except Stop (System p M) := do
  let (ctl, queueId) ← x.chooseQueue mem
  match queueId with
  | some queueId => issueHead mem { x with ctl := ctl } queueId
  | none => pure { x with ctl := ctl }

end System

end Nvm
