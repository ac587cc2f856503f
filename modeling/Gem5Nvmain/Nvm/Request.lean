import Mathlib.Data.List.Basic

/- Requests of NVMain and the parameters of its memory controller (nvmain-test/include/NVMainRequest.h,
  include/NVMAddress.h, src/Params.cpp, MemoryController::SetConfig).

  The decoder translates every physical address to a rank, a bank and a sub-array that exist, so an `Address` carries
  these bounds, and the assertion of `GetCommandQueueId` holds (`getCommandQueueId_lt`).

  A request that came from above has an `id`; a command that the controller made for itself (`owner == this`) has
  none.

  Left out: power-down commands (`UseLowPower` off), the data, the channel, the burst count and the fields that only
  statistics read. With per-bank queues `ScheduleScheme` is 1 or 2: with 0 the assertion fails at the first request. -/
namespace Nvm

inductive QueueModel where
  | perRank | perBank | perSubArray
  deriving DecidableEq, Repr

inductive ScheduleScheme where
  /-- Fixed scheduling (0). -/
  | fixed
  /-- Rank-first round-robin (1). -/
  | rankFirst
  /-- Bank-first round-robin (2). -/
  | bankFirst
  deriving DecidableEq, Repr

structure Params where
  ranks : Nat
  banks : Nat
  rows : Nat
  subArrayNum : Nat
  rbSize : Nat
  queueModel : QueueModel
  scheduleScheme : ScheduleScheme := .rankFirst
  banksPerRefresh : Nat
  delayedRefreshThreshold : Nat := 1
  closePage : Nat := 1
  starvationThreshold : Nat := 4
  deadlockTimer : Nat := 10000000
  usePrecharge : Bool := true
  useRefresh : Bool := true
  eventDriven : Bool := false
  writePausing : Bool := false
  /-- `pauseMode == PauseMode_Normal`. -/
  pauseNormal : Bool := true
  ranks_pos : 0 < ranks
  banks_pos : 0 < banks
  subArrayNum_pos : 0 < subArrayNum
  rbSize_pos : 0 < rbSize
  scheme_ok : queueModel = .perBank → scheduleScheme ≠ .fixed
  /-- The assertions of `SetConfig`. -/
  banksPerRefresh_pos : 0 < banksPerRefresh
  banksPerRefresh_le : banksPerRefresh ≤ banks

namespace Params

theorem rankFirst_ok : QueueModel.perBank = .perBank → ScheduleScheme.rankFirst ≠ .fixed := by decide

variable (p : Params)

/-- The number of bank groups that have a refresh counter. -/
def refreshBankNum : Nat := p.banks / p.banksPerRefresh

def commandQueueCount : Nat :=
  match p.queueModel with
  | .perRank => p.ranks
  | .perBank => p.ranks * p.banks
  | .perSubArray => p.ranks * p.banks * p.subArrayNum

end Params

inductive OpType where
  | activate | read | readPrecharge | write | writePrecharge | precharge | prechargeAll | refresh
  | cachedRead | cachedWrite
  deriving DecidableEq, Repr

structure Address (p : Params) where
  row : Nat
  col : Nat
  bank : Nat
  rank : Nat
  subarray : Nat
  bank_lt : bank < p.banks
  rank_lt : rank < p.ranks
  subarray_lt : subarray < p.subArrayNum
  deriving DecidableEq, Repr

structure Request (p : Params) where
  id : Option Nat := none
  type : OpType
  address : Address p
  arrivalCycle : Nat := 0
  issueCycle : Nat := 0
  lastRequest : Bool := false
  cancelled : Bool := false
  paused : Bool := false
  forced : Bool := false
  priority : Bool := false
  issued : Bool := false
  deriving DecidableEq, Repr

variable {p : Params}

/-- `NVMAddress(0, 0, bank, rank, 0, 0)`. -/
def Address.ofBank (bank rank : Nat) (hb : bank < p.banks) (hr : rank < p.ranks) : Address p :=
  ⟨0, 0, bank, rank, 0, hb, hr, p.subArrayNum_pos⟩

/-- `GetCommandQueueId`. -/
def getCommandQueueId (a : Address p) : Nat :=
  match p.queueModel with
  | .perRank => a.rank
  | .perBank =>
    match p.scheduleScheme with
    | .fixed => p.commandQueueCount
    | .rankFirst => a.bank * p.ranks + a.rank
    | .bankFirst => a.rank * p.banks + a.bank
  | .perSubArray => a.rank * p.banks * p.subArrayNum + a.bank * p.subArrayNum + a.subarray

theorem index_lt {i j m n : Nat} (hi : i < m) (hj : j < n) : i * n + j < m * n := by
  calc i * n + j < i * n + n := Nat.add_lt_add_left hj _
    _ = (i + 1) * n := (Nat.succ_mul i n).symm
    _ ≤ m * n := Nat.mul_le_mul_right n hi

theorem getCommandQueueId_lt (a : Address p) : getCommandQueueId a < p.commandQueueCount := by
  have hok := p.scheme_ok
  unfold getCommandQueueId Params.commandQueueCount
  cases hmodel : p.queueModel with
  | perRank => exact a.rank_lt
  | perBank =>
    cases hscheme : p.scheduleScheme with
    | fixed => exact absurd hscheme (hok hmodel)
    | rankFirst =>
      rw [Nat.mul_comm p.ranks]
      exact index_lt a.bank_lt a.rank_lt
    | bankFirst => exact index_lt a.rank_lt a.bank_lt
  | perSubArray =>
    rw [← Nat.add_mul]
    exact index_lt (index_lt a.rank_lt a.bank_lt) a.subarray_lt

/-! ## Requests that the controller makes -/

def isReadOrWrite (r : Request p) : Bool := r.type == .read || r.type == .write

def Request.isWrite (r : Request p) : Bool := r.type == .write || r.type == .writePrecharge

/-- `MakeActivateRequest(triggerRequest)`. -/
def makeActivateRequest (cycle : Nat) (r : Request p) : Request p :=
  { type := .activate, address := r.address, issueCycle := cycle }

/-- `MakePrechargeRequest(row, 0, bank, rank, subarray)`. -/
def makePrechargeRequest (cycle row : Nat) (a : Address p) : Request p :=
  { type := .precharge, address := { a with row := row, col := 0 }, issueCycle := cycle }

/-- `MakePrechargeAllRequest(0, 0, bank, rank, 0)`. -/
def makePrechargeAllRequest (cycle : Nat) (a : Address p) : Request p :=
  { type := .prechargeAll, address := a, issueCycle := cycle }

/-- `MakeRefreshRequest(0, 0, bank, rank, 0)`. -/
def makeRefreshRequest (cycle : Nat) (a : Address p) : Request p :=
  { type := .refresh, address := a, issueCycle := cycle }

/-- `MakeImplicitPrechargeRequest`: the request itself changes its type. -/
def makeImplicitPrechargeRequest (cycle : Nat) (r : Request p) : Request p :=
  let type := match r.type with
    | .read => .readPrecharge
    | .write => .writePrecharge
    | t => t
  { r with type := type, issueCycle := cycle }

end Nvm
