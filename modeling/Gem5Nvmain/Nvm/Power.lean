import Gem5Nvmain.Nvm.BanksSpec

/- The power-down side of the memory (PowerDown and PowerUp of nvmain-test/Banks/DDR3Bank/DDR3Bank.cpp and
  Ranks/StandardRank/StandardRank.cpp, the power-down registers of these and of src/SubArray.cpp, and the states of a
  rank).

  It stands on `Nvm/Banks`: a bank with power-down is a `Bank` with the registers `nextPowerDown` and `nextPowerUp`
  and the mode it is powered down in. A command that is no power-down command does to the `Bank` and the `Rank` inside
  what it does without (`PoweredRank.toRank_request`).

  Correspondence (C++ ↔ Lean):
    `DDR3BANK_PDA`, `DDR3BANK_PDPF`, `DDR3BANK_PDPS` ↔ `power`; `state` is the state that PowerUp goes back to
    `STANDARDRANK_PDA`, ... ↔ `RankState.down`
    an event that the rank inserts for itself ↔ its cycle in `completions`
    `assert( rv == true )` and the like ↔ `require`

  The events of a cycle come before the commands of that cycle. What `IssueCommand` checks once more after
  `IsIssuable` has said yes is left out. -/
namespace Nvm
open Lib Function

/-- `POWERDOWN_PDA`, `POWERDOWN_PDPF`, `POWERDOWN_PDPS`, and the states they lead to. -/
inductive PowerDown where
  | pda | pdpf | pdps
  deriving DecidableEq, Repr

variable {p : Params}

inductive Command (p : Params) where
  | request (r : Request p)
  | powerDown (d : PowerDown)
  | powerUp

structure PowerTiming (p : Params) extends Timing p where
  tPD : Nat := 6
  tXP : Nat := 6
  tXPDLL : Nat := 17
  tRDPDEN : Nat := 24
  tWRPDEN : Nat := 19

variable (tm : PowerTiming p)

/-! ## Sub-arrays -/

/-- The power-down registers of a sub-array. -/
structure SubArrayPower where
  nextPowerDown : Nat := 0
  nextPowerDownPreWrite : Nat := 0

namespace SubArrayPower

/-- `CheckWritePausing`. -/
def checkWritePausing (c : Nat) (s : SubArray p) (w : SubArrayPower) : SubArrayPower :=
  if p.writePausing && s.isWriting c then { w with nextPowerDown := w.nextPowerDownPreWrite } else w

def issueCommand (c : Nat) (s : SubArray p) (w : SubArrayPower) (r : Request p) : SubArrayPower :=
  match r.type with
  | .activate =>
    let w := w.checkWritePausing c s
    { w with nextPowerDown := max w.nextPowerDown (c + max tm.tRCD tm.tRAS) }
  | .read | .readPrecharge =>
    let w := w.checkWritePausing c s
    let done := c + tm.burst * (tm.burstCount r - 1) + tm.tCAS + tm.tAL + tm.tBURST + 1 + tm.decLat r
    { w with nextPowerDown := max w.nextPowerDown done }
  | .write | .writePrecharge =>
    { w with
      nextPowerDown := max w.nextPowerDown (s.issueCommand tm.toTiming c r).next.precharge
      nextPowerDownPreWrite := w.nextPowerDown }
  | _ => w

end SubArrayPower

/-! ## Banks -/

structure PoweredBank (p : Params) extends Bank p where
  /-- `none` when the bank is not powered down. -/
  power : Option PowerDown := none
  nextPowerDown : Nat := 0
  nextPowerUp : Nat := 0
  subArrayPower : Nat → SubArrayPower := fun _ => {}

namespace PoweredBank

/-- `SetConfig`. -/
def init (initPD : Bool) : PoweredBank p := { power := if initPD then some .pdpf else none }

def isIssuable (c : Nat) (b : PoweredBank p) : Command p → Bool
  | .request r => b.power.isNone && b.toBank.isIssuable c r
  | .powerDown d => decide (b.nextPowerDown ≤ c) && b.power.isNone &&
      !((d == .pdpf || d == .pdps) && b.state == .opened) &&
      (List.range p.subArrayNum).all fun i => decide ((b.subArrayPower i).nextPowerDown ≤ c) && !(b.subArray c i).isWriting c
  | .powerUp => decide (b.nextPowerUp ≤ c) && b.power.isSome

/-- When the bank may be powered down after a command. A WRITE_PRECHARGE takes the maximum with `nextActivate`. -/
def powerDownAfter (c : Nat) (b : PoweredBank p) (r : Request p) : Nat :=
  let bursts := tm.burst * (tm.burstCount r - 1)
  match r.type with
  | .activate => max b.nextPowerDown (c + tm.tRCD)
  | .readPrecharge => max b.nextPowerDown (c + bursts + tm.tAL + tm.tRTP + tm.tRP)
  | .read => max b.nextPowerDown (bursts + c + tm.tRDPDEN)
  | .writePrecharge => max b.next.activate (c + bursts + tm.tAL + tm.tCWD + tm.tBURST + tm.tWR + tm.tRP)
  | .write => max b.nextPowerDown (bursts + c + tm.tWRPDEN)
  | .precharge | .prechargeAll => max b.nextPowerDown (c + tm.tRP)
  | .refresh => max b.nextPowerDown (c + tm.tRFC)
  | .cachedRead | .cachedWrite => b.nextPowerDown

def request (c : Nat) (b : PoweredBank p) (r : Request p) : PoweredBank p :=
  let i := r.address.subarray
  -- "try to open a bank that is not idle"
  if r.type = .activate ∧ b.state ≠ .closed ∧ b.activeSubArrayQueue = [] then b
  else
    { b with
      toBank := b.toBank.issueCommand tm.toTiming c r
      nextPowerDown := b.powerDownAfter tm c r
      subArrayPower := update b.subArrayPower i ((b.subArrayPower i).issueCommand tm c (b.subArray c i) r) }

def powerDown (c : Nat) (b : PoweredBank p) (d : PowerDown) : PoweredBank p :=
  { b with
    nextPowerUp := max b.nextPowerUp (c + tm.tPD)
    power := some (match b.state with
      | .opened => .pda
      | .closed => match d with
        | .pda | .pdpf => .pdpf
        | .pdps => .pdps) }

def powerUp (c : Nat) (b : PoweredBank p) : PoweredBank p :=
  let read := if b.power = some .pdps then c + tm.tXPDLL else c + tm.tXP
  { b with
    nextPowerDown := max b.nextPowerDown (c + tm.tXP)
    next := b.next.meet ⟨c + tm.tXP, read, c + tm.tXP, c + tm.tXP⟩
    state := if b.power = some .pda then .opened else .closed
    power := none }

def issueCommand (c : Nat) (b : PoweredBank p) : Command p → PoweredBank p
  | .request r => b.request tm c r
  | .powerDown d => b.powerDown tm c d
  | .powerUp => b.powerUp tm c

/-- All sub-arrays are closed, or will be. -/
def idle (c : Nat) (b : PoweredBank p) : Bool :=
  (List.range p.subArrayNum).all fun i => (b.subArray c i).state == .closed || (b.subArray c i).state == .precharging

end PoweredBank

/-! ## Ranks -/

inductive RankState where
  | closed | opened | refreshing
  | down (d : PowerDown)
  deriving DecidableEq, Repr

structure PoweredRank (p : Params) where
  next : Next
  lastActivate : Nat → Nat := fun _ => 0
  rawIndex : Nat := 0
  banks : Nat → PoweredBank p
  state : RankState := .closed
  /-- When the implicit precharges and the refreshes of the rank end. -/
  completions : List Nat := []

namespace PoweredRank

/-- `SetConfig`. -/
def init (initPD : Bool) : PoweredRank p :=
  { next := ⟨tm.tCMD, tm.tCMD, tm.tCMD, tm.tCMD⟩, banks := fun _ => PoweredBank.init initPD }

/-- The rank without power-down. -/
def toRank (k : PoweredRank p) : Rank p := ⟨k.next, k.lastActivate, k.rawIndex, fun i => (k.banks i).toBank⟩

/-- The banks that a command reaches. -/
def reached (r : Request p) : List Nat := if r.type = .refresh then Rank.refreshed r else [r.address.bank]

def canPowerDown (c : Nat) (k : PoweredRank p) (d : PowerDown) : Bool :=
  k.state != .refreshing && (List.range p.banks).all fun i => (k.banks i).isIssuable c (.powerDown d)

/-- `CanPowerUp`: "Since all banks are powered down, check the first bank is enough". -/
def canPowerUp (c : Nat) (k : PoweredRank p) : Except Stop Bool := do
  let issuableCount := (List.range p.banks).countP fun i => (k.banks i).isIssuable c .powerUp
  require (issuableCount == 0 || issuableCount == p.banks)
  pure (issuableCount == p.banks)

def isIssuable (c : Nat) (k : PoweredRank p) : Command p → Except Stop Bool
  | .request r => do
    -- a REFRESH that the registers hold back is not looked at
    let looksAt := r.type == .refresh && decide (k.next.activate ≤ c) && decide (k.toRank.windowEnd tm.toTiming ≤ c)
    require (!looksAt || decide (r.address.bank + p.banksPerRefresh ≤ p.banks))
    pure (k.toRank.isIssuable tm.toTiming c r && (reached r).all fun i => (k.banks i).power.isNone)
  | .powerDown d => pure (k.canPowerDown c d)
  | .powerUp => k.canPowerUp c

def idle (c : Nat) (k : PoweredRank p) : Bool := (List.range p.banks).all fun i => (k.banks i).idle c

/-- The end of the implicit precharge or of the refresh that a command starts at the rank. -/
def completion (c : Nat) (r : Request p) : Option Nat :=
  let bursts := tm.burst * (tm.burstCount r - 1)
  match r.type with
  | .readPrecharge => some (bursts + c + tm.tAL + tm.tRTP)
  | .writePrecharge => some (c + bursts + tm.tAL + tm.tCWD + tm.tBURST + tm.tWR)
  | .refresh => some (c + tm.tRFC)
  | _ => none

/-- The state of the rank after a command. -/
def stateAfter (c : Nat) (k : PoweredRank p) (r : Request p) : RankState :=
  match r.type with
  | .activate => if k.state = .closed then .opened else k.state
  | .precharge | .prechargeAll => if k.idle c then .closed else k.state
  | .refresh => .refreshing
  | _ => k.state

def request (c : Nat) (k : PoweredRank p) (r : Request p) : PoweredRank p :=
  let rank := k.toRank.issueCommand tm.toTiming c r
  let k := { k with
    next := rank.next
    lastActivate := rank.lastActivate
    rawIndex := rank.rawIndex
    banks := fun i => if i ∈ reached r then (k.banks i).request tm c r else k.banks i
    completions := (completion tm c r).toList ++ k.completions }
  { k with state := k.stateAfter c r }

def powerDown (c : Nat) (k : PoweredRank p) (d : PowerDown) : Except Stop (PoweredRank p) := do
  require ((List.range p.banks).all fun i => (k.banks i).isIssuable c (.powerDown d))
  pure { k with
    banks := fun i => if i < p.banks then (k.banks i).powerDown tm c d else k.banks i
    state := .down d }

/-- `PowerUp`. In any other state "PowerUp is issued to a Rank that is not PowerDown before". -/
def powerUp (c : Nat) (k : PoweredRank p) : Except Stop (PoweredRank p) := do
  require ((List.range p.banks).all fun i => (k.banks i).isIssuable c .powerUp)
  pure { k with
    banks := fun i => if i < p.banks then (k.banks i).powerUp tm c else k.banks i
    state := match k.state with
      | .down .pda => .opened
      | .down .pdpf | .down .pdps => .closed
      | s => s }

/-- The switch of `IssueCommand`. -/
def dispatch (c : Nat) (k : PoweredRank p) : Command p → Except Stop (PoweredRank p)
  | .request r => .ok (k.request tm c r)
  | .powerDown d => k.powerDown tm c d
  | .powerUp => k.powerUp tm c

/-- `IssueCommand`, and whether it accepts the command. -/
def issueCommand (c : Nat) (k : PoweredRank p) (cmd : Command p) : Except Stop (PoweredRank p × Bool) := do
  let issuable ← k.isIssuable tm c cmd
  if issuable then do
    let k ← k.dispatch tm c cmd
    pure (k, true)
  else pure (k, false)

/-- `RequestComplete` of a PRECHARGE or REFRESH of the rank. -/
def requestComplete (c : Nat) (k : PoweredRank p) : PoweredRank p :=
  { k with
    state := if k.idle c then .closed else k.state
    completions := k.completions.erase c }

/-- `Notify`. -/
def notify (c : Nat) (k : PoweredRank p) (r : Request p) : PoweredRank p :=
  { k with next := (k.toRank.notify tm.toTiming c r).next }

end PoweredRank

/-! ## Runs -/

/-- A rank and the cycle it is at. -/
structure RankRun (p : Params) where
  rank : PoweredRank p
  cycle : Nat := 0

namespace RankRun

inductive Op (p : Params) where
  | issueCommand (cmd : Command p)
  /-- A command of another rank on the bus. -/
  | notify (r : Request p)
  | requestComplete
  | tick

def step (x : RankRun p) : Op p → Except Stop (RankRun p)
  | .issueCommand cmd => do
    -- the events of this cycle come first
    if x.cycle ∈ x.rank.completions then pure x
    else do
      let z ← x.rank.issueCommand tm x.cycle cmd
      pure { x with rank := z.1 }
  | .notify r => pure { x with rank := x.rank.notify tm x.cycle r }
  | .requestComplete =>
    if x.cycle ∈ x.rank.completions then pure { x with rank := x.rank.requestComplete x.cycle } else pure x
  | .tick => if x.cycle ∈ x.rank.completions then pure x else pure { x with cycle := x.cycle + 1 }

end RankRun

/-! ## The memory below -/

section Below
variable {p : Params} {tm : PowerTiming p}

variable (tm) in
theorem PoweredBank.toBank_request (c : Nat) (b : PoweredBank p) (r : Request p) :
    (b.request tm c r).toBank = b.toBank.issueCommand tm.toTiming c r := by
  unfold PoweredBank.request
  by_cases hidle : r.type = .activate ∧ b.state ≠ .closed ∧ b.activeSubArrayQueue = []
  · rw [if_pos hidle, Bank.issueCommand, hidle.1]
    simp only [Bank.activate, if_pos hidle.2]
  · rw [if_neg hidle]

namespace PoweredRank
variable {c : Nat} {k k' : PoweredRank p} {r : Request p} {cmd : Command p}

variable (tm c k r) in
/-- Without its power-down side a rank does what `Rank` says. -/
theorem toRank_request : (k.request tm c r).toRank = k.toRank.issueCommand tm.toTiming c r := by
  have hbanks : (fun i => ((k.request tm c r).banks i).toBank) = (k.toRank.issueCommand tm.toTiming c r).banks := by
    funext i
    have hi : ((k.request tm c r).banks i).toBank =
        if i ∈ reached r then (k.banks i).toBank.issueCommand tm.toTiming c r else (k.banks i).toBank := by
      simp only [request]
      split
      · exact PoweredBank.toBank_request tm c _ r
      · rfl
    rw [hi]
    unfold Rank.issueCommand reached
    cases htype : r.type <;> simp only [reduceCtorEq, if_false, if_true, List.mem_singleton]
    case refresh => simp only [Rank.activated, Rank.onBanks_eq tm.toTiming Rank.refreshed_nodup, toRank]
    case cachedRead | cachedWrite => simp [toRank, Bank.issueCommand, htype]
    all_goals
      simp only [Rank.onBank, Rank.activated, toRank, update_apply]
      split
      · rename_i heq
        rw [heq]
      · rfl
  show (⟨_, _, _, fun i => ((k.request tm c r).banks i).toBank⟩ : Rank p) = _
  rw [hbanks]
  rfl

theorem issueCommand_cases {ok : Bool} (h : k.issueCommand tm c cmd = .ok (k', ok)) :
    (ok = true ∧ k.isIssuable tm c cmd = .ok true ∧ k.dispatch tm c cmd = .ok k') ∨ (ok = false ∧ k' = k) := by
  obtain ⟨issuable, hissuable, h⟩ := of_bind h
  cases issuable with
  | true =>
    obtain ⟨k'', hk, h⟩ := of_bind h
    cases h
    exact .inl ⟨rfl, hissuable, hk⟩
  | false =>
    cases h
    exact .inr ⟨rfl, rfl⟩

end PoweredRank

end Below

end Nvm
