import Gem5Nvmain.Nvm.Transactions

/- The write drains of FRFCFS_WQF (nvmain-test/MemControl/FRFCFS-WQF/FRFCFS-WQF.cpp).

  `Cycle` starts and ends a drain only without `force_drain`, which nothing takes back. So a drain that is under way
  when `Drain` is called never ends, and while it lasts the read queue is not searched (`System.stuck_run`). Any other
  state with reads only is served by the next `Cycle` (`servesReads_iff`), where the high watermark is not 0. -/
namespace Nvm
open Lib Function Controller System Policy

variable {p : Params} {M : Type}

/-- The two flags. -/
def Controller.modes (s : Controller p) : Bool × Bool := (s.draining, s.forceDrain)

namespace Policy

/-- The next `Cycle` searches the read queue. -/
def SearchesReads (pol : Policy) (s : Controller p) : Prop := pol.scheduled (pol.updateDraining s) = 0

/-- Reads that wait for no write are searched by the next `Cycle`, or by the one after it. -/
def ServesReads (pol : Policy) (mem : Memory p M) (m : M) (s : Controller p) : Prop :=
  s.transactionQueues 1 = [] → s.transactionQueues 0 ≠ [] →
    pol.SearchesReads s ∨ ∀ t, pol.schedule mem m s = .ok t → t.draining = false ∧ pol.SearchesReads t

end Policy

/-- The drain that does not end. -/
def Controller.Stuck (s : Controller p) : Prop := s.draining = true ∧ s.forceDrain = true

/-- `Drain` is called outside a write drain. -/
def System.drainsApart (x : System p M) : Op p M → Bool
  | .drain => !x.ctl.draining
  | _ => true

/-- What the commands and the refreshes leave alone. -/
def Controller.arrived (s : Controller p) : (Bool × Bool) × (Nat → List (Request p)) × Nat :=
  (s.modes, s.transactionQueues, s.cycle)

/-! ## The flags -/

section Flags
variable {pol : Policy} {mem : Memory p M} {m : M} {s s' : Controller p} {x y : System p M} {r : Request p} {queued : Bool}

theorem Adds.arrived {new : List (Request p)} (h : Adds s s' new) : s'.arrived = s.arrived := by
  have hframe := congrArg Controller.arrived h.frame
  exact hframe

theorem Controller.issueMemoryCommands_arrived (h : s.issueMemoryCommands mem m r = .ok (s', queued)) : s'.arrived = s.arrived := by
  obtain ⟨hr, hqueues⟩ := issueMemoryCommands_cases h
  cases queued with
  | true =>
    obtain ⟨c, new, hadds, -⟩ := hqueues.adds hr
    exact hadds.arrived
  | false => rw [hqueues.eq_of_false]

theorem Controller.queueRefresh_arrived {a : Address p} (h : s.queueRefresh a = .ok s') : s'.arrived = s.arrived := by
  obtain ⟨new, hadds, -⟩ := s.prechargeGroup_adds a
  obtain ⟨s₁, hs₁, h⟩ := of_bind h
  obtain ⟨_, -, hs₁⟩ := of_bind hs₁
  obtain ⟨s₂, hs₂, h⟩ := of_bind h
  obtain ⟨f, rfl⟩ := settleNeed_inv hs₂
  cases hs₁
  cases h
  rw [enterRefresh, markRefreshQueued_eq, moveRefresh_eq]
  exact hadds.arrived

theorem Controller.handleRefresh_arrived (h : s.handleRefresh = .ok (s', queued)) : s'.arrived = s.arrived := by
  rcases handleRefreshFrom_inv h with ⟨rfl, -⟩ | ⟨-, a, -, -, hs⟩
  · rfl
  · exact queueRefresh_arrived hs

theorem Controller.processRefreshPulse_arrived {bank rank : Nat} (h : s.processRefreshPulse bank rank = .ok s') :
    s'.arrived = s.arrived := by
  obtain ⟨s₁, hs₁, h⟩ := of_bind h
  obtain ⟨_, -, hs₁⟩ := of_bind hs₁
  obtain ⟨need, -, h⟩ := of_bind h
  cases hs₁
  cases need with
  | true =>
    obtain ⟨f, rfl⟩ := setBankNeedRefresh_inv h
    rfl
  | false =>
    cases h
    rfl

theorem System.cycleCommandQueues_arrived (h : x.cycleCommandQueues mem = .ok y) : y.ctl.arrived = x.ctl.arrived := by
  rcases cycleCommandQueues_cases h with ⟨-, rfl⟩ | ⟨ctl, -, hrefresh, rfl⟩ | ⟨q, -, head, tail, -, hissued⟩
  · rfl
  · exact handleRefresh_arrived hrefresh
  · obtain ⟨f, c, hctl, -⟩ := markIssued_inv hissued.ctl
    rw [hctl]
    rfl

theorem Policy.schedule_modes (h : pol.schedule mem m s = .ok s') : s'.modes = (pol.updateDraining s).modes := by
  obtain ⟨⟨t, found⟩, htake, h⟩ := of_bind h
  have ht : t.modes = (pol.updateDraining s).modes := by
    obtain ⟨res, -, htake⟩ := of_bind htake
    cases res with
    | nothing | stalled | taken _ _ =>
      cases htake
      rfl
  cases found with
  | none =>
    cases h
    exact ht
  | some r =>
    obtain ⟨⟨u, queued⟩, hissue, h⟩ := of_bind h
    cases h
    exact (congrArg Prod.fst (issueMemoryCommands_arrived hissue)).trans ht

/-- What a step does to the flags, the clock and the transactions: only `schedule` takes one, from the queue it searches. -/
theorem System.step_effect {op : Op p M} (h : x.step pol mem op = .ok y) : (y.ctl.modes = match op with
      | .schedule => (pol.updateDraining x.ctl).modes
      | .drain => (pol.drain x.ctl).modes
      | _ => x.ctl.modes) ∧ x.ctl.cycle ≤ y.ctl.cycle ∧
    ∀ q, (op = .schedule → q ≠ pol.scheduled (pol.updateDraining x.ctl)) →
      (x.ctl.transactionQueues q).length ≤ (y.ctl.transactionQueues q).length := by
  have hsame : ∀ {t : Controller p}, t.arrived = x.ctl.arrived → t.modes = x.ctl.modes ∧ x.ctl.cycle ≤ t.cycle ∧
      ∀ q, (op = .schedule → q ≠ pol.scheduled (pol.updateDraining x.ctl)) →
        (x.ctl.transactionQueues q).length ≤ (t.transactionQueues q).length := by
    intro t ht
    obtain ⟨hmodes, hrest⟩ := Prod.mk.inj ht
    obtain ⟨hqueues, hcycle⟩ := Prod.mk.inj hrest
    exact ⟨hmodes, Nat.le_of_eq hcycle.symm, fun q _ => Nat.le_of_eq (congrArg List.length (congrFun hqueues q).symm)⟩
  have hput : ∀ (q q' : Nat) (l : List (Request p)), (x.ctl.transactionQueues q').length ≤ l.length →
      (x.ctl.transactionQueues q).length ≤ (update x.ctl.transactionQueues q' l q).length := by
    intro q q' l hl
    rw [update_apply]
    split
    next h => exact h ▸ hl
    · exact Nat.le_refl _
  cases op with
  | issueCommand id write a =>
    cases h
    split
    · exact ⟨rfl, Nat.le_refl _, fun q _ => hput q _ _ (by simp)⟩
    · exact hsame rfl
  | schedule =>
    obtain ⟨ctl, hctl, h⟩ := of_bind h
    cases h
    refine ⟨Policy.schedule_modes hctl, ?_⟩
    obtain ⟨d, rfl⟩ | ⟨w, r, t, queued, htaken, hissue⟩ := Policy.schedule_cases hctl
    · exact ⟨Nat.le_refl _, fun _ _ => Nat.le_refl _⟩
    · obtain ⟨l₁, l₂, d, -, rfl, -⟩ := htaken.queue
      obtain ⟨-, hrest⟩ := Prod.mk.inj (issueMemoryCommands_arrived hissue)
      obtain ⟨hqueues, hcycle⟩ := Prod.mk.inj hrest
      refine ⟨Nat.le_of_eq hcycle.symm, fun q hq => Nat.le_of_eq (congrArg List.length ?_)⟩
      exact (update_of_ne (hq rfl) _ _).symm.trans (congrFun hqueues q).symm
  | refreshPulse rank group =>
    unfold step at h
    dsimp only at h
    split at h
    · obtain ⟨ctl, hctl, h⟩ := of_bind h
      cases h
      exact hsame (processRefreshPulse_arrived hctl)
    · cases h
      exact hsame rfl
  | handleRefresh =>
    obtain ⟨⟨ctl, queued⟩, hctl, h⟩ := of_bind h
    cases h
    exact hsame (handleRefresh_arrived hctl)
  | cycleCommandQueues => exact hsame (cycleCommandQueues_arrived h)
  | requestComplete id paused cancelled =>
    cases h
    unfold requestComplete
    dsimp only
    split
    · exact hsame rfl
    · split
      · exact ⟨rfl, Nat.le_refl _, fun q _ => hput q _ _ (by simp)⟩
      · exact hsame rfl
  | memory m =>
    cases h
    exact hsame rfl
  | drain =>
    cases h
    cases pol <;> exact ⟨rfl, Nat.le_refl _, fun _ _ => Nat.le_refl _⟩
  | tick =>
    cases h
    unfold tick
    split
    · exact ⟨rfl, Nat.le_succ _, fun _ _ => Nat.le_refl _⟩
    · exact ⟨rfl, Nat.le_succ _, fun _ _ => Nat.le_refl _⟩

end Flags

/-! ## Drains that end, and one that does not -/

section Drains
variable {rq wq hi lo : Nat} {mem : Memory p M} {m : M} {s : Controller p} {x y : System p M} {ops : List (Op p M)}

theorem updateDraining_forced (pol : Policy) (h : s.forceDrain = true) : pol.updateDraining s = s := by
  cases pol with
  | frfcfs => rfl
  | frfcfsWqf rq wq hi lo =>
    unfold updateDraining
    dsimp only
    rw [h, Bool.not_true, Bool.and_false, Bool.and_false, if_neg Bool.false_ne_true, if_neg Bool.false_ne_true]

theorem forceDrain_updateDraining (pol : Policy) (s : Controller p) : (pol.updateDraining s).forceDrain = s.forceDrain := by
  obtain ⟨d, hd⟩ := pol.updateDraining_eq s
  rw [hd]

theorem Controller.stuck_iff_modes : s.Stuck ↔ s.modes = (true, true) := by
  unfold Controller.Stuck modes
  rw [Prod.mk.injEq]

theorem System.stuck_step {op : Op p M} (hs : x.ctl.Stuck) (h : x.step (.frfcfsWqf rq wq hi lo) mem op = .ok y) : y.ctl.Stuck := by
  have hmodes := (step_effect h).1
  rw [stuck_iff_modes] at hs ⊢
  rw [hmodes]
  cases op with
  | schedule =>
    have hforce : x.ctl.forceDrain = true := congrArg Prod.snd hs
    rw [updateDraining_forced _ hforce]
    exact hs
  | drain =>
    have hdraining : x.ctl.draining = true := congrArg Prod.fst hs
    exact Prod.ext hdraining rfl
  | _ => exact hs

theorem System.stuck_run (hs : x.ctl.Stuck) (hr : Exec (StepOf (step (.frfcfsWqf rq wq hi lo) mem)) x ops y) : y.ctl.Stuck := by
  apply hr.invariant (P := fun x => x.ctl.Stuck) hs
  intro t op u ht hu
  exact stuck_step ht hu

theorem drainsApart_step {op : Op p M} (hs : ¬ x.ctl.Stuck) (hc : x.drainsApart op = true)
    (h : x.step (.frfcfsWqf rq wq hi lo) mem op = .ok y) : ¬ y.ctl.Stuck := by
  have hmodes := (step_effect h).1
  rw [stuck_iff_modes] at hs ⊢
  rw [hmodes]
  cases op with
  | schedule =>
    intro hboth
    have hforce : x.ctl.forceDrain = true := (forceDrain_updateDraining _ _).symm.trans (congrArg Prod.snd hboth)
    rw [updateDraining_forced _ hforce] at hboth
    exact hs hboth
  | drain =>
    intro hboth
    have hdraining : x.ctl.draining = true := congrArg Prod.fst hboth
    unfold drainsApart at hc
    rw [hdraining] at hc
    cases hc
  | _ => exact hs

theorem findNext_nil (s : Controller p) (mem : Memory p M) (m : M) (fs : List Controller.Find) :
    s.findNext mem m [] fs = .ok .nothing := by
  induction fs with
  | nil => rfl
  | cons f fs ih => exact ih

theorem schedule_without_writes {pol : Policy} (h : s.transactionQueues (pol.scheduled (pol.updateDraining s)) = []) :
    pol.schedule mem m s = .ok (pol.updateDraining s) := by
  have hqueue : (pol.updateDraining s).transactionQueues (pol.scheduled (pol.updateDraining s)) = [] := by
    obtain ⟨d, hd⟩ := pol.updateDraining_eq s
    have hsame : (pol.updateDraining s).transactionQueues = s.transactionQueues := by rw [hd]
    rw [hsame, h]
  unfold schedule take
  dsimp only
  rw [hqueue, findNext_nil]
  rfl

/-- Reads that wait for no write are served, unless the drain does not end or an empty write queue starts one. -/
theorem servesReads_iff (hw : s.transactionQueues 1 = []) (hr : s.transactionQueues 0 ≠ []) :
    Policy.ServesReads (.frfcfsWqf rq wq hi lo) mem m s ↔ ¬ s.Stuck ∧ (0 < hi ∨ s.draining = true ∨ s.forceDrain = true) := by
  have hnonempty : (s.transactionQueues 0).isEmpty = false := by
    rw [List.isEmpty_eq_false_iff]
    exact hr
  have hlen : (s.transactionQueues 1).length = 0 := by rw [hw, List.length_nil]
  have hserves : Policy.SearchesReads (.frfcfsWqf rq wq hi lo) s →
      Policy.ServesReads (.frfcfsWqf rq wq hi lo) mem m s := fun h _ _ => .inl h
  -- a `Cycle` that searches the empty write queue serves no read if it ends in a drain
  have hstarves : (updateDraining (.frfcfsWqf rq wq hi lo) s).draining = true →
      ¬ Policy.ServesReads (.frfcfsWqf rq wq hi lo) mem m s := by
    intro hd hserve
    have hone : scheduled (.frfcfsWqf rq wq hi lo) (updateDraining (.frfcfsWqf rq wq hi lo) s) = 1 := by
      unfold scheduled
      rw [hd, Bool.true_or, if_pos rfl]
    rcases hserve hw hr with hzero | hnext
    · rw [Policy.SearchesReads, hone] at hzero
      cases hzero
    · obtain ⟨hoff, -⟩ := hnext _ (schedule_without_writes (by rw [hone]; exact hw))
      rw [hd] at hoff
      cases hoff
  cases hd : s.draining with
  | true =>
    cases hf : s.forceDrain with
    | true =>
      refine iff_of_false (hstarves ?_) fun h => h.1 ⟨hd, hf⟩
      rw [updateDraining_forced _ hf]
      exact hd
    | false =>
      refine iff_of_true (hserves ?_) ⟨fun h => ?_, .inr (.inl rfl)⟩
      · simp [Policy.SearchesReads, scheduled, updateDraining, hd, hf, hlen]
      · rw [Controller.Stuck, hf] at h
        cases h.2
  | false =>
    have hnot : ¬ s.Stuck := by
      rw [Controller.Stuck, hd]
      intro h
      cases h.1
    cases hf : s.forceDrain with
    | true =>
      refine iff_of_true (hserves ?_) ⟨hnot, .inr (.inr rfl)⟩
      rw [Policy.SearchesReads, updateDraining_forced _ hf]
      simp [scheduled, hd, hnonempty]
    | false =>
      by_cases hhi : 0 < hi
      · refine iff_of_true (hserves ?_) ⟨hnot, .inl hhi⟩
        have hzero : hi ≠ 0 := Nat.ne_of_gt hhi
        simp [Policy.SearchesReads, scheduled, updateDraining, hd, hf, hlen, hzero]
      · refine iff_of_false (hstarves ?_) fun h => ?_
        · have hzero : hi = 0 := Nat.eq_zero_of_not_pos hhi
          simp [updateDraining, hd, hf, hzero]
        · rcases h.2 with h | h | h
          · exact hhi h
          · cases h
          · cases h

/-- In a run in which `Drain` is called outside write drains, reads that wait for no write are served. A call of
  `Drain` during a write drain ends this: afterwards they are never served. -/
theorem reads_are_served (hhi : 0 < hi)
    (hr : Exec (StepIf drainsApart (step (.frfcfsWqf rq wq hi lo) mem)) { mem := m } ops x) :
    Policy.ServesReads (.frfcfsWqf rq wq hi lo) mem x.mem x.ctl ∧ ∀ later y, x.drainsApart .drain = false →
      Exec (StepOf (step (.frfcfsWqf rq wq hi lo) mem)) { x with ctl := drain (.frfcfsWqf rq wq hi lo) x.ctl }
        later y →
      y.ctl.transactionQueues 1 = [] → y.ctl.transactionQueues 0 ≠ [] →
        ¬ Policy.ServesReads (.frfcfsWqf rq wq hi lo) mem y.mem y.ctl := by
  have hnot : ¬ x.ctl.Stuck := by
    apply hr.invariant
    · exact fun h => nomatch h.1
    · rintro t op u ht ⟨hc, hu⟩
      exact drainsApart_step ht hc hu
  constructor
  · intro hw hreads
    exact (servesReads_iff hw hreads).mpr ⟨hnot, .inl hhi⟩ hw hreads
  · intro later y hc hlater hw hreads hserve
    have hdraining : x.ctl.draining = true := Bool.not_eq_eq_eq_not.mp hc
    have hstuck := stuck_run (x := { x with ctl := drain (.frfcfsWqf rq wq hi lo) x.ctl }) ⟨hdraining, rfl⟩ hlater
    exact ((servesReads_iff hw hreads).mp hserve).1 hstuck

end Drains

/-- A write starts a drain and is taken; a read waits. -/
def drainAndRead : List (Op oneBank Bool) :=
  [.issueCommand 0 true (rowOf 0), .tick, .schedule, .issueCommand 1 false (rowOf 1)]

theorem reads_are_served_after_drain :
    ∃ x, Exec (StepIf drainsApart (step (.frfcfsWqf 4 1 1 0) (readyMemory oneBank))) { mem := true } drainAndRead x ∧
      x.ctl.draining = true ∧ Policy.ServesReads (.frfcfsWqf 4 1 1 0) (readyMemory oneBank) x.mem x.ctl := by
  refine Exec.ends_withIf (p := fun x => x.ctl.draining) (by decide) fun x hr hd => ?_
  exact ⟨hd, (reads_are_served (by decide) hr).1⟩

/-- `Drain` is called before the drain has ended, and the read is not served. -/
theorem drain_in_drain_starves :
    ∃ x, Exec (StepOf (step (.frfcfsWqf 4 1 1 0) (readyMemory oneBank))) { mem := true } (drainAndRead ++ [.drain]) x ∧
      x.ctl.transactionQueues 1 = [] ∧ x.ctl.transactionQueues 0 ≠ [] ∧
      ¬ Policy.ServesReads (.frfcfsWqf 4 1 1 0) (readyMemory oneBank) x.mem x.ctl := by
  refine Exec.ends_with (p := fun x => x.ctl.draining && x.ctl.forceDrain && (x.ctl.transactionQueues 1).isEmpty &&
        !(x.ctl.transactionQueues 0).isEmpty) (by decide) fun x hr hx => ?_
  simp only [Bool.and_eq_true, Bool.not_eq_eq_eq_not, Bool.not_true, List.isEmpty_iff, List.isEmpty_eq_false_iff] at hx
  obtain ⟨⟨⟨hd, hf⟩, hw⟩, hreads⟩ := hx
  exact ⟨hw, hreads, fun h => ((servesReads_iff hw hreads).mp h).1 ⟨hd, hf⟩⟩

/-! ## Watermarks and drain times -/

/-- The keys of the configuration that `FRFCFS_WQF::SetConfig` reads for the queues. -/
structure WqfConfig where
  readQueueSize : Option Nat := none
  writeQueueSize : Option Nat := none
  highWaterMark : Option Nat := none
  lowWaterMark : Option Nat := none

namespace WqfConfig

def writes (conf : WqfConfig) : Nat := conf.writeQueueSize.getD 8
def high (conf : WqfConfig) : Nat := conf.highWaterMark.getD 8
def low (conf : WqfConfig) : Nat := conf.lowWaterMark.getD 0

/-- `SetConfig`, over the values of the constructor. -/
def setConfig (conf : WqfConfig) : Policy :=
  let reads := conf.readQueueSize.getD 32
  if conf.high > conf.writes then .frfcfsWqf reads conf.writes conf.writes conf.low
  else if conf.low > conf.high then .frfcfsWqf reads conf.writes conf.high 0
  else .frfcfsWqf reads conf.writes conf.high conf.low

end WqfConfig

/-- `LowWaterMark <= HighWaterMark <= writeQueueSize`. -/
def Policy.Ordered : Policy → Prop
  | .frfcfsWqf _ wq hi lo => lo ≤ hi ∧ hi ≤ wq
  | .frfcfs _ => False

/-- What the differences at the end of a drain are made of. -/
structure DrainTimes where
  endReads : Nat
  startReads : Nat
  endCycle : Nat
  startCycle : Nat
  lastEndCycle : Nat

/-- `tmpEnterReadQueue`, `tmpDuration`, `tmpInterval` and `tmpReadDuration` are differences of unsigned numbers. -/
def DrainTimes.NoWrap (t : DrainTimes) : Prop :=
  t.startReads ≤ t.endReads ∧ t.startCycle ≤ t.endCycle ∧ t.lastEndCycle ≤ t.endCycle ∧
    t.endCycle - t.startCycle ≤ t.endCycle - t.lastEndCycle

/-- The variables of `FRFCFS_WQF` about its drains, and what was added to its statistics, the last drain first. -/
structure DrainStats where
  startCycle : Nat := 0
  startReadqueueSize : Nat := 0
  lastEndCycle : Nat := 0
  recorded : List DrainTimes := []

/-- `Cycle`. "drop the first drain since gem5 may have fast-forwarding" -/
def DrainStats.cycle (pol : Policy) (s : Controller p) (d : DrainStats) : DrainStats :=
  let reads := (s.transactionQueues 0).length
  let draining := (pol.updateDraining s).draining
  if !s.draining && draining then { d with startCycle := s.cycle, startReadqueueSize := reads }
  else if s.draining && !draining then
    { d with
      lastEndCycle := s.cycle
      recorded := if d.lastEndCycle = 0 then d.recorded
        else ⟨reads, d.startReadqueueSize, s.cycle, d.startCycle, d.lastEndCycle⟩ :: d.recorded }
  else d

def drainStep (pol : Policy) (mem : Memory p M) (x : System p M × DrainStats) (op : Op p M) :
    Except Stop (System p M × DrainStats) := do
  let y ← x.1.step pol mem op
  return (y, match op with
    | .schedule => x.2.cycle pol x.1.ctl
    | _ => x.2)

/-- A drain starts and ends at its watermark, and takes no write while it lasts. -/
def Hysteresis (hi lo : Nat) (pol : Policy) (mem : Memory p M) (x : System p M × DrainStats) (_ : Op p M)
    (y : System p M × DrainStats) : Prop :=
  (x.1.ctl.draining = false → y.1.ctl.draining = true → hi ≤ (x.1.ctl.transactionQueues 1).length) ∧
  (x.1.ctl.draining = true → y.1.ctl.draining = false → (x.1.ctl.transactionQueues 1).length ≤ lo) ∧
  (x.1.ctl.draining = true → ∀ id a, x.1.step pol mem (.issueCommand id true a) = .ok x.1)

section Marks
variable {rq wq hi lo : Nat} {mem : Memory p M} {x y : System p M × DrainStats} {op : Op p M} {conf : WqfConfig}

theorem setConfig_ordered : conf.setConfig.Ordered ↔ ¬ (conf.writes < conf.high ∧ conf.writes < conf.low) := by
  unfold WqfConfig.setConfig
  split
  · simp only [Policy.Ordered]
    omega
  · split
    · simp only [Policy.Ordered]
      omega
    · simp only [Policy.Ordered]
      omega

/-- What is known of the times while the system runs. -/
structure Timed (x : System p M × DrainStats) : Prop where
  last : x.2.lastEndCycle ≤ x.1.ctl.cycle
  drain : x.1.ctl.draining = true → x.2.startReadqueueSize ≤ (x.1.ctl.transactionQueues 0).length ∧
    x.2.lastEndCycle ≤ x.2.startCycle ∧ x.2.startCycle ≤ x.1.ctl.cycle
  recorded : ∀ t ∈ x.2.recorded, t.NoWrap

theorem Timed.step (hx : Timed x) (h : drainStep (.frfcfsWqf rq wq hi lo) mem x op = .ok y) : Timed y := by
  obtain ⟨z, hz, h⟩ := of_bind h
  cases h
  obtain ⟨hmodes, hcycle, hqueues⟩ := step_effect hz
  obtain ⟨hlast, hdrain, hrecorded⟩ := hx
  have hlater := Nat.le_trans hlast hcycle
  have hlasts : ∀ {reads}, x.1.ctl.draining = true → (x.1.ctl.transactionQueues 0).length ≤ reads →
      x.2.startReadqueueSize ≤ reads ∧ x.2.lastEndCycle ≤ x.2.startCycle ∧ x.2.startCycle ≤ z.ctl.cycle := by
    intro reads hx hle
    obtain ⟨hreads, hstart, hnow⟩ := hdrain hx
    exact ⟨Nat.le_trans hreads hle, hstart, Nat.le_trans hnow hcycle⟩
  cases op with
  | schedule =>
    have hd : z.ctl.draining = (Policy.updateDraining (.frfcfsWqf rq wq hi lo) x.1.ctl).draining := congrArg Prod.fst hmodes
    have hreads : z.ctl.draining = true → (x.1.ctl.transactionQueues 0).length ≤ (z.ctl.transactionQueues 0).length := by
      intro hz
      refine hqueues 0 fun _ => ?_
      rw [Policy.scheduled, ← hd, hz]
      exact Nat.zero_ne_one
    dsimp only [DrainStats.cycle]
    rw [← hd]
    split
    · exact ⟨hlater, fun hz => ⟨hreads hz, hlast, hcycle⟩, hrecorded⟩
    next hstart =>
      rw [Bool.and_eq_true, Bool.not_eq_true'] at hstart
      split
      next hend =>
        rw [Bool.and_eq_true, Bool.not_eq_true'] at hend
        obtain ⟨hsize, hle, hnow⟩ := hdrain hend.1
        refine ⟨hcycle, fun hz => absurd (hend.2.symm.trans hz) Bool.false_ne_true, fun t ht => ?_⟩
        dsimp only at ht
        split at ht
        · exact hrecorded t ht
        · obtain rfl | ht := List.mem_cons.mp ht
          · exact ⟨hsize, hnow, hlast, Nat.sub_le_sub_left hle _⟩
          · exact hrecorded t ht
      · refine ⟨hlater, fun hz => hlasts ?_ (hreads hz), hrecorded⟩
        exact Bool.of_not_eq_false fun hx => hstart ⟨hx, hz⟩
  | _ =>
    have hd : z.ctl.draining = x.1.ctl.draining := congrArg Prod.fst hmodes
    exact ⟨hlater, fun hz => hlasts (hd.symm.trans hz) (hqueues 0 fun h => by cases h), hrecorded⟩

theorem hysteresis_step (h : drainStep (.frfcfsWqf rq wq hi lo) mem x op = .ok y) :
    Hysteresis hi lo (.frfcfsWqf rq wq hi lo) mem x op y := by
  obtain ⟨z, hz, h⟩ := of_bind h
  cases h
  have hmodes := (step_effect hz).1
  have hd : z.ctl.draining = x.1.ctl.draining ∨
      z.ctl.draining = (Policy.updateDraining (.frfcfsWqf rq wq hi lo) x.1.ctl).draining := by
    cases op with
    | schedule => exact .inr (congrArg Prod.fst hmodes)
    | _ => exact .inl (congrArg Prod.fst hmodes)
  refine ⟨fun hoff (hon : z.ctl.draining = true) => ?_, fun hon (hoff : z.ctl.draining = false) => ?_, fun hon id a => ?_⟩
  · by_contra hlt
    simp [Policy.updateDraining, hoff, hon, hlt] at hd
  · by_contra hlt
    simp [Policy.updateDraining, hoff, hon, hlt] at hd
  · have hfull : Policy.isIssuable (.frfcfsWqf rq wq hi lo) x.1.ctl (arrival id true a) = false := by
      simp [Policy.isIssuable, arrival, hon]
    simp only [System.step, hfull, Bool.false_eq_true, if_false]

end Marks

/-- The watermarks after `SetConfig`, and the drains of every run with them. -/
theorem watermarks_hold (conf : WqfConfig) (mem : Memory p M) (m : M) :
    (conf.setConfig.Ordered ↔ ¬ (conf.writes < conf.high ∧ conf.writes < conf.low)) ∧
      ∃ rq wq hi lo, conf.setConfig = .frfcfsWqf rq wq hi lo ∧
        ∀ ops x, Exec (StepOf (drainStep conf.setConfig mem)) ({ mem := m }, {}) ops x →
          EachStep (StepOf (drainStep conf.setConfig mem)) ({ mem := m }, {}) ops (Hysteresis hi lo conf.setConfig mem) ∧
            ∀ t ∈ x.2.recorded, t.NoWrap := by
  refine ⟨setConfig_ordered, ?_⟩
  obtain ⟨rq, wq, hi, lo, heq⟩ : ∃ rq wq hi lo, conf.setConfig = .frfcfsWqf rq wq hi lo := by
    unfold WqfConfig.setConfig
    split
    · exact ⟨_, _, _, _, rfl⟩
    · split <;> exact ⟨_, _, _, _, rfl⟩
  rw [heq]
  refine ⟨rq, wq, hi, lo, rfl, fun ops x hr => ⟨fun _ _ _ _ _ _ hs => hysteresis_step hs, ?_⟩⟩
  have hx : Timed x := hr.invariant ⟨Nat.le_refl _, (fun h => by cases h), fun _ ht => by cases ht⟩ fun _ _ _ ht hs => ht.step hs
  exact hx.recorded

/-- The low watermark is not looked at when the high one was too large. -/
theorem low_unchecked : ¬ (WqfConfig.setConfig { highWaterMark := some 16, lowWaterMark := some 12 }).Ordered :=
  fun h => setConfig_ordered.mp h (by decide)

end Nvm
