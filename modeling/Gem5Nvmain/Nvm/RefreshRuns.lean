import Gem5Nvmain.Nvm.ControllerSpec

/- Refresh accounting of the memory controller over whole runs.

  A run is any interleaving of the calls of `Op`. Beside the system it counts the pulses that came for each bank group
  and the REFRESH commands that were queued for it (`Tally`). The refresh counter of a group is the difference, and
  `refreshQueued[rank][bank]` is set exactly while a REFRESH that covers the bank waits (`Accounted`), as long as the
  groups divide the banks and no REFRESH is issued while a second one of its group waits (`lone`).

  `HandleRefresh` can queue the second one: it does not look at `refreshQueued`. The first REFRESH that is issued then
  resets the flag of both, and at the second the assertion of `ResetRefreshQueued` fails (`refresh_issued_twice`). -/
namespace Nvm
open Lib Function List Controller System

variable {p : Params} {M : Type} {s s' : Controller p}

/-- A REFRESH of the bank group `k`. -/
def refreshes (k : Nat × Nat) (c : Request p) : Bool :=
  c.type == .refresh && c.address.rank == k.1 && c.address.bank / p.banksPerRefresh == k.2

/-- It waits in a command queue. -/
def waits (k : Nat × Nat) (c : Request p) : Bool := refreshes k c && !c.issued

/-- "refresh is issued to those banks that start from the bank specified by the request" (`StandardRank::Refresh`). -/
def Covers (c : Request p) (rank bank : Nat) : Prop :=
  c.type = .refresh ∧ c.address.rank = rank ∧ c.address.bank ≤ bank ∧ bank < c.address.bank + p.banksPerRefresh

/-- The pulses and the REFRESH commands of each bank group so far. -/
structure Tally where
  pulses : Nat × Nat → Nat := fun _ => 0
  queued : Nat × Nat → Nat := fun _ => 0

/-- The pulses of a step. -/
def Op.pulsed (op : Op p M) (k : Nat × Nat) : Nat :=
  match op with
  | .refreshPulse rank group => if p.useRefresh ∧ k = (rank.val, group.val) then 1 else 0
  | _ => 0

/-- The REFRESH commands of a group that a step queued: no step queues some and removes others. -/
def addedRefreshes (s s' : Controller p) (k : Nat × Nat) : Nat :=
  s'.queued.countP (refreshes k) - s.queued.countP (refreshes k)

def Tally.after (t : Tally) (op : Op p M) (s s' : Controller p) : Tally where
  pulses := fun k => t.pulses k + op.pulsed k
  queued := fun k => t.queued k + addedRefreshes s s' k

/-- A step of the system beside its tally. -/
def refreshStep (pol : Policy) (mem : Memory p M) (y : System p M × Tally) (op : Op p M) :
    Except Stop (System p M × Tally) := do
  let x ← y.1.step pol mem op
  pure (x, y.2.after op y.1.ctl x.ctl)

/-- The steps that run the refresh functions. -/
def Op.isRefresh : Op p M → Bool
  | .refreshPulse .. | .handleRefresh | .cycleCommandQueues => true
  | _ => false

/-- The counters and flags say what they stand for, and no refresh function fails; `CycleCommandQueues` can still give
  up after the deadlock time. -/
structure Accounted (pol : Policy) (mem : Memory p M) (x : System p M) (t : Tally) : Prop where
  counter : ∀ rank < p.ranks, ∀ group < p.refreshBankNum,
    x.ctl.delayedRefreshCounter (rank, group) + t.queued (rank, group) = t.pulses (rank, group)
  flag : ∀ rank < p.ranks, ∀ bank < p.banks, (x.ctl.refreshQueued (rank, bank) = true ↔
    ∃ c ∈ x.ctl.queued, Covers c rank bank ∧ c.issued = false)
  safe : ∀ op : Op p M, op.isRefresh = true → ∀ e, x.step pol mem op = .error e → ∃ msg, e = .fatal msg

/-- Each REFRESH that the memory would take now is the only one of its group that waits. -/
def lone (mem : Memory p M) (x : System p M) : Bool :=
  (range p.commandQueueCount).all fun q =>
    match x.ctl.commandQueues q with
    | [] => true
    | head :: _ =>
      head.type != .refresh || !mem.isIssuable x.mem x.ctl.cycle head ||
        decide (x.ctl.queued.countP (waits (head.address.rank, head.address.bank / p.banksPerRefresh)) ≤ 1)

/-- Where a step may be taken. -/
def loneAt (mem : Memory p M) (y : System p M × Tally) : Op p M → Bool
  | .cycleCommandQueues => lone mem y.1
  | _ => true

theorem lone_head {mem : Memory p M} {x : System p M} (h : lone mem x = true) {q : Nat} (hq : q < p.commandQueueCount)
    {head : Request p} {tail : List (Request p)} (hhead : x.ctl.commandQueues q = head :: tail) (hr : head.type = .refresh)
    (hissuable : mem.isIssuable x.mem x.ctl.cycle head = true) :
    x.ctl.queued.countP (waits (head.address.rank, head.address.bank / p.banksPerRefresh)) ≤ 1 := by
  have hlone := all_eq_true.mp h q (mem_range.mpr hq)
  simpa [hhead, hr, hissuable] using hlone

/-! ## The invariant -/

structure RefreshInv (s : Controller p) (t : Tally) : Prop where
  next_lt : s.nextRefreshBank < p.banks
  next_dvd : p.banksPerRefresh ∣ s.nextRefreshBank
  aligned : ∀ c ∈ s.queued, c.type = .refresh → p.banksPerRefresh ∣ c.address.bank
  issued : ∀ c ∈ s.queued, c.type = .refresh → c.issued = true → s.lastIssueCycle = s.cycle ∧ s.cleanup = true
  counter : ∀ k, s.delayedRefreshCounter k + t.queued k = t.pulses k
  flag : ∀ k, s.refreshQueued k = true ↔ 0 < s.queued.countP (waits (k.1, k.2 / p.banksPerRefresh))

namespace RefreshInv
variable {t : Tally}

theorem init : RefreshInv ({} : Controller p) {} := by
  have hnone : ({} : Controller p).queued = [] := by simp [queued, pooled]
  refine ⟨p.banks_pos, Nat.dvd_zero _, ?_, ?_, fun _ => rfl, ?_⟩
  · simp [hnone]
  · simp [hnone]
  · simp [hnone]

/-- A step that has nothing to do with refreshes. -/
structure Quiet (s s' : Controller p) : Prop where
  pool : ∃ new, s'.queued.Perm (new ++ s.queued) ∧ ∀ c ∈ new, c.type ≠ .refresh
  refreshQueued : s'.refreshQueued = s.refreshQueued
  counter : s'.delayedRefreshCounter = s.delayedRefreshCounter
  next : s'.nextRefreshBank = s.nextRefreshBank
  lastIssueCycle : s'.lastIssueCycle = s.lastIssueCycle
  cycle : s'.cycle = s.cycle
  cleanup : s'.cleanup = s.cleanup

variable {f : Request p → Bool}

theorem countP_new {new : List (Request p)} (hf : ∀ c, f c = true → c.type = .refresh)
    (hnew : ∀ c ∈ new, c.type ≠ .refresh) : new.countP f = 0 := by
  rw [countP_eq_zero]
  intro c hc h
  exact hnew c hc (hf c h)

variable {k : Nat × Nat} {c : Request p}

theorem type_of_refreshes (h : refreshes k c = true) : c.type = .refresh := by
  simp only [refreshes, Bool.and_eq_true, beq_iff_eq] at h
  exact h.1.1

theorem type_of_waits (h : waits k c = true) : c.type = .refresh :=
  type_of_refreshes (Bool.and_eq_true_iff.mp h).1

theorem Quiet.countP (h : Quiet s s') (hf : ∀ c, f c = true → c.type = .refresh) :
    s'.queued.countP f = s.queued.countP f := by
  obtain ⟨new, hperm, hnew⟩ := h.pool
  rw [hperm.countP_eq, countP_append, countP_new hf hnew, Nat.zero_add]

theorem Quiet.mem (h : Quiet s s') (hc : c ∈ s'.queued) (hr : c.type = .refresh) : c ∈ s.queued := by
  obtain ⟨new, hperm, hnew⟩ := h.pool
  rcases mem_append.mp (hperm.mem_iff.mp hc) with hc | hc
  · exact absurd hr (hnew c hc)
  · exact hc

variable {op : Op p M}

theorem Quiet.keeps (h : Quiet s s') (hi : RefreshInv s t) (hop : ∀ k, op.pulsed k = 0) :
    RefreshInv s' (t.after op s s') := by
  constructor
  · rw [h.next]
    exact hi.next_lt
  · rw [h.next]
    exact hi.next_dvd
  · intro c hc hr
    exact hi.aligned c (h.mem hc hr) hr
  · intro c hc hr hissued
    rw [h.lastIssueCycle, h.cycle, h.cleanup]
    exact hi.issued c (h.mem hc hr) hr hissued
  · intro k
    have hadded : addedRefreshes s s' k = 0 := by
      rw [addedRefreshes, h.countP fun c => type_of_refreshes, Nat.sub_self]
    simp only [Tally.after, hadded, hop, h.counter, Nat.add_zero]
    exact hi.counter k
  · intro k
    rw [h.refreshQueued, h.countP fun c => type_of_waits]
    exact hi.flag k

/-! ## Pulses -/

theorem pulse {rank : Fin p.ranks} {group : Fin p.refreshBankNum} (hi : RefreshInv s t) (hrefresh : p.useRefresh = true)
    (h : s.processRefreshPulse (group * p.banksPerRefresh) rank = .ok s') :
    RefreshInv s' (t.after (.refreshPulse rank group : Op p M) s s') := by
  obtain ⟨f, rfl⟩ := processRefreshPulse_inv h
  rw [Nat.mul_div_cancel _ p.banksPerRefresh_pos]
  refine ⟨hi.next_lt, hi.next_dvd, hi.aligned, hi.issued, fun k => ?_, hi.flag⟩
  have hcounter := hi.counter k
  have hadded : addedRefreshes s { s with
      delayedRefreshCounter := update s.delayedRefreshCounter (rank.val, group.val)
        (s.delayedRefreshCounter (rank.val, group.val) + 1)
      bankNeedRefresh := f } k = 0 := Nat.sub_self _
  simp only [Tally.after, Op.pulsed, hrefresh, true_and, hadded, update_apply]
  by_cases hk : k = (rank.val, group.val)
  · subst hk
    simp only [if_true]
    omega
  · simp only [if_neg hk]
    omega

/-! ## Queueing a refresh -/

variable {a : Address p}

theorem countP_refreshed (h : Controller.Refreshed s a s') (hf : ∀ c, f c = true → c.type = .refresh) :
    s'.queued.countP f = s.queued.countP f + if f (makeRefreshRequest s.cycle a) then 1 else 0 := by
  obtain ⟨new, hpool, hnew⟩ := h.pool
  have hzero : new.countP f = 0 := by
    refine countP_new hf fun c hc => ?_
    rw [(hnew c hc).1]
    decide
  rw [hpool.countP_eq, countP_append, countP_cons, hzero]
  omega

theorem mem_refreshed (h : Controller.Refreshed s a s') (hc : c ∈ s'.queued)
    (hr : c.type = .refresh) : c = makeRefreshRequest s.cycle a ∨ c ∈ s.queued := by
  obtain ⟨new, hpool, hnew⟩ := h.pool
  rcases mem_append.mp (hpool.mem_iff.mp hc) with hc | hc
  · rcases mem_cons.mp hc with rfl | hc
    · exact .inl rfl
    · cases (hnew c hc).1.symm.trans hr
  · exact .inr hc

theorem refreshed (hi : RefreshInv s t) (he : p.banksPerRefresh ∣ p.banks)
    (ha : p.banksPerRefresh ∣ a.bank) (hneed : 0 < s.delayedRefreshCounter (a.rank, a.bank / p.banksPerRefresh))
    (h : Controller.Refreshed s a s') (hop : ∀ k, op.pulsed k = 0) : RefreshInv s' (t.after op s s') := by
  constructor
  · rw [h.nextBank, moveRefresh]
    split
    · exact p.banks_pos
    · rename_i hnot
      exact Nat.lt_of_not_le hnot
  · rw [h.nextBank, moveRefresh]
    split
    · exact Nat.dvd_zero _
    · exact Nat.dvd_add hi.next_dvd (Nat.dvd_refl _)
  · intro c hc hr
    rcases mem_refreshed h hc hr with rfl | hc
    · exact ha
    · exact hi.aligned c hc hr
  · intro c hc hr hissued
    rcases mem_refreshed h hc hr with rfl | hc
    · cases hissued
    · rw [h.lastIssueCycle, h.cycle, h.cleanup]
      exact hi.issued c hc hr hissued
  · intro k
    have hcounter := hi.counter k
    have hadded : addedRefreshes s s' k = if refreshes k (makeRefreshRequest s.cycle a) then 1 else 0 := by
      rw [addedRefreshes, countP_refreshed h fun c => type_of_refreshes, Nat.add_sub_cancel_left]
    have hgroup : refreshes k (makeRefreshRequest s.cycle a) = true ↔ k = (a.rank, a.bank / p.banksPerRefresh) := by
      simp only [refreshes, makeRefreshRequest, Bool.and_eq_true, beq_iff_eq, Prod.ext_iff, true_and]
      exact and_congr eq_comm eq_comm
    simp only [Tally.after, hadded, hop, h.counter, update_apply]
    by_cases hk : k = (a.rank, a.bank / p.banksPerRefresh)
    · rw [if_pos hk, if_pos (hgroup.mpr hk), if_neg (Nat.ne_of_gt hneed)]
      subst hk
      omega
    · rw [if_neg hk, if_neg fun hg => hk (hgroup.mp hg)]
      omega
  · intro k
    have hwaits : waits (k.1, k.2 / p.banksPerRefresh) (makeRefreshRequest s.cycle a) = true ↔
        k.1 = a.rank ∧ k.2 / p.banksPerRefresh = a.bank / p.banksPerRefresh := by
      simp only [waits, refreshes, makeRefreshRequest, Bool.and_eq_true, beq_iff_eq, true_and, Bool.not_false, and_true]
      exact and_congr eq_comm eq_comm
    rw [h.refreshQueued, countP_refreshed h fun c => type_of_waits, Bool.or_eq_true, hi.flag k]
    simp only [Bool.and_eq_true, beq_iff_eq, contains_iff_mem, mem_refreshBanks he ha]
    rw [← hwaits]
    split
    · rename_i hw
      simp [hw]
    · rename_i hw
      simp [hw]

theorem handleRefresh (hi : RefreshInv s t) (he : p.banksPerRefresh ∣ p.banks) (ht : 0 < p.delayedRefreshThreshold)
    {queued : Bool} (h : s.handleRefresh = .ok (s', queued)) (hop : ∀ k, op.pulsed k = 0) :
    RefreshInv s' (t.after op s s') := by
  rcases handleRefreshFrom_inv h with ⟨rfl, -⟩ | ⟨-, a, ha, hneed, hqueue⟩
  · exact Quiet.keeps ⟨⟨[], List.Perm.refl _, by simp⟩, rfl, rfl, rfl, rfl, rfl, rfl⟩ hi hop
  · obtain ⟨i, hbank, -⟩ := mem_refreshOrder ha
    have hdvd : p.banksPerRefresh ∣ a.bank := by
      rw [hbank, Nat.dvd_mod_iff he]
      exact Nat.dvd_add hi.next_dvd (Nat.dvd_mul_left _ _)
    rw [needRefresh_eq he a.bank_lt a.rank_lt] at hneed
    simp only [Except.ok.injEq, Bool.and_eq_true, decide_eq_true_eq] at hneed
    exact hi.refreshed he hdvd (Nat.lt_of_lt_of_le ht hneed.2) (queueRefresh_inv hqueue) hop

/-! ## Issuing a command -/

section Issue
variable {q : Nat} {head : Request p} {tail : List (Request p)}

theorem unissued (hi : RefreshInv s t) (hfree : s.lastIssueCycle ≠ s.cycle) {c : Request p} (hc : c ∈ s.queued)
    (hr : c.type = .refresh) : c.issued = false := by
  cases hissued : c.issued with
  | false => rfl
  | true => exact absurd (hi.issued c hc hr hissued).1 hfree

theorem head_mem (hq : q < p.commandQueueCount) (hhead : s.commandQueues q = head :: tail) : head ∈ s.queued :=
  mem_pooled.mpr ⟨q, hq, by simp [hhead]⟩

theorem countP_refreshes_mark (hq : q < p.commandQueueCount) (hhead : s.commandQueues q = head :: tail)
    (k : Nat × Nat) : (s.mark q head tail).queued.countP (refreshes k) = s.queued.countP (refreshes k) := by
  obtain ⟨others, hold, hnew⟩ := mark_pool hq hhead
  rw [hold.countP_eq, hnew.countP_eq, countP_cons, countP_cons]
  rfl

theorem countP_waits_mark (hq : q < p.commandQueueCount) (hhead : s.commandQueues q = head :: tail)
    (k : Nat × Nat) : (s.mark q head tail).queued.countP (waits k) + (if waits k head then 1 else 0) =
      s.queued.countP (waits k) := by
  obtain ⟨others, hold, hnew⟩ := mark_pool hq hhead
  rw [hold.countP_eq, hnew.countP_eq, countP_cons, countP_cons]
  have hmarked : waits k { head with issued := true } = false := by simp [waits]
  simp [hmarked]

theorem reset_ok (hi : RefreshInv s t) (he : p.banksPerRefresh ∣ p.banks) (hfree : s.lastIssueCycle ≠ s.cycle)
    (hq : q < p.commandQueueCount) (hhead : s.commandQueues q = head :: tail) (hr : head.type = .refresh) :
    (s.mark q head tail).resetRefreshQueued head.address.bank head.address.rank =
      .ok { s.mark q head tail with refreshQueued := fun k => s.refreshQueued k &&
        !(k.1 == head.address.rank && k.2 / p.banksPerRefresh == head.address.bank / p.banksPerRefresh) } := by
  refine resetRefreshQueued_ok he head.address.bank_lt fun b hb => ?_
  have hmem := head_mem hq hhead
  refine (hi.flag (head.address.rank, b)).mpr ?_
  rw [countP_pos_iff]
  refine ⟨head, hmem, ?_⟩
  simp [waits, refreshes, hr, hb, hi.unissued hfree hmem hr]

theorem markIssued_ok (hi : RefreshInv s t) (he : p.banksPerRefresh ∣ p.banks) (hfree : s.lastIssueCycle ≠ s.cycle)
    (hq : q < p.commandQueueCount) (hhead : s.commandQueues q = head :: tail) :
    ∃ s', s.markIssued q head tail = .ok s' := by
  unfold markIssued
  by_cases hr : head.type = .refresh
  · have hreset := hi.reset_ok he hfree hq hhead hr
    rw [mark] at hreset
    simp only [if_pos hr, hreset]
    exact ⟨_, rfl⟩
  · simp only [if_neg hr]
    exact ⟨_, rfl⟩

theorem issue (hi : RefreshInv s t) (he : p.banksPerRefresh ∣ p.banks) (hfree : s.lastIssueCycle ≠ s.cycle)
    (hq : q < p.commandQueueCount) (hhead : s.commandQueues q = head :: tail) (hlone : head.type = .refresh →
      s.queued.countP (waits (head.address.rank, head.address.bank / p.banksPerRefresh)) ≤ 1)
    (h : s.markIssued q head tail = .ok s') {op : Op p M} (hop : ∀ k, op.pulsed k = 0) :
    RefreshInv s' (t.after op s s') := by
  obtain ⟨others, hold, hnew⟩ := mark_pool hq hhead
  obtain ⟨f, c, rfl, hother, hreset⟩ := markIssued_inv h
  have hmem {c : Request p} (hc : c ∈ (s.mark q head tail).queued) :
      c = { head with issued := true } ∨ c ∈ s.queued := by
    rcases mem_cons.mp (hnew.mem_iff.mp hc) with heq | hc
    · exact .inl heq
    · exact .inr (hold.mem_iff.mpr (mem_cons_of_mem _ hc))
  refine ⟨hi.next_lt, hi.next_dvd, fun c hc hr => ?_, fun _ _ _ _ => ⟨rfl, rfl⟩, fun k => ?_, fun k => ?_⟩
  · rcases hmem hc with rfl | hc
    · exact hi.aligned head (head_mem hq hhead) hr
    · exact hi.aligned c hc hr
  · have hadded : addedRefreshes s (s.mark q head tail) k = 0 := by
      rw [addedRefreshes, countP_refreshes_mark hq hhead, Nat.sub_self]
    have hcounter := hi.counter k
    show s.delayedRefreshCounter k + (t.queued k + addedRefreshes s (s.mark q head tail) k) = t.pulses k + op.pulsed k
    rw [hadded, hop]
    exact hcounter
  · have hcount := countP_waits_mark hq hhead (k.1, k.2 / p.banksPerRefresh)
    have hflag := hi.flag k
    show f k = true ↔ 0 < (s.mark q head tail).queued.countP (waits (k.1, k.2 / p.banksPerRefresh))
    by_cases hr : head.type = .refresh
    · have hf := hreset hr
      rw [hi.reset_ok he hfree hq hhead hr] at hf
      have hf : f k = (s.refreshQueued k && !(k.1 == head.address.rank &&
          k.2 / p.banksPerRefresh == head.address.bank / p.banksPerRefresh)) :=
        (congrFun (congrArg refreshQueued (Except.ok.inj hf)) k).symm
      by_cases hk : k.1 = head.address.rank ∧ k.2 / p.banksPerRefresh = head.address.bank / p.banksPerRefresh
      · -- no other REFRESH of the group waits
        have hone := hlone hr
        have hwaits : waits (k.1, k.2 / p.banksPerRefresh) head = true := by
          simp [waits, refreshes, hr, hk, hi.unissued hfree (head_mem hq hhead) hr]
        rw [← hk.1, ← hk.2] at hone
        rw [if_pos hwaits] at hcount
        simp only [hf, hk, beq_self_eq_true, Bool.and_self, Bool.not_true, Bool.and_false, Bool.false_eq_true,
          false_iff]
        rw [← hk.1, ← hk.2]
        omega
      · have hwaits : waits (k.1, k.2 / p.banksPerRefresh) head = false := by
          rw [Bool.eq_false_iff]
          intro hw
          simp only [waits, refreshes, Bool.and_eq_true, beq_iff_eq] at hw
          exact hk ⟨hw.1.1.2.symm, hw.1.2.symm⟩
        have hnot : (k.1 == head.address.rank &&
            k.2 / p.banksPerRefresh == head.address.bank / p.banksPerRefresh) = false := by
          simpa [← not_and] using hk
        rw [hwaits] at hcount
        simp only [Bool.false_eq_true, if_false, Nat.add_zero] at hcount
        rw [hf, hnot, hcount]
        simpa using hflag
    · have hwaits : waits (k.1, k.2 / p.banksPerRefresh) head = false := by
        rw [Bool.eq_false_iff]
        intro hw
        exact hr (type_of_waits hw)
      rw [hwaits] at hcount
      simp only [Bool.false_eq_true, if_false, Nat.add_zero] at hcount
      rw [hother hr, hcount]
      exact hflag

end Issue

/-! ## The next cycle -/

theorem countP_waits_tick (s : Controller p) (k : Nat × Nat) : s.tick.queued.countP (waits k) = s.queued.countP (waits k) := by
  rw [tick_queued]
  split
  · rw [countP_filter]
    congr 1
    funext c
    simp [waits]
  · rfl

theorem tick (hi : RefreshInv s t) : RefreshInv s.tick (t.after (.tick : Op p M) s s.tick) := by
  have hsub {c : Request p} (hc : c ∈ s.tick.queued) : c ∈ s.queued := by
    rw [tick_queued] at hc
    split at hc
    · exact mem_of_mem_filter hc
    · exact hc
  have hframe : s.tick.nextRefreshBank = s.nextRefreshBank ∧ s.tick.delayedRefreshCounter = s.delayedRefreshCounter ∧
      s.tick.refreshQueued = s.refreshQueued := by
    unfold Controller.tick
    split <;> exact ⟨rfl, rfl, rfl⟩
  obtain ⟨hnext, hcounter, hqueued⟩ := hframe
  constructor
  · rw [hnext]
    exact hi.next_lt
  · rw [hnext]
    exact hi.next_dvd
  · intro c hc hr
    exact hi.aligned c (hsub hc) hr
  · intro c hc hr hissued
    have hclean := (hi.issued c (hsub hc) hr hissued).2
    rw [tick_queued, if_pos hclean] at hc
    have := of_mem_filter hc
    simp [hissued] at this
  · intro k
    have hadded : addedRefreshes s s.tick k = 0 := by
      refine Nat.sub_eq_zero_of_le ?_
      rw [tick_queued]
      split
      · exact filter_sublist.countP_le
      · exact Nat.le_refl _
    simp only [Tally.after, hadded, hcounter]
    exact hi.counter k
  · intro k
    rw [hqueued, countP_waits_tick]
    exact hi.flag k

/-! ## The other steps -/

section Steps
variable {pol : Policy} {mem : Memory p M} {x x' : System p M}

theorem Quiet.of_eq (hq : s'.commandQueues = s.commandQueues) (hr : s'.refreshQueued = s.refreshQueued)
    (hc : s'.delayedRefreshCounter = s.delayedRefreshCounter) (hn : s'.nextRefreshBank = s.nextRefreshBank)
    (hl : s'.lastIssueCycle = s.lastIssueCycle) (hcy : s'.cycle = s.cycle) (hcl : s'.cleanup = s.cleanup) :
    Quiet s s' := by
  refine ⟨⟨[], ?_, by simp⟩, hr, hc, hn, hl, hcy, hcl⟩
  rw [nil_append, queued, queued, hq]

theorem Quiet.refl (s : Controller p) : Quiet s s := Quiet.of_eq rfl rfl rfl rfl rfl rfl rfl

theorem Quiet.trans {s'' : Controller p} (h : Quiet s s') (h' : Quiet s' s'') : Quiet s s'' := by
  obtain ⟨new, hpool, hnew⟩ := h.pool
  obtain ⟨new', hpool', hnew'⟩ := h'.pool
  refine ⟨⟨new' ++ new, ?_, fun c hc => ?_⟩, h'.refreshQueued.trans h.refreshQueued, h'.counter.trans h.counter,
    h'.next.trans h.next, h'.lastIssueCycle.trans h.lastIssueCycle, h'.cycle.trans h.cycle, h'.cleanup.trans h.cleanup⟩
  · rw [append_assoc]
    exact hpool'.trans (hpool.append_left _)
  · rcases mem_append.mp hc with hc | hc
    · exact hnew' c hc
    · exact hnew c hc

variable {m : M}

theorem Quiet.issueMemoryCommands {r : Request p} {queued : Bool}
    (h : s.issueMemoryCommands mem m r = .ok (s', queued)) : Quiet s s' := by
  obtain ⟨hr, hq⟩ := issueMemoryCommands_cases h
  cases queued with
  | false =>
    rw [hq.eq_of_false]
    exact .refl s
  | true =>
    obtain ⟨c, new, hadds, hc, hnew⟩ := hq.adds hr
    obtain ⟨-, -, hqueued, hcounter, -, hbank, hlast, hcycle, hclean⟩ := hadds.fields
    refine ⟨⟨c :: new, hadds.pool, fun x hx => ?_⟩, hqueued, hcounter, hbank, hlast, hcycle, hclean⟩
    rcases mem_cons.mp hx with rfl | hx
    · rcases hc.type with ⟨-, h | h⟩ | ⟨-, h | h⟩ <;> simp [h]
    · rcases (hnew x hx).1 with h | h <;> simp [h]

theorem Quiet.schedule (h : pol.schedule mem m s = .ok s') : Quiet s s' := by
  rcases Policy.schedule_cases h with ⟨d, rfl⟩ | ⟨x, r, t, queued, htaken, hissue⟩
  · exact Quiet.of_eq rfl rfl rfl rfl rfl rfl rfl
  · obtain ⟨l₁, l₂, d, -, rfl, -⟩ := htaken.queue
    refine Quiet.trans ?_ (Quiet.issueMemoryCommands hissue)
    exact Quiet.of_eq rfl rfl rfl rfl rfl rfl rfl

theorem Quiet.requestComplete (id : Nat) (paused cancelled : Bool) :
    Quiet x.ctl (x.requestComplete pol id paused cancelled).ctl := by
  unfold System.requestComplete
  split
  · exact .refl _
  · split
    · exact Quiet.of_eq rfl rfl rfl rfl rfl rfl rfl
    · exact .refl _

variable {op : Op p M}

theorem step (hi : RefreshInv x.ctl t) (he : p.banksPerRefresh ∣ p.banks) (ht : 0 < p.delayedRefreshThreshold)
    (hlone : loneAt mem (x, t) op = true) (h : x.step pol mem op = .ok x') :
    RefreshInv x'.ctl (t.after op x.ctl x'.ctl) := by
  cases op with
  | issueCommand id write a =>
    cases h
    split
    · refine Quiet.keeps ?_ hi fun _ => rfl
      exact Quiet.of_eq rfl rfl rfl rfl rfl rfl rfl
    · exact Quiet.keeps (.refl _) hi fun _ => rfl
  | schedule =>
    obtain ⟨ctl, hctl, h⟩ := of_bind h
    cases h
    exact Quiet.keeps (Quiet.schedule hctl) hi fun _ => rfl
  | refreshPulse rank group =>
    simp only [step] at h
    split at h
    · rename_i hrefresh
      obtain ⟨ctl, hctl, h⟩ := of_bind h
      cases h
      exact hi.pulse hrefresh hctl
    · rename_i hrefresh
      cases h
      exact Quiet.keeps (.refl _) hi fun _ => by simp [Op.pulsed, hrefresh]
  | handleRefresh =>
    obtain ⟨⟨ctl, queued⟩, hctl, h⟩ := of_bind h
    cases h
    exact hi.handleRefresh he ht hctl fun _ => rfl
  | cycleCommandQueues =>
    rcases cycleCommandQueues_cases h with ⟨-, rfl⟩ | ⟨ctl, -, hctl, rfl⟩ | ⟨q, hq, head, tail, -, hissued⟩
    · exact Quiet.keeps (.refl _) hi fun _ => rfl
    · exact hi.handleRefresh he ht hctl fun _ => rfl
    · exact hi.issue he hissued.free hq hissued.queue
        (fun hr => lone_head hlone hq hissued.queue hr hissued.issuable) hissued.ctl fun _ => rfl
  | requestComplete id paused cancelled =>
    cases h
    exact Quiet.keeps (Quiet.requestComplete id paused cancelled) hi fun _ => rfl
  | memory m =>
    cases h
    exact Quiet.keeps (.refl _) hi fun _ => rfl
  | drain =>
    cases h
    refine Quiet.keeps ?_ hi fun _ => rfl
    cases pol <;> exact Quiet.of_eq rfl rfl rfl rfl rfl rfl rfl
  | tick =>
    cases h
    exact hi.tick

/-! ## No refresh function fails -/

theorem step_error (hi : RefreshInv x.ctl t) (he : p.banksPerRefresh ∣ p.banks) (hop : op.isRefresh = true)
    {e : Stop} (h : x.step pol mem op = .error e) : ∃ msg, e = .fatal msg := by
  have hrefresh (s : Controller p) : ∃ res, s.handleRefresh = .ok res := handleRefreshFrom_ok he _
  cases op with
  | refreshPulse rank group =>
    have hbank : group * p.banksPerRefresh < p.banks := by
      calc group * p.banksPerRefresh < p.refreshBankNum * p.banksPerRefresh :=
            Nat.mul_lt_mul_of_pos_right group.isLt p.banksPerRefresh_pos
        _ = p.banks := Nat.div_mul_cancel he
    obtain ⟨ctl, hctl⟩ := processRefreshPulse_ok (s := x.ctl) he hbank rank.isLt
    simp only [System.step] at h
    split at h
    · simp [hctl] at h
    · cases h
  | handleRefresh =>
    obtain ⟨⟨ctl, queued⟩, hctl⟩ := hrefresh x.ctl
    simp [System.step, hctl] at h
  | cycleCommandQueues =>
    have hfirst : ∃ res, x.ctl.refreshFirst = .ok res := by
      unfold refreshFirst
      split
      · exact hrefresh x.ctl
      · exact ⟨_, rfl⟩
    obtain ⟨⟨ctl, queued⟩, hctl⟩ := hfirst
    cases hchoose : x.chooseQueue mem with
    | error e' =>
      simp only [System.step, System.cycleCommandQueues, hchoose, bind_error, Except.error.injEq] at h
      subst h
      simp only [chooseQueue, hctl, bind_ok] at hchoose
      split at hchoose
      · cases hchoose
      · cases hnext : nextQueue mem { x with ctl := ctl }
            ((range p.commandQueueCount).map fun i => (ctl.curQueue + i) % p.commandQueueCount) with
        | error e =>
          simp only [hnext, bind_error, Except.error.injEq] at hchoose
          subst hchoose
          exact nextQueue_error hnext
        | ok found =>
          rw [hnext] at hchoose
          cases hchoose
    | ok res =>
      obtain ⟨ctl', queueId⟩ := res
      simp only [System.step, System.cycleCommandQueues, hchoose, bind_ok] at h
      rcases chooseQueue_cases hchoose with
        ⟨rfl, rfl⟩ | ⟨-, rfl⟩ | ⟨rfl, q, hq, rfl, head, tail, hhead, hfree, -⟩
      · cases h
      · cases h
      · obtain ⟨s', hs'⟩ := hi.markIssued_ok he hfree hq hhead
        simp [issueHead, hhead, hs'] at h
  | issueCommand | schedule | requestComplete | memory | drain | tick => cases hop

theorem accounted (hi : RefreshInv x.ctl t) (he : p.banksPerRefresh ∣ p.banks) : Accounted pol mem x t := by
  refine ⟨fun rank _ group _ => hi.counter (rank, group), fun rank _ bank _ => ?_, fun op hop e h => hi.step_error he hop h⟩
  rw [hi.flag (rank, bank), countP_pos_iff]
  have hcovers {c : Request p} (hc : c ∈ x.ctl.queued) :
      waits (rank, bank / p.banksPerRefresh) c = true ↔ Covers c rank bank ∧ c.issued = false := by
    have hpos := p.banksPerRefresh_pos
    simp only [waits, refreshes, Bool.and_eq_true, beq_iff_eq, Bool.not_eq_true']
    constructor
    · rintro ⟨⟨⟨hr, hrank⟩, hbank⟩, hissued⟩
      obtain ⟨g, hg⟩ := hi.aligned c hc hr
      rw [hg, Nat.mul_div_cancel_left _ hpos] at hbank
      have hdiv := (Nat.div_eq_iff hpos).mp hbank.symm
      refine ⟨⟨hr, hrank, ?_, ?_⟩, hissued⟩ <;> rw [hg, Nat.mul_comm] <;> omega
    · rintro ⟨⟨hr, hrank, hle, hlt⟩, hissued⟩
      obtain ⟨g, hg⟩ := hi.aligned c hc hr
      refine ⟨⟨⟨hr, hrank⟩, ?_⟩, hissued⟩
      rw [hg, Nat.mul_div_cancel_left _ hpos]
      refine ((Nat.div_eq_iff hpos).mpr ?_).symm
      rw [hg, Nat.mul_comm] at hle hlt
      omega
  constructor
  · rintro ⟨c, hc, hw⟩
    exact ⟨c, hc, (hcovers hc).mp hw⟩
  · rintro ⟨c, hc, hw⟩
    exact ⟨c, hc, (hcovers hc).mpr hw⟩

end Steps

end RefreshInv

/-! ## Whole runs -/

/-- In every run whose groups divide the banks, and in which no REFRESH is issued before another one of its group that
  waits, the accounting holds in every state. -/
theorem refresh_accounting {pol : Policy} {mem : Memory p M} {m : M} (he : p.banksPerRefresh ∣ p.banks)
    (ht : 0 < p.delayedRefreshThreshold) {ops : List (Op p M)} {y : System p M × Tally}
    (hr : Exec (StepIf (loneAt mem) (refreshStep pol mem)) ({ mem := m }, {}) ops y) : Accounted pol mem y.1 y.2 := by
  have hinv : RefreshInv y.1.ctl y.2 := by
    refine hr.invariant (P := fun y => RefreshInv y.1.ctl y.2) RefreshInv.init ?_
    rintro y op z hi ⟨hlone, hstep⟩
    obtain ⟨x, hx, hz⟩ := of_bind hstep
    cases hz
    exact hi.step he ht hlone hx
  exact hinv.accounted he

/-- One rank of two banks that are refreshed together, with one command queue. -/
def twoBanks : Params where
  ranks := 1
  banks := 2
  rows := 4
  subArrayNum := 1
  rbSize := 8
  queueModel := .perRank
  banksPerRefresh := 2
  eventDriven := true
  ranks_pos := Nat.one_pos
  banks_pos := Nat.two_pos
  subArrayNum_pos := Nat.one_pos
  rbSize_pos := eight_pos
  scheme_ok := by decide
  banksPerRefresh_pos := Nat.two_pos
  banksPerRefresh_le := Nat.one_lt_two

/-- The only bank group of `twoBanks` gets a pulse. -/
def pulseOnly : Op twoBanks Bool := .refreshPulse ⟨0, by decide⟩ ⟨0, by decide⟩

/-- A REFRESH is queued and issued, and the next one is queued after that. -/
theorem refresh_accounting_twoBanks : ∃ y, Exec (StepIf (loneAt (readyMemory twoBanks))
      (refreshStep (.frfcfs 4) (readyMemory twoBanks))) ({ mem := false }, {})
      [pulseOnly, .handleRefresh, .tick, .memory true, .cycleCommandQueues, .tick, pulseOnly, .handleRefresh] y ∧
    y.2.queued (0, 0) = 2 ∧ Accounted (.frfcfs 4) (readyMemory twoBanks) y.1 y.2 := by
  refine Exec.ends_withIf (p := fun y => y.2.queued (0, 0) == 2) (by decide) fun y hr hy => ?_
  exact ⟨beq_iff_eq.mp hy, refresh_accounting (by decide) (by decide) hr⟩

/-- The memory is busy until two refreshes of the group are queued. -/
theorem refresh_issued_twice : ∃ y, Exec (StepOf (refreshStep (.frfcfs 4) (readyMemory twoBanks))) ({ mem := false }, {})
      [pulseOnly, .handleRefresh, .tick, .cycleCommandQueues, .tick, pulseOnly, .handleRefresh, .memory true, .tick,
        .cycleCommandQueues, .tick] y ∧
    y.1.ctl.refreshQueued (0, 0) = false ∧ (∃ c ∈ y.1.ctl.queued, Covers c 0 0 ∧ c.issued = false) ∧
    y.1.step (.frfcfs 4) (readyMemory twoBanks) .cycleCommandQueues = .error .assertFailed ∧
    ¬Accounted (.frfcfs 4) (readyMemory twoBanks) y.1 y.2 := by
  refine Exec.ends_with (p := fun y => !y.1.ctl.refreshQueued (0, 0) &&
      (y.1.ctl.queued.any fun c => c.type == .refresh && c.address.rank == 0 && c.address.bank == 0 && !c.issued) &&
      match y.1.step (.frfcfs 4) (readyMemory twoBanks) .cycleCommandQueues with
      | .error e => e == .assertFailed
      | .ok _ => false) (by decide) fun y hr hy => ?_
  simp only [Bool.and_eq_true, Bool.not_eq_true'] at hy
  obtain ⟨⟨hflag, hany⟩, hfail⟩ := hy
  have hstep : y.1.step (.frfcfs 4) (readyMemory twoBanks) .cycleCommandQueues = .error .assertFailed := by
    split at hfail
    · rename_i e he
      rw [he, beq_iff_eq.mp hfail]
    · cases hfail
  refine ⟨hflag, ?_, hstep, fun hacc => ?_⟩
  · obtain ⟨c, hc, hw⟩ := any_eq_true.mp hany
    simp only [Bool.and_eq_true, beq_iff_eq, Bool.not_eq_true'] at hw
    obtain ⟨⟨⟨htype, hrank⟩, hbank⟩, hissued⟩ := hw
    exact ⟨c, hc, ⟨htype, hrank, by omega, by rw [hbank]; decide⟩, hissued⟩
  · obtain ⟨msg, hmsg⟩ := hacc.safe .cycleCommandQueues rfl _ hstep
    cases hmsg

end Nvm
