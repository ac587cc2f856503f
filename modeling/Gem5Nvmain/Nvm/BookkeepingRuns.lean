import Gem5Nvmain.Nvm.Drain

/- The bookkeeping over whole runs of the controller and the banks.

  A run is any interleaving of arrivals, scheduling, refresh pulses, `HandleRefresh`, `CycleCommandQueues`,
  completions and clock ticks, above `bankMemory`. In each state the commands that wait can be drained in any order
  and end in the rows that the controller expects (`Simulates`), as long as the steps are `allowed`: a REFRESH is not
  issued before another one of its group, or before a PRECHARGE_ALL of one of its banks in a queue of its own, and no
  bank is precharged while commands for its other sub-arrays wait in their queues. -/
namespace Nvm
open Lib Function Filter List Controller System Ranks

variable {p : Params} (tm : Timing p)

/-- What waits in a state of the system. -/
def System.waiting (x : System p (Nat → Rank p)) : Waiting p := ⟨x.ctl.pending, x.mem, x.ctl.cycle⟩

/-- A read or write, also one with an implicit precharge. -/
def isColumn (c : Request p) : Bool :=
  c.type == .read || c.type == .readPrecharge || c.type == .write || c.type == .writePrecharge

/-- The bookkeeping of the controller simulates the banks. -/
structure Simulates (x : System p (Nat → Rank p)) : Prop where
  activate : ∀ rank bank, x.ctl.activateQueued (rank, bank) = true ↔
    ∃ i < p.subArrayNum, x.ctl.activeSubArray (rank, bank, i) = true
  heads : ∀ hist d, Exec (Drains tm) x.waiting hist d → ∀ q c l, d.queues q = c :: l →
    (isColumn c = true → row d.mem c.address.here = some c.address.row) ∧
    (c.type = .activate → row d.mem c.address.here = none) ∧ Live tm d q c
  drained : ∀ hist d, Exec (Drains tm) x.waiting hist d → (∀ q, d.queues q = []) → ∀ k, ∃ T, ∀ t ≥ T,
    ((subArray d.mem t k).state = .opened ↔ x.ctl.activeSubArray k = true) ∧
    (x.ctl.activeSubArray k = true → (subArray d.mem t k).openRow = x.ctl.effectiveRow k)

/-- For a bank that is split: `HandleRefresh` precharges it only when nothing waits for its other sub-arrays. -/
def mayRefresh (s : Controller p) : Bool :=
  !p.bankSplit ||
    match s.refreshNext with
    | none => true
    | some a => (refreshBanks a).all fun b => !s.activateQueued (a.rank, b) ||
        s.queued.all fun c => c.issued ||
          !(c.address.rank == a.rank && c.address.bank == b && c.address.subarray != 0)

/-- A PRECHARGE_ALL that waits in the bank group of a REFRESH. -/
def closesFor (r c : Request p) : Bool :=
  c.type == .prechargeAll && !c.issued && c.address.rank == r.address.rank &&
    c.address.bank / p.banksPerRefresh == r.address.bank / p.banksPerRefresh

/-- No PRECHARGE_ALL waits in the group of a REFRESH that the memory would take now. -/
def closedFirst (x : System p (Nat → Rank p)) : Bool :=
  (range p.commandQueueCount).all fun q =>
    match x.ctl.commandQueues q with
    | [] => true
    | head :: _ => head.type != .refresh || !(bankMemory tm).isIssuable x.mem x.ctl.cycle head ||
        x.ctl.queued.all fun c => !closesFor head c

def mayIssue (x : System p (Nat → Rank p)) : Bool :=
  (p.queueModel == .perRank || p.banksPerRefresh == 1 || lone (bankMemory tm) x) &&
    (!p.bankSplit || closedFirst tm x)

/-- Where a step may be taken. Nothing else changes the memory, and without write pausing no write comes back. -/
def allowed (x : System p (Nat → Rank p)) : Op p (Nat → Rank p) → Bool
  | .handleRefresh => mayRefresh x.ctl
  | .cycleCommandQueues => (p.eventDriven || mayRefresh x.ctl) && mayIssue tm x
  | .requestComplete _ paused cancelled => !paused && !cancelled
  | .memory _ => false
  | _ => true

/-! ## The invariant -/

structure Book (s : Controller p) (m : Nat → Rank p) : Prop where
  plan : Plan s (row m)
  wf : Ranks.WF m
  issued : ∀ c ∈ s.queued, c.issued = true → s.lastIssueCycle = s.cycle ∧ s.cleanup = true
  transactions : ∀ q, ∀ r ∈ s.transactionQueues q, r.issued = false
  next_dvd : p.banksPerRefresh ∣ s.nextRefreshBank
  next_lt : s.nextRefreshBank < p.banks
  guarded : p.queueModel ≠ .perRank → ∀ q, ∀ c ∈ s.pending q, c.type = .refresh → ∀ b, c.address.bank < b →
    b < c.address.bank + p.banksPerRefresh → s.refreshQueued (c.address.rank, b) = true ∧
      ∀ i, s.activeSubArray (c.address.rank, b, i) = false
  closing : p.bankSplit = true → ∀ q, ∀ c ∈ s.pending q, c.type = .prechargeAll →
    s.refreshQueued (c.address.rank, c.address.bank) = true

namespace Book
variable {tm} {s s' : Controller p} {m : Nat → Rank p}

theorem init : Book ({} : Controller p) (Ranks.init tm) := by
  have hqueued : ({} : Controller p).queued = [] := by simp [queued, pooled]
  have hplan : Plan ({} : Controller p) (Ranks.row (Ranks.init tm)) := by
    refine ⟨fun k => ⟨0, fun _ _ => rfl, rfl⟩, fun _ _ hc => absurd hc not_mem_nil, ?_, fun rank bank => ?_⟩
    · intro k hk
      cases hk
    · simp
  refine ⟨hplan, Ranks.WF.init, ?_, fun _ _ hr => absurd hr not_mem_nil, Nat.dvd_zero _, p.banks_pos,
    fun _ _ _ hc => absurd hc not_mem_nil, fun _ _ _ hc => absurd hc not_mem_nil⟩
  intro c hc
  rw [hqueued] at hc
  cases hc

/-- A state that differs only in what the invariant does not look at. -/
theorem congr (h : Book s m) (hplan : s'.plan = s.plan) (hqueued : s'.refreshQueued = s.refreshQueued)
    (hnext : s'.nextRefreshBank = s.nextRefreshBank) (hlast : s'.lastIssueCycle = s.lastIssueCycle)
    (hcycle : s'.cycle = s.cycle) (hcleanup : s'.cleanup = s.cleanup)
    (htrans : ∀ q, ∀ r ∈ s'.transactionQueues q, r.issued = false) : Book s' m := by
  have hplan' := h.plan.congr hplan
  simp only [Controller.plan, Controller.mk.injEq, true_and] at hplan
  obtain ⟨hqueues, -, hactive, -, -⟩ := hplan
  have hpending : s'.pending = s.pending := by
    unfold pending
    rw [hqueues]
  have hpool : s'.queued = s.queued := by
    unfold queued
    rw [hqueues]
  refine ⟨hplan', h.wf, ?_, htrans, ?_, ?_, ?_, ?_⟩
  · rw [hpool, hlast, hcycle, hcleanup]
    exact h.issued
  · rw [hnext]
    exact h.next_dvd
  · rw [hnext]
    exact h.next_lt
  · rw [hpending, hqueued, hactive]
    exact h.guarded
  · rw [hpending, hqueued]
    exact h.closing

theorem mem_queued {q : Nat} {c : Request p} (h : Book s m) (hc : c ∈ s.pending q) : c ∈ s.queued := by
  refine mem_pooled.mpr ⟨q, ?_, mem_of_mem_filter hc⟩
  rw [(h.plan.placed q c hc).queue]
  exact getCommandQueueId_lt _

/-! ## Transactions -/

section Schedule
variable {pol : Policy} {a : Address p} {row : Option Nat}

variable {r c : Request p}

theorem cached_type (h : makeCachedRequest r = .ok c) : c.type = .cachedRead ∨ c.type = .cachedWrite := by
  obtain ⟨_, -, h⟩ := of_bind h
  cases h
  by_cases hr : r.type = .read
  · exact .inl (if_pos hr)
  · exact .inr (if_neg hr)

/-- A transaction is taken only while its bank has no refresh to wait for. -/
theorem look_ready {f : Controller.Find} (hpause : p.writePausing = false)
    (h : s.look (bankMemory tm) m f r = .ok .take) : s.refreshQueued (r.address.rank, r.address.bank) = false := by
  have hready (hr : s.ready r = true) : s.refreshQueued (r.address.rank, r.address.bank) = false := by
    simp only [ready, Bool.and_eq_true, Bool.not_eq_true'] at hr
    exact hr.1.2
  have hselect {c : Bool} (h : (.ok (if c then .take else .pass) : Except Stop Controller.Choice) = .ok .take) : c = true := by
    cases c with
    | true => rfl
    | false => cases h
  unfold look at h
  cases f with
  | starvedRequest | rowBufferHit | oldestReadyRequest | closedBankRequest =>
    have hc := hselect h
    simp only [Bool.and_eq_true] at hc
    exact hready (by tauto)
  | cachedAddress =>
    obtain ⟨c, hc, h⟩ := of_bind h
    have htake := hselect h
    rw [not_issuable_cached (cached_type hc)] at htake
    simp at htake
  | writeStalledRead =>
    simp only [hpause] at h
    cases h

theorem mem_opens {q : Nat} (ho : Opens s a row s') (hc : c ∈ s'.pending q) : c ∈ s.pending q ∨ IsFor a c := by
  obtain ⟨cs, hqueues, hcs, -⟩ := ho.queues
  rw [pending, hqueues, update_apply] at hc
  split at hc
  · rename_i hq
    subst hq
    rw [filter_append, mem_append] at hc
    rcases hc with hc | hc
    · exact .inl hc
    · exact .inr (hcs c (mem_of_mem_filter hc))
  · exact .inl hc

/-- Commands of a transaction are queued. -/
theorem opens {new : List (Request p)} (h : Book s m) (hready : s.refreshQueued (a.rank, a.bank) = false)
    (ho : Opens s a row s') (hadds : Adds s s' new) (hnew : ∀ c ∈ new, c.issued = false) : Book s' m := by
  obtain ⟨htrans, -, hqueued, -, -, hnext, hlast, hcycle, hcleanup⟩ := hadds.fields
  refine ⟨ho.plan h.plan fun hsplit q c hc hall hrank hbank => ?_, h.wf, fun c hc hissued => ?_, ?_, ?_, ?_,
    fun hmodel q c hc hrefresh b hlt hb => ?_, fun hsplit q c hc hall => ?_⟩
  · have hflag := h.closing hsplit q c hc hall
    rw [hrank, hbank, hready] at hflag
    cases hflag
  · rw [hlast, hcycle, hcleanup]
    rcases mem_append.mp (hadds.pool.mem_iff.mp hc) with hc | hc
    · rw [hnew c hc] at hissued
      cases hissued
    · exact h.issued c hc hissued
  · rw [htrans]
    exact h.transactions
  · rw [hnext]
    exact h.next_dvd
  · rw [hnext]
    exact h.next_lt
  · rcases mem_opens ho hc with hc | hc
    · obtain ⟨hflag, hidle⟩ := h.guarded hmodel q c hc hrefresh b hlt hb
      refine ⟨by rw [hqueued]; exact hflag, fun i => ?_⟩
      rw [ho.active, update_of_ne]
      · exact hidle i
      · intro heq
        simp only [Address.here, Prod.mk.injEq] at heq
        rw [heq.1, heq.2.1, hready] at hflag
        cases hflag
    · exact absurd hrefresh hc.exact.2
  · rw [hqueued]
    rcases mem_opens ho hc with hc | hc
    · exact h.closing hsplit q c hc hall
    · exact absurd hall hc.exact.1

theorem schedule (h : Book s m) (huse : p.usePrecharge = true) (hpause : p.writePausing = false)
    (hs' : pol.schedule (bankMemory tm) m s = .ok s') : Book s' m := by
  rcases Policy.schedule_cases hs' with ⟨d, rfl⟩ | ⟨x, r, t, queued, htaken, hissue⟩
  · exact h.congr rfl rfl rfl rfl rfl rfl h.transactions
  · obtain ⟨l₁, l₂, d, hq, rfl, f, -, hlook, -⟩ := htaken.queue
    have hready := look_ready hpause hlook
    have hx : x.issued = false := h.transactions _ x (by rw [hq]; simp)
    have hr : r.issued = false := by rw [htaken.request]; exact hx
    have haddress : r.address = x.address := by rw [htaken.request]
    have ht : Book { s with
        draining := d
        transactionQueues := update s.transactionQueues (pol.scheduled (pol.updateDraining s)) (l₁ ++ l₂) } m := by
      refine h.congr rfl rfl rfl rfl rfl rfl fun q y hy => ?_
      simp only [update_apply] at hy
      split at hy
      · refine h.transactions (pol.scheduled (pol.updateDraining s)) y ?_
        rw [hq]
        rcases mem_append.mp hy with hy | hy
        · exact mem_append_left _ hy
        · exact mem_append_right _ (mem_cons_of_mem _ hy)
      · exact h.transactions q y hy
    rcases ht.plan.issueMemoryCommands hr huse (fun c hc => not_issuable_cached (cached_type hc)) hissue with
      rfl | ⟨row, hopens⟩
    · exact ht
    · obtain ⟨htype, hqueues⟩ := issueMemoryCommands_cases hissue
      cases queued with
      | false => exact hqueues.eq_of_false ▸ ht
      | true =>
        obtain ⟨c, new, hadds, hcol, hrow⟩ := hqueues.adds htype
        refine ht.opens (by rw [haddress]; exact hready) hopens hadds fun y hy => ?_
        rcases mem_cons.mp hy with rfl | hy
        · rw [hcol.issued]
          exact hr
        · exact (hrow y hy).2.2

end Schedule

/-! ## Refresh -/

theorem mayRefresh_clear (h : Book s m) (hmay : mayRefresh s = true) {a : Address p} (ha : s.refreshNext = some a) :
    ∀ b ∈ refreshBanks a, s.activateQueued (a.rank, b) = true → ClearBank s a.rank b := by
  intro b hb hactive hsplit q c hc _ hrank hbank
  simp only [mayRefresh, hsplit, Bool.not_true, Bool.false_or, ha] at hmay
  have hbank' := all_eq_true.mp hmay b hb
  simp only [hactive, Bool.not_true, Bool.false_or] at hbank'
  have hclear := all_eq_true.mp hbank' c (h.mem_queued hc)
  have hissued : c.issued = false := by simpa using (mem_filter.mp hc).2
  simpa [hissued, hrank, hbank] using hclear

theorem refresh {queued : Bool} (h : Book s m) (huse : p.usePrecharge = true) (hmay : mayRefresh s = true)
    (hs' : s.handleRefresh = .ok (s', queued)) : Book s' m := by
  cases queued with
  | false =>
    rcases handleRefreshFrom_inv hs' with ⟨rfl, -⟩ | ⟨hq, -⟩
    · exact h
    · cases hq
  | true =>
    obtain ⟨a, hnext, hrefreshed, hdvd, hle, hsub⟩ := handleRefresh_found h.next_dvd h.next_lt hs'
    obtain ⟨hplan, hidle, hstill, hpending⟩ := h.plan.refreshed huse hsub hdvd hle (h.mayRefresh_clear hmay hnext) hrefreshed
    have hflag (k : Nat × Nat) (hk : s.refreshQueued k = true) : s'.refreshQueued k = true := by
      rw [hrefreshed.refreshQueued, hk, Bool.true_or]
    have hset (b : Nat) (hb : b ∈ refreshBanks a) : s'.refreshQueued (a.rank, b) = true := by
      simp [hrefreshed.refreshQueued, hb]
    refine ⟨hplan, h.wf, fun c hc hissued => ?_, ?_, ?_, ?_, fun hmodel q c hc hrefresh b hlt hb => ?_,
      fun hsplit q c hc hall => ?_⟩
    · obtain ⟨new, hpool, hnew⟩ := hrefreshed.pool
      rw [hrefreshed.lastIssueCycle, hrefreshed.cycle, hrefreshed.cleanup]
      rcases mem_append.mp (hpool.mem_iff.mp hc) with hc | hc
      · rcases mem_cons.mp hc with rfl | hc
        · cases hissued
        · rw [(hnew c hc).2.2] at hissued
          cases hissued
      · exact h.issued c hc hissued
    · rw [hrefreshed.transactionQueues]
      exact h.transactions
    · rw [hrefreshed.nextBank, moveRefresh]
      split
      · exact Nat.dvd_zero _
      · exact Nat.dvd_add h.next_dvd (Nat.dvd_refl _)
    · rw [hrefreshed.nextBank, moveRefresh]
      split
      · exact p.banks_pos
      · rename_i hnot
        exact Nat.lt_of_not_le hnot
    · rcases hpending q c hc with hc | rfl | ⟨_, -, hnew⟩
      · obtain ⟨hold, hclosed⟩ := h.guarded hmodel q c hc hrefresh b hlt hb
        exact ⟨hflag _ hold, fun i => hstill _ (hclosed i)⟩
      · have hmem : b ∈ refreshBanks a := (Plan.mem_refreshBanks_iff hle).mpr ⟨Nat.le_of_lt hlt, hb⟩
        exact ⟨hset b hmem, hidle b hmem⟩
      · rw [hnew.1] at hrefresh
        cases hrefresh
    · rcases hpending q c hc with hc | rfl | ⟨b, hb, -, hrank, hbank⟩
      · exact hflag _ (h.closing hsplit q c hc hall)
      · cases hall
      · rw [hrank, hbank]
        exact hset b hb

/-! ## Issuing a command -/

/-- The flags of other groups stay. -/
theorem resetRefreshQueued_others {bank rank : Nat} (h : s.resetRefreshQueued bank rank = .ok s') {k : Nat × Nat}
    (hk : ¬(k.1 = rank ∧ k.2 / p.banksPerRefresh = bank / p.banksPerRefresh)) : s'.refreshQueued k = s.refreshQueued k := by
  have hnot : ∀ b ∈ groupBanks p bank, k ≠ (rank, b) := by
    intro b hb heq
    subst heq
    exact hk ⟨rfl, mem_groupBanks.mp hb⟩
  unfold resetRefreshQueued at h
  generalize groupBanks p bank = l at h hnot
  induction l generalizing s with
  | nil =>
    cases h
    rfl
  | cons b l ih =>
    obtain ⟨s₁, hs₁, h⟩ := of_bind h
    obtain ⟨_, -, hs₁⟩ := of_bind hs₁
    obtain ⟨_, -, hs₁⟩ := of_bind hs₁
    cases hs₁
    rw [ih h fun c hc => hnot c (mem_cons_of_mem _ hc)]
    exact update_of_ne (hnot b (mem_cons_self ..)) ..

section Issue
variable {q : Nat} {head : Request p} {tail : List (Request p)}

theorem pending_eq (h : Book s m) (hfree : s.lastIssueCycle ≠ s.cycle) (hq : q < p.commandQueueCount) :
    s.pending q = s.commandQueues q := by
  refine filter_eq_self.mpr fun c hc => ?_
  cases hissued : c.issued with
  | false => rfl
  | true => exact absurd (h.issued c (mem_pooled.mpr ⟨q, hq, hc⟩) hissued).1 hfree

theorem pending_mark (h : Book s m) (hfree : s.lastIssueCycle ≠ s.cycle) (hq : q < p.commandQueueCount)
    (hhead : s.commandQueues q = head :: tail) : (s.mark q head tail).pending = update s.pending q tail := by
  funext q'
  by_cases hqq : q' = q
  · subst hqq
    have hall := h.pending_eq hfree hq
    rw [pending, hhead, filter_eq_self] at hall
    have htail : tail.filter (fun c => !c.issued) = tail :=
      filter_eq_self.mpr fun c hc => hall c (mem_cons_of_mem _ hc)
    simp [pending, mark, htail]
  · simp [pending, mark, update_of_ne hqq]

variable {c : Request p}

theorem lone_ne (hone : s.queued.countP (waits (head.address.rank, head.address.bank / p.banksPerRefresh)) ≤ 1)
    (hq : q < p.commandQueueCount) (hhead : s.commandQueues q = head :: tail) (htype : head.type = .refresh)
    (hissued : head.issued = false) (hc : c ∈ (s.mark q head tail).queued) (hwait : c.issued = false)
    (hrefresh : c.type = .refresh) : ¬(c.address.rank = head.address.rank ∧
      c.address.bank / p.banksPerRefresh = head.address.bank / p.banksPerRefresh) := by
  rintro ⟨hrank, hbank⟩
  have hcount := RefreshInv.countP_waits_mark hq hhead (head.address.rank, head.address.bank / p.banksPerRefresh)
  have hself : waits (head.address.rank, head.address.bank / p.banksPerRefresh) head = true := by
    simp [waits, refreshes, htype, hissued]
  have hother : 0 < (s.mark q head tail).queued.countP
      (waits (head.address.rank, head.address.bank / p.banksPerRefresh)) := by
    refine countP_pos_iff.mpr ⟨c, hc, ?_⟩
    simp [waits, refreshes, hrefresh, hrank, hbank, hwait]
  rw [if_pos hself] at hcount
  omega

variable {x : System p (Nat → Rank p)}

/-- Where a bank is split, no PRECHARGE_ALL waits in the group of a REFRESH that is issued. -/
theorem closedFirst_ne (hfirst : closedFirst tm x = true) (hq : q < p.commandQueueCount)
    (hhead : x.ctl.commandQueues q = head :: tail) (htype : head.type = .refresh)
    (hissuable : (bankMemory tm).isIssuable x.mem x.ctl.cycle head = true) (hc : c ∈ x.ctl.queued)
    (hwait : c.issued = false) (hall : c.type = .prechargeAll) : ¬(c.address.rank = head.address.rank ∧
      c.address.bank / p.banksPerRefresh = head.address.bank / p.banksPerRefresh) := by
  have hqueue := all_eq_true.mp hfirst q (mem_range.mpr hq)
  simp only [hhead, htype, hissuable, Bool.not_true] at hqueue
  have hnot := all_eq_true.mp hqueue c hc
  rw [not_and_or]
  simpa [closesFor, hall, hwait] using hnot

/-- `CycleCommandQueues` issues the head of a queue. -/
theorem issue {x' : System p (Nat → Rank p)} (h : Book x.ctl x.mem) (huse : p.usePrecharge = true)
    (hmay : mayIssue tm x = true) (hq : q < p.commandQueueCount)
    (hissued : System.Issued (bankMemory tm) x q head tail x') : Book x'.ctl x'.mem := by
  obtain ⟨hw, hconcerns, hothers⟩ := issue_concerns h.wf huse hissued.issuable
  obtain ⟨f, n, hctl, hkeep, hreset⟩ := markIssued_inv hissued.ctl
  have hpending := h.pending_mark hissued.free hq hissued.queue
  have hqueue : x.ctl.pending q = head :: tail := (h.pending_eq hissued.free hq).trans hissued.queue
  have hhead : head.issued = false := by
    have hmem : head ∈ x.ctl.pending q := hqueue ▸ mem_cons_self ..
    simpa using (mem_filter.mp hmem).2
  rw [← hissued.mem] at hw hconcerns hothers
  simp only [mayIssue, Bool.and_eq_true, Bool.or_eq_true, beq_iff_eq] at hmay
  have hsub {q' : Nat} {c : Request p} (hc : c ∈ (x.ctl.mark q head tail).pending q') : c ∈ x.ctl.pending q' := by
    rw [hpending, update_apply] at hc
    split at hc
    · rename_i hqq
      rw [hqq, hqueue]
      exact mem_cons_of_mem _ hc
    · exact hc
  have hmark {q' : Nat} {c : Request p} (hc : c ∈ (x.ctl.mark q head tail).pending q') :
      c ∈ (x.ctl.mark q head tail).queued ∧ c.issued = false := by
    refine ⟨mem_pooled.mpr ⟨q', ?_, mem_of_mem_filter hc⟩, by simpa using (mem_filter.mp hc).2⟩
    rw [(h.plan.placed q' c (hsub hc)).queue]
    exact getCommandQueueId_lt _
  -- only the flags of the group of a REFRESH are reset
  have hflag (k : Nat × Nat) (hk : head.type = .refresh → ¬(k.1 = head.address.rank ∧
      k.2 / p.banksPerRefresh = head.address.bank / p.banksPerRefresh)) : f k = x.ctl.refreshQueued k := by
    by_cases htype : head.type = .refresh
    · exact resetRefreshQueued_others (hreset htype) (hk htype)
    · rw [hkeep htype]
  rw [hctl]
  refine ⟨⟨?_, fun q' c hc => h.plan.placed q' c (hsub hc), h.plan.active_lt, h.plan.activate⟩, hw, fun _ _ _ => ⟨rfl, rfl⟩,
    h.transactions, h.next_dvd, h.next_lt, fun hmodel q' c hc hrefresh b hlt hb => ?_, fun hsplit q' c hc hall => ?_⟩
  · show Predicted concerns nextRow (x.ctl.mark q head tail).pending (row x'.mem) x.ctl.predicted
    rw [hpending]
    exact h.plan.predicted.issue hqueue hconcerns hothers
  · have hc : c ∈ (x.ctl.mark q head tail).pending q' := hc
    obtain ⟨hold, hidle⟩ := h.guarded hmodel q' c (hsub hc) hrefresh b hlt hb
    refine ⟨?_, hidle⟩
    show f (c.address.rank, b) = true
    rw [hflag _ fun htype => ?_]
    · exact hold
    · -- another REFRESH of the group would be issued first
      have hlone : lone (bankMemory tm) x = true := by
        rcases hmay.1 with (hrank | hone) | hlone
        · exact absurd hrank hmodel
        · omega
        · exact hlone
      have hone := lone_head hlone hq hissued.queue htype hissued.issuable
      have hne := lone_ne hone hq hissued.queue htype hhead (hmark hc).1 (hmark hc).2 hrefresh
      have hgroup : b / p.banksPerRefresh = c.address.bank / p.banksPerRefresh := by
        obtain ⟨⟨g, hg⟩, -⟩ := (h.plan.placed q' c (hsub hc)).group hrefresh
        have hpos := p.banksPerRefresh_pos
        rw [hg, Nat.mul_div_cancel_left _ hpos, Nat.div_eq_iff hpos, Nat.mul_comm g]
        omega
      rw [hgroup]
      exact hne
  · have hc : c ∈ (x.ctl.mark q head tail).pending q' := hc
    show f (c.address.rank, c.address.bank) = true
    rw [hflag _ fun htype => ?_]
    · exact h.closing hsplit q' c (hsub hc) hall
    · have hfirst : closedFirst tm x = true := by
        rcases hmay.2 with hno | hfirst
        · rw [hsplit] at hno
          cases hno
        · exact hfirst
      exact closedFirst_ne hfirst hq hissued.queue htype hissued.issuable (h.mem_queued (hsub hc)) (hmark hc).2 hall

end Issue

/-! ## Steps -/

theorem tick (h : Book s m) : Book s.tick m := by
  have hplan : s.tick.pending = s.pending ∧ s.tick.predicted = s.predicted ∧ s.tick.activeSubArray = s.activeSubArray ∧
      s.tick.activateQueued = s.activateQueued ∧ s.tick.refreshQueued = s.refreshQueued ∧
      s.tick.transactionQueues = s.transactionQueues ∧ s.tick.nextRefreshBank = s.nextRefreshBank := by
    unfold Controller.tick
    split
    · refine ⟨?_, rfl, rfl, rfl, rfl, rfl, rfl⟩
      funext q
      simp [pending, cleanupCallback]
    · exact ⟨rfl, rfl, rfl, rfl, rfl, rfl, rfl⟩
  obtain ⟨hpending, hpredicted, hactive, hactivate, hqueued, htrans, hnext⟩ := hplan
  refine ⟨⟨?_, ?_, ?_, ?_⟩, h.wf, fun c hc hissued => ?_, ?_, ?_, ?_, ?_, ?_⟩
  · rw [hpending, hpredicted]
    exact h.plan.predicted
  · rw [hpending]
    exact h.plan.placed
  · rw [hactive]
    exact h.plan.active_lt
  · rw [hactivate, hactive]
    exact h.plan.activate
  · -- what was issued has been removed
    exfalso
    rw [tick_queued] at hc
    split at hc
    · have hkept := (mem_filter.mp hc).2
      simp [hissued] at hkept
    · rename_i hclean
      exact hclean (h.issued c hc hissued).2
  · rw [htrans]
    exact h.transactions
  · rw [hnext]
    exact h.next_dvd
  · rw [hnext]
    exact h.next_lt
  · rw [hpending, hqueued, hactive]
    exact h.guarded
  · rw [hpending, hqueued]
    exact h.closing

theorem enqueue (h : Book s m) (pol : Policy) {r : Request p} (hr : r.issued = false) : Book (pol.enqueue s r) m := by
  refine h.congr rfl rfl rfl rfl rfl rfl fun q x hx => ?_
  simp only [Policy.enqueue, update_apply] at hx
  split at hx
  · rcases mem_append.mp hx with hx | hx
    · exact h.transactions _ x hx
    · rw [mem_singleton.mp hx]
      exact hr
  · exact h.transactions q x hx

variable {x : System p (Nat → Rank p)}

/-- Every allowed step keeps the bookkeeping. -/
theorem step {pol : Policy} {x' : System p (Nat → Rank p)} {op : Op p (Nat → Rank p)} (h : Book x.ctl x.mem)
    (huse : p.usePrecharge = true) (hpause : p.writePausing = false) (hallowed : allowed tm x op = true)
    (hs : x.step pol (bankMemory tm) op = .ok x') : Book x'.ctl x'.mem := by
  cases op with
  | issueCommand id write a =>
    cases hs
    split
    · exact h.enqueue pol rfl
    · exact h
  | schedule =>
    obtain ⟨ctl, hctl, hs⟩ := of_bind hs
    cases hs
    exact h.schedule huse hpause hctl
  | refreshPulse rank group =>
    simp only [System.step] at hs
    split at hs
    · obtain ⟨ctl, hctl, hs⟩ := of_bind hs
      cases hs
      obtain ⟨f, rfl⟩ := processRefreshPulse_inv hctl
      exact h.congr rfl rfl rfl rfl rfl rfl h.transactions
    · cases hs
      exact h
  | handleRefresh =>
    obtain ⟨⟨ctl, queued⟩, hctl, hs⟩ := of_bind hs
    cases hs
    exact h.refresh huse hallowed hctl
  | cycleCommandQueues =>
    simp only [allowed, Bool.and_eq_true, Bool.or_eq_true] at hallowed
    rcases hallowed.1 with hevent | hmay
    · rcases cycleCommandQueues_eventDriven hevent hs with rfl | ⟨q, hq, head, tail, hissued⟩
      · exact h
      · exact h.issue huse hallowed.2 hq hissued
    · rcases cycleCommandQueues_cases hs with ⟨-, rfl⟩ | ⟨ctl, -, hrefresh, rfl⟩ | ⟨q, hq, head, tail, -, hissued⟩
      · exact h
      · exact h.refresh huse hmay hrefresh
      · exact h.issue huse hallowed.2 hq hissued
  | requestComplete id paused cancelled =>
    cases hs
    simp only [allowed, Bool.and_eq_true, Bool.not_eq_true'] at hallowed
    unfold requestComplete
    split
    · exact h
    · simp only [hallowed.1, hallowed.2, Bool.or_self, Bool.and_false]
      exact h
  | memory m => cases hallowed
  | drain =>
    cases hs
    cases pol <;> exact h.congr rfl rfl rfl rfl rfl rfl h.transactions
  | tick =>
    cases hs
    exact h.tick

theorem drainInv (h : Book x.ctl x.mem) : DrainInv x.ctl.predicted x.waiting := by
  refine ⟨h.plan.predicted, h.wf, h.plan.placed, fun hmodel q c hc hrefresh b hlt hb i => ?_⟩
  have hidle := (h.guarded hmodel q c hc hrefresh b hlt hb).2 i
  simp [predicted, hidle]

theorem simulates (h : Book x.ctl x.mem) (huse : p.usePrecharge = true)
    (hpause : p.writePausing = false) : Simulates tm x := by
  refine ⟨fun rank bank => ?_, fun hist d hr q c l hq => ?_, fun hist d hr hempty k => ?_⟩
  · rw [h.plan.activate]
    constructor
    · rintro ⟨i, hi⟩
      exact ⟨i, h.plan.active_lt _ hi, hi⟩
    · rintro ⟨i, -, hi⟩
      exact ⟨i, hi⟩
  · have hd := h.drainInv.run huse hr
    have hrow (hc : Exact c) : ∃ row, nextRow (Ranks.row d.mem c.address.here) c = some row :=
      hd.predicted.head hq ((concerns_exact hc _).mpr rfl)
    refine ⟨fun hcol => ?_, fun hact => ?_, hd.live huse hpause hq⟩
    · simp only [isColumn, Bool.or_eq_true, beq_iff_eq] at hcol
      obtain ⟨row, hrow⟩ := hrow (by constructor <;> intro htype <;> simp [htype] at hcol)
      rcases hcol with ((htype | htype) | htype) | htype <;> simp only [nextRow, htype] at hrow <;>
        exact of_not_not fun hne => by simp [hne] at hrow
    · obtain ⟨row, hrow⟩ := hrow ⟨by simp [hact], by simp [hact]⟩
      simp only [nextRow, hact] at hrow
      exact of_not_not fun hne => by simp [hne] at hrow
  · have hd := h.drainInv.run huse hr
    have hk := hd.predicted.drained hempty k
    obtain ⟨T, hT⟩ := eventually_atTop.mp (eventually_opened hd.wf k)
    refine ⟨T, fun t ht => ?_⟩
    obtain ⟨hopened, hrow⟩ := hT t ht
    rw [hk] at hopened hrow
    simp only [predicted] at hopened hrow
    cases hactive : x.ctl.activeSubArray k <;> simp_all

end Book

/-! ## Whole runs -/

theorem Book.of_run {tm : Timing p} {pol : Policy} (huse : p.usePrecharge = true) (hpause : p.writePausing = false)
    {ops : List (Op p (Nat → Rank p))} {x : System p (Nat → Rank p)}
    (hr : Exec (StepIf (allowed tm) (System.step pol (bankMemory tm))) { mem := Ranks.init tm } ops x) :
    Book x.ctl x.mem := by
  refine hr.invariant (P := fun x => Book x.ctl x.mem) Book.init ?_
  intro y op z hy hstep
  exact hy.step huse hpause hstep.1 hstep.2

/-- In every run whose steps are allowed, the bookkeeping simulates the banks in every state. -/
theorem bookkeeping_simulates {pol : Policy} (huse : p.usePrecharge = true) (hpause : p.writePausing = false)
    {ops : List (Op p (Nat → Rank p))} {x : System p (Nat → Rank p)}
    (hr : Exec (StepIf (allowed tm) (step pol (bankMemory tm))) { mem := init tm } ops x) :
    Simulates tm x :=
  (Book.of_run huse hpause hr).simulates huse hpause

/-- One bank of two sub-arrays that have a queue each. -/
def splitBank : Params where
  ranks := 1
  banks := 1
  rows := 4
  subArrayNum := 2
  rbSize := 8
  queueModel := .perSubArray
  banksPerRefresh := 1
  closePage := 0
  eventDriven := true
  ranks_pos := Nat.one_pos
  banks_pos := Nat.one_pos
  subArrayNum_pos := Nat.two_pos
  rbSize_pos := eight_pos
  scheme_ok := by decide
  banksPerRefresh_pos := Nat.one_pos
  banksPerRefresh_le := Nat.one_pos

/-- Row 3 of the second sub-array. -/
def secondSubArray : Address splitBank := ⟨3, 0, 0, 0, 1, splitBank.banks_pos, splitBank.ranks_pos, by decide⟩

def splitTiming : Timing splitBank := { tRAW := 0, tRCD := 1, tRAS := 1 }

def splitPulse : Op splitBank (Nat → Rank splitBank) := .refreshPulse ⟨0, by decide⟩ ⟨0, by decide⟩

/-- The read opens its row, the row is closed again for a refresh, and nothing is in the way of it. -/
theorem bookkeeping_simulates_splitBank : ∃ x, Exec (StepIf (allowed splitTiming) (step (.frfcfs 4) (bankMemory splitTiming)))
      { mem := init splitTiming }
      [.issueCommand 0 false secondSubArray, .tick, .schedule, .cycleCommandQueues, .tick, .cycleCommandQueues, .tick,
        splitPulse, .handleRefresh] x ∧
    x.ctl.pending 0 ≠ [] ∧ Simulates splitTiming x := by
  refine Exec.ends_withIf (p := fun x => decide (x.ctl.pending 0 ≠ [])) (by decide) fun x hr hx => ?_
  exact ⟨of_decide_eq_true hx, bookkeeping_simulates splitTiming rfl rfl hr⟩

/-- The refresh comes while ACTIVATE and READ wait in the queue of the second sub-array. Its PRECHARGE_ALL, in the
  queue of the first, can be issued between the two, and then the READ is stuck. -/
theorem read_overtaken : ∃ x d, Exec (StepOf (step (.frfcfs 4) (bankMemory splitTiming)))
      { mem := init splitTiming } [.issueCommand 0 false secondSubArray, .tick, .schedule, splitPulse, .handleRefresh] x ∧
    Exec (Drains splitTiming) x.waiting [(1, 10), (0, 20)] d ∧ (∃ c l, d.queues 1 = c :: l ∧ ¬Live splitTiming d 1 c) ∧
    ¬Simulates splitTiming x := by
  have hrun : endsInIf (allowed splitTiming) (step (.frfcfs 4) (bankMemory splitTiming))
      { mem := init splitTiming } [.issueCommand 0 false secondSubArray, .tick, .schedule, splitPulse]
      (fun x => match x.step (.frfcfs 4) (bankMemory splitTiming) .handleRefresh with
        | .ok x => endsIn (Waiting.issue splitTiming) x.waiting [(1, 10), (0, 20)] fun d => stuckAt d 1
        | .error _ => false) = true := by
    decide
  obtain ⟨x₀, hr, hx₀⟩ := Exec.of_endsInIf hrun
  obtain ⟨x, hstep, hx⟩ : ∃ x, x₀.step (.frfcfs 4) (bankMemory splitTiming) .handleRefresh = .ok x ∧
      endsIn (Waiting.issue splitTiming) x.waiting [(1, 10), (0, 20)] (fun d => stuckAt d 1) = true := by
    split at hx₀
    · exact ⟨_, ‹_›, hx₀⟩
    · cases hx₀
  obtain ⟨d, hd, hstuck⟩ := Exec.of_endsIn hx
  have hmem : x.mem = x₀.mem := by
    obtain ⟨y, -, hy⟩ := of_bind hstep
    cases hy
    rfl
  have hw : Ranks.WF x.waiting.mem := by
    show Ranks.WF x.mem
    rw [hmem]
    exact (Book.of_run rfl rfl hr).wf
  obtain ⟨c, l, hstuck⟩ := Stuck.of_stuckAt (Drains.wf hw rfl hd) hstuck
  have hlive : ¬Live splitTiming d 1 c := hstuck.not_live rfl
  refine ⟨x, d, .snoc (hr.mono fun _ _ _ h => h.2) hstep, hd, ⟨c, l, hstuck.queue, hlive⟩, fun hsim => ?_⟩
  exact hlive (hsim.heads _ d hd 1 c l hstuck.queue).2.2

end Nvm
