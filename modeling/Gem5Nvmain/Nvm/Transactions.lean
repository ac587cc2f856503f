import Gem5Nvmain.Nvm.ControllerSpec

/- No transaction is lost or sent twice.

  Beside the system a run keeps a `Ledger`: the requests that were accepted and those that completed, and the queue
  whose head was issued in this cycle. The commands of that queue behind the head, and all commands of the other
  queues, are waiting to be issued (`waiting`). A request that was accepted and has not completed is in exactly one of
  the transaction queues, the waiting commands and the memory below (`Kept`), in every run in which no write comes
  back paused or cancelled.

  A write that does comes back with `FLAG_ISSUED` still set from its first stay in a command queue: nothing ever
  clears it. When it is queued again behind an ACTIVATE, the cleanup after the ACTIVATE removes the write too
  (`paused_write_lost`). -/
namespace Nvm
open Lib Function List Controller System Policy

variable {p : Params} {M : Type}

structure Ledger where
  accepted : Nat → Bool := fun _ => false
  completed : Nat → Bool := fun _ => false
  /-- The queue whose head was issued in this cycle. -/
  issuedFrom : Option Nat := none

/-- The commands of a queue that were not issued since they were queued. -/
def Controller.unsent (s : Controller p) (issuedFrom : Option Nat) (q : Nat) : List (Request p) :=
  if issuedFrom = some q then (s.commandQueues q).tail else s.commandQueues q

def Controller.waiting (s : Controller p) (issuedFrom : Option Nat) : List (Request p) :=
  pooled p.commandQueueCount (s.unsent issuedFrom)

def Policy.transactions (pol : Policy) (s : Controller p) : List (Request p) :=
  pooled pol.transactionQueueCount s.transactionQueues

/-- Where the requests are that came from above. -/
def System.held (pol : Policy) (x : System p M) (l : Ledger) : List (Request p) :=
  pol.transactions x.ctl ++ x.ctl.waiting l.issuedFrom ++ x.below

def Ledger.after (pol : Policy) (mem : Memory p M) (l : Ledger) (x : System p M) : Op p M → Ledger
  | .issueCommand id write a =>
    if pol.isIssuable x.ctl (arrival id write a) then { l with accepted := update l.accepted id true } else l
  | .cycleCommandQueues =>
    match x.chooseQueue mem with
    | .ok (_, some q) => { l with issuedFrom := some q }
    | _ => l
  | .requestComplete id paused cancelled =>
    match x.below.find? (hasId id) with
    | some r =>
      if r.isWrite && (paused || cancelled) then l else { l with completed := update l.completed id true }
    | none => l
  | .tick => { l with issuedFrom := none }
  | _ => l

/-- A request that was accepted does not arrive again. -/
def Ledger.repeats (l : Ledger) : Op p M → Bool
  | .issueCommand id _ _ => l.accepted id
  | _ => false

/-- A step of the system beside its ledger. -/
def ledgerStep (pol : Policy) (mem : Memory p M) (y : System p M × Ledger) (op : Op p M) :
    Except Stop (System p M × Ledger) :=
  if y.2.repeats op then .ok y
  else do
    let x ← y.1.step pol mem op
    pure (x, y.2.after pol mem y.1 op)

/-- `CleanupCallback` removes the commands that are marked, so none that waits may be marked. -/
structure Kept (pol : Policy) (mem : Memory p M) (y : System p M × Ledger) : Prop where
  once : ∀ id, y.2.accepted id = true → y.2.completed id = false →
    (y.1.held pol y.2).countP (hasId id) = 1
  cleanup : ∀ c ∈ y.1.ctl.waiting y.2.issuedFrom, c.issued = false
  searches : ∃ res, pol.take mem y.1.mem y.1.ctl = .ok res
  issues : ∀ t r, pol.take mem y.1.mem y.1.ctl = .ok (t, some r) →
    ∃ s', t.issueMemoryCommands mem y.1.mem r = .ok (s', true)

/-- No write comes back paused or cancelled. -/
def uninterrupted (_ : System p M × Ledger) : Op p M → Bool
  | .requestComplete _ paused cancelled => !paused && !cancelled
  | _ => true

/-! ## Waiting commands -/

namespace Controller
variable {s s' : Controller p} {i : Option Nat} {new : List (Request p)}

theorem waiting_none (s : Controller p) : s.waiting none = s.queued := by
  have hunsent : s.unsent none = s.commandQueues := by
    funext q
    simp [unsent]
  rw [waiting, hunsent, queued]

theorem waiting_congr (h : s'.commandQueues = s.commandQueues) : s'.waiting i = s.waiting i := by
  have hunsent : s'.unsent i = s.unsent i := by
    funext q
    simp only [unsent, h]
  rw [waiting, hunsent, waiting]

theorem waiting_adds (h : Adds s s' new) (hi : ∀ q, i = some q → s.commandQueues q ≠ []) :
    (s'.waiting i).Perm (new ++ s.waiting i) := by
  obtain ⟨f, hf, hperm⟩ := h.queues
  have hunsent : s'.unsent i = fun q => s.unsent i q ++ f q := by
    funext q
    simp only [unsent, hf]
    split
    · rename_i hq
      exact tail_append_of_ne_nil (hi q hq)
    · rfl
  rw [waiting, hunsent]
  exact (pooled_append _ _ f).trans (hperm.append_right _)

/-- The head that was issued in this cycle is marked, and a cleanup is scheduled. -/
def Sent (s : Controller p) (i : Option Nat) : Prop :=
  ∀ q, i = some q → s.lastIssueCycle = s.cycle ∧ s.cleanup = true ∧
    ∃ head tail, s.commandQueues q = head :: tail ∧ head.issued = true

theorem Sent.ne_nil (h : s.Sent i) (q : Nat) (hq : i = some q) : s.commandQueues q ≠ [] := by
  obtain ⟨-, -, head, tail, hhead, -⟩ := h q hq
  rw [hhead]
  exact cons_ne_nil head tail

theorem Sent.congr (h : s.Sent i) (hqueues : s'.commandQueues = s.commandQueues)
    (hlast : s'.lastIssueCycle = s.lastIssueCycle) (hcycle : s'.cycle = s.cycle) (hclean : s'.cleanup = s.cleanup) :
    s'.Sent i := by
  intro q hq
  rw [hlast, hcycle, hclean, hqueues]
  exact h q hq

theorem Sent.adds (h : s.Sent i) (hadds : Adds s s' new) : s'.Sent i := by
  intro q hq
  obtain ⟨hlast, hclean, head, tail, hhead, hissued⟩ := h q hq
  obtain ⟨f, hf, -⟩ := hadds.queues
  obtain ⟨-, -, -, -, -, -, hlast', hcycle', hclean'⟩ := hadds.fields
  rw [hlast', hcycle', hclean', hf, hhead]
  exact ⟨hlast, hclean, head, tail ++ f q, rfl, hissued⟩

end Controller

/-! ## The invariant -/

structure LedgerInv (pol : Policy) (x : System p M) (l : Ledger) : Prop where
  count : ∀ id, (x.held pol l).countP (hasId id) = if l.accepted id && !l.completed id then 1 else 0
  accepted : ∀ id, l.completed id = true → l.accepted id = true
  unmarked : ∀ c ∈ x.ctl.waiting l.issuedFrom, c.issued = false
  arrivals : ∀ r ∈ pol.transactions x.ctl, isReadOrWrite r = true ∧ r.issued = false
  sent : x.ctl.Sent l.issuedFrom
  closed : p.closePage = 2 → p.usePrecharge = true → ∀ k, x.ctl.activateQueued k = false

namespace LedgerInv
variable {pol : Policy} {mem : Memory p M} {x x' : System p M} {l l' : Ledger}

theorem init (m : M) : LedgerInv pol { mem := m : System p M } {} := by
  have hnone (n : Nat) : pooled n (fun _ => ([] : List (Request p))) = [] := by simp [pooled]
  have hwait : ({ mem := m : System p M }.ctl.waiting none) = [] := by
    exact hnone _
  have htrans : pol.transactions ({ mem := m : System p M }.ctl) = [] := hnone _
  refine ⟨fun id => ?_, fun _ h => h, fun c hc => ?_, fun r hr => ?_, ?_, fun _ _ _ => rfl⟩
  · simp [held, hwait, htrans]
  · simp [hwait] at hc
  · simp [htrans] at hr
  · intro q hq
    cases hq

/-- A step that leaves the requests where they are. -/
theorem quiet (hi : LedgerInv pol x l) (htrans : x'.ctl.transactionQueues = x.ctl.transactionQueues)
    (hqueues : x'.ctl.commandQueues = x.ctl.commandQueues) (hbelow : x'.below = x.below)
    (hlast : x'.ctl.lastIssueCycle = x.ctl.lastIssueCycle) (hcycle : x'.ctl.cycle = x.ctl.cycle)
    (hclean : x'.ctl.cleanup = x.ctl.cleanup) (hactive : x'.ctl.activateQueued = x.ctl.activateQueued) :
    LedgerInv pol x' l := by
  have hwait := waiting_congr (i := l.issuedFrom) hqueues
  have hpool : pol.transactions x'.ctl = pol.transactions x.ctl := by
    rw [transactions, htrans, transactions]
  refine ⟨fun id => ?_, hi.accepted, ?_, ?_, hi.sent.congr hqueues hlast hcycle hclean, ?_⟩
  · rw [held, hpool, hwait, hbelow]
    exact hi.count id
  · rw [hwait]
    exact hi.unmarked
  · rw [hpool]
    exact hi.arrivals
  · rw [hactive]
    exact hi.closed

/-! ## Arrivals and completions -/

theorem Policy.queueOf_lt (pol : Policy) (r : Request p) : pol.queueOf r < pol.transactionQueueCount := by
  cases pol <;> simp only [queueOf, writeQueueId, transactionQueueCount] <;> split <;> decide

theorem arrive (hi : LedgerInv pol x l) {id : Nat} (write : Bool) (a : Address p) (hnew : l.accepted id = false) :
    LedgerInv pol { x with ctl := pol.enqueue x.ctl (arrival id write a) }
      { l with accepted := update l.accepted id true } := by
  have hpool : (pol.transactions (pol.enqueue x.ctl (arrival id write a))).Perm
      ({ arrival id write a with arrivalCycle := x.ctl.cycle } :: pol.transactions x.ctl) :=
    pooled_push (Policy.queueOf_lt pol _) _
  have hdone : l.completed id = false := by
    cases h : l.completed id with
    | false => rfl
    | true => rw [hi.accepted id h] at hnew; cases hnew
  refine ⟨fun i => ?_, fun i h => ?_, hi.unmarked, fun r hr => ?_, hi.sent, hi.closed⟩
  · have hcount := hi.count i
    simp only [held, countP_append] at hcount ⊢
    rw [hpool.countP_eq, countP_cons]
    have hwait : (pol.enqueue x.ctl (arrival id write a)).waiting l.issuedFrom = x.ctl.waiting l.issuedFrom :=
      waiting_congr rfl
    rw [hwait]
    by_cases hid : i = id
    · subst hid
      simp only [hasId, arrival, beq_self_eq_true, update_self, hdone, Bool.not_false, Bool.and_true]
      simp only [hnew, Bool.false_and, Bool.false_eq_true, if_false] at hcount
      omega
    · have hne : ¬id = i := fun h => hid h.symm
      simp only [hasId, arrival, update_of_ne hid, Option.some_beq_some, beq_iff_eq, hne, if_false]
      omega
  · simp only [update_apply]
    split
    · rfl
    · exact hi.accepted i h
  · rcases mem_cons.mp (hpool.mem_iff.mp hr) with rfl | hr
    · refine ⟨?_, rfl⟩
      cases write <;> rfl
    · exact hi.arrivals r hr

theorem complete (hi : LedgerInv pol x l) {id : Nat} {r : Request p} (hr : x.below.find? (hasId id) = some r) :
    LedgerInv pol { x with below := x.below.eraseP (hasId id) }
      { l with completed := update l.completed id true } := by
  have hid := find?_some hr
  have hmem := mem_of_find?_eq_some hr
  have hcount (i : Nat) : (x.below.eraseP (hasId id)).countP (hasId i) + (if i = id then 1 else 0) =
      x.below.countP (hasId i) := by
    obtain ⟨y, l₁, l₂, -, hy, hbelow, herase⟩ := exists_of_eraseP hmem hid
    rw [herase, hbelow, countP_append, countP_append, countP_cons]
    have hiff : hasId i y = true ↔ i = id := by
      simp only [hasId, beq_iff_eq] at hy ⊢
      rw [hy, Option.some.injEq]
      exact eq_comm
    by_cases hi : i = id
    · rw [if_pos hi, if_pos (hiff.mpr hi)]
      omega
    · rw [if_neg hi, if_neg fun h => hi (hiff.mp h)]
      omega
  have hheld : l.accepted id = true := by
    have hone := hi.count id
    simp only [held, countP_append] at hone
    have := hcount id
    rw [if_pos rfl] at this
    cases h : l.accepted id with
    | true => rfl
    | false =>
      rw [h, Bool.false_and, if_neg Bool.false_ne_true] at hone
      omega
  refine ⟨fun i => ?_, fun i h => ?_, hi.unmarked, hi.arrivals, hi.sent, hi.closed⟩
  · have hone := hi.count i
    have hthis := hcount i
    simp only [held, countP_append] at hone ⊢
    by_cases h : i = id
    · subst h
      simp only [update_self, Bool.not_true, Bool.and_false, Bool.false_eq_true, if_false]
      rw [if_pos rfl] at hthis
      split at hone <;> omega
    · simp only [update_of_ne h]
      rw [if_neg h] at hthis
      omega
  · by_cases hi' : i = id
    · rw [hi']
      exact hheld
    · exact hi.accepted i (by simpa only [update_of_ne hi'] using h)

/-! ## Refresh -/

theorem countP_ownless {new : List (Request p)} (hnew : ∀ c ∈ new, c.id = none) (id : Nat) :
    new.countP (hasId id) = 0 := by
  rw [countP_eq_zero]
  intro c hc h
  simp [hasId, hnew c hc] at h

theorem prechargeGroup_closed {s : Controller p} (hs : ∀ k, s.activateQueued k = false) (a : Address p) :
    s.prechargeGroup a = s := by
  have hbank (b : Address p) : s.prechargeBank b = s := by
    unfold prechargeBank
    rw [hs, Bool.and_false, if_neg Bool.false_ne_true]
  unfold prechargeGroup
  generalize range p.banksPerRefresh = banks
  induction banks with
  | nil => rfl
  | cons b banks ih => rw [foldl_cons, hbank, ih]

theorem refresh (hi : LedgerInv pol x l) {ctl : Controller p} {queued : Bool}
    (h : x.ctl.handleRefresh = .ok (ctl, queued)) : LedgerInv pol { x with ctl := ctl } l := by
  rcases handleRefreshFrom_inv h with ⟨rfl, -⟩ | ⟨-, a, -, -, hqueue⟩
  · exact hi
  · have hrefreshed := queueRefresh_inv hqueue
    obtain ⟨t, new, hadds, hqueues, hnew⟩ := hrefreshed.adds
    have hwait := waiting_adds hadds hi.sent.ne_nil
    rw [← waiting_congr hqueues] at hwait
    have hids : ∀ c ∈ makeRefreshRequest x.ctl.cycle a :: new, c.id = none ∧ c.issued = false := by
      intro c hc
      rcases mem_cons.mp hc with rfl | hc
      · exact ⟨rfl, rfl⟩
      · exact (hnew c hc).2
    have htrans : pol.transactions ctl = pol.transactions x.ctl := by
      rw [transactions, hrefreshed.transactionQueues, transactions]
    obtain ⟨-, -, -, -, -, -, hlast, hcycle, hclean⟩ := hadds.fields
    have hsent : ctl.Sent l.issuedFrom := (hi.sent.adds hadds).congr hqueues (hrefreshed.lastIssueCycle.trans hlast.symm)
      (hrefreshed.cycle.trans hcycle.symm) (hrefreshed.cleanup.trans hclean.symm)
    refine ⟨fun id => ?_, hi.accepted, fun c hc => ?_, ?_, hsent, fun hclose huse => ?_⟩
    · have hcount := hi.count id
      simp only [held, countP_append] at hcount ⊢
      rw [htrans, hwait.countP_eq, countP_append, countP_ownless fun c hc => (hids c hc).1]
      omega
    · rcases mem_append.mp (hwait.mem_iff.mp hc) with hc | hc
      · exact (hids c hc).2
      · exact hi.unmarked c hc
    · rw [htrans]
      exact hi.arrivals
    · have hactive : ctl.plan.activateQueued = _ := congrArg activateQueued hrefreshed.plan
      rw [prechargeGroup_closed (hi.closed hclose huse)] at hactive
      intro k
      exact (congrFun hactive k).trans (hi.closed hclose huse k)

/-! ## From transactions to commands -/

section Schedule
variable {s t : Controller p} {m : M} {r w : Request p}

theorem look_empty {f : Controller.Find} (h : s.look mem m f r = .ok .take) :
    s.commandQueues (getCommandQueueId r.address) = [] := by
  have hselect {c : Bool} (h : (.ok (if c then .take else .pass) : Except Stop Controller.Choice) = .ok .take) :
      c = true := by
    cases c
    · cases h
    · rfl
  cases f with
  | starvedRequest | rowBufferHit | oldestReadyRequest | closedBankRequest =>
    have hc := hselect h
    simp only [Bool.and_eq_true, List.isEmpty_iff] at hc
    simp only [hc]
  | cachedAddress =>
    obtain ⟨c, -, h⟩ := of_bind h
    have hc := hselect h
    simp only [Bool.and_eq_true, List.isEmpty_iff] at hc
    exact hc.1.1
  | writeStalledRead =>
    simp only [look] at h
    split at h
    · cases h
    split at h
    · cases h
    · rename_i hread
      simp only [Bool.or_eq_true, not_or, Bool.not_eq_true, Bool.not_eq_false', List.isEmpty_iff] at hread
      exact hread.2

theorem look_cached (h : s.look mem m .cachedAddress r = .ok .take) :
    ∃ c, makeCachedRequest r = .ok c ∧ mem.isIssuable m s.cycle c = true := by
  obtain ⟨c, hc, h⟩ := of_bind h
  refine ⟨c, hc, ?_⟩
  by_cases hi : mem.isIssuable m s.cycle c = true
  · exact hi
  · simp [hi] at h

theorem makeCachedRequest_ok (hr : isReadOrWrite r = true) : ∃ c, makeCachedRequest r = .ok c := by
  simp [makeCachedRequest, require, hr]

theorem look_ok (mem : Memory p M) (m : M) (s : Controller p) (f : Controller.Find) (hr : isReadOrWrite r = true) : ∃ c, s.look mem m f r = .ok c := by
  cases f with
  | starvedRequest | rowBufferHit | oldestReadyRequest | closedBankRequest => exact ⟨_, rfl⟩
  | cachedAddress =>
    obtain ⟨c, hc⟩ := makeCachedRequest_ok hr
    simp [look, hc]
  | writeStalledRead =>
    simp only [look]
    split
    · exact ⟨_, rfl⟩
    split
    · exact ⟨_, rfl⟩
    split
    · exact ⟨_, rfl⟩
    split <;> exact ⟨_, rfl⟩

theorem search_ok (mem : Memory p M) (m : M) (s : Controller p) (f : Controller.Find) {queue : List (Request p)} (hq : ∀ r ∈ queue, isReadOrWrite r = true) :
    ∃ found, s.search mem m f queue = .ok found := by
  induction queue with
  | nil => exact ⟨_, rfl⟩
  | cons r queue ih =>
    obtain ⟨c, hc⟩ := look_ok mem m s f (hq r (mem_cons_self ..))
    obtain ⟨found, hfound⟩ := ih fun r hr => hq r (mem_cons_of_mem _ hr)
    rw [search, hc, bind_ok]
    cases c with
    | take | stall | giveUp => exact ⟨_, rfl⟩
    | pass =>
      simp only [hfound]
      cases found <;> exact ⟨_, rfl⟩

theorem findNext_ok (mem : Memory p M) (m : M) (s : Controller p) {queue : List (Request p)} (hq : ∀ r ∈ queue, isReadOrWrite r = true) (fs : List Controller.Find) :
    ∃ found, s.findNext mem m queue fs = .ok found := by
  induction fs with
  | nil => exact ⟨_, rfl⟩
  | cons f fs ih =>
    obtain ⟨found, hfound⟩ := search_ok mem m s f hq
    rw [findNext, find, hfound]
    cases found with
    | nothing => exact ih
    | stalled | taken => exact ⟨_, rfl⟩

theorem scheduled_lt (pol : Policy) (s : Controller p) : pol.scheduled s < pol.transactionQueueCount := by
  cases pol with
  | frfcfs => exact Nat.zero_lt_one
  | frfcfsWqf =>
    simp only [scheduled, transactionQueueCount]
    split <;> decide

theorem take_ok (hi : LedgerInv pol x l) : ∃ res, pol.take mem x.mem x.ctl = .ok res := by
  obtain ⟨d, hd⟩ := pol.updateDraining_eq x.ctl
  have hq : ∀ r ∈ (pol.updateDraining x.ctl).transactionQueues (pol.scheduled (pol.updateDraining x.ctl)),
      isReadOrWrite r = true := by
    intro r hr
    refine (hi.arrivals r (mem_pooled.mpr ⟨_, scheduled_lt pol (pol.updateDraining x.ctl), ?_⟩)).1
    rw [hd] at hr
    exact hd ▸ hr
  obtain ⟨found, hfound⟩ := findNext_ok mem x.mem (pol.updateDraining x.ctl) hq pol.finds
  simp only [Policy.take, hfound]
  cases found <;> exact ⟨_, rfl⟩

theorem taken_mem (hi : LedgerInv pol x l) (h : Taken pol mem x.mem x.ctl w r t) :
    isReadOrWrite r = true ∧ r.id = w.id ∧ r.issued = false ∧ r.address = w.address ∧
      (pol.transactions x.ctl).Perm (w :: pol.transactions t) := by
  obtain ⟨l₁, l₂, d, hqueue, rfl, -⟩ := h.queue
  have hlt := scheduled_lt pol (pol.updateDraining x.ctl)
  have hw := hi.arrivals w (mem_pooled.mpr ⟨_, hlt, by simp [hqueue]⟩)
  rw [h.request]
  exact ⟨hw.1, rfl, hw.2, rfl, pooled_remove hlt hqueue⟩

theorem taken_last (h : Taken pol mem m s w r t) (hclose : p.closePage = 2) {c : Request p}
    (hc : makeCachedRequest r = .ok c) (hcached : mem.isIssuable m s.cycle c = false) : r.lastRequest = true := by
  obtain ⟨l₁, l₂, d, -, -, f, -, hlook, hlast⟩ := h.queue
  rw [hlast]
  have hall (queue : List (Request p)) : isLastRequest queue w = true := by
    simp [isLastRequest, hclose]
  by_cases hf : f = .cachedAddress
  · rw [hf] at hlook
    obtain ⟨c', hc', hissuable⟩ := look_cached hlook
    have hsame : makeCachedRequest r = makeCachedRequest w := by
      rw [h.request]
      rfl
    rw [hsame, hc'] at hc
    cases hc
    rw [hcached] at hissuable
    cases hissuable
  · simp [hf, hall]

theorem closed_after (htaken : Taken pol mem m s w r t) (hclose : p.closePage = 2) (huse : p.usePrecharge = true)
    (hs : ∀ k, s.activateQueued k = false) {s' : Controller p} {queued : Bool}
    (h : Controller.Queues mem m t r s' queued) : ∀ k, s'.activateQueued k = false := by
  have htaken' := htaken
  obtain ⟨l₁, l₂, d, -, rfl, -⟩ := htaken'.queue
  cases h with
  | cached => exact hs
  | closed hc hissuable =>
    have hlast := taken_last htaken hclose hc hissuable
    intro k
    simp only [queueClosed, hlast, huse, Bool.and_self, if_true, noActivate, closeRow,
      push, openRow, update_apply]
    split
    · rfl
    · exact hs k
  | miss _ _ hactive =>
    rw [hs] at hactive
    cases hactive
  | hit hactive =>
    rw [hs] at hactive
    cases hactive
  | nothing => exact hs

theorem issueMemoryCommands_ok (hi : LedgerInv pol x l) (htaken : Taken pol mem x.mem x.ctl w r t) :
    ∃ s', t.issueMemoryCommands mem x.mem r = .ok (s', true) := by
  obtain ⟨hr, -, -, haddr, -⟩ := hi.taken_mem htaken
  obtain ⟨c, hc⟩ := makeCachedRequest_ok hr
  have htaken' := htaken
  obtain ⟨l₁, l₂, d, -, rfl, f, -, hlook, -⟩ := htaken'.queue
  have hempty := look_empty hlook
  simp only [issueMemoryCommands, hc, bind_ok]
  split
  · exact ⟨_, rfl⟩
  split
  · exact ⟨_, rfl⟩
  split
  · exact ⟨_, rfl⟩
  split
  · rename_i hhit
    simp only [Bool.and_eq_true] at hhit
    have hqueue : ∃ s', queueHit { x.ctl with
        draining := d
        transactionQueues := update x.ctl.transactionQueues (pol.scheduled (pol.updateDraining x.ctl)) (l₁ ++ l₂) } r =
          .ok s' := by
      unfold queueHit
      split
      · rename_i hlast
        have huse := (Bool.and_eq_true_iff.mp hlast).2
        have hclose : p.closePage ≠ 2 := by
          intro hclose
          have hnone := hi.closed hclose huse (r.address.rank, r.address.bank)
          rw [hhit.1] at hnone
          cases hnone
        simp [require, hclose]
      · exact ⟨_, rfl⟩
    obtain ⟨s', hs'⟩ := hqueue
    rw [hs']
    exact ⟨s', rfl⟩
  · cases h : x.ctl.activateQueued (r.address.rank, r.address.bank) <;> simp_all

theorem schedule (hi : LedgerInv pol x l) {ctl : Controller p} (h : pol.schedule mem x.mem x.ctl = .ok ctl) :
    LedgerInv pol { x with ctl := ctl } l := by
  rcases schedule_cases h with ⟨d, rfl⟩ | ⟨w, r, t, queued, htaken, hissue⟩
  · exact hi.quiet rfl rfl rfl rfl rfl rfl rfl
  · obtain ⟨s', hs'⟩ := hi.issueMemoryCommands_ok htaken
    rw [hissue] at hs'
    cases hs'
    obtain ⟨hr, hid, hissued, -, hpool⟩ := hi.taken_mem htaken
    obtain ⟨-, hqueues⟩ := issueMemoryCommands_cases hissue
    obtain ⟨c, new, hadds, hc, hnew⟩ := hqueues.adds hr
    have hbase : t.commandQueues = x.ctl.commandQueues ∧ t.lastIssueCycle = x.ctl.lastIssueCycle ∧
        t.cycle = x.ctl.cycle ∧ t.cleanup = x.ctl.cleanup := by
      obtain ⟨l₁, l₂, d, -, rfl, -⟩ := htaken.queue
      exact ⟨rfl, rfl, rfl, rfl⟩
    have hsent : t.Sent l.issuedFrom := hi.sent.congr hbase.1 hbase.2.1 hbase.2.2.1 hbase.2.2.2
    have hwait := waiting_adds hadds hsent.ne_nil
    rw [waiting_congr hbase.1] at hwait
    have htrans : pol.transactions ctl = pol.transactions t := by
      rw [transactions, hadds.fields.1, transactions]
    refine ⟨fun id => ?_, hi.accepted, fun a ha => ?_, fun a ha => ?_, hsent.adds hadds, fun hclose huse => ?_⟩
    · -- the request moves from its transaction queue to the commands that wait
      have hcount := hi.count id
      have hrows : new.countP (hasId id) = 0 := countP_ownless (fun a ha => (hnew a ha).2.1) id
      have hsame : hasId id c = hasId id w := by
        rw [hasId, hc.id, hid, hasId]
      simp only [held, countP_append] at hcount ⊢
      rw [hpool.countP_eq, countP_cons] at hcount
      rw [htrans, hwait.countP_eq, countP_append, countP_cons, hrows, hsame]
      omega
    · rcases mem_append.mp (hwait.mem_iff.mp ha) with ha | ha
      · rcases mem_cons.mp ha with rfl | ha
        · rw [hc.issued, hissued]
        · exact (hnew a ha).2.2
      · exact hi.unmarked a ha
    · rw [htrans] at ha
      exact hi.arrivals a (hpool.mem_iff.mpr (mem_cons_of_mem _ ha))
    · exact closed_after htaken hclose huse (hi.closed hclose huse) hqueues

end Schedule

/-! ## Issuing, and the cleanup -/

theorem issue (hi : LedgerInv pol x l) {q : Nat} {head : Request p} {tail : List (Request p)}
    (hq : q < p.commandQueueCount) (h : System.Issued mem x q head tail x') :
    LedgerInv pol x' { l with issuedFrom := some q } := by
  have hfree : l.issuedFrom = none := by
    cases hfrom : l.issuedFrom with
    | none => rfl
    | some r => exact absurd (hi.sent r hfrom).1 h.free
  obtain ⟨f, c, hctl, -⟩ := markIssued_inv h.ctl
  have hwait : (x.ctl.waiting none).Perm (head :: x'.ctl.waiting (some q)) := by
    have hunsent : x'.ctl.unsent (some q) = update x.ctl.commandQueues q tail := by
      funext r
      rw [hctl]
      simp only [unsent, mark, update_apply, Option.some.injEq]
      by_cases hr : r = q
      · rw [if_pos hr.symm, if_pos hr, if_pos hr, tail_cons]
      · rw [if_neg fun h => hr h.symm, if_neg hr, if_neg hr]
    rw [waiting_none, Controller.waiting, hunsent]
    have hhead : x.ctl.commandQueues q = [] ++ head :: tail := h.queue
    exact pooled_remove hq hhead
  have htrans : pol.transactions x'.ctl = pol.transactions x.ctl := by
    rw [transactions, hctl, transactions, mark]
  have hmark : ∀ c ∈ x.ctl.waiting none, c.issued = false := by
    intro c hc
    rw [← hfree] at hc
    exact hi.unmarked c hc
  refine ⟨fun id => ?_, hi.accepted, fun c hc => ?_, ?_, ?_, fun hclose huse => ?_⟩
  · have hcount := hi.count id
    have hbelow : x'.below.countP (hasId id) =
        x.below.countP (hasId id) + if hasId id head then 1 else 0 := by
      rw [h.below]
      split
      · rw [countP_cons]
        rfl
      · rename_i hnone
        rw [Option.not_isSome_iff_eq_none] at hnone
        simp [hasId, hnone]
    simp only [held, countP_append, hfree] at hcount ⊢
    rw [hwait.countP_eq, countP_cons] at hcount
    rw [htrans, hbelow]
    omega
  · exact hmark c (hwait.mem_iff.mpr (mem_cons_of_mem _ hc))
  · rw [htrans]
    exact hi.arrivals
  · intro r hr
    cases hr
    rw [hctl]
    exact ⟨rfl, rfl, _, tail, update_self .., rfl⟩
  · rw [hctl]
    exact hi.closed hclose huse

theorem tick (hi : LedgerInv pol x l) : LedgerInv pol { x with ctl := x.ctl.tick } { l with issuedFrom := none } := by
  have hqueues : ∀ q < p.commandQueueCount, x.ctl.tick.commandQueues q = x.ctl.unsent l.issuedFrom q := by
    intro q hq
    have hkeep : (x.ctl.unsent l.issuedFrom q).filter (fun r => !r.issued) = x.ctl.unsent l.issuedFrom q := by
      refine filter_eq_self.mpr fun c hc => ?_
      rw [hi.unmarked c (mem_pooled.mpr ⟨q, hq, hc⟩)]
      rfl
    unfold Controller.tick
    by_cases hclean : x.ctl.cleanup = true
    · rw [if_pos hclean]
      show (x.ctl.commandQueues q).filter (fun r => !r.issued) = _
      rw [← hkeep, unsent]
      split
      · rename_i hfrom
        obtain ⟨-, -, head, tail, hhead, hissued⟩ := hi.sent q hfrom
        rw [hhead, filter_cons_of_neg (by simp [hissued]), tail_cons]
      · rfl
    · rw [if_neg hclean, unsent, if_neg]
      intro hfrom
      exact hclean (hi.sent q hfrom).2.1
  have hwait : x.ctl.tick.waiting none = x.ctl.waiting l.issuedFrom := by
    exact flatMap_congr fun q hq => hqueues q (mem_range.mp hq)
  have hframe : x.ctl.tick.transactionQueues = x.ctl.transactionQueues ∧
      x.ctl.tick.activateQueued = x.ctl.activateQueued := by
    unfold Controller.tick
    split <;> exact ⟨rfl, rfl⟩
  have htrans : pol.transactions x.ctl.tick = pol.transactions x.ctl := by
    rw [transactions, hframe.1, transactions]
  refine ⟨fun id => ?_, hi.accepted, ?_, ?_, fun _ hq => absurd hq (Option.some_ne_none _).symm, fun hclose huse => ?_⟩
  · simp only [held, htrans, hwait]
    exact hi.count id
  · simp only [hwait]
    exact hi.unmarked
  · rw [htrans]
    exact hi.arrivals
  · rw [hframe.2]
    exact hi.closed hclose huse

theorem step (hi : LedgerInv pol x l) {op : Op p M} (hnew : l.repeats op = false)
    (hwhole : uninterrupted (x, l) op = true) (h : x.step pol mem op = .ok x') : LedgerInv pol x' (l.after pol mem x op) := by
  cases op with
  | issueCommand id write a =>
    cases h
    simp only [Ledger.after]
    split
    · exact hi.arrive write a hnew
    · exact hi
  | schedule =>
    obtain ⟨ctl, hctl, h⟩ := of_bind h
    cases h
    exact hi.schedule hctl
  | refreshPulse rank group =>
    simp only [System.step] at h
    split at h
    · obtain ⟨ctl, hctl, h⟩ := of_bind h
      obtain ⟨f, rfl⟩ := processRefreshPulse_inv hctl
      cases h
      exact hi.quiet rfl rfl rfl rfl rfl rfl rfl
    · cases h
      exact hi
  | handleRefresh =>
    obtain ⟨⟨ctl, queued⟩, hctl, h⟩ := of_bind h
    cases h
    exact hi.refresh hctl
  | cycleCommandQueues =>
    rcases cycleCommandQueues_cases h with
      ⟨hchoose, rfl⟩ | ⟨ctl, hchoose, hctl, rfl⟩ | ⟨q, hq, head, tail, hchoose, hissued⟩
    · simp only [Ledger.after, hchoose]
      exact hi
    · simp only [Ledger.after, hchoose]
      exact hi.refresh hctl
    · simp only [Ledger.after, hchoose]
      exact hi.issue hq hissued
  | requestComplete id paused cancelled =>
    cases h
    simp only [uninterrupted, Bool.and_eq_true, Bool.not_eq_true'] at hwhole
    simp only [Ledger.after, requestComplete]
    split
    · rename_i hr
      simp only [hr]
      exact hi
    · rename_i r hr
      simp only [hr, hwhole, Bool.or_self, Bool.and_false]
      exact hi.complete hr
  | memory m =>
    cases h
    exact hi.quiet rfl rfl rfl rfl rfl rfl rfl
  | drain =>
    cases h
    cases pol <;> exact hi.quiet rfl rfl rfl rfl rfl rfl rfl
  | tick =>
    cases h
    exact hi.tick

theorem kept (hi : LedgerInv pol x l) : Kept pol mem (x, l) := by
  refine ⟨fun id hacc hdone => ?_, hi.unmarked, hi.take_ok, fun t r htake => ?_⟩
  · rw [hi.count id, hacc, hdone]
    rfl
  · obtain ⟨w, htaken⟩ := take_some htake
    exact hi.issueMemoryCommands_ok htaken

end LedgerInv

/-! ## Whole runs -/

/-- In every run in which no write comes back paused or cancelled, no transaction is lost or sent twice. -/
theorem transactions_kept {pol : Policy} {mem : Memory p M} {m : M} {ops : List (Op p M)} {y : System p M × Ledger}
    (hr : Exec (StepIf uninterrupted (ledgerStep pol mem)) ({ mem := m }, {}) ops y) : Kept pol mem y := by
  have hinv : LedgerInv pol y.1 y.2 := by
    refine hr.invariant (P := fun y => LedgerInv pol y.1 y.2) (LedgerInv.init m) ?_
    rintro y op z hi ⟨hwhole, hstep⟩
    unfold ledgerStep at hstep
    split at hstep
    · cases hstep
      exact hi
    · rename_i hnew
      obtain ⟨x, hx, hz⟩ := of_bind hstep
      cases hz
      exact hi.step (Bool.eq_false_iff.mpr hnew) hwhole hx
  exact hinv.kept

/-- Open-page rows and write pausing, with one bank. -/
def oneBank : Params where
  ranks := 1
  banks := 1
  rows := 4
  subArrayNum := 1
  rbSize := 8
  queueModel := .perBank
  banksPerRefresh := 1
  closePage := 0
  useRefresh := false
  writePausing := true
  ranks_pos := Nat.one_pos
  banks_pos := Nat.one_pos
  subArrayNum_pos := Nat.one_pos
  rbSize_pos := eight_pos
  scheme_ok := Params.rankFirst_ok
  banksPerRefresh_pos := Nat.one_pos
  banksPerRefresh_le := Nat.one_pos

def rowOf (row : Nat) : Address oneBank := ⟨row, 0, 0, 0, 0, by decide, by decide, by decide⟩

/-- A write to row 0 is opened and issued. -/
def writeRowZero : List (Op oneBank Bool) :=
  [.issueCommand 0 true (rowOf 0), .tick, .schedule, .cycleCommandQueues, .tick, .cycleCommandQueues, .tick]

/-- The write is with the memory, and a read of another row waits. -/
theorem transactions_kept_oneBank : ∃ y, Exec (StepIf uninterrupted (ledgerStep (.frfcfs 4) (readyMemory oneBank)))
      ({ mem := true }, {}) (writeRowZero ++ [.issueCommand 1 false (rowOf 1)]) y ∧
    y.1.below.length = 1 ∧ Kept (.frfcfs 4) (readyMemory oneBank) y := by
  refine Exec.ends_withIf (p := fun y => y.1.below.length == 1) (by decide) fun y hr hy => ?_
  exact ⟨beq_iff_eq.mp hy, transactions_kept hr⟩

/-- The read opens its row, and the write comes back paused. -/
theorem paused_write_lost : ∃ y, Exec (StepOf (ledgerStep (.frfcfs 4) (readyMemory oneBank))) ({ mem := true }, {})
      (writeRowZero ++ [.issueCommand 1 false (rowOf 1), .tick, .schedule, .cycleCommandQueues, .tick, .cycleCommandQueues,
        .requestComplete 0 true false, .tick, .cycleCommandQueues, .tick, .schedule, .cycleCommandQueues, .tick]) y ∧
    y.2.accepted 0 = true ∧ y.2.completed 0 = false ∧
    (y.1.held (.frfcfs 4) y.2).countP (hasId 0) = 0 ∧ ¬Kept (.frfcfs 4) (readyMemory oneBank) y := by
  refine Exec.ends_with (p := fun y => y.2.accepted 0 && !y.2.completed 0 &&
      (y.1.held (.frfcfs 4) y.2).countP (hasId 0) == 0) (by decide) fun y hr hy => ?_
  simp only [Bool.and_eq_true, Bool.not_eq_true', beq_iff_eq] at hy
  obtain ⟨⟨hacc, hdone⟩, hnone⟩ := hy
  refine ⟨hacc, hdone, hnone, fun hkept => ?_⟩
  have hone := hkept.once 0 hacc hdone
  omega

end Nvm
