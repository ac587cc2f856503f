import Gem5Nvmain.Lib.Queues
import Gem5Nvmain.Nvm.Scheduler
import Mathlib.Data.List.Nodup

/- What the functions of the controller do to its queues.

  `Adds s s' new` says that `new` was pushed to the command queues, and that nothing changed besides the command
  queues and the predicted rows. Both `HandleRefresh`, before it counts the refresh, and `IssueMemoryCommands` are of
  this kind. A search takes one request out of a transaction queue (`Taken`), and issuing a command marks the head of
  a queue (`issueFrom_cases`). -/
namespace Nvm
open Lib Function List Controller Bool

variable {p : Params} {M : Type}

/-- All commands in the command queues. -/
def Controller.queued (s : Controller p) : List (Request p) := pooled p.commandQueueCount s.commandQueues

/-- The state besides the command queues and the predicted rows. -/
def Controller.frame (s : Controller p) : Controller p :=
  { s with
    commandQueues := fun _ => []
    activateQueued := fun _ => false
    activeSubArray := fun _ => false
    effectiveRow := fun _ => 0
    effectiveMuxedRow := fun _ => 0
    starvationCounter := fun _ => 0 }

structure Adds (s s' : Controller p) (new : List (Request p)) : Prop where
  frame : s'.frame = s.frame
  queues : ∃ f, (∀ q, s'.commandQueues q = s.commandQueues q ++ f q) ∧ (pooled p.commandQueueCount f).Perm new

namespace Adds
variable {s s' s'' : Controller p} {new new' : List (Request p)}

theorem none (hf : s'.frame = s.frame) (hq : s'.commandQueues = s.commandQueues) : Adds s s' [] := by
  refine ⟨hf, fun _ => [], fun q => ?_, ?_⟩
  · rw [hq, append_nil]
  · simp [pooled]

theorem refl (s : Controller p) : Adds s s [] := Adds.none rfl rfl

theorem trans (h : Adds s s' new) (h' : Adds s' s'' new') : Adds s s'' (new' ++ new) := by
  obtain ⟨f, hf, hperm⟩ := h.queues
  obtain ⟨f', hf', hperm'⟩ := h'.queues
  refine ⟨h'.frame.trans h.frame, fun q => f q ++ f' q, fun q => ?_, ?_⟩
  · rw [hf', hf, append_assoc]
  · exact (pooled_append _ f f').trans (hperm'.append hperm)

theorem push (s : Controller p) (a : Address p) (r : Request p) : Adds s (s.push (getCommandQueueId a) r) [r] := by
  refine ⟨rfl, update (fun _ => []) (getCommandQueueId a) [r], fun q => ?_, pooled_singleton (getCommandQueueId_lt a) r⟩
  simp only [Controller.push, update_apply]
  split
  · rename_i hq
    rw [hq]
  · rw [append_nil]

theorem openRow (s : Controller p) (a : Address p) : Adds s (s.openRow a) [] := Adds.none rfl rfl

theorem closeRow (s : Controller p) (a : Address p) : Adds s (s.closeRow a) [] := Adds.none rfl rfl

theorem noActivate (s : Controller p) (a : Address p) : Adds s (s.noActivate a) [] := Adds.none rfl rfl

theorem starve (s : Controller p) (a : Address p) : Adds s (s.starve a) [] := Adds.none rfl rfl

theorem pool (h : Adds s s' new) : s'.queued.Perm (new ++ s.queued) := by
  obtain ⟨f, hf, hperm⟩ := h.queues
  have hqueues : s'.commandQueues = fun q => s.commandQueues q ++ f q := funext hf
  rw [queued, queued, hqueues]
  exact (pooled_append _ _ f).trans (hperm.append_right _)

theorem fields (h : Adds s s' new) : s'.transactionQueues = s.transactionQueues ∧
    s'.bankNeedRefresh = s.bankNeedRefresh ∧ s'.refreshQueued = s.refreshQueued ∧
    s'.delayedRefreshCounter = s.delayedRefreshCounter ∧ s'.nextRefreshRank = s.nextRefreshRank ∧
    s'.nextRefreshBank = s.nextRefreshBank ∧ s'.lastIssueCycle = s.lastIssueCycle ∧ s'.cycle = s.cycle ∧
    s'.cleanup = s.cleanup := by
  have h := h.frame
  simp only [Controller.frame, Controller.mk.injEq] at h
  tauto

end Adds

/-! ## Refresh -/

namespace Controller
variable {s s' : Controller p}

/-- A command that closes a bank for its refresh. -/
def IsPrechargeAll (r : Request p) : Prop := r.type = .prechargeAll ∧ r.id = none ∧ r.issued = false

theorem prechargeBank_adds (s : Controller p) (a : Address p) :
    ∃ new, Adds s (s.prechargeBank a) new ∧ ∀ r ∈ new, IsPrechargeAll r := by
  unfold prechargeBank
  split
  · have hpush := Adds.push s a (makePrechargeAllRequest s.cycle a)
    refine ⟨_, hpush.trans (Adds.none rfl rfl), fun r hr => ?_⟩
    rw [mem_singleton.mp hr]
    exact ⟨rfl, rfl, rfl⟩
  · exact ⟨[], .refl s, by simp⟩

theorem prechargeGroup_adds (s : Controller p) (a : Address p) :
    ∃ new, Adds s (s.prechargeGroup a) new ∧ ∀ r ∈ new, IsPrechargeAll r := by
  unfold prechargeGroup
  generalize range p.banksPerRefresh = l
  induction l generalizing s with
  | nil => exact ⟨[], .refl s, by simp⟩
  | cons b l ih =>
    obtain ⟨new, hadds, hnew⟩ := s.prechargeBank_adds (refreshBank a b)
    obtain ⟨more, hadds', hmore⟩ := ih (s.prechargeBank (refreshBank a b))
    refine ⟨more ++ new, hadds.trans hadds', fun r hr => ?_⟩
    rcases mem_append.mp hr with hr | hr
    · exact hmore r hr
    · exact hnew r hr

/-- The banks of a refresh, from its head on. -/
def refreshBanks (a : Address p) : List Nat :=
  (range p.banksPerRefresh).map fun tmpBank => (refreshBank a tmpBank).bank

theorem markRefreshQueued_eq (s : Controller p) (a : Address p) : s.markRefreshQueued a =
    { s with refreshQueued := fun k => s.refreshQueued k || (k.1 == a.rank && (refreshBanks a).contains k.2) } := by
  unfold markRefreshQueued refreshBanks
  generalize range p.banksPerRefresh = l
  induction l generalizing s with
  | nil => simp
  | cons b l ih =>
    rw [foldl_cons, ih]
    congr 1
    funext k
    rw [Bool.eq_iff_iff]
    simp only [update_apply, or_eq_true, and_eq_true, beq_iff_eq, contains_iff_mem, map_cons,
      mem_cons]
    by_cases hk : k = (a.rank, (refreshBank a b).bank)
    · subst hk
      simp
    · rw [if_neg hk]
      have hne : ¬(k.1 = a.rank ∧ k.2 = (refreshBank a b).bank) := fun h => hk (Prod.ext h.1 h.2)
      tauto

/-! ### Bank groups -/

variable {bank b : Nat}

theorem mem_groupBanks : b ∈ groupBanks p bank ↔ b / p.banksPerRefresh = bank / p.banksPerRefresh := by
  have hpos := p.banksPerRefresh_pos
  simp only [groupBanks, mem_map, mem_range]
  constructor
  · rintro ⟨i, hi, rfl⟩
    rw [Nat.mul_comm, Nat.mul_add_div hpos, Nat.div_eq_of_lt hi, Nat.add_zero]
  · intro h
    refine ⟨b % p.banksPerRefresh, Nat.mod_lt _ hpos, ?_⟩
    rw [← h, Nat.mul_comm]
    exact Nat.div_add_mod b _

theorem group_lt (he : p.banksPerRefresh ∣ p.banks) (hb : bank < p.banks) :
    bank / p.banksPerRefresh < p.refreshBankNum := by
  refine Nat.div_lt_of_lt_mul ?_
  rw [Params.refreshBankNum, Nat.mul_div_cancel' he]
  exact hb

theorem groupBanks_lt (he : p.banksPerRefresh ∣ p.banks) (hb : bank < p.banks)
    (hmem : b ∈ groupBanks p bank) : b < p.banks := by
  have hlt := group_lt he hb
  rw [← mem_groupBanks.mp hmem] at hlt
  calc b < p.banksPerRefresh * (b / p.banksPerRefresh + 1) := Nat.lt_mul_div_succ b p.banksPerRefresh_pos
    _ ≤ p.banksPerRefresh * p.refreshBankNum := Nat.mul_le_mul_left _ hlt
    _ = p.banks := Nat.mul_div_cancel' he

variable {rank : Nat}

theorem needRefresh_eq (he : p.banksPerRefresh ∣ p.banks) (hb : bank < p.banks)
    (hr : rank < p.ranks) : s.needRefresh bank rank =
      .ok (p.useRefresh && decide (s.delayedRefreshCounter (rank, bank / p.banksPerRefresh) ≥
        p.delayedRefreshThreshold)) := by
  have hg := group_lt he hb
  unfold needRefresh
  cases p.useRefresh with
  | true => simp [inBounds, hr, hg]
  | false => simp

theorem setBankNeedRefresh_inv {v : Bool} (h : s.setBankNeedRefresh bank rank v = .ok s') :
    ∃ f, s' = { s with bankNeedRefresh := f } := by
  unfold setBankNeedRefresh at h
  generalize groupBanks p bank = l at h
  induction l generalizing s with
  | nil =>
    cases h
    exact ⟨_, rfl⟩
  | cons b l ih =>
    obtain ⟨s₁, hs₁, h⟩ := of_bind h
    obtain ⟨_, -, hs₁⟩ := of_bind hs₁
    cases hs₁
    obtain ⟨f, rfl⟩ := ih h
    exact ⟨f, rfl⟩

theorem setBankNeedRefresh_ok (he : p.banksPerRefresh ∣ p.banks) (hb : bank < p.banks) (v : Bool) :
    ∃ s', s.setBankNeedRefresh bank rank v = .ok s' := by
  have hall : ∀ b ∈ groupBanks p bank, b < p.banks := fun b hmem => groupBanks_lt he hb hmem
  unfold setBankNeedRefresh
  generalize groupBanks p bank = l at hall ⊢
  induction l generalizing s with
  | nil => exact ⟨s, rfl⟩
  | cons b l ih =>
    have hstep : setNeed rank v s b = .ok { s with bankNeedRefresh := update s.bankNeedRefresh (rank, b) v } := by
      simp [setNeed, inBounds, hall b (mem_cons_self ..)]
    rw [foldlM_cons, hstep]
    exact ih fun c hc => hall c (mem_cons_of_mem _ hc)

theorem resetRefreshQueued_inv (h : s.resetRefreshQueued bank rank = .ok s') :
    ∃ f, s' = { s with refreshQueued := f } := by
  unfold resetRefreshQueued at h
  generalize groupBanks p bank = l at h
  induction l generalizing s with
  | nil =>
    cases h
    exact ⟨_, rfl⟩
  | cons b l ih =>
    obtain ⟨s₁, hs₁, h⟩ := of_bind h
    obtain ⟨_, -, hs₁⟩ := of_bind hs₁
    obtain ⟨_, -, hs₁⟩ := of_bind hs₁
    cases hs₁
    obtain ⟨f, rfl⟩ := ih h
    exact ⟨f, rfl⟩

theorem resetQueued_loop {l : List Nat} (hnd : l.Nodup)
    (hl : ∀ b ∈ l, b < p.banks ∧ s.refreshQueued (rank, b) = true) : l.foldlM (resetQueued rank) s =
      .ok { s with refreshQueued := fun k => s.refreshQueued k && !(k.1 == rank && l.contains k.2) } := by
  induction l generalizing s with
  | nil => simp
  | cons b l ih =>
    obtain ⟨hb, hq⟩ := hl b (mem_cons_self ..)
    obtain ⟨hnot, hnd⟩ := nodup_cons.mp hnd
    have hstep : resetQueued rank s b = .ok { s with refreshQueued := update s.refreshQueued (rank, b) false } := by
      simp [resetQueued, inBounds, require, hb, hq]
    rw [foldlM_cons, hstep, bind_ok, ih hnd]
    · congr 2
      funext k
      rw [Bool.eq_iff_iff]
      simp only [update_apply, and_eq_true, not_eq_true', and_eq_false_iff, beq_eq_false_iff_ne,
        contains_eq_mem, decide_eq_false_iff_not, mem_cons]
      by_cases hk : k = (rank, b)
      · subst hk
        simp
      · have hne : ¬(k.1 = rank ∧ k.2 = b) := fun h => hk (Prod.ext h.1 h.2)
        simp only [hk]
        tauto
    · intro c hc
      have hcb : c ≠ b := fun h => hnot (h ▸ hc)
      obtain ⟨hlt, hset⟩ := hl c (mem_cons_of_mem _ hc)
      refine ⟨hlt, ?_⟩
      simp only [update_apply]
      rw [if_neg fun h => hcb (Prod.mk.inj h).2]
      exact hset

theorem resetRefreshQueued_ok (he : p.banksPerRefresh ∣ p.banks) (hb : bank < p.banks)
    (hset : ∀ b, b / p.banksPerRefresh = bank / p.banksPerRefresh → s.refreshQueued (rank, b) = true) :
    s.resetRefreshQueued bank rank = .ok { s with refreshQueued := fun k => s.refreshQueued k &&
      !(k.1 == rank && k.2 / p.banksPerRefresh == bank / p.banksPerRefresh) } := by
  have hnd : (groupBanks p bank).Nodup := by
    refine List.Nodup.map (fun i j hij => ?_) nodup_range
    simpa using hij
  unfold resetRefreshQueued
  rw [resetQueued_loop hnd fun b hmem => ⟨groupBanks_lt he hb hmem, hset b (mem_groupBanks.mp hmem)⟩]
  congr 2
  funext k
  congr 3
  rw [Bool.eq_iff_iff]
  simp [mem_groupBanks]

theorem processRefreshPulse_inv (h : s.processRefreshPulse bank rank = .ok s') : ∃ f, s' = { s with
      delayedRefreshCounter := update s.delayedRefreshCounter (rank, bank / p.banksPerRefresh)
        (s.delayedRefreshCounter (rank, bank / p.banksPerRefresh) + 1)
      bankNeedRefresh := f } := by
  obtain ⟨s₁, hs₁, h⟩ := of_bind h
  obtain ⟨_, -, hs₁⟩ := of_bind hs₁
  cases hs₁
  obtain ⟨need, -, h⟩ := of_bind h
  cases need with
  | true =>
    obtain ⟨f, rfl⟩ := setBankNeedRefresh_inv h
    exact ⟨f, rfl⟩
  | false =>
    cases h
    exact ⟨_, rfl⟩

theorem processRefreshPulse_ok (he : p.banksPerRefresh ∣ p.banks) (hb : bank < p.banks)
    (hr : rank < p.ranks) : ∃ s', s.processRefreshPulse bank rank = .ok s' := by
  have hg := group_lt he hb
  have hcount : ∃ t, s.incrementRefreshCounter bank rank = .ok t := by
    simp [incrementRefreshCounter, inBounds, hr, hg]
  obtain ⟨t, ht⟩ := hcount
  simp only [processRefreshPulse, ht, needRefresh_eq he hb hr, bind_ok]
  split
  · exact setBankNeedRefresh_ok he hb true
  · exact ⟨t, rfl⟩

/-! ### Queueing a refresh -/

/-- The command queues and the predicted rows alone. -/
def plan (s : Controller p) : Controller p :=
  { commandQueues := s.commandQueues
    activateQueued := s.activateQueued
    activeSubArray := s.activeSubArray
    effectiveRow := s.effectiveRow
    effectiveMuxedRow := s.effectiveMuxedRow }

/-- A REFRESH of the group whose head is `a` was queued, behind the precharges. -/
structure Refreshed (s : Controller p) (a : Address p) (s' : Controller p) : Prop where
  plan : s'.plan = ((s.prechargeGroup a).push (getCommandQueueId a) (makeRefreshRequest s.cycle a)).plan
  refreshQueued : ∀ k, s'.refreshQueued k =
    (s.refreshQueued k || (k.1 == a.rank && (refreshBanks a).contains k.2))
  counter : s'.delayedRefreshCounter = update s.delayedRefreshCounter (a.rank, a.bank / p.banksPerRefresh)
    (if s.delayedRefreshCounter (a.rank, a.bank / p.banksPerRefresh) = 0 then 2 ^ 64 - 1
      else s.delayedRefreshCounter (a.rank, a.bank / p.banksPerRefresh) - 1)
  nextRank : s'.nextRefreshRank = s.moveRefresh.nextRefreshRank
  nextBank : s'.nextRefreshBank = s.moveRefresh.nextRefreshBank
  transactionQueues : s'.transactionQueues = s.transactionQueues
  lastIssueCycle : s'.lastIssueCycle = s.lastIssueCycle
  cycle : s'.cycle = s.cycle
  cleanup : s'.cleanup = s.cleanup

variable {a : Address p}

theorem settleNeed_inv (h : s.settleNeed a = .ok s') : ∃ f, s' = { s with bankNeedRefresh := f } := by
  obtain ⟨need, -, h⟩ := of_bind h
  cases need with
  | true =>
    cases h
    exact ⟨_, rfl⟩
  | false => exact setBankNeedRefresh_inv h

theorem moveRefresh_eq (s : Controller p) : s.moveRefresh =
    { s with nextRefreshRank := s.moveRefresh.nextRefreshRank, nextRefreshBank := s.moveRefresh.nextRefreshBank } := by
  unfold moveRefresh
  by_cases h : s.nextRefreshBank + p.banksPerRefresh ≥ p.banks
  · simp only [if_pos h]
  · simp only [if_neg h]

theorem queueRefresh_inv (h : s.queueRefresh a = .ok s') : Refreshed s a s' := by
  obtain ⟨new, hadds, -⟩ := s.prechargeGroup_adds a
  obtain ⟨htrans, -, hqueued, hcounter, hrank, hbank, hlast, hcycle, hclean⟩ := hadds.fields
  obtain ⟨s₁, hs₁, h⟩ := of_bind h
  obtain ⟨_, -, hs₁⟩ := of_bind hs₁
  obtain ⟨s₂, hs₂, h⟩ := of_bind h
  obtain ⟨f, rfl⟩ := settleNeed_inv hs₂
  cases hs₁
  cases h
  rw [enterRefresh, markRefreshQueued_eq, moveRefresh_eq]
  refine ⟨?_, ?_, ?_, ?_, ?_, htrans, hlast, hcycle, hclean⟩
  · simp only [hcycle]
    rfl
  · intro k
    simp only [push, hqueued]
  · simp only [push, hcounter]
  · simp only [moveRefresh, push, hrank, hbank]
    split <;> rfl
  · simp only [moveRefresh, push, hbank]
    split <;> rfl

theorem queueRefresh_ok (he : p.banksPerRefresh ∣ p.banks) (a : Address p) : ∃ s', s.queueRefresh a = .ok s' := by
  have hg := group_lt he a.bank_lt
  have hcount (t : Controller p) : ∃ t', t.decrementRefreshCounter a.bank a.rank = .ok t' := by
    simp [decrementRefreshCounter, inBounds, a.rank_lt, hg]
  have hsettle (t : Controller p) : ∃ t', t.settleNeed a = .ok t' := by
    simp only [settleNeed, needRefresh_eq he a.bank_lt a.rank_lt, bind_ok]
    split
    · exact ⟨t, rfl⟩
    · exact setBankNeedRefresh_ok he a.bank_lt false
  obtain ⟨s₁, hs₁⟩ := hcount (s.enterRefresh a)
  obtain ⟨s₂, hs₂⟩ := hsettle s₁
  refine ⟨{ s₂ with handledRefresh := some s₂.cycle }.moveRefresh, ?_⟩
  simp only [queueRefresh, hs₁, hs₂, bind_ok, pure_eq_ok]

theorem mem_refreshOrder (h : a ∈ s.refreshOrder) :
    ∃ i, a.bank = (s.nextRefreshBank + i * p.banksPerRefresh) % p.banks ∧ a.subarray = 0 := by
  simp only [refreshOrder, mem_flatMap, mem_map] at h
  obtain ⟨rankIdx, -, bankIdx, -, rfl⟩ := h
  exact ⟨bankIdx, rfl, rfl⟩

theorem Refreshed.adds (h : Refreshed s a s') : ∃ t new, Adds s t (makeRefreshRequest s.cycle a :: new) ∧
    s'.commandQueues = t.commandQueues ∧ ∀ r ∈ new, IsPrechargeAll r := by
  obtain ⟨new, hadds, hnew⟩ := s.prechargeGroup_adds a
  have hqueues : s'.plan.commandQueues = _ := congrArg commandQueues h.plan
  exact ⟨_, new, hadds.trans (Adds.push _ a _), hqueues, hnew⟩

theorem Refreshed.pool (h : Refreshed s a s') :
    ∃ new, s'.queued.Perm (makeRefreshRequest s.cycle a :: new ++ s.queued) ∧ ∀ r ∈ new, IsPrechargeAll r := by
  obtain ⟨t, new, hadds, hqueues, hnew⟩ := h.adds
  refine ⟨new, ?_, hnew⟩
  rw [queued, hqueues]
  exact hadds.pool

theorem mem_refreshBanks (he : p.banksPerRefresh ∣ p.banks) (ha : p.banksPerRefresh ∣ a.bank) :
    b ∈ refreshBanks a ↔ b / p.banksPerRefresh = a.bank / p.banksPerRefresh := by
  rw [← mem_groupBanks]
  have hbanks : refreshBanks a = groupBanks p a.bank := by
    refine map_congr_left fun i hi => ?_
    have hi := mem_range.mp hi
    have hhead : a.bank / p.banksPerRefresh * p.banksPerRefresh = a.bank := Nat.div_mul_cancel ha
    have hmem : a.bank + i ∈ groupBanks p a.bank := by
      simp only [groupBanks, hhead, mem_map, mem_range]
      exact ⟨i, hi, rfl⟩
    have hlt := groupBanks_lt he a.bank_lt hmem
    simp only [refreshBank, Address.ofBank, hhead]
    rw [Nat.add_comm i, Nat.mod_eq_of_lt hlt]
  rw [hbanks]

theorem handleRefreshFrom_inv {l : List (Address p)} {queued : Bool}
    (h : s.handleRefreshFrom l = .ok (s', queued)) : (s' = s ∧ queued = false) ∨
      (queued = true ∧ ∃ a ∈ l, s.needRefresh a.bank a.rank = .ok true ∧ s.queueRefresh a = .ok s') := by
  induction l with
  | nil =>
    cases h
    exact .inl ⟨rfl, rfl⟩
  | cons a l ih =>
    obtain ⟨need, hneed, h⟩ := of_bind h
    cases need with
    | true =>
      obtain ⟨s₁, hs₁, h⟩ := of_bind h
      cases h
      exact .inr ⟨rfl, a, mem_cons_self .., hneed, hs₁⟩
    | false =>
      rcases ih h with hsame | ⟨hq, b, hb, hfound⟩
      · exact .inl hsame
      · exact .inr ⟨hq, b, mem_cons_of_mem _ hb, hfound⟩

theorem handleRefreshFrom_ok (he : p.banksPerRefresh ∣ p.banks) (l : List (Address p)) :
    ∃ res, s.handleRefreshFrom l = .ok res := by
  induction l with
  | nil => exact ⟨_, rfl⟩
  | cons a l ih =>
    simp only [handleRefreshFrom, needRefresh_eq he a.bank_lt a.rank_lt, bind_ok]
    split
    · obtain ⟨s₁, hs₁⟩ := queueRefresh_ok (s := s) he a
      simp [hs₁]
    · exact ih

theorem refreshFirst_true (h : s.refreshFirst = .ok (s', true)) : s.handleRefresh = .ok (s', true) := by
  unfold refreshFirst at h
  split at h
  · exact h
  · cases h

theorem refreshFirst_false (h : s.refreshFirst = .ok (s', false)) : s' = s := by
  unfold refreshFirst at h
  split at h
  · rcases handleRefreshFrom_inv h with ⟨hsame, -⟩ | ⟨hq, -⟩
    · exact hsame
    · cases hq
  · cases h
    rfl

/-! ## Transactions -/

section Transactions
variable {mem : Memory p M} {m : M} {r : Request p} {queued : Bool}

/-- What `IssueMemoryCommands` does, branch by branch. -/
inductive Queues (mem : Memory p M) (m : M) (s : Controller p) (r : Request p) : Controller p → Bool → Prop where
  | cached {c : Request p} (hc : makeCachedRequest r = .ok c) (hissuable : mem.isIssuable m s.cycle c = true)
      (hhit : (s.activateQueued (r.address.rank, r.address.bank) && s.rowBufferHit r.address) = false) :
      Queues mem m s r (s.queueCached r) true
  | closed {c : Request p} (hc : makeCachedRequest r = .ok c) (hissuable : mem.isIssuable m s.cycle c = false)
      (hactive : s.activateQueued (r.address.rank, r.address.bank) = false)
      (hempty : s.commandQueues (getCommandQueueId r.address) = []) : Queues mem m s r (s.queueClosed mem m r) true
  | miss {c : Request p} (hc : makeCachedRequest r = .ok c) (hissuable : mem.isIssuable m s.cycle c = false)
      (hactive : s.activateQueued (r.address.rank, r.address.bank) = true)
      (hhit : s.rowBufferHit r.address = false) (hempty : s.commandQueues (getCommandQueueId r.address) = []) :
      Queues mem m s r (s.queueMiss mem m r) true
  | hit {s' : Controller p} (hactive : s.activateQueued (r.address.rank, r.address.bank) = true)
      (hhit : s.rowBufferHit r.address = true) (hs' : s.queueHit r = .ok s') : Queues mem m s r s' true
  | nothing (hhit : (s.activateQueued (r.address.rank, r.address.bank) && s.rowBufferHit r.address) = false)
      (hempty : s.commandQueues (getCommandQueueId r.address) ≠ []) : Queues mem m s r s false

theorem issueMemoryCommands_cases (h : s.issueMemoryCommands mem m r = .ok (s', queued)) :
    isReadOrWrite r = true ∧ Queues mem m s r s' queued := by
  obtain ⟨c, hc, h⟩ := of_bind h
  have htype : isReadOrWrite r = true := by
    obtain ⟨_, hreq, -⟩ := of_bind hc
    exact require_eq_ok.mp hreq
  refine ⟨htype, ?_⟩
  split at h
  · rename_i hcached
    cases h
    rw [and_eq_true, not_eq_true'] at hcached
    exact .cached hc hcached.1 hcached.2
  rename_i hcached
  have hcached (hhit : (s.activateQueued (r.address.rank, r.address.bank) && s.rowBufferHit r.address) = false) :
      mem.isIssuable m s.cycle c = false := by
    simpa [hhit] using hcached
  split at h
  · rename_i hclosed
    cases h
    rw [and_eq_true, not_eq_true', List.isEmpty_iff] at hclosed
    exact .closed hc (hcached (by simp [hclosed.1])) hclosed.1 hclosed.2
  split at h
  · rename_i hmiss
    cases h
    rw [and_eq_true, and_eq_true, not_eq_true', List.isEmpty_iff] at hmiss
    exact .miss hc (hcached (by simp [hmiss.1.2])) hmiss.1.1 hmiss.1.2 hmiss.2
  split at h
  · rename_i hhit
    rw [and_eq_true] at hhit
    obtain ⟨t, ht, h⟩ := of_bind h
    cases h
    exact .hit hhit.1 hhit.2 ht
  · rename_i hclosed hmiss hhit
    cases h
    refine .nothing (eq_false_iff.mpr hhit) fun hempty => ?_
    cases hactive : s.activateQueued (r.address.rank, r.address.bank) <;> simp_all

/-- An ACTIVATE or PRECHARGE that the controller made for itself. -/
def IsRowCommand (c : Request p) : Prop := (c.type = .activate ∨ c.type = .precharge) ∧ c.id = none ∧ c.issued = false

/-- The command that a read or write becomes. -/
structure IsColumnOf (r c : Request p) : Prop where
  id : c.id = r.id
  issued : c.issued = r.issued
  address : c.address = r.address
  type : (r.type = .read ∧ (c.type = .read ∨ c.type = .readPrecharge)) ∨
    (r.type = .write ∧ (c.type = .write ∨ c.type = .writePrecharge))

theorem activateFor_isRowCommand : IsRowCommand (activateFor mem m s r) := ⟨.inl rfl, rfl, rfl⟩

theorem isColumnOf_self (hr : isReadOrWrite r = true) (cycle : Nat) : IsColumnOf r { r with issueCycle := cycle } := by
  refine ⟨rfl, rfl, rfl, ?_⟩
  simp only [isReadOrWrite, or_eq_true, beq_iff_eq] at hr
  tauto

theorem isColumnOf_implicit (hr : isReadOrWrite r = true) (cycle : Nat) :
    IsColumnOf r (makeImplicitPrechargeRequest cycle { r with issueCycle := cycle }) := by
  refine ⟨rfl, rfl, rfl, ?_⟩
  simp only [isReadOrWrite, or_eq_true, beq_iff_eq] at hr
  rcases hr with hr | hr <;> simp [makeImplicitPrechargeRequest, hr]

theorem queueClosed_adds (s : Controller p) (hr : isReadOrWrite r = true) :
    ∃ c new, Adds s (s.queueClosed mem m r) (c :: new) ∧ IsColumnOf r c ∧ ∀ x ∈ new, IsRowCommand x := by
  have hact : Adds s ((s.openRow r.address).push (getCommandQueueId r.address) (activateFor mem m s r))
      [activateFor mem m s r] := (Adds.openRow s r.address).trans (Adds.push _ r.address _)
  have hrow : ∀ x ∈ [activateFor mem m s r], IsRowCommand x := by
    intro x hx
    rw [mem_singleton.mp hx]
    exact activateFor_isRowCommand
  unfold queueClosed
  by_cases hlast : (r.lastRequest && p.usePrecharge) = true
  · simp only [if_pos hlast]
    have hcol := hact.trans (Adds.push _ r.address (makeImplicitPrechargeRequest s.cycle { r with issueCycle := s.cycle }))
    exact ⟨_, _, (hcol.trans (Adds.closeRow _ r.address)).trans (Adds.noActivate _ r.address),
      isColumnOf_implicit hr s.cycle, hrow⟩
  · simp only [if_neg hlast]
    exact ⟨_, _, hact.trans (Adds.push _ r.address _), isColumnOf_self hr s.cycle, hrow⟩

theorem queueMiss_adds (s : Controller p) (hr : isReadOrWrite r = true) :
    ∃ c new, Adds s (s.queueMiss mem m r) (c :: new) ∧ IsColumnOf r c ∧ ∀ x ∈ new, IsRowCommand x := by
  have hpre : ∃ new, Adds s (if s.activeSubArray (r.address.rank, r.address.bank, r.address.subarray) && p.usePrecharge then
        s.push (getCommandQueueId r.address) (makePrechargeRequest s.cycle
          (s.effectiveRow (r.address.rank, r.address.bank, r.address.subarray)) r.address)
      else s) new ∧ ∀ x ∈ new, IsRowCommand x := by
    split
    · refine ⟨_, Adds.push s r.address _, fun x hx => ?_⟩
      rw [mem_singleton.mp hx]
      exact ⟨.inr rfl, rfl, rfl⟩
    · exact ⟨[], .refl s, by simp⟩
  obtain ⟨new, hnew, hrow⟩ := hpre
  have hact := hnew.trans (Adds.push _ r.address (activateFor mem m s r))
  have hcol := hact.trans (Adds.push _ r.address { r with issueCycle := s.cycle })
  refine ⟨_, _, hcol.trans (Adds.openRow _ r.address), isColumnOf_self hr s.cycle, fun x hx => ?_⟩
  rcases mem_cons.mp hx with rfl | hx
  · exact activateFor_isRowCommand
  · exact hrow x hx

theorem queueHit_adds (hr : isReadOrWrite r = true) (h : s.queueHit r = .ok s') :
    ∃ c, Adds s s' [c] ∧ IsColumnOf r c := by
  have hstarve := Adds.starve s r.address
  unfold queueHit at h
  by_cases hlast : (r.lastRequest && p.usePrecharge) = true
  · simp only [if_pos hlast] at h
    obtain ⟨_, -, h⟩ := of_bind h
    have hcol := hstarve.trans (Adds.push _ r.address
      (makeImplicitPrechargeRequest s.cycle { r with issueCycle := s.cycle }))
    have hclose := hcol.trans (Adds.closeRow _ r.address)
    refine ⟨_, ?_, isColumnOf_implicit hr s.cycle⟩
    cases h
    split
    · exact hclose.trans (Adds.noActivate _ r.address)
    · exact hclose
  · simp only [if_neg hlast] at h
    cases h
    exact ⟨_, hstarve.trans (Adds.push _ r.address _), isColumnOf_self hr s.cycle⟩

theorem Queues.adds (h : Queues mem m s r s' true) (hr : isReadOrWrite r = true) :
    ∃ c new, Adds s s' (c :: new) ∧ IsColumnOf r c ∧ ∀ x ∈ new, IsRowCommand x := by
  cases h with
  | cached => exact ⟨_, [], Adds.push s r.address _, isColumnOf_self hr s.cycle, by simp⟩
  | closed => exact queueClosed_adds s hr
  | miss => exact queueMiss_adds s hr
  | hit _ _ hs' =>
    obtain ⟨c, hadds, hc⟩ := queueHit_adds hr hs'
    exact ⟨c, [], hadds, hc, by simp⟩

theorem Queues.eq_of_false (h : Queues mem m s r s' false) : s' = s := by
  cases h
  rfl

/-! ## Searches -/

variable {l rest : List (Request p)}

theorem search_taken {f : Find} (h : s.search mem m f l = .ok (.taken r rest)) :
    s.look mem m f r = .ok .take ∧ ∃ l₁ l₂, l = l₁ ++ r :: l₂ ∧ rest = l₁ ++ l₂ := by
  induction l generalizing rest with
  | nil => cases h
  | cons x l ih =>
    obtain ⟨choice, hlook, h⟩ := of_bind h
    cases choice with
    | take =>
      cases h
      exact ⟨hlook, [], l, rfl, rfl⟩
    | stall => cases h
    | giveUp => cases h
    | pass =>
      obtain ⟨found, hfound, h⟩ := of_bind h
      cases found with
      | nothing => cases h
      | stalled => cases h
      | taken y rest' =>
        cases h
        obtain ⟨hy, l₁, l₂, rfl, rfl⟩ := ih hfound
        exact ⟨hy, x :: l₁, l₂, rfl, rfl⟩

/-- What the searches of a scheduler take out of a transaction queue. -/
theorem findNext_taken {fs : List Find} (h : s.findNext mem m l fs = .ok (.taken r rest)) :
    ∃ f ∈ fs, ∃ x l₁ l₂, s.look mem m f x = .ok .take ∧ l = l₁ ++ x :: l₂ ∧ rest = l₁ ++ l₂ ∧
      r = { x with lastRequest := x.lastRequest || (decide (f ≠ .cachedAddress) && isLastRequest rest x) } := by
  induction fs with
  | nil => cases h
  | cons f fs ih =>
    obtain ⟨found, hfound, h⟩ := of_bind h
    cases found with
    | nothing =>
      obtain ⟨g, hg, hrest⟩ := ih h
      exact ⟨g, mem_cons_of_mem _ hg, hrest⟩
    | stalled => cases h
    | taken y rest' =>
      cases h
      obtain ⟨z, hz, hfound⟩ := of_bind hfound
      cases z with
      | nothing => cases hfound
      | stalled => cases hfound
      | taken x rest'' =>
        cases hfound
        obtain ⟨hlook, l₁, l₂, hl, hrest⟩ := search_taken hz
        exact ⟨f, mem_cons_self .., x, l₁, l₂, hlook, hl, hrest, rfl⟩

end Transactions

end Controller

section Schedule
variable {pol : Policy} {mem : Memory p M} {m : M} {s s' : Controller p}

theorem Policy.updateDraining_eq (pol : Policy) (s : Controller p) : ∃ d, pol.updateDraining s = { s with draining := d } := by
  cases pol with
  | frfcfs => exact ⟨_, rfl⟩
  | frfcfsWqf =>
    simp only [Policy.updateDraining]
    split
    · exact ⟨_, rfl⟩
    split <;> exact ⟨_, rfl⟩

/-- `x` was taken out of the transaction queue `q`, and `r` is what became of it. -/
structure Taken (pol : Policy) (mem : Memory p M) (m : M) (s : Controller p) (x r : Request p) (s' : Controller p) :
    Prop where
  queue : ∃ l₁ l₂ d, s.transactionQueues (pol.scheduled (pol.updateDraining s)) = l₁ ++ x :: l₂ ∧
    s' = { s with
      draining := d
      transactionQueues := update s.transactionQueues (pol.scheduled (pol.updateDraining s)) (l₁ ++ l₂) } ∧
    ∃ f ∈ pol.finds, s.look mem m f x = .ok .take ∧
      r.lastRequest = (x.lastRequest || (decide (f ≠ .cachedAddress) && isLastRequest (l₁ ++ l₂) x))
  request : r = { x with lastRequest := r.lastRequest, forced := r.forced }

theorem Policy.take_some {r : Request p} (h : pol.take mem m s = .ok (s', some r)) : ∃ x, Taken pol mem m s x r s' := by
  obtain ⟨d, hd⟩ := pol.updateDraining_eq s
  obtain ⟨found, hfound, h⟩ := of_bind h
  cases found with
  | nothing => cases h
  | stalled => cases h
  | taken y rest =>
    obtain ⟨f, hf, x, l₁, l₂, hlook, hl, rfl, rfl⟩ := findNext_taken hfound
    cases h
    refine ⟨x, ⟨⟨l₁, l₂, d, ?_, ?_, f, hf, ?_, rfl⟩, rfl⟩⟩
    · rw [← hl, hd]
    · rw [hd]
    · rw [← hlook, hd]
      rfl

theorem Policy.take_none (h : pol.take mem m s = .ok (s', none)) : s' = pol.updateDraining s := by
  obtain ⟨found, -, h⟩ := of_bind h
  cases found with
  | taken => cases h
  | nothing | stalled =>
    cases h
    rfl

theorem Policy.schedule_cases (h : pol.schedule mem m s = .ok s') :
    (∃ d, s' = { s with draining := d }) ∨ ∃ x r t queued, Taken pol mem m s x r t ∧
      t.issueMemoryCommands mem m r = .ok (s', queued) := by
  obtain ⟨⟨t, found⟩, htake, h⟩ := of_bind h
  cases found with
  | none =>
    cases h
    obtain ⟨d, hd⟩ := pol.updateDraining_eq s
    exact .inl ⟨d, (Policy.take_none htake).trans hd⟩
  | some r =>
    obtain ⟨⟨t', queued⟩, hissue, h⟩ := of_bind h
    cases h
    obtain ⟨x, htaken⟩ := Policy.take_some htake
    exact .inr ⟨x, r, t, queued, htaken, hissue⟩

end Schedule

/-! ## Issuing -/

namespace Controller
variable {s s' : Controller p} {q : Nat} {head : Request p} {tail : List (Request p)}

/-- The head of a queue is marked. -/
def mark (s : Controller p) (q : Nat) (head : Request p) (tail : List (Request p)) : Controller p :=
  { s with commandQueues := update s.commandQueues q ({ head with issued := true } :: tail) }

theorem moveCurrentQueue_eq (s : Controller p) : ∃ c, s.moveCurrentQueue = { s with curQueue := c } := by
  unfold moveCurrentQueue
  split
  · exact ⟨s.curQueue, rfl⟩
  · exact ⟨_, rfl⟩

/-- The controller when the memory has taken the head of a queue. -/
theorem markIssued_inv (h : s.markIssued q head tail = .ok s') : ∃ f c,
    s' = { s.mark q head tail with refreshQueued := f, lastIssueCycle := s.cycle, cleanup := true, curQueue := c } ∧
      (head.type ≠ .refresh → f = s.refreshQueued) ∧ (head.type = .refresh →
        (s.mark q head tail).resetRefreshQueued head.address.bank head.address.rank =
          .ok { s.mark q head tail with refreshQueued := f }) := by
  unfold markIssued at h
  by_cases hr : head.type = .refresh
  · simp only [if_pos hr] at h
    obtain ⟨s₁, hs₁, h⟩ := of_bind h
    obtain ⟨f, rfl⟩ := resetRefreshQueued_inv hs₁
    cases h
    obtain ⟨c, hc⟩ := moveCurrentQueue_eq
      { s.mark q head tail with refreshQueued := f, lastIssueCycle := s.cycle, cleanup := true }
    exact ⟨f, c, hc, absurd hr, fun _ => hs₁⟩
  · simp only [if_neg hr, pure_eq_ok, bind_ok] at h
    cases h
    obtain ⟨c, hc⟩ := moveCurrentQueue_eq { s.mark q head tail with lastIssueCycle := s.cycle, cleanup := true }
    exact ⟨s.refreshQueued, c, hc, fun _ => rfl, fun h => absurd h hr⟩

theorem mark_pool (hq : q < p.commandQueueCount) (hhead : s.commandQueues q = head :: tail) :
    ∃ others, s.queued.Perm (head :: others) ∧ (s.mark q head tail).queued.Perm ({ head with issued := true } :: others) := by
  obtain ⟨others, hold, hnew⟩ := pooled_head hq hhead
  exact ⟨others, hold, hnew _⟩

theorem tick_queued (s : Controller p) : s.tick.queued =
    if s.cleanup then s.queued.filter fun r => !r.issued else s.queued := by
  unfold tick
  split
  · exact pooled_filter _
  · rfl

end Controller

namespace System
variable {mem : Memory p M} {x x' : System p M}

/-- The head of the queue `q` was issued. -/
structure Issued (mem : Memory p M) (x : System p M) (q : Nat) (head : Request p) (tail : List (Request p))
    (x' : System p M) : Prop where
  queue : x.ctl.commandQueues q = head :: tail
  free : x.ctl.lastIssueCycle ≠ x.ctl.cycle
  issuable : mem.isIssuable x.mem x.ctl.cycle head = true
  ctl : x.ctl.markIssued q head tail = .ok x'.ctl
  mem : x'.mem = mem.issueCommand x.mem x.ctl.cycle head
  below : x'.below = if head.id.isSome then { head with issued := true } :: x.below else x.below

variable {l : List Nat}

theorem nextQueue_some {q : Nat} (h : x.nextQueue mem l = .ok (some q)) :
    q ∈ l ∧ ∃ head tail, x.ctl.commandQueues q = head :: tail ∧ x.ctl.lastIssueCycle ≠ x.ctl.cycle ∧
      mem.isIssuable x.mem x.ctl.cycle head = true := by
  induction l with
  | nil => cases h
  | cons r l ih =>
    have hlater (hrest : x.nextQueue mem l = .ok (some q)) : q ∈ r :: l ∧ ∃ head tail,
        x.ctl.commandQueues q = head :: tail ∧ x.ctl.lastIssueCycle ≠ x.ctl.cycle ∧
          mem.isIssuable x.mem x.ctl.cycle head = true := by
      obtain ⟨hmem, hfound⟩ := ih hrest
      exact ⟨mem_cons_of_mem _ hmem, hfound⟩
    unfold nextQueue at h
    split at h
    · exact hlater h
    · rename_i head tail hq
      split at h
      · rename_i hissue
        cases h
        exact ⟨mem_cons_self .., head, tail, hq, hissue⟩
      · split at h
        · cases h
        · exact hlater h

theorem nextQueue_error {e : Stop} (h : x.nextQueue mem l = .error e) : ∃ msg, e = .fatal msg := by
  induction l with
  | nil => cases h
  | cons r l ih =>
    unfold nextQueue at h
    split at h
    · exact ih h
    · split at h
      · cases h
      · split at h
        · cases h
          exact ⟨_, rfl⟩
        · exact ih h

/-- `CycleCommandQueues` queues a refresh, finds the head of a queue to issue, or does nothing. -/
theorem chooseQueue_cases {ctl : Controller p} {queueId : Option Nat} (h : x.chooseQueue mem = .ok (ctl, queueId)) :
    (ctl = x.ctl ∧ queueId = none) ∨ (x.ctl.handleRefresh = .ok (ctl, true) ∧ queueId = none) ∨
    (ctl = x.ctl ∧ ∃ q < p.commandQueueCount, queueId = some q ∧ ∃ head tail, x.ctl.commandQueues q = head :: tail ∧
      x.ctl.lastIssueCycle ≠ x.ctl.cycle ∧ mem.isIssuable x.mem x.ctl.cycle head = true) := by
  obtain ⟨⟨ctl', queued⟩, hrefresh, h⟩ := of_bind h
  cases queued with
  | true =>
    cases h
    exact .inr (.inl ⟨refreshFirst_true hrefresh, rfl⟩)
  | false =>
    rw [refreshFirst_false hrefresh] at h
    simp only at h
    split at h
    · cases h
      exact .inl ⟨rfl, rfl⟩
    · obtain ⟨found, hfound, h⟩ := of_bind h
      cases h
      cases queueId with
      | none => exact .inl ⟨rfl, rfl⟩
      | some q =>
        obtain ⟨hmem, hhead⟩ := nextQueue_some hfound
        obtain ⟨i, hi, rfl⟩ := mem_map.mp hmem
        have hpos : 0 < p.commandQueueCount := Nat.lt_of_le_of_lt (Nat.zero_le _) (mem_range.mp hi)
        exact .inr (.inr ⟨rfl, _, Nat.mod_lt _ hpos, rfl, hhead⟩)

theorem cycleCommandQueues_cases (h : x.cycleCommandQueues mem = .ok x') :
    (x.chooseQueue mem = .ok (x.ctl, none) ∧ x' = x) ∨
    (∃ ctl, x.chooseQueue mem = .ok (ctl, none) ∧ x.ctl.handleRefresh = .ok (ctl, true) ∧ x' = { x with ctl := ctl }) ∨
    ∃ q < p.commandQueueCount, ∃ head tail, x.chooseQueue mem = .ok (x.ctl, some q) ∧ Issued mem x q head tail x' := by
  obtain ⟨⟨ctl, queueId⟩, hchoose, h⟩ := of_bind h
  rcases chooseQueue_cases hchoose with ⟨rfl, rfl⟩ | ⟨hrefresh, rfl⟩ | ⟨rfl, q, hq, rfl, head, tail, hhead, hfree, hissuable⟩
  · cases h
    exact .inl ⟨hchoose, rfl⟩
  · cases h
    exact .inr (.inl ⟨ctl, hchoose, hrefresh, rfl⟩)
  · simp only [issueHead, hhead] at h
    obtain ⟨ctl, hctl, h⟩ := of_bind h
    cases h
    exact .inr (.inr ⟨q, hq, head, tail, hchoose, hhead, hfree, hissuable, hctl, rfl, rfl⟩)

/-- An event-driven controller does not look for a refresh here. -/
theorem cycleCommandQueues_eventDriven (hevent : p.eventDriven = true) (h : x.cycleCommandQueues mem = .ok x') :
    x' = x ∨ ∃ q < p.commandQueueCount, ∃ head tail, Issued mem x q head tail x' := by
  rcases cycleCommandQueues_cases h with ⟨-, rfl⟩ | ⟨ctl, hchoose, -, rfl⟩ | ⟨q, hq, head, tail, -, hissued⟩
  · exact .inl rfl
  · left
    obtain ⟨⟨ctl', queued⟩, hfirst, hchoose⟩ := of_bind hchoose
    simp only [refreshFirst, hevent, Bool.not_true, Bool.and_false] at hfirst
    cases hfirst
    have hctl : ctl = x.ctl := by
      simp only at hchoose
      split at hchoose
      · cases hchoose
        rfl
      · obtain ⟨_, -, hchoose⟩ := of_bind hchoose
        cases hchoose
        rfl
    rw [hctl]
  · exact .inr ⟨q, hq, head, tail, hissued⟩

end System

end Nvm
