import Gem5Nvmain.Nvm.BanksSpec
import Gem5Nvmain.Nvm.RefreshRuns

/- The bookkeeping of the controller and the rows of the banks.

  `activeSubArray` and `effectiveRow` say which row of a sub-array will be open when the commands that wait have been
  issued, in whichever order the queues take turns. This is `Lib.Predicted` for the rows of the banks
  (`Plan.predicted`): it holds since the commands for a sub-array all wait in one queue.

  Two things break it. A REFRESH stands in the queue of the first bank of its group and relies on `refreshQueued` to
  keep the others closed, but a second REFRESH of the group goes on waiting after the first has reset the flags. And
  where a bank has a queue for each sub-array, its PRECHARGE_ALL stands in the queue of sub-array 0 and overtakes what
  waits for the others. `mayRefresh` and `mayIssue` say that neither happens. -/
namespace Nvm
open Lib Function List Controller Nat

variable {p : Params}

/-- The sub-arrays of a bank have queues of their own. -/
def Params.bankSplit (p : Params) : Bool := p.queueModel == .perSubArray && decide (1 < p.subArrayNum)

/-- The sub-arrays that a command may change. With a queue for each bank a REFRESH changes only the first of its
  banks: those of the others are closed before by their own queues. -/
def concerns (c : Request p) (k : Nat × Nat × Nat) : Bool :=
  if c.type = .refresh ∧ p.queueModel ≠ .perRank then k == (c.address.rank, c.address.bank, c.address.subarray)
  else Ranks.reaches c k

namespace Controller

/-- The commands of a queue that are not issued yet. -/
def pending (s : Controller p) (q : Nat) : List (Request p) := (s.commandQueues q).filter fun c => !c.issued

/-- The row that the controller expects to be open. -/
def predicted (s : Controller p) (k : Nat × Nat × Nat) : Option Nat :=
  if s.activeSubArray k then some (s.effectiveRow k) else none

end Controller

/-- A command in its queue. -/
structure Placed (c : Request p) (q : Nat) : Prop where
  queue : q = getCommandQueueId c.address
  first : c.type = .prechargeAll ∨ c.type = .refresh → c.address.subarray = 0
  group : c.type = .refresh → p.banksPerRefresh ∣ c.address.bank ∧ c.address.bank + p.banksPerRefresh ≤ p.banks

/-- The predicted rows are those that the waiting commands lead to. -/
structure Plan (s : Controller p) (rows : Nat × Nat × Nat → Option Nat) : Prop where
  predicted : Predicted concerns nextRow s.pending rows s.predicted
  placed : ∀ q, ∀ c ∈ s.pending q, Placed c q
  active_lt : ∀ k, s.activeSubArray k = true → k.2.2 < p.subArrayNum
  activate : ∀ rank bank, s.activateQueued (rank, bank) = true ↔ ∃ i, s.activeSubArray (rank, bank, i) = true

/-! ## Queues and sub-arrays -/

variable {k : Nat × Nat × Nat}

theorem concerns_rank {c : Request p} (h : concerns c k = true) : k.1 = c.address.rank := by
  unfold concerns at h
  split at h
  · rw [beq_iff_eq.mp h]
  · exact (Ranks.reaches_iff.mp h).1

theorem concerns_bank {c : Request p} (hmodel : p.queueModel ≠ .perRank)
    (h : concerns c k = true) : k.2.1 = c.address.bank := by
  unfold concerns at h
  split at h
  · rw [beq_iff_eq.mp h]
  · rename_i hnot
    have hrefresh : c.type ≠ .refresh := fun hc => hnot ⟨hc, hmodel⟩
    have hbank := (Ranks.reaches_iff.mp h).2.1
    simpa [Rank.ReachesBank, hrefresh] using hbank

theorem concerns_subarray {c : Request p} (htype : c.type ≠ .prechargeAll)
    (h : concerns c k = true) : k.2.2 = c.address.subarray := by
  unfold concerns at h
  split at h
  · rw [beq_iff_eq.mp h]
  · rcases (Ranks.reaches_iff.mp h).2.2 with hall | hsub
    · exact absurd hall htype
    · exact hsub

/-- A command of one sub-array. -/
def Exact (c : Request p) : Prop := c.type ≠ .prechargeAll ∧ c.type ≠ .refresh

theorem concerns_exact {c : Request p} (hc : Exact c) (k : Nat × Nat × Nat) :
    concerns c k = true ↔ k = (c.address.rank, c.address.bank, c.address.subarray) := by
  have hnot : ¬(c.type = .refresh ∧ p.queueModel ≠ .perRank) := fun h => hc.2 h.1
  rw [concerns, if_neg hnot, Ranks.reaches_iff]
  simp [Rank.ReachesBank, Bank.Reaches, hc.1, hc.2, Prod.ext_iff]

theorem getCommandQueueId_congr {a b : Address p} (hrank : a.rank = b.rank)
    (hbank : p.queueModel ≠ .perRank → a.bank = b.bank)
    (hsub : p.queueModel = .perSubArray → a.subarray = b.subarray) : getCommandQueueId a = getCommandQueueId b := by
  unfold getCommandQueueId
  cases hmodel : p.queueModel with
  | perRank => exact hrank
  | perBank => rw [hrank, hbank (by simp [hmodel])]
  | perSubArray => rw [hrank, hbank (by simp [hmodel]), hsub hmodel]

/-- In a bank that is split, PRECHARGE_ALL meets no command of a sub-array with another queue. -/
def Clear (c c' : Request p) : Prop :=
  p.bankSplit = true → c.type = .prechargeAll → c'.type ≠ .prechargeAll → c.address.rank = c'.address.rank →
    c.address.bank = c'.address.bank → c'.address.subarray = 0

variable {c' : Request p} {q q' : Nat}

theorem subarray_eq {c : Request p} (hc : Placed c q) (hc' : Placed c' q')
    (hk : concerns c k = true) (hk' : concerns c' k = true) (hclear : Clear c c') (hclear' : Clear c' c)
    (hmodel : p.queueModel = .perSubArray) : c.address.subarray = c'.address.subarray := by
  have hne : p.queueModel ≠ .perRank := by simp [hmodel]
  have hrank := (concerns_rank hk).symm.trans (concerns_rank hk')
  have hbank := (concerns_bank hne hk).symm.trans (concerns_bank hne hk')
  cases hsplit : p.bankSplit with
  | false =>
    -- each bank has one sub-array
    have hone : p.subArrayNum ≤ 1 := by simpa [Params.bankSplit, hmodel] using hsplit
    have hlt := c.address.subarray_lt
    have hlt' := c'.address.subarray_lt
    omega
  | true =>
    by_cases hall : c.type = .prechargeAll <;> by_cases hall' : c'.type = .prechargeAll
    · rw [hc.first (.inl hall), hc'.first (.inl hall')]
    · rw [hc.first (.inl hall), hclear hsplit hall hall' hrank hbank]
    · rw [hc'.first (.inl hall'), hclear' hsplit hall' hall hrank.symm hbank.symm]
    · exact (concerns_subarray hall hk).symm.trans (concerns_subarray hall' hk')

theorem queue_eq {c : Request p} (hc : Placed c q) (hc' : Placed c' q')
    (hk : concerns c k = true) (hk' : concerns c' k = true) (hclear : Clear c c') (hclear' : Clear c' c) : q = q' := by
  rw [hc.queue, hc'.queue]
  refine getCommandQueueId_congr ((concerns_rank hk).symm.trans (concerns_rank hk')) (fun hmodel => ?_) fun hmodel => ?_
  · exact (concerns_bank hmodel hk).symm.trans (concerns_bank hmodel hk')
  · exact subarray_eq hc hc' hk hk' hclear hclear' hmodel

namespace Plan
variable {s s' : Controller p} {rows : Nat × Nat × Nat → Option Nat}

/-- Commands are queued, and the prediction moves along. -/
theorem queue {q : Nat} {cs : List (Request p)} (h : Plan s rows)
    (hqueues : s'.commandQueues = update s.commandQueues q (s.commandQueues q ++ cs))
    (hplaced : ∀ c ∈ cs, Placed c q ∧ c.issued = false)
    (hclear : ∀ c ∈ cs, ∀ q', ∀ c' ∈ s.pending q', Clear c c' ∧ Clear c' c)
    (hafter : ∀ k, after nextRow (s.predicted k) (actingOn concerns cs k) = some (s'.predicted k)) :
    Predicted concerns nextRow s'.pending rows s'.predicted ∧ ∀ q', ∀ c ∈ s'.pending q', Placed c q' := by
  have hpending : s'.pending = update s.pending q (s.pending q ++ cs) := by
    have hcs : cs.filter (fun c => !c.issued) = cs := by
      refine filter_eq_self.mpr fun c hc => ?_
      simp [(hplaced c hc).2]
    funext q'
    unfold pending
    rw [hqueues]
    by_cases hq' : q' = q
    · subst hq'
      rw [update_self, update_self, filter_append, hcs]
    · rw [update_of_ne hq', update_of_ne hq']
  rw [hpending]
  refine ⟨h.predicted.push (fun c hc k hk q' hq' => ?_) hafter, fun q' c hc => ?_⟩
  · refine filter_eq_nil_iff.mpr fun c' hc' hk' => hq' ?_
    obtain ⟨hclear, hclear'⟩ := hclear c hc q' c' hc'
    exact (queue_eq (hplaced c hc).1 (h.placed q' c' hc') hk hk' hclear hclear').symm
  · by_cases hq' : q' = q
    · subst hq'
      rw [update_self] at hc
      rcases mem_append.mp hc with hc | hc
      · exact h.placed q' c hc
      · exact (hplaced c hc).1
    · rw [update_of_ne hq'] at hc
      exact h.placed q' c hc

end Plan

/-! ## Transactions -/

/-- The sub-array of an address. -/
def Address.here (a : Address p) : Nat × Nat × Nat := (a.rank, a.bank, a.subarray)

/-- A new command for the sub-array of an address. -/
structure IsFor (a : Address p) (c : Request p) : Prop where
  exact : Exact c
  unissued : c.issued = false
  here : c.address.here = a.here

/-- Commands for one sub-array were queued, which leave the row `row` open in it. -/
structure Opens (s : Controller p) (a : Address p) (row : Option Nat) (s' : Controller p) : Prop where
  queues : ∃ cs, s'.commandQueues = update s.commandQueues (getCommandQueueId a) (s.commandQueues (getCommandQueueId a) ++ cs) ∧
    (∀ c ∈ cs, IsFor a c) ∧ after nextRow (s.predicted a.here) cs = some row
  active : s'.activeSubArray = update s.activeSubArray a.here row.isSome
  effective : ∀ n, row = some n → s'.effectiveRow a.here = n
  others : ∀ k, k ≠ a.here → s'.effectiveRow k = s.effectiveRow k
  activate : s'.activateQueued (a.rank, a.bank) = true ↔ ∃ i, s'.activeSubArray (a.rank, a.bank, i) = true
  activateOthers : ∀ k, k ≠ (a.rank, a.bank) → s'.activateQueued k = s.activateQueued k

namespace Opens
variable {s s' : Controller p} {a : Address p} {row : Option Nat} {rows : Nat × Nat × Nat → Option Nat}

theorem predicted (h : Opens s a row s') : s'.predicted = update s.predicted a.here row := by
  funext k
  by_cases hk : k = a.here
  · subst hk
    rw [update_self, Controller.predicted, h.active, update_self]
    cases hrow : row with
    | none => rfl
    | some n => simp [h.effective n hrow]
  · rw [update_of_ne hk, Controller.predicted, Controller.predicted, h.active, update_of_ne hk, h.others k hk]

theorem plan (h : Opens s a row s') (hp : Plan s rows)
    (hclear : p.bankSplit = true → ∀ q, ∀ c ∈ s.pending q, c.type = .prechargeAll → c.address.rank = a.rank →
      c.address.bank ≠ a.bank) : Plan s' rows := by
  obtain ⟨cs, hqueues, hcs, hafter⟩ := h.queues
  have hhere {c : Request p} (hc : c ∈ cs) : c.address.rank = a.rank ∧ c.address.bank = a.bank ∧
      c.address.subarray = a.subarray := by
    have hhere := (hcs c hc).here
    simpa [Address.here] using hhere
  have hplaced (c : Request p) (hc : c ∈ cs) : Placed c (getCommandQueueId a) ∧ c.issued = false := by
    obtain ⟨hexact, hissued, -⟩ := hcs c hc
    obtain ⟨hrank, hbank, hsub⟩ := hhere hc
    refine ⟨⟨?_, fun ht => ?_, fun ht => absurd ht hexact.2⟩, hissued⟩
    · exact getCommandQueueId_congr hrank.symm (fun _ => hbank.symm) fun _ => hsub.symm
    · rcases ht with ht | ht
      · exact absurd ht hexact.1
      · exact absurd ht hexact.2
  have hacting (k : Nat × Nat × Nat) : actingOn concerns cs k = if k = a.here then cs else [] := by
    have hk (c : Request p) (hc : c ∈ cs) : concerns c k = true ↔ k = a.here := by
      rw [concerns_exact (hcs c hc).exact, ← (hcs c hc).here]
      rfl
    split
    · rename_i heq
      exact filter_eq_self.mpr fun c hc => (hk c hc).mpr heq
    · rename_i hne
      exact filter_eq_nil_iff.mpr fun c hc hact => hne ((hk c hc).mp hact)
  have hqueued := hp.queue hqueues hplaced (fun c hc q' c' hc' => ?_) fun k => ?_
  · refine ⟨hqueued.1, hqueued.2, fun k hk => ?_, fun rank bank => ?_⟩
    · rw [h.active] at hk
      by_cases hka : k = a.here
      · rw [hka]
        exact a.subarray_lt
      · rw [update_of_ne hka] at hk
        exact hp.active_lt k hk
    · by_cases hbank : (rank, bank) = (a.rank, a.bank)
      · cases hbank
        exact h.activate
      · have hother (i : Nat) : s'.activeSubArray (rank, bank, i) = s.activeSubArray (rank, bank, i) := by
          rw [h.active, update_of_ne]
          intro hi
          simp only [Address.here, Prod.mk.injEq] at hi
          exact hbank (Prod.ext hi.1 hi.2.1)
        simp only [h.activateOthers _ hbank, hother]
        exact hp.activate rank bank
  · -- the new commands meet no PRECHARGE_ALL of their bank
    refine ⟨fun _ hall => absurd hall (hcs c hc).exact.1, fun hsplit hall _ hrank hbank => ?_⟩
    obtain ⟨hcrank, hcbank, -⟩ := hhere hc
    exact absurd (hbank.trans hcbank) (hclear hsplit q' c' hc' hall (hrank.trans hcrank))
  · rw [hacting, h.predicted]
    by_cases hk : k = a.here
    · subst hk
      rw [if_pos rfl, update_self]
      exact hafter
    · rw [if_neg hk, after_nil, update_of_ne hk]

/-- The commands leave the row of the address open. -/
theorem opened (cs : List (Request p))
    (hqueues : s'.commandQueues = update s.commandQueues (getCommandQueueId a) (s.commandQueues (getCommandQueueId a) ++ cs))
    (hcs : ∀ c ∈ cs, IsFor a c) (hafter : after nextRow (s.predicted a.here) cs = some (some a.row))
    (hactive : s'.activeSubArray = update s.activeSubArray a.here true)
    (heffective : s'.effectiveRow = update s.effectiveRow a.here a.row)
    (hactivate : s'.activateQueued = update s.activateQueued (a.rank, a.bank) true) : Opens s a (some a.row) s' := by
  refine ⟨⟨cs, hqueues, hcs, hafter⟩, hactive, fun n hn => ?_, fun k hk => ?_, ?_, fun k hk => ?_⟩
  · rw [heffective, update_self]
    exact Option.some.inj hn
  · rw [heffective, update_of_ne hk]
  · rw [hactivate, update_self, hactive]
    exact ⟨fun _ => ⟨a.subarray, update_self ..⟩, fun _ => rfl⟩
  · rw [hactivate, update_of_ne hk]

/-- The commands leave the sub-array closed. -/
theorem closed (cs : List (Request p)) {v : Bool}
    (hqueues : s'.commandQueues = update s.commandQueues (getCommandQueueId a) (s.commandQueues (getCommandQueueId a) ++ cs))
    (hcs : ∀ c ∈ cs, IsFor a c) (hafter : after nextRow (s.predicted a.here) cs = some none)
    (hactive : s'.activeSubArray = update s.activeSubArray a.here false)
    (heffective : s'.effectiveRow = update s.effectiveRow a.here p.rows)
    (hactivate : s'.activateQueued = update s.activateQueued (a.rank, a.bank) v)
    (hv : v = true ↔ ∃ i, s'.activeSubArray (a.rank, a.bank, i) = true) : Opens s a none s' := by
  refine ⟨⟨cs, hqueues, hcs, hafter⟩, hactive, fun n hn => ?_, fun k hk => ?_, ?_, fun k hk => ?_⟩
  · cases hn
  · rw [heffective, update_of_ne hk]
  · rw [hactivate, update_self]
    exact hv
  · rw [hactivate, update_of_ne hk]

end Opens

section Rows
variable {row : Option Nat} {r c : Request p}

theorem nextRow_activate (h : c.type = .activate) : nextRow none c = some (some c.address.row) := by
  simp [nextRow, h]

theorem nextRow_column (hr : isReadOrWrite r = true) (cycle : Nat) :
    nextRow (some r.address.row) { r with issueCycle := cycle } = some (some r.address.row) := by
  simp only [isReadOrWrite, Bool.or_eq_true, beq_iff_eq] at hr
  rcases hr with hr | hr <;> simp [nextRow, hr]

theorem nextRow_implicit (hr : isReadOrWrite r = true) (cycle : Nat) :
    nextRow (some r.address.row) (makeImplicitPrechargeRequest cycle { r with issueCycle := cycle }) = some none := by
  simp only [isReadOrWrite, Bool.or_eq_true, beq_iff_eq] at hr
  rcases hr with hr | hr <;> simp [nextRow, makeImplicitPrechargeRequest, hr]

end Rows

namespace Plan
variable {s s' : Controller p} {rows : Nat × Nat × Nat → Option Nat} {M : Type} {mem : Memory p M} {m : M} {r : Request p}

theorem inactive (h : Plan s rows) {rank bank : Nat} (hidle : s.activateQueued (rank, bank) = false) (i : Nat) :
    s.activeSubArray (rank, bank, i) = false := by
  rw [Bool.eq_false_iff]
  intro hactive
  rw [(h.activate rank bank).mpr ⟨i, hactive⟩] at hidle
  cases hidle

theorem isFor_column (hr : isReadOrWrite r = true) (hissued : r.issued = false) (cycle : Nat) :
    IsFor r.address { r with issueCycle := cycle } := by
  simp only [isReadOrWrite, Bool.or_eq_true, beq_iff_eq] at hr
  refine ⟨?_, hissued, rfl⟩
  rcases hr with hr | hr <;> simp [Exact, hr]

theorem isFor_implicit (hr : isReadOrWrite r = true) (hissued : r.issued = false) (cycle : Nat) :
    IsFor r.address (makeImplicitPrechargeRequest cycle { r with issueCycle := cycle }) := by
  simp only [isReadOrWrite, Bool.or_eq_true, beq_iff_eq] at hr
  refine ⟨?_, hissued, rfl⟩
  rcases hr with hr | hr <;> simp [Exact, makeImplicitPrechargeRequest, hr]

variable (mem m s r) in
theorem isFor_activate : IsFor r.address (activateFor mem m s r) := ⟨⟨nofun, nofun⟩, rfl, rfl⟩

theorem isFor_precharge (cycle row : Nat) : IsFor r.address (makePrechargeRequest cycle row r.address) :=
  ⟨⟨nofun, nofun⟩, rfl, rfl⟩

theorem queueClosed (h : Plan s rows) (hr : isReadOrWrite r = true) (hissued : r.issued = false)
    (hidle : s.activateQueued (r.address.rank, r.address.bank) = false) :
    ∃ row, Opens s r.address row (s.queueClosed mem m r) := by
  have hnone : s.predicted r.address.here = none := by
    simp [Controller.predicted, Address.here, h.inactive hidle]
  have hact : nextRow none (Controller.activateFor mem m s r) = some (some r.address.row) := nextRow_activate rfl
  unfold Controller.queueClosed
  by_cases hlast : (r.lastRequest && p.usePrecharge) = true
  · simp only [if_pos hlast]
    refine ⟨none, Opens.closed (v := false)
      [Controller.activateFor mem m s r, makeImplicitPrechargeRequest s.cycle { r with issueCycle := s.cycle }]
      ?_ ?_ ?_ ?_ ?_ ?_ ?_⟩
    case refine_2 => simpa using ⟨isFor_activate s mem m r, isFor_implicit hr hissued s.cycle⟩
    case refine_3 => rw [hnone, after_cons, hact, Option.bind_some, after_cons, nextRow_implicit hr, Option.bind_some, after_nil]
    all_goals
      have hidle (i : Nat) := h.inactive hidle i
      simp [Controller.push, Controller.openRow, Controller.closeRow, Controller.noActivate, Address.here, update_apply, hidle]
  · simp only [if_neg hlast]
    refine ⟨some r.address.row, Opens.opened [Controller.activateFor mem m s r, { r with issueCycle := s.cycle }]
      ?_ ?_ ?_ rfl rfl rfl⟩
    · simp [Controller.push, Controller.openRow]
    · simpa using ⟨isFor_activate s mem m r, isFor_column hr hissued s.cycle⟩
    · rw [hnone, after_cons, hact, Option.bind_some, after_cons, nextRow_column hr, Option.bind_some, after_nil]

theorem queueMiss (hr : isReadOrWrite r = true) (hissued : r.issued = false) (huse : p.usePrecharge = true) :
    ∃ row, Opens s r.address row (s.queueMiss mem m r) := by
  have hact : nextRow none (activateFor mem m s r) = some (some r.address.row) := nextRow_activate rfl
  have hopen : after nextRow none [activateFor mem m s r, { r with issueCycle := s.cycle }] =
      some (some r.address.row) := by
    rw [after_cons, hact, Option.bind_some, after_cons, nextRow_column hr, Option.bind_some, after_nil]
  cases hactive : s.activeSubArray r.address.here with
  | true =>
    have hhere : s.activeSubArray (r.address.rank, r.address.bank, r.address.subarray) = true := hactive
    -- the open row is closed first
    refine ⟨some r.address.row, Opens.opened
      [makePrechargeRequest s.cycle (s.effectiveRow r.address.here) r.address, activateFor mem m s r,
        { r with issueCycle := s.cycle }] ?_ ?_ hopen ?_ ?_ ?_⟩
    case refine_2 => simpa using ⟨isFor_precharge s.cycle _, isFor_activate s mem m r, isFor_column hr hissued s.cycle⟩
    all_goals simp [Controller.queueMiss, hhere, huse, Controller.push, Controller.openRow, Address.here]
  | false =>
    have hhere : s.activeSubArray (r.address.rank, r.address.bank, r.address.subarray) = false := hactive
    refine ⟨some r.address.row, Opens.opened [activateFor mem m s r, { r with issueCycle := s.cycle }]
      ?_ ?_ ?_ ?_ ?_ ?_⟩
    case refine_2 => simpa using ⟨isFor_activate s mem m r, isFor_column hr hissued s.cycle⟩
    case refine_3 =>
      simp only [Controller.predicted, hactive]
      exact hopen
    all_goals simp [Controller.queueMiss, hhere, Controller.push, Controller.openRow, Address.here]

theorem queueHit (h : Plan s rows) (hr : isReadOrWrite r = true) (hissued : r.issued = false)
    (hactive : s.activateQueued (r.address.rank, r.address.bank) = true) (hhit : s.rowBufferHit r.address = true)
    (hs' : s.queueHit r = .ok s') : ∃ row, Opens s r.address row s' := by
  simp only [rowBufferHit, Bool.and_eq_true, beq_iff_eq] at hhit
  have hopen : s.activeSubArray r.address.here = true := hhit.1.1
  have hrow : s.effectiveRow r.address.here = r.address.row := hhit.1.2
  have hpredicted : s.predicted r.address.here = some r.address.row := by
    rw [Controller.predicted, hopen, hrow, if_pos rfl]
  unfold Controller.queueHit at hs'
  by_cases hlast : (r.lastRequest && p.usePrecharge) = true
  · simp only [if_pos hlast] at hs'
    obtain ⟨_, -, hs'⟩ := of_bind hs'
    cases hs'
    have hopens (v : Bool) (s' : Controller p)
        (hfields : s'.commandQueues = update s.commandQueues (getCommandQueueId r.address)
            (s.commandQueues (getCommandQueueId r.address) ++
              [makeImplicitPrechargeRequest s.cycle { r with issueCycle := s.cycle }]) ∧
          s'.activeSubArray = update s.activeSubArray r.address.here false ∧
          s'.effectiveRow = update s.effectiveRow r.address.here p.rows ∧
          s'.activateQueued = update s.activateQueued (r.address.rank, r.address.bank) v)
        (hv : v = true ↔ ∃ i, s'.activeSubArray (r.address.rank, r.address.bank, i) = true) :
        ∃ row, Opens s r.address row s' := by
      obtain ⟨hqueues, hsub, heffective, hactivate⟩ := hfields
      refine ⟨none, Opens.closed _ hqueues ?_ ?_ hsub heffective hactivate hv⟩
      · simpa using isFor_implicit hr hissued s.cycle
      · rw [hpredicted, after_cons, nextRow_implicit hr, Option.bind_some, after_nil]
    split
    · rename_i hidle
      refine hopens false _ ⟨rfl, rfl, rfl, rfl⟩ ?_
      simp only [bankIdle, all_eq_true, mem_range, Bool.not_eq_true'] at hidle
      refine ⟨nofun, fun ⟨i, hi⟩ => ?_⟩
      have hi' : update s.activeSubArray r.address.here false (r.address.rank, r.address.bank, i) = true := hi
      have hlt : i < p.subArrayNum := by
        by_cases hhere : (r.address.rank, r.address.bank, i) = r.address.here
        · rw [hhere, update_self] at hi'
          cases hi'
        · rw [update_of_ne hhere] at hi'
          exact h.active_lt _ hi'
      cases hi'.symm.trans (hidle i hlt)
    · rename_i hidle
      refine hopens true _ ⟨rfl, rfl, rfl, ?_⟩ ?_
      · exact (update_eq_self_iff.mpr hactive.symm).symm
      · refine ⟨fun _ => ?_, fun _ => rfl⟩
        simp only [bankIdle, all_eq_true, not_forall] at hidle
        obtain ⟨i, -, hi⟩ := hidle
        exact ⟨i, by simpa using hi⟩
  · simp only [if_neg hlast] at hs'
    cases hs'
    refine ⟨some r.address.row, Opens.opened [{ r with issueCycle := s.cycle }] rfl ?_ ?_ ?_ ?_ ?_⟩
    · simpa using isFor_column hr hissued s.cycle
    · rw [hpredicted, after_cons, nextRow_column hr, Option.bind_some, after_nil]
    · exact (update_eq_self_iff.mpr hopen.symm).symm
    · exact (update_eq_self_iff.mpr hrow.symm).symm
    · exact (update_eq_self_iff.mpr hactive.symm).symm

/-- `IssueMemoryCommands` queues commands for one sub-array, or nothing. -/
theorem issueMemoryCommands {queued : Bool} (h : Plan s rows) (hissued : r.issued = false) (huse : p.usePrecharge = true)
    (hcached : ∀ c, makeCachedRequest r = .ok c → mem.isIssuable m s.cycle c = false)
    (hs' : s.issueMemoryCommands mem m r = .ok (s', queued)) : s' = s ∨ ∃ row, Opens s r.address row s' := by
  obtain ⟨hr, hqueues⟩ := issueMemoryCommands_cases hs'
  cases hqueues with
  | cached hc hissuable =>
    rw [hcached _ hc] at hissuable
    cases hissuable
  | closed _ _ hidle => exact .inr (h.queueClosed hr hissued hidle)
  | miss => exact .inr (queueMiss hr hissued huse)
  | hit hactive hhit hqueue => exact .inr (h.queueHit hr hissued hactive hhit hqueue)
  | nothing => exact .inl rfl

end Plan

/-! ## Refresh -/

namespace Controller
variable {s s' : Controller p}

theorem handleRefreshFrom_found {l : List (Address p)} (h : s.handleRefreshFrom l = .ok (s', true)) :
    ∃ l₁ a l₂, l = l₁ ++ a :: l₂ ∧ (∀ x ∈ l₁, s.needRefresh x.bank x.rank = .ok false) ∧
      s.needRefresh a.bank a.rank = .ok true ∧ s.queueRefresh a = .ok s' := by
  induction l with
  | nil => cases h
  | cons x l ih =>
    obtain ⟨need, hneed, h⟩ := of_bind h
    cases need with
    | true =>
      obtain ⟨t, ht, h⟩ := of_bind h
      cases h
      exact ⟨[], x, l, rfl, nofun, hneed, ht⟩
    | false =>
      obtain ⟨l₁, a, l₂, rfl, hl₁, ha⟩ := ih h
      refine ⟨x :: l₁, a, l₂, rfl, ?_, ha⟩
      simpa [hneed] using hl₁

/-- `NeedRefresh`, where the group has a counter. -/
def needs (s : Controller p) (a : Address p) : Bool :=
  p.useRefresh && decide (s.delayedRefreshCounter (a.rank, a.bank / p.banksPerRefresh) ≥ p.delayedRefreshThreshold)

theorem needRefresh_ok {a : Address p} {v : Bool} (h : s.needRefresh a.bank a.rank = .ok v) :
    s.needs a = v ∧ (p.useRefresh = true → a.bank / p.banksPerRefresh < p.refreshBankNum) := by
  unfold needRefresh at h
  unfold needs
  cases huse : p.useRefresh with
  | false =>
    rw [huse] at h
    cases h
    exact ⟨rfl, nofun⟩
  | true =>
    rw [huse] at h
    obtain ⟨_, hbounds, h⟩ := of_bind h
    cases h
    rw [inBounds_eq_ok, Bool.and_eq_true, decide_eq_true_eq, decide_eq_true_eq] at hbounds
    exact ⟨Bool.true_and _, fun _ => hbounds.2⟩

/-- The head of the bank group that `HandleRefresh` finds: the first in its order that needs a refresh. -/
def refreshNext (s : Controller p) : Option (Address p) := s.refreshOrder.find? s.needs

variable {α : Type} {x : α}

/-- A chunk of a list of chunks, and what stands before an element of it. -/
theorem mem_chunk {l₁ l₂ : List α} {chunks : List (List α)} (h : chunks.flatten = l₁ ++ x :: l₂) :
    ∃ chunk ∈ chunks, ∃ c₁ c₂, chunk = c₁ ++ x :: c₂ ∧ ∀ y ∈ c₁, y ∈ l₁ := by
  induction chunks generalizing l₁ with
  | nil => simp at h
  | cons chunk chunks ih =>
    rw [flatten_cons, append_eq_append_iff] at h
    have hlater {l : List α} (hrest : chunks.flatten = l ++ x :: l₂) (hsub : ∀ y ∈ l, y ∈ l₁) :
        ∃ c ∈ chunk :: chunks, ∃ c₁ c₂, c = c₁ ++ x :: c₂ ∧ ∀ y ∈ c₁, y ∈ l₁ := by
      obtain ⟨c, hc, c₁, c₂, heq, hc₁⟩ := ih hrest
      exact ⟨c, mem_cons_of_mem _ hc, c₁, c₂, heq, fun y hy => hsub y (hc₁ y hy)⟩
    rcases h with ⟨l, rfl, hrest⟩ | ⟨l, rfl, hrest⟩
    · exact hlater hrest fun y hy => mem_append_right _ hy
    · cases l with
      | nil => exact hlater (l := []) hrest.symm nofun
      | cons z l =>
        obtain ⟨rfl, -⟩ := cons.inj hrest
        exact ⟨_, mem_cons_self .., l₁, l, rfl, fun y hy => hy⟩

theorem map_range_prefix {f : Nat → α} {n : Nat} {c₁ c₂ : List α}
    (h : (range n).map f = c₁ ++ x :: c₂) : ∃ i < n, x = f i ∧ ∀ j < i, f j ∈ c₁ := by
  have hlen : c₁.length < n := by
    have hlen := congrArg length h
    simp only [length_map, length_range, length_append, length_cons] at hlen
    omega
  have hget (j : Nat) : ((range n).map f)[j]? = (c₁ ++ x :: c₂)[j]? := by rw [h]
  refine ⟨c₁.length, hlen, ?_, fun j hj => ?_⟩
  · have hx := hget c₁.length
    simp [hlen] at hx
    exact hx.symm
  · have hx := hget j
    rw [getElem?_append_left hj, getElem?_map, getElem?_range (lt_trans hj hlen)] at hx
    exact mem_of_getElem? hx.symm

/-- Only heads of whole bank groups are refreshed: an index that does not exist is met before the search gets around
  the end of the banks. -/
theorem found_aligned {l₁ l₂ : List (Address p)} {a : Address p} (hdvd : p.banksPerRefresh ∣ s.nextRefreshBank)
    (hlt : s.nextRefreshBank < p.banks) (hl : s.refreshOrder = l₁ ++ a :: l₂)
    (hl₁ : ∀ x ∈ l₁, s.needRefresh x.bank x.rank = .ok false) (ha : s.needRefresh a.bank a.rank = .ok true) :
    p.banksPerRefresh ∣ a.bank ∧ a.bank + p.banksPerRefresh ≤ p.banks ∧ a.subarray = 0 := by
  have hpos := p.banksPerRefresh_pos
  obtain ⟨hneeds, hbound⟩ := needRefresh_ok ha
  have huse : p.useRefresh = true := by
    simp only [needs, Bool.and_eq_true] at hneeds
    exact hneeds.1
  obtain ⟨chunk, hchunk, c₁, c₂, heq, hc₁⟩ := mem_chunk hl
  obtain ⟨rankIdx, -, rfl⟩ := mem_map.mp hchunk
  obtain ⟨i, hi, rfl, hbefore⟩ := map_range_prefix heq
  obtain ⟨u, hu⟩ := hdvd
  have hbanks : p.banksPerRefresh * p.refreshBankNum + p.banks % p.banksPerRefresh = p.banks :=
    div_add_mod p.banks p.banksPerRefresh
  have hat (j : Nat) : s.nextRefreshBank + j * p.banksPerRefresh = p.banksPerRefresh * (u + j) := by
    rw [hu, Nat.mul_add, Nat.mul_comm j]
  have hgroup : p.banksPerRefresh ∣ (s.nextRefreshBank + i * p.banksPerRefresh) % p.banks := by
    rw [hat]
    by_cases hwrap : p.banksPerRefresh * (u + i) < p.banks
    · rw [mod_eq_of_lt hwrap]
      exact Nat.dvd_mul_right _ _
    · by_cases he : p.banksPerRefresh ∣ p.banks
      · rw [dvd_mod_iff he]
        exact Nat.dvd_mul_right _ _
      · -- the rest of the banks, which is no group, comes before
        exfalso
        have hui : p.refreshBankNum < u + i := by
          by_contra hle
          have hmul := mul_le_mul_left p.banksPerRefresh (not_lt.mp hle)
          omega
        have hule : u ≤ p.refreshBankNum := by
          rw [hu] at hlt
          refine (le_div_iff_mul_le hpos).mpr ?_
          rw [Nat.mul_comm]
          exact le_of_lt hlt
        have hlast := hl₁ _ (hc₁ _ (hbefore (p.refreshBankNum - u) (by omega)))
        have hno := (needRefresh_ok hlast).2 huse
        have hbank : (s.nextRefreshBank + (p.refreshBankNum - u) * p.banksPerRefresh) % p.banks =
            p.banksPerRefresh * p.refreshBankNum := by
          rw [hat, Nat.add_sub_cancel' hule]
          exact mod_eq_of_lt (by omega)
        simp only [Address.ofBank, hbank, Nat.mul_div_cancel_left _ hpos] at hno
        exact Nat.lt_irrefl _ hno
  refine ⟨hgroup, ?_, rfl⟩
  have hlt := hbound huse
  simp only [Address.ofBank] at hlt ⊢
  obtain ⟨g, hg⟩ := hgroup
  rw [hg, Nat.mul_div_cancel_left _ hpos] at hlt
  calc (s.nextRefreshBank + i * p.banksPerRefresh) % p.banks + p.banksPerRefresh
      = p.banksPerRefresh * (g + 1) := by rw [hg, mul_succ]
    _ ≤ p.banksPerRefresh * p.refreshBankNum := mul_le_mul_left _ hlt
    _ ≤ p.banks := by omega

theorem handleRefresh_found (hdvd : p.banksPerRefresh ∣ s.nextRefreshBank) (hlt : s.nextRefreshBank < p.banks)
    (h : s.handleRefresh = .ok (s', true)) : ∃ a, s.refreshNext = some a ∧ Refreshed s a s' ∧
      p.banksPerRefresh ∣ a.bank ∧ a.bank + p.banksPerRefresh ≤ p.banks ∧ a.subarray = 0 := by
  obtain ⟨l₁, a, l₂, hl, hl₁, ha, hqueue⟩ := handleRefreshFrom_found h
  refine ⟨a, ?_, queueRefresh_inv hqueue, found_aligned hdvd hlt hl hl₁ ha⟩
  rw [refreshNext, hl, find?_append]
  have hnone : l₁.find? s.needs = none := by
    refine find?_eq_none.mpr fun x hx => ?_
    simp [(needRefresh_ok (hl₁ x hx)).1]
  rw [hnone, find?_cons_of_pos (needRefresh_ok ha).1]
  rfl

end Controller

/-- Nothing waits for the other sub-arrays of a bank that is split. -/
def ClearBank (s : Controller p) (rank bank : Nat) : Prop :=
  p.bankSplit = true → ∀ q, ∀ c ∈ s.pending q, c.type ≠ .prechargeAll → c.address.rank = rank → c.address.bank = bank →
    c.address.subarray = 0

/-- A new PRECHARGE_ALL of a bank. -/
def ClosesBank (rank bank : Nat) (c : Request p) : Prop :=
  c.type = .prechargeAll ∧ c.address.rank = rank ∧ c.address.bank = bank

/-- Banks of a rank were precharged. -/
structure Precharged (s : Controller p) (rank : Nat) (banks : List Nat) (s' : Controller p) : Prop where
  inactive : ∀ b ∈ banks, ∀ i, s'.activeSubArray (rank, b, i) = false
  still : ∀ k, s.activeSubArray k = false → s'.activeSubArray k = false
  idle : ∀ k, s.activateQueued k = false → s'.activateQueued k = false
  pending : ∀ q, ∀ c ∈ s'.pending q, c ∈ s.pending q ∨ ∃ b ∈ banks, ClosesBank rank b c

namespace Plan
variable {s s' : Controller p} {rows : Nat × Nat × Nat → Option Nat} {a : Address p}

theorem congr (h : Plan s rows) (hplan : s'.plan = s.plan) : Plan s' rows := by
  simp only [plan, mk.injEq, true_and] at hplan
  obtain ⟨hqueues, hactivate, hactive, heffective, -⟩ := hplan
  have hpending : s'.pending = s.pending := by
    unfold pending
    rw [hqueues]
  have hpredicted : s'.predicted = s.predicted := by
    unfold Controller.predicted
    rw [hactive, heffective]
  refine ⟨?_, ?_, ?_, ?_⟩
  · rw [hpending, hpredicted]
    exact h.predicted
  · rw [hpending]
    exact h.placed
  · rw [hactive]
    exact h.active_lt
  · rw [hactivate, hactive]
    exact h.activate

theorem concerns_prechargeAll (cycle : Nat) (k : Nat × Nat × Nat) :
    concerns (makePrechargeAllRequest cycle a) k = true ↔ k.1 = a.rank ∧ k.2.1 = a.bank := by
  have hnot : ¬((makePrechargeAllRequest cycle a).type = .refresh ∧ p.queueModel ≠ .perRank) := fun h => by cases h.1
  rw [concerns, if_neg hnot, Ranks.reaches_iff]
  simp [Rank.ReachesBank, Bank.Reaches, makePrechargeAllRequest]

theorem prechargeBank (h : Plan s rows) (huse : p.usePrecharge = true) (ha : a.subarray = 0)
    (hclear : s.activateQueued (a.rank, a.bank) = true → ClearBank s a.rank a.bank) :
    Plan (s.prechargeBank a) rows ∧ Precharged s a.rank [a.bank] (s.prechargeBank a) := by
  cases hactive : s.activateQueued (a.rank, a.bank) with
  | false =>
    have hsame : s.prechargeBank a = s := by simp [Controller.prechargeBank, hactive]
    rw [hsame]
    refine ⟨h, fun b hb i => ?_, fun _ hk => hk, fun _ hk => hk, fun _ _ hc => .inl hc⟩
    rw [mem_singleton.mp hb]
    exact h.inactive hactive i
  | true =>
    have hqueues : (s.prechargeBank a).commandQueues = update s.commandQueues (getCommandQueueId a)
        (s.commandQueues (getCommandQueueId a) ++ [makePrechargeAllRequest s.cycle a]) := by
      simp [Controller.prechargeBank, huse, hactive, Controller.push]
    have hsub (k : Nat × Nat × Nat) : (s.prechargeBank a).activeSubArray k =
        if k.1 = a.rank ∧ k.2.1 = a.bank then false else s.activeSubArray k := by
      simp only [Controller.prechargeBank, huse, hactive, Bool.and_self, if_true, Controller.push]
      by_cases hk : k.1 = a.rank ∧ k.2.1 = a.bank
      · by_cases hlt : k.2.2 < p.subArrayNum
        · simp [hlt]
        · have hidle : s.activeSubArray k = false := Bool.eq_false_iff.mpr (mt (h.active_lt k) hlt)
          simp [hidle]
      · have hnot : ¬(k.1 = a.rank ∧ k.2.1 = a.bank ∧ k.2.2 < p.subArrayNum) := fun hall => hk ⟨hall.1, hall.2.1⟩
        rw [if_neg hk, if_neg hnot]
    have hrow (k : Nat × Nat × Nat) (hk : ¬(k.1 = a.rank ∧ k.2.1 = a.bank)) :
        (s.prechargeBank a).effectiveRow k = s.effectiveRow k := by
      have hnot : ¬(k.1 = a.rank ∧ k.2.1 = a.bank ∧ k.2.2 < p.subArrayNum) := fun hall => hk ⟨hall.1, hall.2.1⟩
      simp only [Controller.prechargeBank, huse, hactive, Bool.and_self, if_true, Controller.push, if_neg hnot]
    have hactivate : (s.prechargeBank a).activateQueued = update s.activateQueued (a.rank, a.bank) false := by
      simp [Controller.prechargeBank, huse, hactive, Controller.push]
    have hclosed (k : Nat × Nat × Nat) (hk : s.activeSubArray k = false) : (s.prechargeBank a).activeSubArray k = false := by
      rw [hsub, hk, ite_self]
    have hplaced : ∀ c ∈ [makePrechargeAllRequest s.cycle a], Placed c (getCommandQueueId a) ∧ c.issued = false := by
      intro c hc
      rw [mem_singleton.mp hc]
      exact ⟨⟨rfl, fun _ => ha, fun h => by cases h⟩, rfl⟩
    obtain ⟨hpredicted, hplaced'⟩ := h.queue hqueues hplaced
      (fun c hc q' c' hc' => by
        rw [mem_singleton.mp hc]
        refine ⟨fun hsplit _ htype hrank hbank => ?_, fun _ _ hne => absurd rfl hne⟩
        exact hclear hactive hsplit q' c' hc' htype hrank.symm hbank.symm)
      fun k => by
        simp only [Controller.predicted, hsub]
        by_cases hk : k.1 = a.rank ∧ k.2.1 = a.bank
        · rw [actingOn_cons_of_true ((concerns_prechargeAll s.cycle k).mpr hk), actingOn_nil, if_pos hk, after_cons]
          rfl
        · have hnot : concerns (makePrechargeAllRequest s.cycle a) k = false :=
            Bool.eq_false_iff.mpr (mt (concerns_prechargeAll s.cycle k).mp hk)
          rw [actingOn_cons_of_false hnot, actingOn_nil, after_nil, if_neg hk, hrow k hk]
    refine ⟨⟨hpredicted, hplaced', fun k hk => ?_, fun rank bank => ?_⟩, fun b hb i => ?_, hclosed, fun k hk => ?_,
      fun q c hc => ?_⟩
    · refine h.active_lt k ?_
      by_contra hidle
      rw [hclosed k (Bool.eq_false_iff.mpr hidle)] at hk
      cases hk
    · rw [hactivate]
      by_cases hbank : (rank, bank) = (a.rank, a.bank)
      · cases hbank
        simp [hsub]
      · have hnot : ¬(rank = a.rank ∧ bank = a.bank) := fun heq => hbank (Prod.ext heq.1 heq.2)
        simp only [update_of_ne hbank, hsub, if_neg hnot]
        exact h.activate rank bank
    · rw [mem_singleton.mp hb, hsub, if_pos ⟨rfl, rfl⟩]
    · rw [hactivate, update_apply]
      split
      · rfl
      · exact hk
    · simp only [pending, hqueues, update_apply] at hc
      split at hc
      · rename_i hq
        rw [hq, pending]
        rw [filter_append, mem_append] at hc
        rcases hc with hc | hc
        · exact .inl hc
        · rw [mem_singleton.mp (mem_of_mem_filter hc)]
          exact .inr ⟨a.bank, mem_singleton_self _, rfl, rfl, rfl⟩
      · exact .inl hc

theorem prechargeBanks {l : List Nat} (h : Plan s rows) (huse : p.usePrecharge = true)
    (hclear : ∀ t ∈ l, s.activateQueued (a.rank, (refreshBank a t).bank) = true →
      ClearBank s a.rank (refreshBank a t).bank) :
    Plan (l.foldl (fun s t => s.prechargeBank (refreshBank a t)) s) rows ∧
      Precharged s a.rank (l.map fun t => (refreshBank a t).bank)
        (l.foldl (fun s t => s.prechargeBank (refreshBank a t)) s) := by
  induction l generalizing s with
  | nil => exact ⟨h, nofun, fun _ hk => hk, fun _ hk => hk, fun _ _ hc => .inl hc⟩
  | cons t l ih =>
    obtain ⟨hfirst, hp⟩ := h.prechargeBank (a := refreshBank a t) huse rfl
      (hclear t (mem_cons_self ..))
    -- what was clear stays so: only PRECHARGE_ALL was added
    obtain ⟨hplan, hrest⟩ := ih hfirst fun u hu hactive hsplit q c hc htype hrank hbank => by
      have hactive : s.activateQueued (a.rank, (refreshBank a u).bank) = true := by
        by_contra hidle
        rw [hp.idle _ (Bool.eq_false_iff.mpr hidle)] at hactive
        cases hactive
      rcases hp.pending q c hc with hold | ⟨b, -, hnew⟩
      · exact hclear u (mem_cons_of_mem _ hu) hactive hsplit q c hold htype hrank hbank
      · exact absurd hnew.1 htype
    refine ⟨hplan, fun b hb i => ?_, fun k hk => hrest.still k (hp.still k hk),
      fun k hk => hrest.idle k (hp.idle k hk), fun q c hc => ?_⟩
    · rcases mem_cons.mp hb with hb | hb
      · exact hrest.still _ (hp.inactive b (by rw [hb]; exact mem_singleton_self _) i)
      · exact hrest.inactive b hb i
    · rcases hrest.pending q c hc with hc | ⟨b, hb, hc⟩
      · rcases hp.pending q c hc with hc | ⟨b, hb, hc⟩
        · exact .inl hc
        · rw [mem_singleton.mp hb] at hc
          exact .inr ⟨_, mem_cons_self .., hc⟩
      · exact .inr ⟨b, mem_cons_of_mem _ hb, hc⟩

theorem mem_refreshBanks_iff (ha : a.bank + p.banksPerRefresh ≤ p.banks) {b : Nat} :
    b ∈ refreshBanks a ↔ a.bank ≤ b ∧ b < a.bank + p.banksPerRefresh := by
  simp only [refreshBanks, refreshBank, Address.ofBank, mem_map, mem_range]
  constructor
  · rintro ⟨t, ht, rfl⟩
    rw [mod_eq_of_lt (by omega)]
    omega
  · intro hb
    refine ⟨b - a.bank, by omega, ?_⟩
    rw [mod_eq_of_lt (by omega)]
    omega

theorem concerns_refresh (ha : a.bank + p.banksPerRefresh ≤ p.banks) {cycle : Nat} {k : Nat × Nat × Nat}
    (hk : concerns (makeRefreshRequest cycle a) k = true) : k.1 = a.rank ∧ k.2.1 ∈ refreshBanks a := by
  have hpos := p.banksPerRefresh_pos
  refine ⟨concerns_rank hk, (mem_refreshBanks_iff ha).mpr ?_⟩
  unfold concerns at hk
  split at hk
  · rw [beq_iff_eq.mp hk]
    exact ⟨Nat.le_refl _, Nat.lt_add_of_pos_right hpos⟩
  · have hbank := (Ranks.reaches_iff.mp hk).2.1
    rw [Rank.ReachesBank, if_pos (show (makeRefreshRequest cycle a).type = .refresh from rfl), Rank.mem_refreshed] at hbank
    exact hbank

/-- `HandleRefresh` queues a refresh. -/
theorem refreshed (h : Plan s rows) (huse : p.usePrecharge = true) (ha : a.subarray = 0)
    (hdvd : p.banksPerRefresh ∣ a.bank) (hle : a.bank + p.banksPerRefresh ≤ p.banks)
    (hclear : ∀ b ∈ refreshBanks a, s.activateQueued (a.rank, b) = true → ClearBank s a.rank b)
    (hs' : Controller.Refreshed s a s') : Plan s' rows ∧
      (∀ b ∈ refreshBanks a, ∀ i, s'.activeSubArray (a.rank, b, i) = false) ∧
      (∀ k, s.activeSubArray k = false → s'.activeSubArray k = false) ∧
      ∀ q, ∀ c ∈ s'.pending q, c ∈ s.pending q ∨ c = makeRefreshRequest s.cycle a ∨
        ∃ b ∈ refreshBanks a, ClosesBank a.rank b c := by
  obtain ⟨hgroup, hp⟩ := h.prechargeBanks huse
    fun t ht hactive => hclear _ (mem_map_of_mem ht) hactive
  have hp : Precharged s a.rank (refreshBanks a) (s.prechargeGroup a) := hp
  have hplaced : ∀ c ∈ [makeRefreshRequest s.cycle a], Placed c (getCommandQueueId a) ∧ c.issued = false := by
    intro c hc
    rw [mem_singleton.mp hc]
    exact ⟨⟨rfl, fun _ => ha, fun _ => ⟨hdvd, hle⟩⟩, rfl⟩
  have hpush : Plan ((s.prechargeGroup a).push (getCommandQueueId a) (makeRefreshRequest s.cycle a)) rows := by
    have hqueues : ((s.prechargeGroup a).push (getCommandQueueId a) (makeRefreshRequest s.cycle a)).commandQueues =
        update (s.prechargeGroup a).commandQueues (getCommandQueueId a)
          ((s.prechargeGroup a).commandQueues (getCommandQueueId a) ++ [makeRefreshRequest s.cycle a]) := rfl
    obtain ⟨hpredicted, hplaced'⟩ := hgroup.queue hqueues hplaced
      (fun c hc q' c' hc' => by
        rw [mem_singleton.mp hc]
        refine ⟨fun _ htype => ?_, fun _ _ _ _ _ => ha⟩
        cases htype)
      fun k => by
        show after nextRow ((s.prechargeGroup a).predicted k) _ = some ((s.prechargeGroup a).predicted k)
        cases hk : concerns (makeRefreshRequest s.cycle a) k with
        | false => rw [actingOn_cons_of_false hk, actingOn_nil, after_nil]
        | true =>
          -- every sub-array that the refresh reaches is predicted to be closed
          obtain ⟨hrank, hbank⟩ := concerns_refresh hle hk
          have hidle := hp.inactive _ hbank k.2.2
          rw [← hrank] at hidle
          have hnone : (s.prechargeGroup a).predicted k = none := by
            rw [Controller.predicted, show k = (k.1, k.2.1, k.2.2) from rfl, hidle]
            rfl
          rw [actingOn_cons_of_true hk, actingOn_nil, hnone]
          rfl
    exact ⟨hpredicted, hplaced', hgroup.active_lt, hgroup.activate⟩
  have hplan := hs'.plan
  simp only [plan, mk.injEq, true_and] at hplan
  obtain ⟨hqueues, -, hactive, -, -⟩ := hplan
  refine ⟨hpush.congr hs'.plan, fun b hb i => ?_, fun k hk => ?_, fun q c hc => ?_⟩
  · rw [hactive]
    exact hp.inactive b hb i
  · rw [hactive]
    exact hp.still k hk
  · rw [pending, hqueues] at hc
    simp only [push, update_apply] at hc
    have hold (hc : c ∈ (s.prechargeGroup a).pending q) : c ∈ s.pending q ∨ c = makeRefreshRequest s.cycle a ∨
        ∃ b ∈ refreshBanks a, ClosesBank a.rank b c := by
      rcases hp.pending q c hc with hc | hc
      · exact .inl hc
      · exact .inr (.inr hc)
    split at hc
    · rename_i hq
      subst hq
      rw [filter_append, mem_append] at hc
      rcases hc with hc | hc
      · exact hold hc
      · exact .inr (.inl (mem_singleton.mp (mem_of_mem_filter hc)))
    · exact hold hc

end Plan

end Nvm
