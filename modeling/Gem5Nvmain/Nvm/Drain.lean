import Gem5Nvmain.Nvm.Bookkeeping

/- Draining the command queues.

  From a state of the controller and the memory, the commands that wait are issued in any order that the queues allow:
  in each step the head of some queue, at any cycle at which the memory takes it (`Drains`). No order of issuing makes
  the head of a queue illegal for ever: a column command finds its row open, an ACTIVATE finds its sub-array closed,
  and a REFRESH finds the sub-arrays of its group closed once the queues of the other banks have been served
  (`DrainInv.live`). -/
namespace Nvm
open Lib Function Filter List Ranks

variable {p : Params} (tm : Timing p)

/-- The commands that wait, above the memory. -/
structure Waiting (p : Params) where
  queues : Nat → List (Request p)
  mem : Nat → Rank p
  cycle : Nat

/-- The head of a queue is issued at a cycle that has not passed. -/
def Waiting.issue (d : Waiting p) (e : Nat × Nat) : Except Stop (Waiting p) :=
  match d.queues e.1 with
  | [] => .error .outOfRange
  | c :: l => do
    inBounds (e.1 < p.commandQueueCount)
    require (decide (d.cycle ≤ e.2) && (bankMemory tm).isIssuable d.mem e.2 c)
    pure ⟨update d.queues e.1 l, (bankMemory tm).issueCommand d.mem e.2 c, e.2 + 1⟩

/-- The steps of a drain, by queue and cycle. -/
def Drains : Waiting p → Nat × Nat → Waiting p → Prop := StepOf (Waiting.issue tm)

/-- The head of the queue `q` can still be issued. -/
def Live (d : Waiting p) (q : Nat) (c : Request p) : Prop :=
  ∃ hist d' l t, Exec (Drains tm) d hist d' ∧ d'.queues q = c :: l ∧ d'.cycle ≤ t ∧
    (bankMemory tm).isIssuable d'.mem t c = true

structure DrainInv (rows : Nat × Nat × Nat → Option Nat) (d : Waiting p) : Prop where
  predicted : Predicted concerns nextRow d.queues (row d.mem) rows
  wf : Ranks.WF d.mem
  placed : ∀ q, ∀ c ∈ d.queues q, Placed c q
  guarded : p.queueModel ≠ .perRank → ∀ q, ∀ c ∈ d.queues q, c.type = .refresh → ∀ b, c.address.bank < b →
    b < c.address.bank + p.banksPerRefresh → ∀ i, rows (c.address.rank, b, i) = none

/-! ## Issuing a command -/

section Issue
variable {tm} {c : Request p} {m : Nat → Rank p} {t : Nat} {k : Nat × Nat × Nat}

theorem Drains.issue {d : Waiting p} {q : Nat} {l : List (Request p)} (hlt : q < p.commandQueueCount)
    (hq : d.queues q = c :: l) (ht : d.cycle ≤ t) (hissuable : (bankMemory tm).isIssuable d.mem t c = true) :
    Drains tm d (q, t) ⟨update d.queues q l, (bankMemory tm).issueCommand d.mem t c, t + 1⟩ := by
  simp [Drains, StepOf, Waiting.issue, hlt, hq, ht, hissuable, inBounds, require]

theorem Drains.cases {d d' : Waiting p} {e : Nat × Nat} (h : Drains tm d e d') : e.1 < p.commandQueueCount ∧
    ∃ c l, d.queues e.1 = c :: l ∧ d.cycle ≤ e.2 ∧ (bankMemory tm).isIssuable d.mem e.2 c = true ∧
      d' = ⟨update d.queues e.1 l, (bankMemory tm).issueCommand d.mem e.2 c, e.2 + 1⟩ := by
  simp only [Drains, StepOf, Waiting.issue] at h
  split at h
  · cases h
  · rename_i c l hq
    obtain ⟨_, hlt, h⟩ := of_bind h
    obtain ⟨_, hok, h⟩ := of_bind h
    rw [inBounds_eq_ok, decide_eq_true_eq] at hlt
    rw [require_eq_ok, Bool.and_eq_true, decide_eq_true_eq] at hok
    cases h
    exact ⟨hlt, c, l, hq, hok.1, hok.2, rfl⟩

theorem reaches_of_concerns (h : concerns c k = true) : reaches c k = true := by
  unfold concerns at h
  split at h
  · rename_i hc
    rw [beq_iff_eq.mp h, reaches_iff]
    have hpos := p.banksPerRefresh_pos
    refine ⟨rfl, ?_, .inr rfl⟩
    rw [Rank.ReachesBank, if_pos hc.1, Rank.mem_refreshed]
    exact ⟨Nat.le_refl _, Nat.lt_add_of_pos_right hpos⟩
  · exact h

theorem refresh_of_reaches (h : reaches c k = true) (hnot : concerns c k = false) :
    c.type = .refresh ∧ p.queueModel ≠ .perRank ∧ k.1 = c.address.rank ∧
      c.address.bank ≤ k.2.1 ∧ k.2.1 < c.address.bank + p.banksPerRefresh ∧
      k ≠ (c.address.rank, c.address.bank, c.address.subarray) := by
  unfold concerns at hnot
  split at hnot
  · rename_i hc
    obtain ⟨hrank, hbank, -⟩ := reaches_iff.mp h
    rw [Rank.ReachesBank, if_pos hc.1, Rank.mem_refreshed] at hbank
    exact ⟨hc.1, hc.2, hrank, hbank.1, hbank.2, beq_eq_false_iff_ne.mp hnot⟩
  · rw [h] at hnot
    cases hnot

/-- The memory takes a command: `nextRow` where it concerns, nothing elsewhere. -/
theorem issue_concerns (hw : Ranks.WF m) (huse : p.usePrecharge = true)
    (h : (bankMemory tm).isIssuable m t c = true) : Ranks.WF ((bankMemory tm).issueCommand m t c) ∧
      (∀ k, concerns c k = true → nextRow (row m k) c = some (row ((bankMemory tm).issueCommand m t c) k)) ∧
      ∀ k, concerns c k = false → row ((bankMemory tm).issueCommand m t c) k = row m k := by
  obtain ⟨hw', hreached, hothers⟩ := issue_rows hw huse h
  refine ⟨hw', fun k hk => hreached k (reaches_of_concerns hk), fun k hk => ?_⟩
  cases hreach : reaches c k with
  | false => exact hothers k hreach
  | true =>
    -- a REFRESH that the memory takes finds the sub-array closed and leaves it so
    have hrow := hreached k hreach
    simp only [nextRow, (refresh_of_reaches hreach hk).1] at hrow
    split at hrow
    · rename_i hnone
      rw [hnone]
      exact (Option.some.inj hrow).symm
    · cases hrow

end Issue

theorem index_inj {i j i' j' n : Nat} (hj : j < n) (hj' : j' < n) (h : i * n + j = i' * n + j') : i = i' ∧ j = j' := by
  have hpos : 0 < n := Nat.lt_of_le_of_lt (Nat.zero_le j) hj
  have hdiv (i j : Nat) (hj : j < n) : (i * n + j) / n = i := by
    rw [Nat.mul_comm, Nat.mul_add_div hpos, Nat.div_eq_of_lt hj, Nat.add_zero]
  have hi : i = i' := by rw [← hdiv i j hj, h, hdiv i' j' hj']
  subst hi
  exact ⟨rfl, Nat.add_left_cancel h⟩

/-- Unless a rank has one queue, a queue belongs to one bank. -/
theorem bank_of_getCommandQueueId {a b : Address p} (hmodel : p.queueModel ≠ .perRank)
    (h : getCommandQueueId a = getCommandQueueId b) : a.rank = b.rank ∧ a.bank = b.bank := by
  unfold getCommandQueueId at h
  cases hm : p.queueModel with
  | perRank => exact absurd hm hmodel
  | perBank =>
    cases hs : p.scheduleScheme with
    | fixed => exact absurd hs (p.scheme_ok hm)
    | rankFirst =>
      simp only [hm, hs] at h
      obtain ⟨hbank, hrank⟩ := index_inj a.rank_lt b.rank_lt h
      exact ⟨hrank, hbank⟩
    | bankFirst =>
      simp only [hm, hs] at h
      exact index_inj a.bank_lt b.bank_lt h
  | perSubArray =>
    simp only [hm, ← Nat.add_mul] at h
    obtain ⟨hbank, -⟩ := index_inj a.subarray_lt b.subarray_lt h
    exact index_inj a.bank_lt b.bank_lt hbank

namespace DrainInv
variable {tm} {rows : Nat × Nat × Nat → Option Nat} {d d' : Waiting p} {q : Nat} {c : Request p} {l : List (Request p)}

theorem step {e : Nat × Nat} (h : DrainInv rows d) (huse : p.usePrecharge = true)
    (hd : Drains tm d e d') : DrainInv rows d' := by
  obtain ⟨-, c, l, hq, -, hissuable, rfl⟩ := hd.cases
  obtain ⟨hw, hconcerns, hothers⟩ := issue_concerns h.wf huse hissuable
  have hsub {q : Nat} {x : Request p} (hx : x ∈ update d.queues e.1 l q) : x ∈ d.queues q := by
    rw [update_apply] at hx
    split at hx
    · rename_i hqq
      rw [hqq, hq]
      exact mem_cons_of_mem _ hx
    · exact hx
  exact ⟨h.predicted.issue hq hconcerns hothers, hw, fun q x hx => h.placed q x (hsub hx),
    fun hmodel q x hx => h.guarded hmodel q x (hsub hx)⟩

theorem run {hist : List (Nat × Nat)} (h : DrainInv rows d) (huse : p.usePrecharge = true)
    (hr : Exec (Drains tm) d hist d') : DrainInv rows d' :=
  hr.invariant h fun _ _ _ hinv hd => hinv.step huse hd

theorem issuable_of_legal (tm : Timing p) (h : DrainInv rows d) (hpause : p.writePausing = false)
    (hlegal : ∀ k, Ranks.reaches c k = true → ∃ row, nextRow (Ranks.row d.mem k) c = some row) :
    ∃ t, d.cycle ≤ t ∧ (bankMemory tm).isIssuable d.mem t c = true := by
  obtain ⟨T, hT⟩ := eventually_atTop.mp (eventually_issuable tm h.wf hpause hlegal)
  exact ⟨max T d.cycle, Nat.le_max_right _ _, hT _ (Nat.le_max_left _ _)⟩

/-- A head is legal where it reaches, or it is a REFRESH that waits for another bank of its group. -/
theorem legal_or_waits (h : DrainInv rows d) (hq : d.queues q = c :: l) :
    (∀ k, Ranks.reaches c k = true → ∃ row, nextRow (Ranks.row d.mem k) c = some row) ∨
    (c.type = .refresh ∧ ∃ q' c' l', d.queues q' = c' :: l' ∧ c'.type ≠ .refresh) := by
  refine or_iff_not_imp_left.mpr fun hillegal => ?_
  simp only [not_forall] at hillegal
  obtain ⟨k, hreach, hnone⟩ := hillegal
  have hconcerns : concerns c k = false := Bool.eq_false_iff.mpr fun hk => hnone (h.predicted.head hq hk)
  obtain ⟨htype, hmodel, hrank, hle, hlt, hne⟩ := refresh_of_reaches hreach hconcerns
  have hmem : c ∈ d.queues q := hq ▸ mem_cons_self ..
  obtain ⟨⟨g, hg⟩, -⟩ := (h.placed q c hmem).group htype
  have hsub : k.2.2 = c.address.subarray := by
    rcases (reaches_iff.mp hreach).2.2 with hall | hsub
    · rw [htype] at hall
      cases hall
    · exact hsub
  have hbank : c.address.bank < k.2.1 := by
    refine Nat.lt_of_le_of_ne hle fun heq => hne ?_
    rw [← hrank, heq, ← hsub]
  -- the sub-array will be closed, but is not yet: something waits for it
  have hclosed : rows k = none := by
    have hguard := h.guarded hmodel q c hmem htype k.2.1 hbank hlt k.2.2
    rw [← hrank] at hguard
    exact hguard
  have hopen : Ranks.row d.mem k ≠ none := by
    intro hrow
    refine hnone ⟨none, ?_⟩
    simp [nextRow, htype, hrow]
  obtain ⟨q', c', hc', hk'⟩ := h.predicted.waits_of_ne (by rw [hclosed]; exact hopen)
  refine ⟨htype, q', ?_⟩
  obtain ⟨c'', l', hq'⟩ := exists_cons_of_ne_nil (ne_nil_of_mem hc')
  refine ⟨c'', l', hq', fun htype' => ?_⟩
  -- its queue belongs to a bank in the middle of the group, and a REFRESH stands only in that of a first bank
  have hmem' : c'' ∈ d.queues q' := hq' ▸ mem_cons_self ..
  have hplace := h.placed q' c'' hmem'
  obtain ⟨⟨g', hg'⟩, -⟩ := hplace.group htype'
  have hsame := (bank_of_getCommandQueueId hmodel (hplace.queue.symm.trans (h.placed q' c' hc').queue)).2
  have hk : k.2.1 = p.banksPerRefresh * g' := by rw [concerns_bank hmodel hk', ← hsame, hg']
  rw [hk, hg] at hbank hlt
  have hgg : g < g' := Nat.lt_of_mul_lt_mul_left hbank
  have hstep : p.banksPerRefresh * (g + 1) ≤ p.banksPerRefresh * g' := Nat.mul_le_mul_left _ hgg
  rw [Nat.mul_succ] at hstep
  omega

/-- The commands that wait. -/
def size (d : Waiting p) : Nat := (pooled p.commandQueueCount d.queues).length

theorem size_issue (hlt : q < p.commandQueueCount) (hq : d.queues q = c :: l) (m : Nat → Rank p) (t : Nat) :
    size ⟨update d.queues q l, m, t⟩ < size d := by
  obtain ⟨others, hothers⟩ := pooled_split hlt
  have hold := (hothers (c :: l)).length_eq
  rw [← hq, update_eq_self] at hold
  have hnew := (hothers l).length_eq
  have hcons : (d.queues q).length = l.length + 1 := by rw [hq, length_cons]
  simp only [size, hold, hnew, length_append, hcons]
  omega

/-- The head of a queue can always still be issued. -/
theorem live (h : DrainInv rows d) (huse : p.usePrecharge = true) (hpause : p.writePausing = false)
    (hq : d.queues q = c :: l) : Live tm d q c := by
  induction hn : size d using Nat.strong_induction_on generalizing d with
  | _ n ih =>
    rcases h.legal_or_waits hq with hlegal | ⟨htype, q', c', l', hq', htype'⟩
    · obtain ⟨t, ht, hissuable⟩ := h.issuable_of_legal tm hpause hlegal
      exact ⟨[], d, l, t, .nil, hq, ht, hissuable⟩
    · -- the other queue is served first
      have hne : q ≠ q' := by
        rintro rfl
        rw [hq] at hq'
        cases hq'
        exact htype' htype
      have hlegal : ∀ k, Ranks.reaches c' k = true → ∃ row, nextRow (Ranks.row d.mem k) c' = some row := by
        rcases h.legal_or_waits hq' with hlegal | ⟨htype, -⟩
        · exact hlegal
        · exact absurd htype htype'
      obtain ⟨t, ht, hissuable⟩ := h.issuable_of_legal tm hpause hlegal
      have hlt : q' < p.commandQueueCount := by
        rw [(h.placed q' c' (hq' ▸ mem_cons_self ..)).queue]
        exact getCommandQueueId_lt _
      have hdrain := Drains.issue hlt hq' ht hissuable
      have hsize := size_issue hlt hq' ((bankMemory tm).issueCommand d.mem t c') (t + 1)
      obtain ⟨hist, d', l'', u, hr, hlive⟩ := ih _ (hn ▸ hsize) (h.step huse hdrain)
        ((update_of_ne hne ..).trans hq) rfl
      exact ⟨_, d', l'', u, .append (.one hdrain) hr, hlive⟩

end DrainInv

/-! ## Heads that are stuck -/

theorem Drains.wf {tm : Timing p} {d d' : Waiting p} {hist : List (Nat × Nat)} (hw : Ranks.WF d.mem)
    (huse : p.usePrecharge = true) (hr : Exec (Drains tm) d hist d') : Ranks.WF d'.mem := by
  refine hr.invariant (P := fun d => Ranks.WF d.mem) hw fun d e u hd hstep => ?_
  obtain ⟨-, c, l, -, -, hissuable, rfl⟩ := Drains.cases hstep
  exact (issue_rows hd huse hissuable).1

/-- The head of a queue is illegal for its sub-array, and no other queue has a command for that. -/
structure Stuck (d : Waiting p) (q : Nat) (c : Request p) (l : List (Request p)) : Prop where
  wf : Ranks.WF d.mem
  queue : d.queues q = c :: l
  reaches : reaches c c.address.here = true
  illegal : nextRow (row d.mem c.address.here) c = none
  others : ∀ q' < p.commandQueueCount, q' ≠ q → actingOn Ranks.reaches (d.queues q') c.address.here = []

/-- The same, computed. -/
def stuckAt (d : Waiting p) (q : Nat) : Bool :=
  match d.queues q with
  | [] => false
  | c :: _ => reaches c c.address.here && nextRow (row d.mem c.address.here) c == none &&
      (range p.commandQueueCount).all fun q' =>
        q' == q || (actingOn reaches (d.queues q') c.address.here).isEmpty

namespace Stuck
variable {tm} {d d' : Waiting p} {q : Nat} {c : Request p} {l : List (Request p)}

theorem of_stuckAt (hw : Ranks.WF d.mem) (h : stuckAt d q = true) : ∃ c l, Stuck d q c l := by
  unfold stuckAt at h
  split at h
  · cases h
  · rename_i c l hq
    simp only [Bool.and_eq_true, beq_iff_eq] at h
    refine ⟨c, l, hw, hq, h.1.1, h.1.2, fun q' hlt hne => ?_⟩
    have hempty := all_eq_true.mp h.2 q' (mem_range.mpr hlt)
    simpa [hne] using hempty

theorem not_issuable (h : Stuck d q c l) (huse : p.usePrecharge = true) (t : Nat) :
    (bankMemory tm).isIssuable d.mem t c = false := by
  rw [Bool.eq_false_iff]
  intro hissuable
  have hrow := (issue_rows h.wf huse hissuable).2.1 _ h.reaches
  rw [h.illegal] at hrow
  cases hrow

theorem step {e : Nat × Nat} (h : Stuck d q c l) (huse : p.usePrecharge = true)
    (hd : Drains tm d e d') : Stuck d' q c l := by
  obtain ⟨hlt, x, rest, hx, -, hissuable, rfl⟩ := hd.cases
  have hne : e.1 ≠ q := by
    intro heq
    rw [heq, h.queue] at hx
    obtain ⟨rfl, -⟩ := cons.inj hx
    rw [h.not_issuable huse] at hissuable
    cases hissuable
  have hnone := filter_eq_nil_iff.mp (h.others e.1 hlt hne)
  have hfar : Ranks.reaches x c.address.here = false :=
    Bool.eq_false_iff.mpr (hnone x (hx ▸ mem_cons_self ..))
  obtain ⟨hw, -, hkeep⟩ := issue_rows h.wf huse hissuable
  refine ⟨hw, ?_, h.reaches, ?_, fun q' hlt' hq' => ?_⟩
  · simpa only [update_of_ne hne.symm] using h.queue
  · rw [hkeep _ hfar]
    exact h.illegal
  · by_cases hqe : q' = e.1
    · simp only [hqe, update_self]
      exact filter_eq_nil_iff.mpr fun y hy => hnone y (hx ▸ mem_cons_of_mem _ hy)
    · simpa only [update_of_ne hqe] using h.others q' hlt' hq'

theorem not_live (h : Stuck d q c l) (huse : p.usePrecharge = true) : ¬Live tm d q c := by
  intro hlive
  obtain ⟨hist, d', l', t, hr, -, -, hissuable⟩ := hlive
  have hstuck : Stuck d' q c l :=
    hr.invariant (P := fun d => Stuck d q c l) h fun _ _ _ hs hd => hs.step huse hd
  rw [hstuck.not_issuable huse] at hissuable
  cases hissuable

end Stuck

end Nvm
