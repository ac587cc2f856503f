import Gem5Nvmain.Nvm.BookkeepingRuns
import Gem5Nvmain.Nvm.Wake
import Mathlib.Data.Nat.Find

/- Whether the command queues are woken in time.

  When a wake-up has been scheduled there is, for the head of each queue, a callback that comes no later than
  `NextIssuable` says of the head, or in the next cycle (`Covers`): by induction over the banks that `NextIssuable`
  looks at (`nextIssuable_spec`), and over the refreshes inside one another (`handleRefresh_spec`).

  But `NextIssuable` looks at the queue of the first sub-array of a bank only; the path for cached requests returns
  without a wake-up; and a callback that comes after a command was issued in the same cycle asks for the command that
  is about to be cleaned up, not for the one behind it. The steps without them are `prompt`, and keep `Attends`. -/
namespace Nvm
open Lib Function List Controller Nat

variable {p : Params} {M : Type}

/-- `NextIssuable` is never later than a cycle in which the memory takes the command. -/
def TimedMemory.Timely (mem : TimedMemory p M) : Prop :=
  ∀ m c r, mem.isIssuable m c r = true → mem.nextIssuable m r ≤ c

section Banks
variable {c : Nat} {r : Request p}

theorem SubArray.nextIssuable_le {s : SubArray p} (h : (s.settle c).isIssuable c r = true) : s.nextIssuable r ≤ c := by
  have hnext : (s.settle c).next = s.next := by
    unfold settle close beginPrecharge
    repeat' split
    all_goals rfl
  unfold isIssuable at h
  unfold nextIssuable
  rw [hnext] at h
  cases hr : r.type <;> simp_all

theorem Bank.nextIssuable_le {b : Bank p} (h : b.isIssuable c r = true) : b.nextIssuable r ≤ c := by
  have hchild : ∀ {n : Nat} {f : Bool}, (decide (n ≤ c) && f && (b.subArray c r.address.subarray).isIssuable c r) = true →
      (b.subArrays r.address.subarray).nextIssuable r ≤ c ∧ n ≤ c := by
    intro n f h
    simp only [Bool.and_eq_true, decide_eq_true_eq] at h
    exact ⟨SubArray.nextIssuable_le h.2, h.1.1⟩
  unfold isIssuable at h
  unfold nextIssuable Next.of
  apply Nat.max_le.mpr
  cases hr : r.type with
  | activate | refresh | precharge =>
    simp only [hr] at h
    exact hchild (f := true) (by simpa using h)
  | read | readPrecharge | write | writePrecharge =>
    simp only [hr] at h
    exact hchild h
  | prechargeAll =>
    simp only [hr, Bool.and_eq_true, decide_eq_true_eq] at h
    refine ⟨?_, h.1⟩
    simp [SubArray.nextIssuable, hr]
  | cachedRead | cachedWrite => simp [SubArray.nextIssuable, hr]

theorem Rank.nextIssuable_le {tm : Timing p} {k : Rank p} (h : k.isIssuable tm c r = true) : k.nextIssuable tm r ≤ c := by
  unfold isIssuable at h
  apply Nat.max_le.mpr
  cases hr : r.type with
  | activate =>
    simp only [hr, Bool.and_eq_true, decide_eq_true_eq] at h
    exact ⟨Bank.nextIssuable_le h.2, Nat.max_le.mpr h.1⟩
  | refresh =>
    simp only [hr, Bool.and_eq_true, decide_eq_true_eq] at h
    refine ⟨Bank.nextIssuable_le (all_eq_true.mp h.2 _ ?_), Nat.max_le.mpr h.1⟩
    exact mem_map.mpr ⟨0, mem_range.mpr p.banksPerRefresh_pos, rfl⟩
  | read | readPrecharge | write | writePrecharge | precharge | prechargeAll =>
    simp only [hr, Bool.and_eq_true, decide_eq_true_eq] at h
    exact ⟨Bank.nextIssuable_le h.2, h.1⟩
  | cachedRead | cachedWrite =>
    simp only [hr] at h
    exact ⟨Bank.nextIssuable_le h, zero_le _⟩

theorem timedBanks_timely (tm : Timing p) : (timedBanks tm).Timely :=
  fun _ _ _ h => Rank.nextIssuable_le h

end Banks

/-! ## What is queued -/

/-- The queues that `NextIssuable` looks at. -/
def looksAt (p : Params) (q : Nat) : Prop := ∃ a ∈ allBanks p, q = getCommandQueueId a

/-- Commands are added to the ends of queues, of those with the property. -/
structure Pushed (L : Nat → Prop) (s s' : Controller p) : Prop where
  queues : ∀ q, ∃ l, s'.commandQueues q = s.commandQueues q ++ l ∧ (l ≠ [] → L q)
  cycle : s'.cycle = s.cycle
  cleanup : s'.cleanup = s.cleanup

namespace Pushed
variable {L : Nat → Prop} {s s' s'' : Controller p}

theorem of_eq (hq : s'.commandQueues = s.commandQueues) (hc : s'.cycle = s.cycle) (hcl : s'.cleanup = s.cleanup) :
    Pushed L s s' := by
  refine ⟨fun q => ⟨[], ?_, absurd rfl⟩, hc, hcl⟩
  rw [hq, append_nil]

theorem refl (s : Controller p) : Pushed L s s := of_eq rfl rfl rfl

theorem trans (h : Pushed L s s') (h' : Pushed L s' s'') : Pushed L s s'' := by
  refine ⟨fun q => ?_, h'.cycle.trans h.cycle, h'.cleanup.trans h.cleanup⟩
  obtain ⟨l, hl, hL⟩ := h.queues q
  obtain ⟨l', hl', hL'⟩ := h'.queues q
  refine ⟨l ++ l', by rw [hl', hl, append_assoc], fun hne => ?_⟩
  by_cases h0 : l = []
  · apply hL'
    rintro rfl
    exact hne (by rw [h0]; rfl)
  · exact hL h0

variable {q : Nat}

theorem push (hq : L q) (r : Request p) : Pushed L s (s.push q r) := by
  refine ⟨fun q' => ?_, rfl, rfl⟩
  by_cases h : q' = q
  · subst h
    exact ⟨[r], by simp [push], fun _ => hq⟩
  · exact ⟨[], by simp [Controller.push, h], absurd rfl⟩

theorem mono {K : Nat → Prop} (h : Pushed L s s') (hL : ∀ q, L q → K q) : Pushed K s s' := by
  refine ⟨fun q => ?_, h.cycle, h.cleanup⟩
  obtain ⟨l, hl, hl'⟩ := h.queues q
  exact ⟨l, hl, fun hne => hL q (hl' hne)⟩

theorem head {c : Request p} {l : List (Request p)} (h : Pushed L s s') (hq : s.commandQueues q = c :: l) :
    ∃ l', s'.commandQueues q = c :: l' := by
  obtain ⟨l', hl', -⟩ := h.queues q
  exact ⟨l ++ l', by rw [hl', hq, cons_append]⟩

end Pushed

theorem looksAt_ofBank {b k : Nat} (hb : b < p.banks) (hk : k < p.ranks) :
    looksAt p (getCommandQueueId (Address.ofBank b k hb hk)) := by
  refine ⟨_, ?_, rfl⟩
  simp only [allBanks, mem_flatMap, mem_map]
  exact ⟨⟨k, hk⟩, mem_finRange _, ⟨b, hb⟩, mem_finRange _, rfl⟩

namespace Controller
variable {s s' : Controller p} {queued : Bool}

theorem prechargeBank_pushed {a : Address p} (ha : looksAt p (getCommandQueueId a)) :
    Pushed (looksAt p) s (s.prechargeBank a) := by
  unfold prechargeBank
  split
  · exact (Pushed.push ha (makePrechargeAllRequest s.cycle a)).trans (Pushed.of_eq rfl rfl rfl)
  · exact .refl s

theorem prechargeGroup_pushed (s : Controller p) (a : Address p) : Pushed (looksAt p) s (s.prechargeGroup a) := by
  unfold prechargeGroup
  generalize range p.banksPerRefresh = l
  induction l generalizing s with
  | nil => exact .refl s
  | cons b l ih => exact (prechargeBank_pushed (looksAt_ofBank _ _)).trans (ih _)

/-- What `HandleRefresh` queues. -/
theorem handleRefresh_pushed (h : s.handleRefresh = .ok (s', queued)) :
    (s' = s ∧ queued = false) ∨ (Pushed (looksAt p) s s' ∧ queued = true) := by
  rcases handleRefreshFrom_inv h with hsame | ⟨hq, a, ha, -, hs⟩
  · exact .inl hsame
  · refine .inr ⟨?_, hq⟩
    have hrefreshed := queueRefresh_inv hs
    have hqueues : s'.plan.commandQueues = _ := congrArg commandQueues hrefreshed.plan
    have hlook : looksAt p (getCommandQueueId a) := by
      simp only [refreshOrder, mem_flatMap, mem_map] at ha
      obtain ⟨rankIdx, -, bankIdx, -, rfl⟩ := ha
      exact looksAt_ofBank _ _
    have hpush := (s.prechargeGroup_pushed a).trans (Pushed.push hlook (makeRefreshRequest s.cycle a))
    exact ⟨fun q => hqueues ▸ hpush.queues q, hrefreshed.cycle, hrefreshed.cleanup⟩

end Controller

/-! ## What `IssueMemoryCommands` queues -/

/-- The queue of the request is that of the first sub-array of its bank. -/
def lookedAt (a : Address p) : Bool := p.queueModel != .perSubArray || a.subarray == 0

theorem looksAt_of_lookedAt {a : Address p} (h : lookedAt a = true) : looksAt p (getCommandQueueId a) := by
  have hbank : getCommandQueueId a = getCommandQueueId (Address.ofBank a.bank a.rank a.bank_lt a.rank_lt) := by
    unfold lookedAt at h
    unfold getCommandQueueId
    cases hmodel : p.queueModel with
    | perRank | perBank => rfl
    | perSubArray => simpa [hmodel, Address.ofBank] using h
  rw [hbank]
  exact looksAt_ofBank a.bank_lt a.rank_lt

namespace Controller
variable {mem : Memory p M} {m : M} {s s' : Controller p} {r : Request p} {queued : Bool}

theorem queueClosed_pushed {L : Nat → Prop} (hL : L (getCommandQueueId r.address)) :
    Pushed L s (s.queueClosed mem m r) := by
  have hopen : Pushed L s (s.openRow r.address) := Pushed.of_eq rfl rfl rfl
  have hact := hopen.trans (Pushed.push hL (activateFor mem m s r))
  unfold queueClosed
  dsimp only
  split
  · exact (hact.trans (Pushed.push hL _)).trans (Pushed.of_eq rfl rfl rfl)
  · exact hact.trans (Pushed.push hL _)

theorem queueMiss_pushed {L : Nat → Prop} (hL : L (getCommandQueueId r.address)) :
    Pushed L s (s.queueMiss mem m r) := by
  unfold queueMiss
  dsimp only
  split
  · have hpre := Pushed.push (s := s) hL (makePrechargeRequest s.cycle
      (s.effectiveRow (r.address.rank, r.address.bank, r.address.subarray)) r.address)
    exact ((hpre.trans (Pushed.push hL _)).trans (Pushed.push hL _)).trans (Pushed.of_eq rfl rfl rfl)
  · exact ((Pushed.push hL _).trans (Pushed.push hL _)).trans (Pushed.of_eq rfl rfl rfl)

theorem queueHit_pushed {L : Nat → Prop} (hL : L (getCommandQueueId r.address)) (h : s.queueHit r = .ok s') :
    Pushed L s s' := by
  have hstarve : Pushed L s (s.starve r.address) := Pushed.of_eq rfl rfl rfl
  unfold queueHit at h
  split at h
  · obtain ⟨_, -, h⟩ := of_bind h
    cases h
    split
    all_goals exact (hstarve.trans (Pushed.push hL _)).trans (Pushed.of_eq rfl rfl rfl)
  · cases h
    exact hstarve.trans (Pushed.push hL _)

theorem issueMemoryCommands_pushed (h : s.issueMemoryCommands mem m r = .ok (s', queued)) :
    Pushed (· = getCommandQueueId r.address) s s' ∧ (queued = false → s' = s) := by
  obtain ⟨-, hqueues⟩ := issueMemoryCommands_cases h
  cases hqueues with
  | cached => exact ⟨Pushed.push (L := (· = getCommandQueueId r.address)) rfl _, nofun⟩
  | closed => exact ⟨queueClosed_pushed rfl, nofun⟩
  | miss => exact ⟨queueMiss_pushed rfl, nofun⟩
  | hit _ _ hs' => exact ⟨queueHit_pushed rfl hs', nofun⟩
  | nothing => exact ⟨.refl s, fun _ => rfl⟩

end Controller

/-! ## A wake-up is scheduled -/

namespace Awake
variable {mem : TimedMemory p M} {y y' y'' : Awake p M} {handle : Awake p M → Except Stop (Awake p M)}
  {a : Address p} {nw nw' : Option Nat} {depth : Nat}

/-- The queues with commands are those that `NextIssuable` looks at. -/
def Looked (y : Awake p M) : Prop := ∀ q, y.ctl.commandQueues q ≠ [] → looksAt p q

/-- A later callback comes in time for the command. -/
def CoversHead (mem : TimedMemory p M) (y : Awake p M) (c : Request p) : Prop :=
  ∃ w ∈ y.wakes, y.ctl.cycle < w ∧ w ≤ max (mem.nextIssuable y.sys.mem c) (y.ctl.cycle + 1)

def Covers (mem : TimedMemory p M) (y : Awake p M) : Prop :=
  ∀ q c l, y.ctl.commandQueues q = c :: l → CoversHead mem y c

/-- Within a cycle, commands are added to queues that `NextIssuable` looks at, and callbacks for later cycles. -/
structure Grows (y y' : Awake p M) : Prop where
  mem : y'.sys.mem = y.sys.mem
  ctl : Pushed (looksAt p) y.ctl y'.ctl
  wakes : ∀ w ∈ y.wakes, w ∈ y'.wakes
  later : ∀ w ∈ y'.wakes, w ∈ y.wakes ∨ y.ctl.cycle < w

namespace Grows

theorem refl (y : Awake p M) : Grows y y := ⟨rfl, .refl _, fun _ h => h, fun _ h => .inl h⟩

theorem trans (h : Grows y y') (h' : Grows y' y'') : Grows y y'' := by
  refine ⟨h'.mem.trans h.mem, h.ctl.trans h'.ctl, fun w hw => h'.wakes w (h.wakes w hw), fun w hw => ?_⟩
  rcases h'.later w hw with hw | hw
  · exact h.later w hw
  · exact .inr (h.ctl.cycle ▸ hw)

theorem cycle (h : Grows y y') : y'.ctl.cycle = y.ctl.cycle := h.ctl.cycle

theorem looked (h : Grows y y') (hl : Looked y) : Looked y' := by
  intro q hq
  obtain ⟨l, hl', hL⟩ := h.ctl.queues q
  by_cases hnil : l = []
  · apply hl
    rwa [hl', hnil, append_nil] at hq
  · exact hL hnil

theorem coversHead {c : Request p} (h : Grows y y') (hc : CoversHead mem y c) : CoversHead mem y' c := by
  obtain ⟨w, hw, hlt, hle⟩ := hc
  exact ⟨w, h.wakes w hw, h.cycle ▸ hlt, by rwa [h.mem, h.cycle]⟩

theorem withCtl {s : Controller p} (h : Pushed (looksAt p) y.ctl s) : Grows y (y.withCtl s) :=
  ⟨rfl, h, fun _ h => h, fun _ h => .inl h⟩

theorem insert (h : ∀ w, nw = some w → y.ctl.cycle < w) : Grows y (y.insert nw) := by
  cases nw with
  | none => exact refl y
  | some w =>
    unfold Awake.insert
    dsimp only
    split
    · exact refl y
    · refine ⟨rfl, .refl _, fun v hv => mem_cons_of_mem _ hv, fun v hv => ?_⟩
      rcases mem_cons.mp hv with rfl | hv
      · exact .inr (h v rfl)
      · exact .inl hv

end Grows

theorem mem_insert (y : Awake p M) (w : Nat) : w ∈ (y.insert (some w)).wakes := by
  unfold insert
  dsimp only
  split
  · rename_i h
    exact contains_iff_mem.mp h
  · exact mem_cons_self ..

theorem insert_sys (y : Awake p M) (nw : Option Nat) : (y.insert nw).sys = y.sys := by
  cases nw with
  | none => rfl
  | some w =>
    unfold insert
    dsimp only
    split <;> rfl

theorem insert_ctl (y : Awake p M) (nw : Option Nat) : (y.insert nw).ctl = y.ctl := congrArg System.ctl (y.insert_sys nw)

/-- What a call of `HandleRefresh` inside `NextIssuable` does: nothing, or it schedules a wake-up for all. -/
def Handles (mem : TimedMemory p M) (handle : Awake p M → Except Stop (Awake p M)) : Prop :=
  ∀ y y', Looked y → handle y = .ok y' → Grows y y' ∧ (y' = y ∨ Covers mem y')

/-- The commands of the banks that were looked at are covered, or will be by the wake-up found so far. -/
def SoFar (mem : TimedMemory p M) (done : List (Address p)) (y : Awake p M) (nw : Option Nat) : Prop :=
  ∀ a ∈ done, ∀ c l, y.ctl.commandQueues (getCommandQueueId a) = c :: l →
    CoversHead mem y c ∨ ∃ w, nw = some w ∧ w ≤ max (mem.nextIssuable y.sys.mem c) (y.ctl.cycle + 1)

theorem earliest_le (nw : Option Nat) (w : Nat) : ∃ v, earliest nw w = some v ∧ v ≤ w ∧ ∀ u, nw = some u → v ≤ u := by
  cases nw with
  | none => exact ⟨w, rfl, le_refl w, nofun⟩
  | some u =>
    refine ⟨min u w, rfl, min_le_right u w, fun u' hu => ?_⟩
    cases hu
    exact min_le_left u w

variable {done : List (Address p)}

section
variable (hh : Handles mem handle)
include hh

theorem refreshPriority_spec (hl : Looked y)
    (hsofar : SoFar mem done y nw) (h : refreshPriority handle y nw a = .ok (y', nw')) :
    Grows y y' ∧ SoFar mem done y' nw' := by
  obtain ⟨need, -, h⟩ := of_bind h
  split at h
  · split at h
    · obtain ⟨y₁, hy₁, h⟩ := of_bind h
      cases h
      obtain ⟨hgrows, hcases⟩ := hh y y' hl hy₁
      refine ⟨hgrows, ?_⟩
      rcases hcases with rfl | hcovers
      · exact hsofar
      · intro b _ c l hq
        exact .inl (hcovers _ c l hq)
    · cases h
      refine ⟨.refl _, fun b hb c l hq => ?_⟩
      exact .inr ⟨_, rfl, le_max_right ..⟩
  · cases h
    exact ⟨.refl _, hsofar⟩

theorem lookAtBank_spec (hl : Looked y)
    (hsofar : SoFar mem done y nw) (h : lookAtBank mem handle (y, nw) a = .ok (y', nw')) :
    Grows y y' ∧ SoFar mem (done ++ [a]) y' nw' := by
  obtain ⟨⟨y₁, nw₁⟩, hfirst, h⟩ := of_bind h
  obtain ⟨hgrows, hsofar₁⟩ := refreshPriority_spec hh hl hsofar hfirst
  dsimp only at h
  split at h
  · rename_i hempty
    cases h
    refine ⟨hgrows, fun b hb c l hq => ?_⟩
    rcases mem_append.mp hb with hb | hb
    · exact hsofar₁ b hb c l hq
    · rw [mem_singleton.mp hb, hempty] at hq
      cases hq
  · rename_i queueHead tail hhead
    cases h
    obtain ⟨v, hv, hvle, hvmin⟩ := earliest_le nw₁ (mem.nextIssuable y'.sys.mem queueHead)
    refine ⟨hgrows, fun b hb c l hq => ?_⟩
    rcases mem_append.mp hb with hb | hb
    · rcases hsofar₁ b hb c l hq with hcov | ⟨w, hw, hle⟩
      · exact .inl hcov
      · exact .inr ⟨v, hv, le_trans (hvmin w hw) hle⟩
    · rw [mem_singleton.mp hb, hhead] at hq
      cases hq
      exact .inr ⟨v, hv, le_trans hvle (le_max_left ..)⟩

theorem lookAtBanks_spec {todo : List (Address p)} (hl : Looked y)
    (hsofar : SoFar mem done y nw) (h : todo.foldlM (lookAtBank mem handle) (y, nw) = .ok (y', nw')) :
    Grows y y' ∧ SoFar mem (done ++ todo) y' nw' := by
  induction todo generalizing done y nw with
  | nil =>
    cases h
    rw [append_nil]
    exact ⟨.refl _, hsofar⟩
  | cons a todo ih =>
    obtain ⟨⟨y₁, nw₁⟩, hlook, h⟩ := of_bind h
    obtain ⟨hgrows, hsofar₁⟩ := lookAtBank_spec hh hl hsofar hlook
    obtain ⟨hgrows', hsofar'⟩ := ih (hgrows.looked hl) hsofar₁ h
    rw [append_assoc] at hsofar'
    exact ⟨hgrows.trans hgrows', hsofar'⟩

/-- After `NextIssuable` its wake-up covers the heads that were not covered before. -/
theorem nextIssuable_spec (hl : Looked y) (h : nextIssuable mem handle y = .ok (y', nw')) :
    Grows y (y'.insert nw') ∧ Covers mem (y'.insert nw') := by
  obtain ⟨⟨y₁, nw₁⟩, hfold, h⟩ := of_bind h
  obtain ⟨hgrows, hsofar⟩ := lookAtBanks_spec hh hl (nofun : SoFar mem [] y none) hfold
  cases h
  have hlater : ∀ w, nw₁.map (fun w => if w ≤ y'.ctl.cycle then y'.ctl.cycle + 1 else w) = some w →
      y'.ctl.cycle < w := by
    intro w hw
    obtain ⟨v, -, rfl⟩ := Option.map_eq_some_iff.mp hw
    split <;> omega
  have hins := Grows.insert hlater
  refine ⟨hgrows.trans hins, fun q c l hq => ?_⟩
  rw [insert_ctl] at hq
  obtain ⟨a, ha, rfl⟩ := hgrows.looked hl q (by rw [hq]; exact nofun)
  rcases hsofar a ha c l hq with hcov | ⟨w, rfl, hle⟩
  · exact hins.coversHead hcov
  · -- the wake-up that was found, or the next cycle if it is over
    refine ⟨_, mem_insert _ _, ?_⟩
    rw [insert_ctl, insert_sys]
    dsimp only
    split <;> omega

theorem scheduleWith_spec (hl : Looked y) (h : scheduleWith mem handle y = .ok y') : Grows y y' ∧ Covers mem y' := by
  obtain ⟨⟨y₁, nw₁⟩, hnext, h⟩ := of_bind h
  cases h
  exact nextIssuable_spec hh hl hnext

end

theorem handleRefresh_spec (mem : TimedMemory p M) (depth : Nat) : Handles mem (handleRefresh mem depth) := by
  induction depth with
  | zero =>
    intro y y' _ h
    cases h
  | succ depth ih =>
    intro y y' hl h
    obtain ⟨⟨ctl, queued⟩, hctl, h⟩ := of_bind h
    rcases handleRefresh_pushed hctl with ⟨rfl, rfl⟩ | ⟨hpushed, rfl⟩
    · cases h
      exact ⟨.refl _, .inl rfl⟩
    · have hgrows := Grows.withCtl hpushed
      obtain ⟨hgrows', hcovers⟩ := scheduleWith_spec ih (hgrows.looked hl) h
      exact ⟨hgrows.trans hgrows', .inr hcovers⟩

/-! ## The steps -/

/-- A callback comes in this cycle or in the next. -/
def soon (y : Awake p M) : Bool := y.wakes.contains y.ctl.cycle || y.wakes.contains (y.ctl.cycle + 1)

/-- The steps that do not go wrong: a transaction is taken for a queue that `NextIssuable` looks at, the path for
  cached requests is taken only if a callback comes soon, and a callback in the cycle of an issue only if there is one
  in the next cycle. -/
def prompt (mem : TimedMemory p M) (pol : Policy) (y : Awake p M) : Op p → Bool
  | .cycle =>
    match pol.take mem.toMemory y.sys.mem y.ctl with
    | .ok (ctl, some r) => lookedAt r.address && (!ctl.takesCachedPath mem.toMemory y.sys.mem r || y.soon)
    | _ => true
  | .commandQueueCallback => !y.ctl.cleanup || y.wakes.contains (y.ctl.cycle + 1)
  | _ => true

/-- Of the callbacks from cycle `b` on, one comes no later than `c`, or nothing is about to be cleaned up and for each
  head there is one that comes no later than `c` or than `NextIssuable` says. -/
def Waits (mem : TimedMemory p M) (y : Awake p M) (b c : Nat) : Prop :=
  (∃ w ∈ y.wakes, b ≤ w ∧ w ≤ c) ∨
  (y.ctl.cleanup = false ∧ ∀ q r l, y.ctl.commandQueues q = r :: l →
    ∃ w ∈ y.wakes, b ≤ w ∧ w ≤ max (mem.nextIssuable y.sys.mem r) c)

structure Attends (mem : TimedMemory p M) (y : Awake p M) : Prop where
  looked : Looked y
  waits : Waits mem y y.ctl.cycle (y.ctl.cycle + 1)

theorem soon_iff {y : Awake p M} : y.soon = true ↔ ∃ w ∈ y.wakes, y.ctl.cycle ≤ w ∧ w ≤ y.ctl.cycle + 1 := by
  simp only [soon, Bool.or_eq_true, contains_iff_mem]
  constructor
  · rintro (h | h)
    · exact ⟨_, h, le_refl _, le_succ _⟩
    · exact ⟨_, h, le_succ _, le_refl _⟩
  · rintro ⟨w, hw, hle, hge⟩
    obtain rfl | rfl : w = y.ctl.cycle ∨ w = y.ctl.cycle + 1 := by omega
    · exact .inl hw
    · exact .inr hw

variable {b : Nat}

theorem Waits.of_covers (hc : Covers mem y) (hle : b ≤ y.ctl.cycle + 1) (hclean : y.ctl.cleanup = false) :
    Waits mem y b (y.ctl.cycle + 1) := by
  refine .inr ⟨hclean, fun q r l hq => ?_⟩
  obtain ⟨w, hw, hlt, hmax⟩ := hc q r l hq
  exact ⟨w, hw, le_trans hle hlt, hmax⟩

namespace Attends

/-- More commands and callbacks: those who had a callback keep it. -/
theorem grow (ha : Attends mem y) (hg : Grows y y')
    (h : y.soon = true ∨ Covers mem y' ∨ ∀ q, y.ctl.commandQueues q = [] → y'.ctl.commandQueues q = []) :
    Attends mem y' := by
  refine ⟨hg.looked ha.looked, ?_⟩
  have hsoon : (∃ w ∈ y.wakes, y.ctl.cycle ≤ w ∧ w ≤ y.ctl.cycle + 1) →
      Waits mem y' y'.ctl.cycle (y'.ctl.cycle + 1) := by
    rintro ⟨w, hw, hle, hge⟩
    rw [hg.cycle]
    exact .inl ⟨w, hg.wakes w hw, hle, hge⟩
  rcases ha.waits with hs | ⟨hclean, hheads⟩
  · exact hsoon hs
  have hclean' : y'.ctl.cleanup = false := hg.ctl.cleanup.trans hclean
  rcases h with h | h | h
  · exact hsoon (soon_iff.mp h)
  · exact Waits.of_covers h (le_succ _) hclean'
  · refine .inr ⟨hclean', fun q r l hq => ?_⟩
    cases hold : y.ctl.commandQueues q with
    | nil =>
      rw [h q hold] at hq
      cases hq
    | cons r' l' =>
      obtain ⟨l'', hnew⟩ := hg.ctl.head hold
      rw [hnew] at hq
      cases hq
      obtain ⟨w, hw, hle, hmax⟩ := hheads q r l' hold
      rw [hg.mem, hg.cycle]
      exact ⟨w, hg.wakes w hw, hle, hmax⟩

theorem same {s : Controller p} (ha : Attends mem y) (hq : s.commandQueues = y.ctl.commandQueues)
    (hc : s.cycle = y.ctl.cycle) (hcl : s.cleanup = y.ctl.cleanup) : Attends mem (y.withCtl s) := by
  apply ha.grow (Grows.withCtl (Pushed.of_eq hq hc hcl))
  refine .inr (.inr fun q h => ?_)
  change s.commandQueues q = []
  rw [hq, h]

end Attends

/-- A command is issued only when its callback is soon. -/
theorem cycleCommandQueues_waits (hevent : p.eventDriven = true) (ht : mem.Timely) (hl : Looked y)
    (hw : Waits mem y b (y.ctl.cycle + 1)) (h : cycleCommandQueues mem y = .ok y') :
    Looked y' ∧ Waits mem y' b (y.ctl.cycle + 1) ∧ y'.ctl.cycle = y.ctl.cycle := by
  obtain ⟨sys, hsys, h⟩ := of_bind h
  cases h
  rcases System.cycleCommandQueues_eventDriven hevent hsys with rfl | ⟨q, -, head, tail, hissued⟩
  · exact ⟨hl, hw, rfl⟩
  · obtain ⟨f, c', hctl, -, -⟩ := markIssued_inv hissued.ctl
    have hcycle : sys.ctl.cycle = y.ctl.cycle := by rw [hctl]; rfl
    have hqueues : sys.ctl.commandQueues = update y.ctl.commandQueues q ({ head with issued := true } :: tail) := by
      rw [hctl]
      rfl
    refine ⟨fun q' hq' => ?_, .inl ?_, hcycle⟩
    · apply hl
      intro hempty
      apply hq'
      change sys.ctl.commandQueues q' = []
      rw [hqueues, update_apply]
      split
      · rename_i hqq
        rw [hqq, show y.ctl.commandQueues q = head :: tail from hissued.queue] at hempty
        cases hempty
      · exact hempty
    · change ∃ w ∈ y.wakes, b ≤ w ∧ w ≤ y.ctl.cycle + 1
      rcases hw with hsoon | ⟨-, hheads⟩
      · exact hsoon
      · obtain ⟨w, hw, hle, hmax⟩ := hheads q head tail hissued.queue
        have hnext : mem.nextIssuable y.sys.mem head ≤ y.ctl.cycle := ht _ _ _ hissued.issuable
        exact ⟨w, hw, hle, by omega⟩

theorem take_queues {pol : Policy} {m : M} {s s' : Controller p} {found : Option (Request p)}
    (h : pol.take mem.toMemory m s = .ok (s', found)) :
    s'.commandQueues = s.commandQueues ∧ s'.cycle = s.cycle ∧ s'.cleanup = s.cleanup := by
  cases found with
  | none =>
    obtain ⟨d, hd⟩ := pol.updateDraining_eq s
    rw [Policy.take_none h, hd]
    exact ⟨rfl, rfl, rfl⟩
  | some r =>
    obtain ⟨x, htaken⟩ := Policy.take_some h
    obtain ⟨l₁, l₂, d, -, rfl, -⟩ := htaken.queue
    exact ⟨rfl, rfl, rfl⟩

namespace Attends
variable {pol : Policy} {op : Op p}

theorem issueMemoryCommands {r : Request p} (ha : Attends mem y) (hlook : lookedAt r.address = true)
    (hcached : y.ctl.takesCachedPath mem.toMemory y.sys.mem r = true → y.soon = true)
    (h : issueMemoryCommands mem depth y r = .ok y') : Attends mem y' := by
  obtain ⟨⟨ctl, queued⟩, hissue, h⟩ := of_bind h
  obtain ⟨hpushed, hnot⟩ := issueMemoryCommands_pushed hissue
  have hgrows : Grows y (y.withCtl ctl) :=
    Grows.withCtl (hpushed.mono fun q hq => hq ▸ looksAt_of_lookedAt hlook)
  dsimp only at h
  split at h
  · obtain ⟨hgrows', hcovers⟩ := scheduleWith_spec (handleRefresh_spec mem depth) (hgrows.looked ha.looked) h
    exact ha.grow (hgrows.trans hgrows') (.inr (.inl hcovers))
  · rename_i hearly
    cases h
    cases queued with
    | false =>
      obtain rfl := hnot rfl
      exact ha
    | true => exact ha.grow hgrows (.inl (hcached (by simpa using hearly)))

theorem cycle (hevent : p.eventDriven = true) (ht : mem.Timely) (ha : Attends mem y)
    (hprompt : prompt mem pol y .cycle = true) (h : cycle mem depth pol y = .ok y') : Attends mem y' := by
  have hcommands : ∀ {z : Awake p M}, Attends mem z → cycleCommandQueues mem z = .ok y' → Attends mem y' := by
    intro z hz hcycle
    obtain ⟨hlooked, hwaits, hsame⟩ := cycleCommandQueues_waits hevent ht hz.looked hz.waits hcycle
    exact ⟨hlooked, hsame ▸ hwaits⟩
  obtain ⟨⟨ctl, found⟩, htake, h⟩ := of_bind h
  obtain ⟨hqueues, hc, hclean⟩ := take_queues htake
  have htaken := ha.same hqueues hc hclean
  cases found with
  | none => exact hcommands htaken h
  | some r =>
    obtain ⟨z, hissue, h⟩ := of_bind h
    unfold prompt at hprompt
    rw [htake] at hprompt
    obtain ⟨hlook, hcached⟩ := Bool.and_eq_true_iff.mp hprompt
    refine hcommands (htaken.issueMemoryCommands hlook (fun hpath => ?_) hissue) h
    have hsoon : (y.withCtl ctl).soon = y.soon := by
      change (y.wakes.contains ctl.cycle || y.wakes.contains (ctl.cycle + 1)) = _
      rw [hc]
      rfl
    rw [hsoon]
    change ctl.takesCachedPath mem.toMemory y.sys.mem r = true at hpath
    simpa [hpath] using hcached

/-- After the callback only later ones count: its own event is deleted. -/
theorem commandQueueCallback (hevent : p.eventDriven = true) (ht : mem.Timely) (ha : Attends mem y)
    (hprompt : prompt mem pol y .commandQueueCallback = true) (h : commandQueueCallback mem depth y = .ok y') :
    Attends mem y' := by
  obtain ⟨⟨y₁, nw⟩, hnext, h⟩ := of_bind h
  obtain ⟨y₂, hcycle, h⟩ := of_bind h
  cases h
  obtain ⟨hgrows, hcovers⟩ := nextIssuable_spec (handleRefresh_spec mem depth) ha.looked hnext
  have hahead : Waits mem (y₁.insert nw) (y.ctl.cycle + 1) ((y₁.insert nw).ctl.cycle + 1) := by
    rcases Bool.or_eq_true_iff.mp hprompt with hclean | hsoon
    · apply Waits.of_covers hcovers
      · exact le_of_eq (by rw [hgrows.cycle])
      · exact hgrows.ctl.cleanup.trans (by simpa using hclean)
    · refine .inl ⟨_, hgrows.wakes _ (contains_iff_mem.mp hsoon), le_refl _, ?_⟩
      exact le_of_eq (by rw [hgrows.cycle])
  obtain ⟨hlooked, hwaits, hsame⟩ := cycleCommandQueues_waits hevent ht (hgrows.looked ha.looked) hahead hcycle
  rw [hgrows.cycle] at hsame hwaits
  have hkeep : ∀ {w}, w ∈ y₂.wakes → y.ctl.cycle + 1 ≤ w → w ∈ y₂.wakes.filter (fun w => w != y₂.ctl.cycle) := by
    intro w hw hle
    refine mem_filter.mpr ⟨hw, ?_⟩
    simp only [bne_iff_ne]
    omega
  refine ⟨hlooked, ?_⟩
  change Waits mem { y₂ with wakes := y₂.wakes.filter fun w => w != y₂.ctl.cycle } y₂.ctl.cycle (y₂.ctl.cycle + 1)
  rw [hsame]
  rcases hwaits with ⟨w, hw, hle, hge⟩ | ⟨hclean, hheads⟩
  · exact .inl ⟨w, hsame ▸ hkeep hw hle, le_of_succ_le hle, hge⟩
  · refine .inr ⟨hclean, fun q r l hq => ?_⟩
    obtain ⟨w, hw, hle, hmax⟩ := hheads q r l hq
    exact ⟨w, hsame ▸ hkeep hw hle, le_of_succ_le hle, hmax⟩

theorem handleRefresh (ha : Attends mem y) (h : handleRefresh mem depth y = .ok y') : Attends mem y' := by
  obtain ⟨hgrows, hcases⟩ := handleRefresh_spec mem depth y y' ha.looked h
  rcases hcases with rfl | hcovers
  · exact ha
  · exact ha.grow hgrows (.inr (.inl hcovers))

theorem refreshCallback {rank group : Nat} (ha : Attends mem y) (h : refreshCallback mem depth y rank group = .ok y') :
    Attends mem y' := by
  obtain ⟨ctl, hpulse, h⟩ := of_bind h
  obtain ⟨f, hctl⟩ := processRefreshPulse_inv hpulse
  have hpulsed : Attends mem (y.withCtl ctl) := ha.same (by rw [hctl]) (by rw [hctl]) (by rw [hctl])
  exact hpulsed.handleRefresh h

theorem requestComplete (ha : Attends mem y) (id : Nat) (paused cancelled : Bool) :
    Attends mem { y with sys := y.sys.requestComplete pol id paused cancelled } := by
  have hfields : ∃ f l, y.sys.requestComplete pol id paused cancelled =
      { y.sys with ctl := { y.sys.ctl with transactionQueues := f }, below := l } := by
    unfold System.requestComplete
    split
    · exact ⟨_, _, rfl⟩
    · dsimp only
      split <;> exact ⟨_, _, rfl⟩
  obtain ⟨f, l, heq⟩ := hfields
  rw [heq]
  exact ⟨ha.looked, ha.waits⟩

/-- A cycle that begins is waited for in the cycle itself. -/
theorem tick_waits (ha : Attends mem y) (hnow : y.wakes.contains y.ctl.cycle = false) :
    Looked (y.withCtl y.ctl.tick) ∧ Waits mem (y.withCtl y.ctl.tick) (y.ctl.cycle + 1) (y.ctl.cycle + 1) := by
  have hne : ∀ w ∈ y.wakes, w ≠ y.ctl.cycle := by
    rintro w hw rfl
    rw [contains_iff_mem.mpr hw] at hnow
    cases hnow
  refine ⟨fun q hq => ha.looked q fun hempty => ?_, ?_⟩
  · apply hq
    change y.ctl.tick.commandQueues q = []
    unfold tick
    split
    · change (y.ctl.commandQueues q).filter _ = []
      rw [hempty, filter_nil]
    · exact hempty
  · rcases ha.waits with ⟨w, hw, hle, hge⟩ | ⟨hclean, hheads⟩
    · exact .inl ⟨w, hw, lt_of_le_of_ne hle (hne w hw).symm, hge⟩
    · refine .inr ⟨rfl, fun q r l hq => ?_⟩
      have hq : y.ctl.commandQueues q = r :: l := by
        rw [← hq]
        change _ = y.ctl.tick.commandQueues q
        rw [tick, hclean]
        rfl
      obtain ⟨w, hw, hle, hmax⟩ := hheads q r l hq
      exact ⟨w, hw, lt_of_le_of_ne hle (hne w hw).symm, hmax⟩

theorem tick_cycle (s : Controller p) : s.tick.cycle = s.cycle + 1 := by
  unfold tick
  split <;> rfl

theorem tick (ha : Attends mem y) (hnow : y.wakes.contains y.ctl.cycle = false) :
    Attends mem (y.withCtl y.ctl.tick) := by
  obtain ⟨hlooked, hwaits⟩ := ha.tick_waits hnow
  refine ⟨hlooked, ?_⟩
  change Waits mem (y.withCtl y.ctl.tick) y.ctl.tick.cycle (y.ctl.tick.cycle + 1)
  rw [tick_cycle]
  rcases hwaits with ⟨w, hw, hle, hge⟩ | ⟨hclean, hheads⟩
  · exact .inl ⟨w, hw, hle, le_succ_of_le hge⟩
  · refine .inr ⟨hclean, fun q r l hq => ?_⟩
    obtain ⟨w, hw, hle, hmax⟩ := hheads q r l hq
    exact ⟨w, hw, hle, by omega⟩

theorem step (hevent : p.eventDriven = true) (ht : mem.Timely) (ha : Attends mem y)
    (hprompt : prompt mem pol y op = true) (h : Awake.step mem depth pol y op = .ok y') : Attends mem y' := by
  cases op with
  | issueCommand id write a =>
    cases h
    split
    · exact ha.same rfl rfl rfl
    · exact ha
  | cycle => exact ha.cycle hevent ht hprompt h
  | commandQueueCallback =>
    rw [Awake.step] at h
    split at h
    · exact ha.commandQueueCallback hevent ht hprompt h
    · cases h
      exact ha
  | refreshCallback rank group =>
    rw [Awake.step] at h
    split at h
    · exact ha.refreshCallback h
    · cases h
      exact ha
  | requestComplete id paused cancelled =>
    cases h
    exact ha.requestComplete id paused cancelled
  | drain =>
    cases h
    unfold Policy.drain
    split
    all_goals exact ha.same rfl rfl rfl
  | tick =>
    cases h
    split
    · exact ha
    · rename_i hnow
      exact ha.tick (Bool.eq_false_iff.mpr hnow)

theorem of_run {m : M} {ops : List (Op p)} (hevent : p.eventDriven = true) (ht : mem.Timely)
    (hr : Exec (StepIf (prompt mem pol) (Awake.step mem depth pol)) { sys := { mem := m } } ops y) : Attends mem y := by
  apply hr.invariant
  · refine ⟨fun q hq => absurd rfl hq, .inr ⟨rfl, fun q r l hq => ?_⟩⟩
    cases hq
  · intro t op u ha hs
    exact ha.step hevent ht hs.1 hs.2

end Attends

/-! ## Whole runs -/

/-- While a command waits, a callback is scheduled that comes no later than the first cycle, of those from `c` on, in
  which the memory takes the head of a queue. Commands that were issued are gone by then. -/
def OnTime (mem : TimedMemory p M) (y : Awake p M) (c : Nat) : Prop :=
  (∃ q, ∃ r ∈ y.ctl.commandQueues q, r.issued = false) →
    ∃ w ∈ y.wakes, y.ctl.cycle ≤ w ∧ ∀ t, c ≤ t → ∀ q r l, y.ctl.tick.commandQueues q = r :: l →
      mem.isIssuable y.sys.mem t r = true → w ≤ t

theorem exists_first {l : List Nat} (h : ∃ w ∈ l, b ≤ w) : ∃ v ∈ l, b ≤ v ∧ ∀ w ∈ l, b ≤ w → v ≤ w := by
  have hfind : ∃ w, w ∈ l ∧ b ≤ w := h
  obtain ⟨hmem, hle⟩ := Nat.find_spec hfind
  exact ⟨_, hmem, hle, fun w hw hb => Nat.find_min' hfind ⟨hw, hb⟩⟩

theorem Waits.onTime {c : Nat} (ht : mem.Timely) (h : Waits mem y y.ctl.cycle c) : OnTime mem y c := by
  rintro ⟨q₀, r₀, hr₀, -⟩
  rcases h with ⟨w, hw, hle, hge⟩ | ⟨hclean, hheads⟩
  · exact ⟨w, hw, hle, fun t htime _ _ _ _ _ => le_trans hge htime⟩
  · have hsome : ∃ w ∈ y.wakes, y.ctl.cycle ≤ w := by
      cases hq : y.ctl.commandQueues q₀ with
      | nil =>
        rw [hq] at hr₀
        cases hr₀
      | cons r l =>
        obtain ⟨w, hw, hle, -⟩ := hheads q₀ r l hq
        exact ⟨w, hw, hle⟩
    obtain ⟨v, hv, hle, hfirst⟩ := exists_first hsome
    refine ⟨v, hv, hle, fun t htime q r l hq hissuable => ?_⟩
    rw [tick, hclean] at hq
    obtain ⟨w, hw, hb, hmax⟩ := hheads q r l hq
    calc v ≤ w := hfirst w hw hb
      _ ≤ max (mem.nextIssuable y.sys.mem r) c := hmax
      _ ≤ t := Nat.max_le.mpr ⟨ht _ _ _ hissuable, htime⟩

/-- In every run of prompt steps, the callbacks are on time in every state: from the next cycle on, and where a cycle
  begins, from that cycle on. -/
theorem wakes_on_time {pol : Policy} {m : M} {ops : List (Op p)} (hevent : p.eventDriven = true) (ht : mem.Timely)
    (hr : Exec (StepIf (prompt mem pol) (step mem depth pol)) { sys := { mem := m } } ops y) :
    OnTime mem y (y.ctl.cycle + 1) ∧ ∀ y', step mem depth pol y .tick = .ok y' → OnTime mem y' y'.ctl.cycle := by
  have ha := Attends.of_run hevent ht hr
  refine ⟨Waits.onTime ht ha.waits, fun y' hs => ?_⟩
  cases hs
  apply Waits.onTime ht
  split
  · rename_i hnow
    exact .inl ⟨_, contains_iff_mem.mp hnow, le_refl _, le_refl _⟩
  · rename_i hnow
    obtain ⟨-, hwaits⟩ := ha.tick_waits (Bool.eq_false_iff.mpr hnow)
    change Waits mem (y.withCtl y.ctl.tick) y.ctl.tick.cycle y.ctl.tick.cycle
    rw [Attends.tick_cycle]
    exact hwaits

/-- Row 3 of the first sub-array. -/
def firstSubArray : Address splitBank := ⟨3, 0, 0, 0, 0, splitBank.banks_pos, splitBank.ranks_pos, splitBank.subArrayNum_pos⟩

/-- Some command of a queue has not been issued. -/
def commandWaits (y : Awake p M) (q : Nat) : Bool := (y.ctl.commandQueues q).any fun r => !r.issued

theorem exists_of_commandWaits {q : Nat} (h : commandWaits y q = true) :
    ∃ q, ∃ r ∈ y.ctl.commandQueues q, r.issued = false := by
  obtain ⟨r, hr, hi⟩ := any_eq_true.mp h
  exact ⟨q, r, hr, by simpa using hi⟩

/-- A read of the first sub-array. -/
theorem wakes_on_time_firstSubArray :
    ∃ y, Exec (StepIf (prompt (timedBanks splitTiming) (.frfcfs 4)) (step (timedBanks splitTiming) 1 (.frfcfs 4)))
        { sys := { mem := Ranks.init splitTiming } } [.issueCommand 0 false firstSubArray, .tick, .cycle] y ∧
      (∃ q, ∃ r ∈ y.ctl.commandQueues q, r.issued = false) ∧ OnTime (timedBanks splitTiming) y (y.ctl.cycle + 1) := by
  refine Exec.ends_withIf (p := fun y => commandWaits y 0) (by decide) fun y hr hy => ?_
  exact ⟨exists_of_commandWaits hy, (wakes_on_time rfl (timedBanks_timely splitTiming) hr).1⟩

/-- The ACTIVATE of a read of the second sub-array has been issued, the READ waits, and no callback is scheduled. -/
theorem read_asleep :
    ∃ y, Exec (StepOf (step (timedBanks splitTiming) 1 (.frfcfs 4))) { sys := { mem := Ranks.init splitTiming } }
        [.issueCommand 0 false secondSubArray, .tick, .cycle] y ∧
      y.wakes = [] ∧ ¬OnTime (timedBanks splitTiming) y (y.ctl.cycle + 1) := by
  refine Exec.ends_with (p := fun y => y.wakes.isEmpty && commandWaits y 1) (by decide) fun y hr hy => ?_
  obtain ⟨hempty, hwaits⟩ := Bool.and_eq_true_iff.mp hy
  have hempty : y.wakes = [] := isEmpty_iff.mp hempty
  refine ⟨hempty, fun hon => ?_⟩
  obtain ⟨w, hw, -⟩ := hon (exists_of_commandWaits hwaits)
  rw [hempty] at hw
  cases hw

end Awake

end Nvm
