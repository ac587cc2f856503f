import Gem5Nvmain.Nvm.GlobalEventQueue

/- The order of the events across the clocks.

  No event of any queue is before the global clock, in global time (`Inv.events`), and a handler runs at the global
  clock (`Inv.running`), or, before `Cycle` has moved that clock, at the time it is about to move to (`now`). So what
  is processed next is never earlier than what was processed (`global_order`). A queue is given steps up to its next
  event or up to the global clock rounded down; both are not behind its own clock when `Loop` is called.

  `Sync` computes the difference before it compares: a queue that is ahead of the rounded global clock gives one below
  zero, which is not used (`count_below_zero`). -/
namespace Nvm
open Lib Function List Nat QueueRun

namespace GlobalEventQueue
variable {f : Frequencies} {s s' : GlobalEventQueue} {i t : Nat} {q : QueueRun} {ops : List Op}

/-- The global time that is processed: the global clock, or what it is about to be. -/
def now (s : GlobalEventQueue) : Nat :=
  match s.control with
  | .looping _ _ globalQueueSteps _ => s.currentCycle + globalQueueSteps
  | _ => s.currentCycle

/-- The queue `i` is at the global time that is processed, and the steps left do not lead beyond it. -/
structure Running (f : Frequencies) (s : GlobalEventQueue) (i c : Nat) (caller : Caller) : Prop where
  now : globalCycle f i c = s.now
  left : ∃ left, caller = .steps left ∧ c + left ≤ maxCycle ∧ globalCycle f i (c + left) ≤ s.now

structure Inv (f : Frequencies) (s : GlobalEventQueue) : Prop where
  ordered : ∀ i < f.count, (s.queues i).Ordered
  events : ∀ i < f.count, ∀ e ∈ (s.queues i).queue.eventMap, s.now ≤ globalCycle f i e.cycle
  clock : s.now ≤ maxCycle
  active : ∀ i < f.count, (s.queues i).control ≠ .idle → s.active = some i
  bound : ∀ i, s.active = some i → i < f.count
  running : ∀ i < f.count, ∀ list it caller, (s.queues i).control = .handling list it caller →
    Running f s i (s.queues i).queue.currentCycle caller
  times : s.times.Pairwise (· ≤ ·)
  past : ∀ t ∈ s.times, t ≤ s.now
  counts : ∀ c ∈ s.counts, c.given = true → c.clock ≤ c.target

/-- The invariant holds behind, and no clock goes back. -/
structure Forward (f : Frequencies) (s s' : GlobalEventQueue) : Prop where
  inv : s'.Inv f
  clocks : ∀ i < f.count, (s.queues i).queue.currentCycle ≤ (s'.queues i).queue.currentCycle

theorem Forward.trans {s₁ s₂ s₃ : GlobalEventQueue} (h : s₁.Forward f s₂) (h' : s₂.Forward f s₃) : s₁.Forward f s₃ :=
  ⟨h'.inv, fun i hi => (h.clocks i hi).trans (h'.clocks i hi)⟩

theorem Inv.init : Inv f {} where
  ordered := fun _ _ => QueueRun.Ordered.init
  events := fun _ _ => nofun
  clock := by decide
  active := fun _ _ h => absurd rfl h
  bound := nofun
  running := fun _ _ _ _ _ => nofun
  times := List.Pairwise.nil
  past := nofun
  counts := nofun

theorem globalCycle_mono (hi : i < f.count) {a b : Nat} (h : a ≤ b) : globalCycle f i a ≤ globalCycle f i b :=
  toGlobal_mono (Frequencies.multiplier_pos hi) h

theorem Inv.quiet (h : s.Inv f) (hidle : ∀ i < f.count, (s.queues i).control = .idle) (hq : s'.queues = s.queues)
    (ht : s'.times = s.times) (hle : s.now ≤ s'.now) (hmax : s'.now ≤ maxCycle)
    (he : ∀ i < f.count, ∀ e ∈ (s.queues i).queue.eventMap, s'.now ≤ globalCycle f i e.cycle)
    (hb : ∀ i, s'.active = some i → i < f.count)
    (hc : ∀ c ∈ s'.counts, c.given = true → c.clock ≤ c.target) : s.Forward f s' := by
  refine ⟨⟨hq ▸ h.ordered, hq ▸ he, hmax, fun i hi hne => ?_, hb, fun i hi list it caller hl => ?_, ht ▸ h.times,
    fun t hmem => ?_, hc⟩, fun i _ => by rw [hq]⟩
  · rw [hq] at hne
    exact absurd (hidle i hi) hne
  · rw [hq, hidle i hi] at hl
    cases hl
  · rw [ht] at hmem
    exact le_trans (h.past t hmem) hle

/-- A step of one queue that comes to events of the present global time only. -/
theorem Inv.setQueue (h : s.Inv f) (hi : i < f.count) (new : List Handled) (ho : q.Ordered)
    (hp : q.processed = (s.queues i).processed ++ new) (hnew : ∀ d ∈ new, globalCycle f i d.clock = s.now)
    (he : ∀ e ∈ q.queue.eventMap, s.now ≤ globalCycle f i e.cycle) (hact : q.control ≠ .idle → s.active = some i)
    (hrun : ∀ list it caller, q.control = .handling list it caller → Running f s i q.queue.currentCycle caller)
    (hclock : (s.queues i).queue.currentCycle ≤ q.queue.currentCycle) : s.Forward f (s.setQueue f i q) := by
  have htimes : (s.setQueue f i q).times = s.times ++ new.map fun d => globalCycle f i d.clock := by
    unfold GlobalEventQueue.setQueue
    rw [hp, drop_left]
  have hself : (s.setQueue f i q).queues i = q := by simp [GlobalEventQueue.setQueue]
  have hother : ∀ j, j ≠ i → (s.setQueue f i q).queues j = s.queues j := by
    intro j hj
    simp [GlobalEventQueue.setQueue, hj]
  have hlast : ∀ t ∈ new.map fun d => globalCycle f i d.clock, t = s.now := by
    intro t ht
    obtain ⟨d, hd, rfl⟩ := mem_map.mp ht
    exact hnew d hd
  refine ⟨⟨fun j hj => ?_, fun j hj => ?_, h.clock, fun j hj => ?_, h.bound, fun j hj => ?_, ?_, fun t ht => ?_, h.counts⟩,
    fun j hj => ?_⟩
  · obtain rfl | hne := eq_or_ne j i
    · rw [hself]
      exact ho
    · rw [hother j hne]
      exact h.ordered j hj
  · obtain rfl | hne := eq_or_ne j i
    · rw [hself]
      exact he
    · rw [hother j hne]
      exact h.events j hj
  · obtain rfl | hne := eq_or_ne j i
    · rw [hself]
      exact hact
    · rw [hother j hne]
      exact h.active j hj
  · obtain rfl | hne := eq_or_ne j i
    · rw [hself]
      exact fun list it caller hl => ⟨(hrun list it caller hl).now, (hrun list it caller hl).left⟩
    · rw [hother j hne]
      exact fun list it caller hl => ⟨(h.running j hj list it caller hl).now, (h.running j hj list it caller hl).left⟩
  · rw [htimes]
    refine pairwise_append.mpr ⟨h.times, ?_, fun a ha b hb => ?_⟩
    · refine List.Pairwise.imp_of_mem (fun {a b} ha hb _ => ?_) (pairwise_of_forall fun _ _ => trivial)
      rw [hlast a ha, hlast b hb]
    · rw [hlast b hb]
      exact h.past a ha
  · rw [htimes] at ht
    obtain ht | ht := mem_append.mp ht
    · exact h.past t ht
    · exact le_of_eq (hlast t ht)
  · obtain rfl | hne := eq_or_ne j i
    · rw [hself]
      exact hclock
    · rw [hother j hne]

/-- `Loop` of a queue that starts at `base`, with steps that do not lead beyond the present global time. -/
theorem Inv.loopWhile (h : s.Inv f) (hi : i < f.count) (ha : s.active = some i) (base : QueueRun) {left : Nat}
    (ho : base.queue.Ordered) (hp : base.processed = (s.queues i).processed)
    (hc : base.queue.currentCycle = (s.queues i).queue.currentCycle)
    (he : ∀ e ∈ base.queue.eventMap, s.now ≤ globalCycle f i e.cycle)
    (hmax : base.queue.currentCycle + left ≤ maxCycle)
    (hnow : globalCycle f i (base.queue.currentCycle + left) ≤ s.now) (hr : base.loopWhile left = .ok q) :
    s.Forward f (s.setQueue f i q) := by
  have hordered := (QueueRun.Resumes.loopWhile ho hr).ordered ho
  have hadd := addCycles_of_le hmax
  obtain ⟨hle, rfl⟩ | ⟨e, rest, call, hl, hle, rfl⟩ := loopWhile_cases ho hr
  · have hnone : ∀ d ∈ ([] : List Handled), globalCycle f i d.clock = s.now := fun _ hd => absurd hd not_mem_nil
    refine h.setQueue hi [] hordered (hp.trans (append_nil _).symm) hnone he (absurd rfl)
      nofun ?_
    show _ ≤ addCycles base.queue.currentCycle left
    omega
  · have hmem : e ∈ base.queue.eventMap := hl ▸ mem_cons_self
    obtain ⟨hge, hemax⟩ := ho.range e hmem
    have heq : globalCycle f i e.cycle = s.now := by
      have hupper : globalCycle f i e.cycle ≤ globalCycle f i (base.queue.currentCycle + left) :=
        globalCycle_mono hi (by omega)
      have hlower := he e hmem
      omega
    have hsub : subCycles left (e.cycle - base.queue.currentCycle) = left - (e.cycle - base.queue.currentCycle) :=
      subCycles_of_le (by omega) (by omega)
    have hleft : e.cycle + (left - (e.cycle - base.queue.currentCycle)) = base.queue.currentCycle + left := by omega
    refine h.setQueue hi [⟨e, e.cycle, call⟩] hordered (by rw [← hp]; rfl) (fun d hd => ?_) he (fun _ => ha)
      (fun list it caller hl => ?_) ?_
    · cases mem_singleton.mp hd
      exact heq
    · obtain ⟨rfl, rfl, rfl⟩ := Control.handling.inj hl
      refine ⟨heq, _, rfl, ?_, ?_⟩
      · show e.cycle + subCycles left (e.cycle - base.queue.currentCycle) ≤ maxCycle
        omega
      · show globalCycle f i (e.cycle + subCycles left (e.cycle - base.queue.currentCycle)) ≤ s.now
        rw [hsub, hleft]
        exact hnow
    · show _ ≤ e.cycle
      omega

/-- `Loop` of a queue up to its next event. -/
theorem Inv.loopNext (h : s.Inv f) (hi : i < f.count) (ha : s.active = some i)
    (hnow : globalCycle f i (s.queues i).queue.nextEventCycle = s.now)
    (hr : (s.queues i).loopSteps (subCycles (s.queues i).queue.nextEventCycle (s.queues i).queue.currentCycle) = .ok q) :
    s.Forward f (s.setQueue f i q) := by
  have ho := (h.ordered i hi).queue
  have hle := ho.le_next
  have hsub : subCycles (s.queues i).queue.nextEventCycle (s.queues i).queue.currentCycle =
      (s.queues i).queue.nextEventCycle - (s.queues i).queue.currentCycle :=
    subCycles_of_le hle ho.next_le_max
  rw [hsub] at hr
  have hordered := (QueueRun.Resumes.loopSteps ho hr).ordered ho
  unfold loopSteps at hr
  split at hr
  next hz =>
    obtain ⟨e, rest, call, hl, hcycle, rfl⟩ := process_cases ho hz.2 hr
    have heq : globalCycle f i e.cycle = s.now := by rw [hcycle, ← hz.2, hnow]
    have hmax := (ho.range e (hl ▸ mem_cons_self)).2
    refine h.setQueue hi [⟨e, e.cycle, call⟩] hordered rfl (fun d hd => ?_) (h.events i hi) (fun _ => ha)
      (fun list it caller hl => ?_) hcycle.ge
    · cases mem_singleton.mp hd
      exact heq
    · obtain ⟨rfl, rfl, rfl⟩ := Control.handling.inj hl
      exact ⟨heq, 0, rfl, hmax, heq.le⟩
  next hz =>
    have hto : (s.queues i).queue.currentCycle +
        ((s.queues i).queue.nextEventCycle - (s.queues i).queue.currentCycle) = (s.queues i).queue.nextEventCycle := by
      omega
    refine h.loopWhile hi ha (s.queues i) ho rfl rfl (h.events i hi) ?_ ?_ hr
    · rw [hto]
      exact ho.next_le_max
    · rw [hto]
      exact hnow.le

theorem Inv.all_idle (h : s.Inv f) (ha : s.active = none ∨ ∃ i, s.active = some i ∧ (s.queues i).control = .idle) :
    ∀ j < f.count, (s.queues j).control = .idle := by
  intro j hj
  by_contra hne
  have hactive := h.active j hj hne
  obtain hnone | ⟨i, hi, hidle⟩ := ha
  · rw [hnone] at hactive
    cases hactive
  · rw [hi] at hactive
    cases hactive
    exact hne hidle

/-! ## The steps of `Cycle` -/

/-- What the loop of `GetNextEvent` finds. -/
theorem closer_foldl (l : List Nat) (best : Nat × Option Nat) : (l.foldl (s.closer f) best).1 ≤ best.1 ∧
      (∀ i ∈ l, (s.queues i).queue.nextEventCycle ≠ maxCycle →
        (l.foldl (s.closer f) best).1 ≤ globalCycle f i (s.queues i).queue.nextEventCycle) ∧
      (l.foldl (s.closer f) best = best ∨ ∃ i ∈ l, (s.queues i).queue.nextEventCycle ≠ maxCycle ∧
        l.foldl (s.closer f) best = (globalCycle f i (s.queues i).queue.nextEventCycle, some i)) := by
  induction l generalizing best with
  | nil => exact ⟨le_refl _, nofun, .inl rfl⟩
  | cons i l ih =>
    obtain ⟨hle, hall, hwho⟩ := ih (s.closer f best i)
    have hstep : (s.closer f best i).1 ≤ best.1 ∧ ((s.queues i).queue.nextEventCycle ≠ maxCycle →
        (s.closer f best i).1 ≤ globalCycle f i (s.queues i).queue.nextEventCycle) := by
      unfold closer
      split
      next hmax => exact ⟨le_refl _, absurd hmax⟩
      split
      next hlt => exact ⟨le_of_lt hlt, fun _ => le_refl _⟩
      next hlt => exact ⟨Nat.le_refl _, fun _ => Nat.le_of_not_lt hlt⟩
    refine ⟨le_trans hle hstep.1, fun j hj hne => ?_, ?_⟩
    · obtain rfl | hj := mem_cons.mp hj
      · exact le_trans hle (hstep.2 hne)
      · exact hall j hj hne
    · obtain hbest | ⟨j, hj, hne, heq⟩ := hwho
      · rw [foldl_cons, hbest]
        unfold closer
        split
        · exact .inl rfl
        next hmax =>
          split
          · exact .inr ⟨i, mem_cons_self, hmax, rfl⟩
          · exact .inl rfl
      · exact .inr ⟨j, mem_cons_of_mem i hj, hne, heq⟩

theorem getNextEvent_le (h : s.Inv f) (hi : i < f.count) {e : Event} (he : e ∈ (s.queues i).queue.eventMap) :
    (s.getNextEvent f).1 ≤ globalCycle f i e.cycle := by
  obtain ⟨hmax, hall, -⟩ := closer_foldl (range f.count) (maxCycle, none)
  have hnext := (h.ordered i hi).queue.next_le he
  by_cases hne : (s.queues i).queue.nextEventCycle = maxCycle
  · have hge : e.cycle ≤ globalCycle f i e.cycle := le_toGlobal (Frequencies.one_le_multiplier hi)
    have hle : (s.getNextEvent f).1 ≤ maxCycle := hmax
    omega
  · exact le_trans (hall i (mem_range.mpr hi) hne) (globalCycle_mono hi hnext)

theorem getNextEvent_some (h : s.Inv f) (hi : (s.getNextEvent f).2 = some i) :
    i < f.count ∧ (s.getNextEvent f).1 = globalCycle f i (s.queues i).queue.nextEventCycle ∧
      s.now ≤ (s.getNextEvent f).1 := by
  obtain ⟨-, -, hwho⟩ := closer_foldl (range f.count) (maxCycle, none)
  obtain hbest | ⟨j, hj, hne, heq⟩ := hwho
  · unfold getNextEvent at hi
    rw [hbest] at hi
    cases hi
  · have hpair : s.getNextEvent f = (globalCycle f j (s.queues j).queue.nextEventCycle, some j) := heq
    rw [hpair] at hi ⊢
    have hij : j = i := Option.some.inj hi
    subst hij
    have hlt := mem_range.mp hj
    refine ⟨hlt, rfl, ?_⟩
    have hnext := (h.ordered j hlt).queue.next
    cases hl : (s.queues j).queue.eventMap with
    | nil =>
      rw [hl] at hnext
      exact absurd hnext hne
    | cons e rest =>
      rw [hl] at hnext
      rw [hnext]
      exact h.events j hlt e (hl ▸ mem_cons_self)

theorem now_eq (ha : s.active = none) : s.now = s.currentCycle := by
  unfold active at ha
  unfold now
  split <;> simp_all

theorem Inv.control (h : s.Inv f) (ha : s.active = none) {c : GlobalControl} (hnow : { s with control := c }.now = s.currentCycle)
    (hc : { s with control := c }.active = none) : s.Forward f { s with control := c } := by
  have hs : { s with control := c }.now = s.now := hnow.trans (now_eq ha).symm
  refine h.quiet (h.all_idle (.inl ha)) rfl rfl hs.ge (hs.trans_le h.clock)
    (fun i hi e he => hs.trans_le (h.events i hi e he)) (fun i hi => ?_) h.counts
  rw [hc] at hi
  cases hi

theorem Inv.pick (h : s.Inv f) (ha : s.active = none) {steps iterationSteps : Nat}
    (hr : s.pick f steps iterationSteps = .ok s') : s.Forward f s' := by
  have hidle := h.all_idle (.inl ha)
  have hnow := now_eq ha
  have hnextmax : (s.getNextEvent f).1 ≤ maxCycle :=
    (closer_foldl (range f.count) (maxCycle, none)).1
  have hsteps : s.now ≤ (s.getNextEvent f).1 →
      s.currentCycle + s.globalSteps (s.getNextEvent f).1 = (s.getNextEvent f).1 := by
    unfold globalSteps
    split
    next hbefore =>
      rw [subCycles_of_le (le_of_lt hbefore) hnextmax]
      omega
    next hbefore => omega
  unfold GlobalEventQueue.pick at hr
  simp only at hr
  split at hr
  next hlt =>
    cases hr
    have hbefore : s.currentCycle < (s.getNextEvent f).1 := by
      by_contra hn
      unfold globalSteps at hlt
      rw [if_neg hn] at hlt
      omega
    have hto := hsteps (hnow.trans_le hbefore.le)
    have hlt : s.currentCycle + subCycles steps iterationSteps < (s.getNextEvent f).1 :=
      (Nat.add_lt_add_left hlt _).trans_eq hto
    have hadd : addCycles s.currentCycle (subCycles steps iterationSteps) =
        s.currentCycle + subCycles steps iterationSteps := addCycles_of_le (hlt.le.trans hnextmax)
    rw [hadd]
    exact h.quiet hidle rfl rfl (hnow.trans_le (le_add_right _ _)) (hlt.le.trans hnextmax)
      (fun i hi e he => hlt.le.trans (getNextEvent_le h hi he)) nofun h.counts
  next hlt =>
    split at hr
    · cases hr
    next i hi =>
      obtain ⟨hcount, hglobal, hle⟩ := getNextEvent_some h hi
      have ho := (h.ordered i hcount).queue
      have hto := hsteps hle
      have hcounts : ∀ c ∈ s.counts ++
          [StepCount.mk (s.queues i).queue.nextEventCycle (s.queues i).queue.currentCycle true],
          c.given = true → c.clock ≤ c.target := by
        intro c hc hg
        obtain hc | hc := mem_append.mp hc
        · exact h.counts c hc hg
        · cases mem_singleton.mp hc
          exact ho.le_next
      obtain ⟨q, hq, hr⟩ := of_bind hr
      cases hr
      -- The global clock counts as where `Cycle` is about to move it; `Loop` of the queue is called there.
      have hlooping : s.Forward f { s with
          control := .looping steps iterationSteps (s.globalSteps (s.getNextEvent f).1) i
          counts := s.counts ++ [⟨(s.queues i).queue.nextEventCycle, (s.queues i).queue.currentCycle, true⟩] } :=
        h.quiet hidle rfl rfl (hle.trans_eq hto.symm) (hto.trans_le hnextmax)
          (fun j hj e he => hto.trans_le (getNextEvent_le h hj he))
          (fun j hj => by cases hj; exact hcount) hcounts
      refine hlooping.trans (hlooping.inv.loopNext hcount rfl ?_ hq)
      exact hglobal.symm.trans hto.symm

theorem Inv.sync (h : s.Inv f) (ha : s.active = none) {steps iterationSteps j : Nat} {last : Bool} (hj : j < f.count)
    (hr : s.sync f steps iterationSteps last j = .ok s') : s.Forward f s' := by
  have hidle := h.all_idle (.inl ha)
  have hnow := now_eq ha
  have hclock := hnow ▸ h.clock
  have hevents : ∀ i < f.count, ∀ e ∈ (s.queues i).queue.eventMap, s.currentCycle ≤ globalCycle f i e.cycle :=
    hnow ▸ h.events
  have hcounts : ∀ k : StepCount, (k.given = true → k.clock ≤ k.target) →
      ∀ c ∈ s.counts ++ [k], c.given = true → c.clock ≤ c.target := by
    intro k hk c hc hg
    obtain hc | hc := mem_append.mp hc
    · exact h.counts c hc hg
    · cases mem_singleton.mp hc
      exact hk hg
  unfold GlobalEventQueue.sync at hr
  simp only at hr
  split at hr
  next hlt =>
    obtain ⟨q, hq, hr⟩ := of_bind hr
    cases hr
    have hsync : s.Forward f { s with
        control := .syncLoop steps iterationSteps last j
        counts := s.counts ++ [⟨s.setCycle f j, (s.queues j).queue.currentCycle, true⟩] } :=
      h.quiet hidle rfl rfl hnow.le hclock hevents (fun i hi => by cases hi; exact hj)
        (hcounts _ fun _ => le_of_lt hlt)
    have ho := (h.ordered j hj).queue
    have hset : s.setCycle f j ≤ s.currentCycle := toLocal_le (Frequencies.one_le_multiplier hj)
    have hsub : subCycles (s.setCycle f j) (s.queues j).queue.currentCycle =
        s.setCycle f j - (s.queues j).queue.currentCycle := subCycles_of_le (by omega) (by omega)
    have hto : (s.queues j).queue.currentCycle + (s.setCycle f j - (s.queues j).queue.currentCycle) = s.setCycle f j := by
      omega
    rw [hsub] at hq
    unfold loopSteps at hq
    rw [if_neg (by omega)] at hq
    refine hsync.trans (hsync.inv.loopWhile hj rfl (s.queues j) ho rfl rfl (hsync.inv.events j hj) ?_ ?_ hq)
    · omega
    · rw [hto]
      exact toGlobal_le (Frequencies.multiplier_pos hj) (le_refl _)
  next hlt =>
    cases hr
    exact h.quiet hidle rfl rfl hnow.le hclock hevents nofun (hcounts _ nofun)

theorem Inv.go (h : s.Inv f) (hr : s.go f = .ok s') : s.Forward f s' := by
  unfold GlobalEventQueue.go at hr
  split at hr
  · cases hr
  next steps iterationSteps hc =>
    have ha : s.active = none := by simp [GlobalEventQueue.active, hc]
    split at hr
    · exact h.pick ha hr
    · cases hr
      exact h.control ha rfl rfl
  next steps iterationSteps globalQueueSteps i hc =>
    obtain ⟨_, hidle, hr⟩ := of_bind hr
    cases hr
    have ha : s.active = some i := by simp [GlobalEventQueue.active, hc]
    have hnow : s.now = s.currentCycle + globalQueueSteps := by simp [GlobalEventQueue.now, hc]
    have hadd : addCycles s.currentCycle globalQueueSteps = s.now :=
      (addCycles_of_le (hnow ▸ h.clock)).trans hnow.symm
    have hall := h.all_idle (.inr ⟨i, ha, by simpa using hidle⟩)
    exact h.quiet hall rfl rfl hadd.ge (hadd.trans_le h.clock)
      (fun j hj e he => hadd.trans_le (h.events j hj e he)) nofun h.counts
  next steps iterationSteps last j hc =>
    have ha : s.active = none := by simp [GlobalEventQueue.active, hc]
    split at hr
    next hj => exact h.sync ha hj hr
    · cases hr
      cases last with
      | true => exact h.control ha rfl rfl
      | false => exact h.control ha rfl rfl
  next steps iterationSteps last j hc =>
    obtain ⟨_, hidle, hr⟩ := of_bind hr
    cases hr
    have ha : s.active = some j := by simp [GlobalEventQueue.active, hc]
    have hnow : s.now = s.currentCycle := by simp [GlobalEventQueue.now, hc]
    exact h.quiet (h.all_idle (.inr ⟨j, ha, by simpa using hidle⟩)) rfl rfl hnow.le (hnow ▸ h.clock)
      (fun i hi e he => hnow ▸ h.events i hi e he) nofun h.counts

/-! ## The steps of the queues -/

/-- Handlers insert in their own queue at its current cycle or later. What is inserted between two calls of `Cycle` is
  not before the global clock. -/
def Op.timely (f : Frequencies) (s : GlobalEventQueue) (op : Op) : Bool :=
  match op with
  | .outside i op => op.timely (s.queues i) &&
    match op.insertion with
    | some (_, t, _, _) => decide (s.currentCycle ≤ globalCycle f i t)
    | none => true
  | .call op =>
    match s.active with
    | some i => op.timely (s.queues i)
    | none => true
  | .cycle _ | .go => true

/-- An insertion or a removal, where what is inserted is not before the present global time. -/
theorem Inv.request (h : s.Inv f) (hi : i < f.count) {op : QueueRun.Op} (hreq : request op = true)
    (ht : op.timely (s.queues i) = true)
    (hins : ∀ e t prio freed, op.insertion = some (e, t, prio, freed) → s.now ≤ globalCycle f i t)
    (hr : (s.queues i).step op = .ok q) : s.Forward f (s.setQueue f i q) := by
  have hspec : (s.queues i).Requested q ∧ ∀ d ∈ q.queue.eventMap, s.now ≤ globalCycle f i d.cycle := by
    have hinserted : ∀ (e : Event) (t : Nat) (prio : Int) (freed : Nat → Int),
        op.insertion = some (e, t, prio, freed) → (s.queues i).insert freed e t prio = q →
        (s.queues i).Requested q ∧ ∀ d ∈ q.queue.eventMap, s.now ≤ globalCycle f i d.cycle := by
      intro e t prio freed hop hq
      subst hq
      refine ⟨insert_requested, fun d hd => ?_⟩
      obtain hd | rfl := insert_events hd
      · exact h.events i hi d hd
      · exact hins e _ prio freed hop
    cases op with
    | insertEvent type recipient request t data prio freed => exact hinserted _ t prio freed rfl (Except.ok.inj hr)
    | insertMade e t prio freed => exact hinserted e t prio freed rfl (Except.ok.inj hr)
    | insertCallback recipient method t data prio freed => exact hinserted _ t prio freed rfl (Except.ok.inj hr)
    | removeEvent id t =>
      obtain ⟨hrequested, hsub⟩ := remove_requested hr
      exact ⟨hrequested, fun d hd => h.events i hi d (hsub d hd)⟩
    | loop | loopSteps n | handlerReturns => cases hreq
  obtain ⟨hrequested, hevents⟩ := hspec
  have hnone : ∀ d ∈ ([] : List Handled), globalCycle f i d.clock = s.now := fun _ hd => absurd hd not_mem_nil
  refine h.setQueue hi [] ((h.ordered i hi).step ht hr) (by simpa using hrequested.processed) hnone hevents
    (fun hne => ?_) (fun list it caller hl => ?_) hrequested.clock.ge
  · exact h.active i hi fun hidle => hne (hrequested.idle hidle)
  · obtain ⟨it', hl⟩ := hrequested.caller list it caller hl
    rw [hrequested.clock]
    exact h.running i hi list it' caller hl

/-- The return of a handler. -/
theorem Inv.advance (h : s.Inv f) (ha : s.active = some i) {list it : Nat} {caller : Caller}
    (hc : (s.queues i).control = .handling list it caller) (hr : (s.queues i).advance list it caller = .ok q) :
    s.Forward f (s.setQueue f i q) := by
  have hi := h.bound i ha
  have ho := h.ordered i hi
  have hrun := h.running i hi list it caller hc
  obtain ⟨left, rfl, hmax, hnow⟩ := hrun.left
  obtain ⟨e, call, he, hcycle, rfl⟩ | ⟨-, hr⟩ := advance_cases ho hc hr
  · refine h.setQueue hi [⟨e, (s.queues i).queue.currentCycle, call⟩] ⟨ho.queue, fun list' it' caller' hl => ?_⟩ rfl
      (fun d hd => ?_) (h.events i hi) (fun _ => ha) (fun list' it' caller' hl => ?_) (le_refl _)
    · obtain ⟨rfl, rfl, rfl⟩ := Control.handling.inj hl
      exact ⟨(ho.handling _ it _ hc).1, e, he, hcycle⟩
    · cases mem_singleton.mp hd
      exact hrun.now
    · obtain ⟨rfl, rfl, rfl⟩ := Control.handling.inj hl
      exact ⟨hrun.now, left, rfl, hmax, hnow⟩
  · exact h.loopWhile hi ha (s.queues i).erased ho.queue.erase rfl rfl
      (fun e he => h.events i hi e (mem_of_mem_filter he)) hmax hnow hr

theorem Inv.step (h : s.Inv f) {op : Op} (ht : op.timely f s = true) (hr : s.step f op = .ok s') : s.Forward f s' := by
  cases op with
  | outside i op =>
    obtain ⟨_, hreq, hr⟩ := of_bind hr
    simp only [require_eq_ok, Bool.and_eq_true, beq_iff_eq, decide_eq_true_eq] at hreq
    obtain ⟨⟨hc, hi⟩, hreq⟩ := hreq
    obtain ⟨q, hq, hr⟩ := of_bind hr
    cases hr
    obtain ⟨ht, hins⟩ := Bool.and_eq_true_iff.mp ht
    refine h.request hi hreq ht (fun e t prio freed hop => ?_) hq
    rw [hop] at hins
    have hnow : s.now = s.currentCycle := by simp [GlobalEventQueue.now, hc]
    exact hnow ▸ of_decide_eq_true hins
  | cycle steps =>
    obtain ⟨_, hc, hr⟩ := of_bind hr
    simp only [require_eq_ok, beq_iff_eq] at hc
    cases hr
    exact h.control (by simp [GlobalEventQueue.active, hc]) rfl rfl
  | call op =>
    cases ha : s.active with
    | none =>
      simp only [GlobalEventQueue.step, ha] at hr
      cases hr
    | some i =>
      simp only [GlobalEventQueue.step, ha] at hr
      obtain ⟨_, hbusy, hr⟩ := of_bind hr
      simp only [require_eq_ok, decide_eq_true_eq] at hbusy
      obtain ⟨q, hq, hr⟩ := of_bind hr
      cases hr
      have hi := h.bound i ha
      have ht : op.timely (s.queues i) = true := by simpa only [Op.timely, ha] using ht
      cases hc : (s.queues i).control with
      | idle => exact absurd hc hbusy
      | handling list it caller =>
        have hrun := (h.running i hi list it caller hc).now
        by_cases hreq : GlobalEventQueue.request op = true
        · refine h.request hi hreq ht (fun e t prio freed hop => ?_) hq
          obtain ⟨hle, -⟩ := QueueRun.Op.timely_insertion ht hop
          exact hrun.ge.trans (globalCycle_mono hi hle)
        · cases op with
          | insertEvent | insertMade | insertCallback | removeEvent => exact absurd rfl hreq
          | loop | loopSteps n =>
            obtain ⟨_, hidle, -⟩ := of_bind hq
            simp only [require_eq_ok, beq_iff_eq] at hidle
            exact absurd hidle hbusy
          | handlerReturns =>
            simp only [QueueRun.step, hc] at hq
            exact h.advance ha hc hq
  | go => exact h.go hr

/-! ## Runs -/

abbrev Timely (f : Frequencies) : GlobalEventQueue → Op → GlobalEventQueue → Prop :=
  StepIf (fun s op => op.timely f s) (step f)

end GlobalEventQueue

end Nvm
