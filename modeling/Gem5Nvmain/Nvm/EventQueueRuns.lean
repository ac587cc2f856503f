import Gem5Nvmain.Nvm.EventQueueSpec
import Mathlib.Data.List.Nodup

/- Every event of the queue is processed once.

  `Accounts` says where the inserted events are: each one was processed, removed, lost behind the iterator or is
  pending, and only one of these. So an event that is not removed is processed exactly once, at its cycle, unless a
  handler inserted it behind the iterator (`processed_iff`), and it is never processed then.

  `InsertEvent` puts an event before the first one of its cycle that has a higher priority, and the iterator of
  `Process` does not go back. In a run in which no handler inserts an event that comes before the one that runs, every
  event is processed (`exactly_once`). -/
namespace Nvm
open Lib List

namespace QueueRun
open EventQueue
variable {s s' : QueueRun} {e : Event} {t : Nat} {prio : Int} {freed : Nat → Int} {l : List Event} {ops : List Op}

/-- The events that were processed, in the order of the calls. -/
def handled (s : QueueRun) : List Event := s.processed.map Handled.event

structure Accounts (s : QueueRun) (l : List Event) : Prop where
  events : (s.handled ++ s.removed ++ s.behind ++ l).Perm s.inserted
  ids : s.inserted.map Event.id = range s.inserted.length
  clock : ∀ d ∈ s.processed, d.clock = d.event.cycle

theorem Accounts.init : Accounts {} [] := ⟨List.Perm.nil, rfl, fun _ hd => absurd hd not_mem_nil⟩

theorem Accounts.nodup (h : s.Accounts l) : (s.handled ++ s.removed ++ s.behind ++ l).Nodup := by
  refine h.events.nodup_iff.mpr (List.Nodup.of_map Event.id ?_)
  rw [h.ids]
  exact nodup_range

theorem Accounts.count (h : s.Accounts l) (e : Event) :
    s.handled.count e + s.removed.count e + s.behind.count e + l.count e = s.inserted.count e := by
  have := h.events.count_eq e
  simpa only [count_append] using this

theorem Accounts.moved {m : List Event} (h : s.Accounts l) (hi : s'.inserted = s.inserted)
    (hclock : ∀ d ∈ s'.processed, d.clock = d.event.cycle)
    (hcount : ∀ e, s'.handled.count e + s'.removed.count e + s'.behind.count e + m.count e =
      s.handled.count e + s.removed.count e + s.behind.count e + l.count e) : s'.Accounts m := by
  refine ⟨perm_iff_count.mpr fun e => ?_, hi ▸ h.ids, hclock⟩
  have h₁ := h.count e
  have h₂ := hcount e
  rw [hi]
  simp only [count_append]
  omega

theorem Accounts.insert (h : s.Accounts s.pending) :
    (s.insert freed e t prio).Accounts (s.insert freed e t prio).pending := by
  have hids : ∀ d : Event, (s.inserted ++ [{ d with id := s.inserted.length, cycle := t }]).map Event.id =
      range (s.inserted ++ [{ d with id := s.inserted.length, cycle := t }]).length := by
    intro d
    rw [map_append, h.ids, length_append]
    exact range_succ.symm
  have hplace : s.queue.place (s.priorityOf freed) t prio ≤ s.queue.eventMap.length := findIdx_le_length
  unfold QueueRun.insert
  cases hc : s.control with
  | idle =>
    refine ⟨perm_iff_count.mpr fun d => ?_, hids e, h.clock⟩
    have hcount := h.count d
    simp only [pending, hc] at hcount
    have hins := (perm_insertIdx { e with id := s.inserted.length, cycle := t } s.queue.eventMap hplace).count_eq d
    simp only [pending, EventQueue.insertEvent, handled, count_append, count_cons, count_nil] at hcount hins ⊢
    omega
  | handling list it caller =>
    have hcount := h.count
    simp only [pending, hc] at hcount
    dsimp only
    split
    next hj =>
      refine ⟨perm_iff_count.mpr fun d => ?_, hids e, h.clock⟩
      have hdrop := drop_insertIdx_before (l := s.queue.eventMap) (a := { e with id := s.inserted.length, cycle := t })
        (show s.queue.place (s.priorityOf freed) t prio ≤ it + 1 by omega)
      have := hcount d
      simp only [pending, EventQueue.insertEvent, hdrop, handled, count_append] at this ⊢
      omega
    next hj =>
      refine ⟨perm_iff_count.mpr fun d => ?_, hids e, h.clock⟩
      have hins := (drop_insertIdx_after (a := { e with id := s.inserted.length, cycle := t })
        (Nat.lt_of_not_le hj) hplace).count_eq d
      have := hcount d
      simp only [pending, EventQueue.insertEvent, handled, count_append, count_cons, count_nil] at this hins ⊢
      omega

theorem Accounts.remove (h : s.Accounts s.pending) {id : Nat} (hr : s.remove id t = .ok s') : s'.Accounts s'.pending := by
  unfold QueueRun.remove at hr
  split at hr
  next hj =>
    cases hr
    have hmap := removeEvent_notFound hj
    refine h.moved rfl h.clock fun d => ?_
    simp only [pending, hmap, handled]
  next j hj =>
    obtain ⟨hmap, e, he, -⟩ := removeEvent_found hj
    simp only [he, Option.toList_some] at hr
    cases hc : s.control with
    | idle =>
      simp only [hc] at hr
      cases hr
      refine h.moved rfl h.clock fun d => ?_
      have herase := (drop_eraseIdx_after (Nat.zero_le j) he).count_eq d
      simp only [drop_zero] at herase
      simp only [pending, hc, hmap, handled, count_append, count_cons, count_nil] at herase ⊢
      omega
    | handling list it caller =>
      simp only [hc] at hr
      split at hr
      · cases hr
      split at hr
      next hne hj =>
        cases hr
        refine h.moved rfl h.clock fun d => ?_
        have herase := (drop_eraseIdx_after (show it + 1 ≤ j from hj) he).count_eq d
        simp only [pending, hc, hmap, handled, count_append, count_cons, count_nil] at herase ⊢
        omega
      next hne hj =>
        cases hr
        refine h.moved rfl h.clock fun d => ?_
        have hdrop := drop_eraseIdx_before (l := s.queue.eventMap) (show j ≤ it by omega)
        simp only [pending, hc, hmap, handled, show it - 1 + 1 = it by omega, hdrop, count_append]
        by_cases hb : e ∈ s.behind
        · have herase := (perm_cons_erase hb).count_eq d
          simp only [filter_cons, hb, decide_true, if_true, filter_nil, diff_cons, diff_nil]
          simp only [count_cons, count_nil] at herase ⊢
          omega
        · simp [hb]

theorem Resumes.accounts (hr : s.Resumes s') (h : s.Accounts s.queue.eventMap) : s'.Accounts s'.pending := by
  obtain ⟨t, -, -, rfl⟩ | ⟨e, rest, caller, call, hl, rfl⟩ := hr
  · exact h.moved rfl h.clock fun d => rfl
  · refine h.moved rfl (fun d hd => ?_) fun d => ?_
    · obtain hd | hd := mem_append.mp hd
      · exact h.clock d hd
      · cases mem_singleton.mp hd
        rfl
    · simp only [comesTo, pending, handled, hl, map_append, map_cons, map_nil, count_append,
        count_cons, count_nil, drop_succ_cons, drop_zero]
      omega

theorem Accounts.step (ho : s.Ordered) (h : s.Accounts s.pending) {op : Op} (hr : s.step op = .ok s') :
    s'.Accounts s'.pending := by
  obtain ⟨e, t, prio, freed, -, rfl⟩ | ⟨id, t, rfl, hr⟩ | ⟨hc, hr⟩ | ⟨list, it, caller, hc, hr⟩ := step_cases ho hr
  · exact h.insert
  · exact h.remove hr
  · exact hr.accounts (by simpa only [pending, hc] using h)
  · have hpending : s.pending = s.queue.eventMap.drop (it + 1) := by simp only [pending, hc]
    obtain ⟨e, call, he, hcycle, rfl⟩ | ⟨herase, hr⟩ := advance_cases ho hc hr
    · have hdrop : s.queue.eventMap.drop (it + 1) = e :: s.queue.eventMap.drop (it + 1 + 1) := by
        obtain ⟨hlt, rfl⟩ := List.getElem?_eq_some_iff.mp he
        exact drop_eq_getElem_cons hlt
      refine h.moved rfl (fun d hd => ?_) fun d => ?_
      · obtain hd | hd := mem_append.mp hd
        · exact h.clock d hd
        · cases mem_singleton.mp hd
          exact hcycle.symm
      · rw [hpending, hdrop]
        simp only [goesOn, pending, handled, map_append, map_cons, map_nil, count_append,
          count_cons, count_nil]
        omega
    · refine (Resumes.finish ho.queue (ho.next_eq hc) hr).accounts ?_
      refine h.moved rfl h.clock fun d => ?_
      rw [herase, hpending]
      rfl

/-! ## Runs -/

/-- The calls of a run insert at the current cycle or later. -/
abbrev Timely (s : QueueRun) (op : Op) (s' : QueueRun) : Prop := StepIf (fun s op => op.timely s) step s op s'

theorem Exec.tracked (hr : Exec Timely {} ops s) : s.Ordered ∧ s.Accounts s.pending := by
  refine hr.invariant (P := fun s => s.Ordered ∧ s.Accounts s.pending) ⟨Ordered.init, Accounts.init⟩ ?_
  intro s op s' h ⟨ht, hs⟩
  exact ⟨h.1.step ht hs, h.2.step h.1 hs⟩

/-- `e` is processed not more than once, at its cycle, and once when the clock is beyond that. -/
def Once (s : QueueRun) (e : Event) : Prop :=
  (∀ d ∈ s.processed, d.event = e → d.clock = e.cycle) ∧ s.handled.count e ≤ 1 ∧
    (e.cycle < s.queue.currentCycle → s.handled.count e = 1)

theorem Accounts.once (ho : s.Ordered) (h : s.Accounts s.pending) (hi : e ∈ s.inserted) (hr : e ∉ s.removed) :
    (∀ d ∈ s.processed, d.event = e → d.clock = e.cycle) ∧ s.handled.count e ≤ 1 ∧
      (e ∈ s.behind → s.handled.count e = 0) ∧
      (e.cycle < s.queue.currentCycle → e ∉ s.behind → s.handled.count e = 1) := by
  have hcount := h.count e
  have hone : s.inserted.count e = 1 := count_eq_one_of_mem (h.events.nodup_iff.mp h.nodup) hi
  have hremoved : s.removed.count e = 0 := count_eq_zero.mpr hr
  refine ⟨fun d hd hde => hde ▸ h.clock d hd, by omega, fun hb => ?_, fun hlt hb => ?_⟩
  · have := count_pos_iff.mpr hb
    omega
  · have hbehind : s.behind.count e = 0 := count_eq_zero.mpr hb
    have hpending : s.pending.count e = 0 := by
      refine count_eq_zero.mpr fun hp => ?_
      have hmem : e ∈ s.queue.eventMap := by
        unfold pending at hp
        split at hp
        · exact hp
        · exact mem_of_mem_drop hp
      have := (ho.queue.range e hmem).1
      omega
    omega

theorem processed_iff (hr : Exec Timely {} ops s) (hi : e ∈ s.inserted) (hrem : e ∉ s.removed)
    (ht : e.cycle < s.queue.currentCycle) : s.handled.count e = 1 ↔ e ∉ s.behind := by
  obtain ⟨ho, ha⟩ := Exec.tracked hr
  obtain ⟨-, -, hbehind, honce⟩ := ha.once ho hi hrem
  refine ⟨fun h hb => ?_, honce ht⟩
  have := hbehind hb
  omega

/-- `nextEventCycle` is the smallest cycle of the map. -/
def NextIsSmallest (s : QueueRun) : Prop :=
  (∀ e ∈ s.queue.eventMap, s.queue.nextEventCycle ≤ e.cycle) ∧
    (s.queue.eventMap = [] → s.queue.nextEventCycle = maxCycle) ∧
    (s.queue.eventMap ≠ [] → ∃ e ∈ s.queue.eventMap, e.cycle = s.queue.nextEventCycle)

theorem Ordered.nextIsSmallest (h : s.Ordered) : s.NextIsSmallest := by
  refine ⟨fun e he => h.queue.next_le he, fun hl => ?_, fun hl => ?_⟩
  · rw [h.queue.next, hl]
    rfl
  · rw [h.queue.next]
    cases hmap : s.queue.eventMap with
    | nil => exact absurd hmap hl
    | cons e rest => exact ⟨e, mem_cons_self, rfl⟩

/-- The call is not an insertion, by a handler, of an event that comes before the running one or before one that was
  handled ahead of it. -/
def Op.reached (s : QueueRun) (op : Op) : Bool :=
  match s.control, op.insertion with
  | .handling _ it _, some (_, t, prio, freed) =>
    (s.queue.eventMap.take (it + 1)).all fun e => !comesAfter (s.priorityOf freed) t prio e
  | _, _ => true

theorem Op.reached_place {op : Op} {list it : Nat} {caller : Caller} (h : op.reached s = true)
    (hc : s.control = .handling list it caller) (hop : op.insertion = some (e, t, prio, freed))
    (hit : it < s.queue.eventMap.length) : it < s.queue.place (s.priorityOf freed) t prio := by
  unfold reached at h
  simp only [hc, hop, all_eq_true] at h
  refine Nat.lt_of_not_le fun hle => ?_
  have hlt : s.queue.eventMap.findIdx (comesAfter (s.priorityOf freed) t prio) < s.queue.eventMap.length :=
    Nat.lt_of_le_of_lt hle hit
  have hp := findIdx_getElem (w := hlt)
  have hmem : s.queue.eventMap[s.queue.eventMap.findIdx (comesAfter (s.priorityOf freed) t prio)] ∈
      s.queue.eventMap.take (it + 1) :=
    mem_take_iff_getElem.mpr ⟨_, by
      have : s.queue.eventMap.findIdx (comesAfter (s.priorityOf freed) t prio) ≤ it := hle
      omega, rfl⟩
  have := h _ hmem
  rw [hp] at this
  cases this

theorem Resumes.behind (hr : s.Resumes s') : s'.behind = s.behind := by
  obtain ⟨t, -, -, rfl⟩ | ⟨e, rest, caller, call, -, rfl⟩ := hr <;> rfl

theorem remove_behind {id : Nat} (hb : s.behind = []) (hr : s.remove id t = .ok s') : s'.behind = [] := by
  unfold QueueRun.remove at hr
  split at hr
  · cases hr
    exact hb
  · simp only at hr
    split at hr
    · cases hr
      exact hb
    · split at hr
      · cases hr
      split at hr
      · cases hr
        exact hb
      · cases hr
        show s.behind.diff _ = []
        rw [hb]
        exact nil_diff _

/-- When every insertion of a handler comes behind the running event, none is lost. -/
theorem behind_nil {op : Op} (ho : s.Ordered) (hb : s.behind = []) (hreached : op.reached s = true)
    (hr : s.step op = .ok s') : s'.behind = [] := by
  obtain ⟨e, t, prio, freed, hop, rfl⟩ | ⟨id, t, rfl, hr⟩ | ⟨hc, hr⟩ | ⟨list, it, caller, hc, hr⟩ := step_cases ho hr
  · unfold QueueRun.insert
    cases hc : s.control with
    | idle => exact hb
    | handling list it caller =>
      obtain ⟨-, d, hd, -⟩ := ho.handling list it caller hc
      obtain ⟨hlt, -⟩ := List.getElem?_eq_some_iff.mp hd
      have hplace := Op.reached_place hreached hc hop hlt
      simp only
      rw [if_neg (by omega)]
      exact hb
  · exact remove_behind hb hr
  · exact hr.behind.trans hb
  · obtain ⟨e, call, -, -, rfl⟩ | ⟨-, hr⟩ := advance_cases ho hc hr
    · exact hb
    · exact (Resumes.finish ho.queue (ho.next_eq hc) hr).behind.trans hb

/-- In every run in which the handlers insert at the current cycle or later, and no event that comes before the
  running one: an event that is not removed is processed once, at its cycle, and `nextEventCycle` is the smallest
  cycle. -/
theorem exactly_once (hr : Exec (StepIf (fun s op => op.timely s && op.reached s) step) {} ops s) :
    (∀ e ∈ s.inserted, e ∉ s.removed → s.Once e) ∧ s.NextIsSmallest := by
  have htimely : Exec Timely {} ops s := by
    refine hr.mono fun s op s' ⟨hc, hs⟩ => ⟨?_, hs⟩
    exact (Bool.and_eq_true_iff.mp hc).1
  obtain ⟨ho, ha⟩ := Exec.tracked htimely
  have hbehind : s.Ordered ∧ s.behind = [] := by
    refine hr.invariant (P := fun s => s.Ordered ∧ s.behind = []) ⟨Ordered.init, rfl⟩ ?_
    intro s op s' ⟨ho, hb⟩ ⟨hc, hs⟩
    obtain ⟨ht, hreached⟩ := Bool.and_eq_true_iff.mp hc
    exact ⟨ho.step ht hs, behind_nil ho hb hreached hs⟩
  refine ⟨fun e hi hrem => ?_, ho.nextIsSmallest⟩
  obtain ⟨hclock, hone, -, honce⟩ := ha.once ho hi hrem
  refine ⟨hclock, hone, fun ht => honce ht ?_⟩
  rw [hbehind.2]
  exact not_mem_nil

/-- A callback of priority 40, a call of `Loop()`, an `EventCycle` that the callback's handler inserts at a later
  cycle, and the return of the handler. -/
def cycleOps : List Op :=
  [.insertCallback (some 1) (some 1) 0 none 40 fun _ => 0, .loop,
    .insertEvent .cycle (some 1) none 3 none 0 fun _ => 0, .handlerReturns, .loopSteps 3, .handlerReturns]

theorem exactly_once_cycleOps :
    ∃ s, Exec (StepIf (fun s op => op.timely s && op.reached s) step) {} cycleOps s ∧ s.queue.currentCycle = 4 ∧
      ((∀ e ∈ s.inserted, e ∉ s.removed → s.Once e) ∧ s.NextIsSmallest) := by
  have hrun : endsInIf (fun s op => op.timely s && op.reached s) step {} cycleOps (fun s => s.queue.currentCycle == 4) =
      true := by
    decide +kernel
  obtain ⟨s, hr, hs⟩ := Exec.of_endsInIf hrun
  exact ⟨s, hr, by simpa using hs, exactly_once hr⟩

theorem processed_iff_cycleOps : ∃ s, Exec Timely {} cycleOps s ∧ ∃ e ∈ s.inserted, s.handled.count e = 1 := by
  refine Exec.ends_withIf (p := fun s => s.inserted.any fun e => decide (e ∉ s.removed) &&
      decide (e.cycle < s.queue.currentCycle) && decide (e ∉ s.behind)) (by decide +kernel) fun s hr hs => ?_
  obtain ⟨e, hi, he⟩ := any_eq_true.mp hs
  simp only [Bool.and_eq_true, decide_eq_true_eq] at he
  exact ⟨e, hi, (processed_iff hr hi he.1.1 he.1.2).mpr he.2⟩

/-- The handler of a callback of priority 40 inserts a response of its own cycle. -/
def behindOps : List Op :=
  [.insertCallback (some 1) (some 1) 0 none 40 fun _ => 0, .loop,
    .insertEvent .response (some 1) (some 7) 0 none 0 fun _ => 0, .handlerReturns]

/-- The response comes before the callback in the list, and is erased with it. -/
theorem lost_behind :
    ∃ s, Exec Timely {} behindOps s ∧ ∃ e ∈ s.inserted, e ∉ s.removed ∧ e.type = .response ∧ ¬ s.Once e := by
  refine Exec.ends_withIf (p := fun s => s.inserted.any fun e =>
      decide (e ∉ s.removed) && decide (e.type = .response) && decide (e.cycle < s.queue.currentCycle) &&
        decide (s.handled.count e = 0)) (by decide +kernel) fun s hr hs => ?_
  obtain ⟨e, hi, he⟩ := any_eq_true.mp hs
  simp only [Bool.and_eq_true, decide_eq_true_eq] at he
  obtain ⟨⟨⟨hrem, htype⟩, hlt⟩, hzero⟩ := he
  refine ⟨e, hi, hrem, htype, fun hone => ?_⟩
  have := hone.2.2 hlt
  omega

end QueueRun

end Nvm
