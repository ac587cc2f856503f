import Gem5Nvmain.Nvm.EventQueue

/- The order of the event queue, and what its steps do.

  `Ordered` is what keeps the queue in order whatever the handlers insert: the lists of the map are sorted,
  `nextEventCycle` is the first of their cycles, and no event is earlier than the clock. It is kept by every call that
  inserts at the current cycle or later (`Ordered.step`).

  What `Loop` and the end of `Process` do from there is one of two things (`Resumes`): they leave the queue with the
  clock not later than any event, or they come to the first event of the map at its cycle. -/
namespace Nvm
open Lib List

namespace EventQueue
variable {q : EventQueue} {l : List Event} {e : Event} {t c : Nat} {prio : Int} {read : Event → Int}

theorem firstCycle_le (hl : l.Pairwise fun a b => a.cycle ≤ b.cycle) (he : e ∈ l) : firstCycle l ≤ e.cycle := by
  cases l with
  | nil => cases he
  | cons d l =>
    obtain rfl | he := mem_cons.mp he
    · exact Nat.le_refl _
    · exact (pairwise_cons.mp hl).1 e he

theorem le_firstCycle (hc : c ≤ maxCycle) (hl : ∀ e ∈ l, c ≤ e.cycle) : c ≤ firstCycle l := by
  cases l with
  | nil => exact hc
  | cons d l => exact hl d mem_cons_self

theorem comesAfter_iff : comesAfter read t prio e = true ↔ t < e.cycle ∨ e.cycle = t ∧ prio < read e := by
  simp [comesAfter]

theorem firstCycle_insert (ht : t ≤ maxCycle) :
    firstCycle (l.insertIdx (l.findIdx (comesAfter read t prio)) { e with cycle := t }) =
      if t < firstCycle l then t else firstCycle l := by
  cases l with
  | nil =>
    show t = if t < maxCycle then t else maxCycle
    split <;> omega
  | cons d l =>
    rw [findIdx_cons]
    cases hd : comesAfter read t prio d with
    | true =>
      have hle : t ≤ d.cycle := by
        have := comesAfter_iff.mp hd
        omega
      show t = if t < d.cycle then t else d.cycle
      split <;> omega
    | false =>
      have hlt : ¬ t < d.cycle := by
        intro h
        rw [comesAfter_iff.mpr (.inl h)] at hd
        cases hd
      show d.cycle = if t < d.cycle then t else d.cycle
      rw [if_neg hlt]

structure Ordered (q : EventQueue) : Prop where
  sorted : q.eventMap.Pairwise fun a b => a.cycle ≤ b.cycle
  next : q.nextEventCycle = firstCycle q.eventMap
  range : ∀ e ∈ q.eventMap, q.currentCycle ≤ e.cycle ∧ e.cycle ≤ maxCycle
  clock : q.currentCycle ≤ maxCycle

theorem Ordered.init : Ordered {} := ⟨List.Pairwise.nil, rfl, nofun, by decide⟩

section
variable (h : q.Ordered)
include h

theorem Ordered.next_le (he : e ∈ q.eventMap) : q.nextEventCycle ≤ e.cycle := by
  rw [h.next]
  exact firstCycle_le h.sorted he

theorem Ordered.le_next : q.currentCycle ≤ q.nextEventCycle := by
  rw [h.next]
  exact le_firstCycle h.clock fun e he => (h.range e he).1

theorem Ordered.next_le_max : q.nextEventCycle ≤ maxCycle := by
  rw [h.next]
  cases hl : q.eventMap with
  | nil => exact Nat.le_refl _
  | cons d l => exact (h.range d (hl ▸ mem_cons_self)).2

theorem Ordered.insertEvent (ht : q.currentCycle ≤ t) (hmax : t ≤ maxCycle) :
    (q.insertEvent read e t prio).Ordered := by
  refine ⟨?_, ?_, fun d hd => ?_, h.clock⟩
  · refine pairwise_insertIdx (fun b _ c hb hc => Nat.le_trans hb hc) (fun b _ hb => ?_) (fun b _ hb => ?_) h.sorted
    · show t ≤ b.cycle
      have := comesAfter_iff.mp hb
      omega
    · show b.cycle ≤ t
      have hlt : ¬ t < b.cycle := by
        intro hlt
        rw [comesAfter_iff.mpr (.inl hlt)] at hb
        cases hb
      omega
  · show (if t < q.nextEventCycle then t else q.nextEventCycle) = _
    rw [h.next]
    exact (firstCycle_insert hmax).symm
  · obtain rfl | hd := eq_or_mem_of_mem_insertIdx hd
    · exact ⟨ht, hmax⟩
    · exact h.range d hd

theorem Ordered.removeEvent (id t : Nat) : (q.removeEvent id t).1.Ordered := by
  unfold EventQueue.removeEvent
  split
  · split
    · exact ⟨h.sorted.sublist (eraseIdx_sublist _ _), rfl, fun d hd => h.range d (mem_of_mem_eraseIdx hd), h.clock⟩
    · exact ⟨h.sorted, rfl, h.range, h.clock⟩
  · exact h

theorem Ordered.stopAt (ht : ∀ e ∈ q.eventMap, t ≤ e.cycle) (hmax : t ≤ maxCycle) :
    Ordered { q with currentCycle := t } :=
  ⟨h.sorted, h.next, fun e he => ⟨ht e he, (h.range e he).2⟩, hmax⟩

theorem Ordered.erase : q.erase.Ordered :=
  ⟨h.sorted.filter _, rfl, fun e he => h.range e (mem_of_mem_filter he), h.clock⟩

theorem Ordered.lt_of_mem_erase (he : e ∈ q.erase.eventMap) : q.nextEventCycle < e.cycle := by
  obtain ⟨he, hne⟩ := mem_filter.mp he
  have := h.next_le he
  simp only [bne_iff_ne] at hne
  omega

/-- At the end of a list the part of the map behind the iterator is what is left of it. -/
theorem Ordered.erase_eq_drop {i : Nat} {d : Event} (hi : q.eventMap[i]? = some d)
    (hd : d.cycle = q.nextEventCycle) (hlast : ∀ e, q.eventMap[i + 1]? = some e → e.cycle ≠ q.nextEventCycle) :
    q.erase.eventMap = q.eventMap.drop (i + 1) := by
  obtain ⟨hlt, hget⟩ := List.getElem?_eq_some_iff.mp hi
  have hsorted := pairwise_iff_getElem.mp h.sorted
  show q.eventMap.filter _ = _
  conv_lhs => rw [← take_append_drop (i + 1) q.eventMap]
  rw [filter_append, filter_eq_nil_iff.mpr, filter_eq_self.mpr, nil_append]
  · intro e he
    obtain ⟨k, hk, rfl⟩ := mem_iff_getElem.mp he
    simp only [length_drop] at hk
    have hnext : i + 1 < q.eventMap.length := by omega
    have hne := hlast _ (getElem?_eq_getElem hnext)
    have hfirst := h.next_le (getElem_mem hnext)
    rw [getElem_drop, bne_iff_ne]
    rcases Nat.eq_zero_or_pos k with rfl | hpos
    · exact hne
    · have := hsorted (i + 1) (i + 1 + k) hnext (by omega) (by omega)
      omega
  · intro e he
    obtain ⟨k, hk, rfl⟩ := mem_iff_getElem.mp he
    simp only [length_take] at hk
    have hfirst := h.next_le (getElem_mem (show k < q.eventMap.length by omega))
    have hle : q.eventMap[k].cycle ≤ q.eventMap[i].cycle := by
      rcases Nat.lt_or_eq_of_le (show k ≤ i by omega) with hki | rfl
      · exact hsorted k i (by omega) hlt hki
      · exact Nat.le_refl _
    rw [hget, hd] at hle
    simp
    omega

end

end EventQueue

namespace QueueRun
open EventQueue
variable {s s' : QueueRun} {e : Event} {t : Nat} {prio : Int} {freed : Nat → Int} {caller : Caller}

/-- The queue is in order, and the running event is one of the current cycle. -/
structure Ordered (s : QueueRun) : Prop where
  queue : s.queue.Ordered
  handling : ∀ list it caller, s.control = .handling list it caller →
    list = s.queue.currentCycle ∧ ∃ e, s.queue.eventMap[it]? = some e ∧ e.cycle = s.queue.currentCycle

theorem Ordered.init : Ordered {} := ⟨EventQueue.Ordered.init, nofun⟩

variable {list it : Nat}

theorem Ordered.next_eq (h : s.Ordered) (hc : s.control = .handling list it caller) :
    s.queue.nextEventCycle = s.queue.currentCycle := by
  obtain ⟨-, e, he, hcycle⟩ := h.handling list it caller hc
  have hle := h.queue.next_le (mem_of_getElem? he)
  have hge := h.queue.le_next
  omega

theorem Ordered.insert (h : s.Ordered) (ht : s.queue.currentCycle ≤ t) (hmax : t ≤ maxCycle) :
    (s.insert freed e t prio).Ordered := by
  have hq : ∀ d : Event, (s.queue.insertEvent (s.priorityOf freed) d t prio).Ordered :=
    fun d => h.queue.insertEvent ht hmax
  unfold QueueRun.insert
  cases hc : s.control with
  | idle => exact ⟨hq _, fun list it caller hl => by simp at hl⟩
  | handling list it caller =>
    obtain ⟨hlist, d, hd, hcycle⟩ := h.handling list it caller hc
    dsimp only
    split
    next hj =>
      refine ⟨hq _, fun list' it' caller' hl => ?_⟩
      obtain ⟨rfl, rfl, rfl⟩ := Control.handling.inj hl
      refine ⟨hlist, d, ?_, hcycle⟩
      show (s.queue.eventMap.insertIdx _ _)[it + 1]? = some d
      rw [getElem?_insertIdx_of_gt (by exact Nat.lt_succ_of_le hj)]
      exact hd
    next hj =>
      refine ⟨hq _, fun list' it' caller' hl => ?_⟩
      obtain ⟨rfl, rfl, rfl⟩ := Control.handling.inj hl
      refine ⟨hlist, d, ?_, hcycle⟩
      show (s.queue.eventMap.insertIdx _ _)[it]? = some d
      rw [getElem?_insertIdx_of_lt (by exact Nat.lt_of_not_le hj)]
      exact hd

variable {id : Nat}

theorem removeEvent_found {q : EventQueue} {j : Nat} (hj : q.find id t = some j) :
    (q.removeEvent id t).1.eventMap = q.eventMap.eraseIdx j ∧
      ∃ e, q.eventMap[j]? = some e ∧ e.id = id ∧ e.cycle = t := by
  obtain ⟨hlt, hp, -⟩ := findIdx?_eq_some_iff_getElem.mp hj
  have hp : q.eventMap[j].cycle = t ∧ q.eventMap[j].id = id := by simpa using hp
  have hcount : q.count t = true :=
    any_eq_true.mpr ⟨q.eventMap[j], getElem_mem hlt, by simpa using hp.1⟩
  refine ⟨?_, q.eventMap[j], getElem?_eq_getElem hlt, hp.2, hp.1⟩
  unfold removeEvent
  rw [if_pos hcount, hj]

theorem removeEvent_notFound {q : EventQueue} (hj : q.find id t = none) :
    (q.removeEvent id t).1.eventMap = q.eventMap := by
  unfold removeEvent
  rw [hj]
  split <;> rfl

@[simp] theorem removeEvent_currentCycle (q : EventQueue) (id t : Nat) :
    (q.removeEvent id t).1.currentCycle = q.currentCycle := by
  unfold removeEvent
  split
  · split <;> rfl
  · rfl

theorem Ordered.remove (h : s.Ordered) (hr : s.remove id t = .ok s') : s'.Ordered := by
  have hq := h.queue.removeEvent id t
  unfold QueueRun.remove at hr
  split at hr
  next hj =>
    cases hr
    refine ⟨hq, fun list it caller hl => ?_⟩
    obtain ⟨hlist, d, hd, hcycle⟩ := h.handling list it caller hl
    simp only [removeEvent_currentCycle, removeEvent_notFound hj]
    exact ⟨hlist, d, hd, hcycle⟩
  next j hj =>
    obtain ⟨hmap, -⟩ := removeEvent_found hj
    cases hc : s.control with
    | idle =>
      simp only [hc] at hr
      cases hr
      exact ⟨hq, fun list it caller hl => by simp at hl⟩
    | handling list it caller =>
      obtain ⟨hlist, d, hd, hcycle⟩ := h.handling list it caller hc
      simp only [hc] at hr
      split at hr
      · cases hr
      split at hr
      next hne hj =>
        cases hr
        refine ⟨hq, fun list' it' caller' hl => ?_⟩
        obtain ⟨rfl, rfl, rfl⟩ := Control.handling.inj hl
        simp only [removeEvent_currentCycle, hmap]
        refine ⟨hlist, d, ?_, hcycle⟩
        rw [getElem?_eraseIdx_of_lt hj]
        exact hd
      next hne hj =>
        cases hr
        refine ⟨hq, fun list' it' caller' hl => ?_⟩
        obtain ⟨rfl, rfl, rfl⟩ := Control.handling.inj hl
        simp only [removeEvent_currentCycle, hmap]
        refine ⟨hlist, d, ?_, hcycle⟩
        rw [getElem?_eraseIdx_of_ge (by omega), show it - 1 + 1 = it by omega]
        exact hd

/-- The queue comes to its first event, at the cycle of that event. -/
def comesTo (s : QueueRun) (e : Event) (caller : Caller) (call : Option Call) : QueueRun :=
  { s with
    queue := { s.queue with currentCycle := e.cycle }
    control := .handling e.cycle 0 caller
    processed := s.processed ++ [⟨e, e.cycle, call⟩] }

/-- The queue is left with its clock not later than any event, or it comes to its first event. -/
def Resumes (s s' : QueueRun) : Prop :=
  (∃ t, (∀ e ∈ s.queue.eventMap, t ≤ e.cycle) ∧ t ≤ maxCycle ∧ s' = s.stopAt t) ∨
    ∃ e rest caller call, s.queue.eventMap = e :: rest ∧ s' = s.comesTo e caller call

theorem process_cases (h : s.queue.Ordered) (hn : s.queue.nextEventCycle = s.queue.currentCycle)
    (hr : s.process caller = .ok s') :
    ∃ e rest call, s.queue.eventMap = e :: rest ∧ e.cycle = s.queue.currentCycle ∧ s' = s.comesTo e caller call := by
  obtain ⟨_, hcount, hr⟩ := of_bind hr
  have hfirst := h.next
  cases hl : s.queue.eventMap with
  | nil => simp [EventQueue.count, hl] at hcount
  | cons e rest =>
    rw [hl] at hfirst
    replace hfirst : s.queue.nextEventCycle = e.cycle := hfirst
    have hplace : s.queue.eventMap.findIdx (fun d => d.cycle == s.queue.nextEventCycle) = 0 := by
      rw [hl, findIdx_cons, hfirst]
      simp
    rw [hplace] at hr
    obtain ⟨d, hd, hr⟩ := of_bind hr
    simp only [index_eq_ok, hl, getElem?_cons_zero, Option.some.injEq] at hd
    subst hd
    cases hr
    have hcur : s.queue.currentCycle = e.cycle := by omega
    refine ⟨e, rest, e.call (subCycles s.queue.nextEventCycle s.queue.lastEventCycle), rfl, hcur.symm, ?_⟩
    unfold comesTo
    rw [← hcur, hn]

variable {n : Nat}

/-- `Loop(steps)` stops at the clock that the steps lead to, or comes to an event that is not later. -/
theorem loopWhile_cases (h : s.queue.Ordered) (hr : s.loopWhile n = .ok s') :
    ((∀ e ∈ s.queue.eventMap, addCycles s.queue.currentCycle n ≤ e.cycle) ∧
        s' = s.stopAt (addCycles s.queue.currentCycle n)) ∨
      ∃ e rest call, s.queue.eventMap = e :: rest ∧ e.cycle ≤ addCycles s.queue.currentCycle n ∧
        s' = s.comesTo e (.steps (subCycles n (e.cycle - s.queue.currentCycle))) call := by
  have hclock : addCycles s.queue.currentCycle 0 = s.queue.currentCycle := addCycles_of_le h.clock
  unfold loopWhile at hr
  split at hr
  next hn =>
    cases hr
    subst hn
    rw [hclock]
    exact .inl ⟨fun e he => (h.range e he).1, rfl⟩
  split at hr
  next hn hlt =>
    cases hr
    refine .inl ⟨fun e he => ?_, rfl⟩
    have := h.next_le he
    omega
  next hn hlt =>
    have hle := h.le_next
    have hmax := h.next_le_max
    have hsub : subCycles s.queue.nextEventCycle s.queue.currentCycle = s.queue.nextEventCycle - s.queue.currentCycle :=
      subCycles_of_le hle hmax
    have hadd : addCycles s.queue.currentCycle (s.queue.nextEventCycle - s.queue.currentCycle) = s.queue.nextEventCycle := by
      rw [addCycles_of_le (by omega)]
      omega
    simp only [hsub, hadd] at hr
    have hs : (s.stopAt s.queue.nextEventCycle).queue.Ordered := h.stopAt (fun e he => h.next_le he) hmax
    obtain ⟨e, rest, call, hl, he, rfl⟩ := process_cases hs rfl hr
    refine .inr ⟨e, rest, call, hl, ?_, ?_⟩
    · have he : e.cycle = s.queue.nextEventCycle := he
      omega
    · have he : e.cycle = s.queue.nextEventCycle := he
      rw [← he]
      rfl

theorem Resumes.loopWhile (h : s.queue.Ordered) (hr : s.loopWhile n = .ok s') : s.Resumes s' := by
  obtain ⟨hle, rfl⟩ | ⟨e, rest, call, hl, -, rfl⟩ := loopWhile_cases h hr
  · exact .inl ⟨_, hle, addCycles_le_maxCycle _ _, rfl⟩
  · exact .inr ⟨e, rest, _, call, hl, rfl⟩

theorem Resumes.loopSteps (h : s.queue.Ordered) (hr : s.loopSteps n = .ok s') : s.Resumes s' := by
  unfold QueueRun.loopSteps at hr
  split at hr
  next hn =>
    obtain ⟨e, rest, call, hl, -, rfl⟩ := process_cases h hn.2 hr
    exact .inr ⟨e, rest, _, call, hl, rfl⟩
  · exact Resumes.loopWhile h hr

theorem Resumes.loop (h : s.queue.Ordered) (hr : s.loop = .ok s') : s.Resumes s' := by
  unfold QueueRun.loop at hr
  split at hr
  next hn =>
    obtain ⟨e, rest, call, hl, -, rfl⟩ := process_cases h hn hr
    exact .inr ⟨e, rest, _, call, hl, rfl⟩
  next hn =>
    cases hr
    refine .inl ⟨_, fun e he => ?_, addCycles_le_maxCycle _ _, rfl⟩
    have := addCycles_le s.queue.currentCycle 1
    have := h.next_le he
    have := h.le_next
    omega

/-- The state behind the erased list. -/
def erased (s : QueueRun) : QueueRun := { s with queue := s.queue.erase }

theorem Resumes.finish (h : s.queue.Ordered) (hn : s.queue.nextEventCycle = s.queue.currentCycle)
    (hr : s.finish caller = .ok s') : s.erased.Resumes s' := by
  cases caller with
  | loop =>
    cases hr
    refine .inl ⟨_, fun e he => ?_, addCycles_le_maxCycle _ _, rfl⟩
    have hlt := h.lt_of_mem_erase he
    have := addCycles_le s.queue.currentCycle 1
    show addCycles s.queue.currentCycle 1 ≤ e.cycle
    omega
  | steps n => exact Resumes.loopWhile h.erase hr

theorem Resumes.ordered (h : s.queue.Ordered) (hr : s.Resumes s') : s'.Ordered := by
  obtain ⟨t, hle, hmax, rfl⟩ | ⟨e, rest, caller, call, hl, rfl⟩ := hr
  · exact ⟨h.stopAt hle hmax, nofun⟩
  · have hmem : e ∈ s.queue.eventMap := hl ▸ mem_cons_self
    refine ⟨h.stopAt (fun d hd => ?_) (h.range e hmem).2, fun list it caller' hc => ?_⟩
    · have hnext : s.queue.nextEventCycle = e.cycle := by rw [h.next, hl]; rfl
      exact hnext ▸ h.next_le hd
    · obtain ⟨rfl, rfl, rfl⟩ := Control.handling.inj hc
      exact ⟨rfl, e, by rw [show (s.comesTo e caller call).queue.eventMap = e :: rest from hl]; rfl, rfl⟩

/-- The iterator goes on to the next event of the list. -/
def goesOn (s : QueueRun) (list it : Nat) (caller : Caller) (e : Event) (call : Option Call) : QueueRun :=
  { s with
    control := .handling list it caller
    processed := s.processed ++ [⟨e, s.queue.currentCycle, call⟩] }

theorem advance_cases (h : s.Ordered) (hc : s.control = .handling list it caller)
    (hr : s.advance list it caller = .ok s') :
    (∃ e call, s.queue.eventMap[it + 1]? = some e ∧ e.cycle = s.queue.currentCycle ∧
        s' = s.goesOn list (it + 1) caller e call) ∨
      s.erased.queue.eventMap = s.queue.eventMap.drop (it + 1) ∧ s.finish caller = .ok s' := by
  obtain ⟨hlist, d, hd, hcycle⟩ := h.handling list it caller hc
  have hnext := h.next_eq hc
  unfold advance at hr
  split at hr
  next e he =>
    split at hr
    next hlist' =>
      obtain ⟨d, hd, hr⟩ := of_bind hr
      rw [index_eq_ok, he] at hd
      cases hd
      cases hr
      exact .inl ⟨e, _, he, by omega, rfl⟩
    next hlist' =>
      refine .inr ⟨h.queue.erase_eq_drop hd (by omega) fun d hd => ?_, hr⟩
      rw [he] at hd
      cases hd
      omega
  next he =>
    refine .inr ⟨h.queue.erase_eq_drop hd (by omega) fun d hd => ?_, hr⟩
    rw [he] at hd
    cases hd

/-- What `InsertEvent` and `RemoveEvent` leave as it is: the clock, the history of the calls and the caller of `Process`. -/
structure Requested (s s' : QueueRun) : Prop where
  clock : s'.queue.currentCycle = s.queue.currentCycle
  processed : s'.processed = s.processed
  idle : s.control = .idle → s'.control = .idle
  caller : ∀ list it caller, s'.control = .handling list it caller → ∃ it, s.control = .handling list it caller

theorem insert_requested : s.Requested (s.insert freed e t prio) := by
  unfold QueueRun.insert
  cases hc : s.control with
  | idle => exact ⟨rfl, rfl, fun _ => rfl, nofun⟩
  | handling list it caller =>
    have hbusy : s.control ≠ .idle := by
      rw [hc]
      exact nofun
    dsimp only
    split
    · refine ⟨rfl, rfl, fun h => absurd h hbusy, fun list' it' caller' hl => ?_⟩
      obtain ⟨rfl, rfl, rfl⟩ := Control.handling.inj hl
      exact ⟨it, hc⟩
    · exact ⟨rfl, rfl, fun h => absurd h hbusy, fun list' it' caller' hl => ⟨it', hc.trans hl⟩⟩

theorem insert_eventMap : (s.insert freed e t prio).queue.eventMap =
    s.queue.eventMap.insertIdx (s.queue.place (s.priorityOf freed) t prio) { e with id := s.inserted.length, cycle := t } := by
  unfold QueueRun.insert
  cases s.control with
  | idle => rfl
  | handling list it caller =>
    dsimp only
    split <;> rfl

theorem insert_inserted :
    (s.insert freed e t prio).inserted = s.inserted ++ [{ e with id := s.inserted.length, cycle := t }] := by
  unfold QueueRun.insert
  cases s.control with
  | idle => rfl
  | handling list it caller =>
    dsimp only
    split <;> rfl

theorem insert_events {d : Event} (hd : d ∈ (s.insert freed e t prio).queue.eventMap) :
    d ∈ s.queue.eventMap ∨ d.cycle = t := by
  rw [insert_eventMap] at hd
  obtain rfl | hd := eq_or_mem_of_mem_insertIdx hd
  · exact .inr rfl
  · exact .inl hd

theorem remove_requested (hr : s.remove id t = .ok s') :
    s.Requested s' ∧ ∀ d ∈ s'.queue.eventMap, d ∈ s.queue.eventMap := by
  unfold QueueRun.remove at hr
  split at hr
  next hj =>
    cases hr
    refine ⟨⟨removeEvent_currentCycle _ _ _, rfl, fun h => h, fun list it caller hl => ⟨it, hl⟩⟩, fun d hd => ?_⟩
    simpa only [removeEvent_notFound hj] using hd
  next j hj =>
    obtain ⟨hmap, -⟩ := removeEvent_found hj
    have hsub : ∀ d ∈ (s.queue.removeEvent id t).1.eventMap, d ∈ s.queue.eventMap := by
      intro d hd
      rw [hmap] at hd
      exact mem_of_mem_eraseIdx hd
    cases hc : s.control with
    | idle =>
      simp only [hc] at hr
      cases hr
      exact ⟨⟨removeEvent_currentCycle _ _ _, rfl, fun _ => rfl, nofun⟩, hsub⟩
    | handling list it caller =>
      have hbusy : s.control ≠ .idle := by
        rw [hc]
        exact nofun
      simp only [hc] at hr
      split at hr
      · cases hr
      split at hr
      · cases hr
        refine ⟨⟨removeEvent_currentCycle _ _ _, rfl, fun h => absurd h hbusy, ?_⟩, hsub⟩
        exact fun list' it' caller' hl => ⟨it', hc.trans hl⟩
      · cases hr
        refine ⟨⟨removeEvent_currentCycle _ _ _, rfl, fun h => absurd h hbusy, fun list' it' caller' hl => ?_⟩, hsub⟩
        obtain ⟨rfl, rfl, rfl⟩ := Control.handling.inj hl
        exact ⟨it, hc⟩

/-- The callers insert at the current cycle or later; the arguments are values of `ncycle_t`. -/
def Op.timely (s : QueueRun) (op : Op) : Bool :=
  match op.insertion with
  | some (_, t, _, _) => decide (s.queue.currentCycle ≤ t) && decide (t ≤ maxCycle)
  | none => true

variable {op : Op}

/-- What one call does: an insertion, a removal, a call of `Loop`, or the return of a handler. -/
theorem step_cases (h : s.Ordered) (hr : s.step op = .ok s') :
    (∃ e t prio freed, op.insertion = some (e, t, prio, freed) ∧ s' = s.insert freed e t prio) ∨
      (∃ id t, op = .removeEvent id t ∧ s.remove id t = .ok s') ∨
      (s.control = .idle ∧ s.Resumes s') ∨
      ∃ list it caller, s.control = .handling list it caller ∧ s.advance list it caller = .ok s' := by
  cases op with
  | insertEvent type recipient request t data prio freed =>
    cases hr
    exact .inl ⟨_, t, prio, freed, rfl, rfl⟩
  | insertMade e t prio freed =>
    cases hr
    exact .inl ⟨e, t, prio, freed, rfl, rfl⟩
  | insertCallback recipient method t data prio freed =>
    cases hr
    exact .inl ⟨_, t, prio, freed, rfl, rfl⟩
  | removeEvent id t => exact .inr (.inl ⟨id, t, rfl, hr⟩)
  | loop =>
    obtain ⟨_, hc, hr⟩ := of_bind hr
    exact .inr (.inr (.inl ⟨by simpa using hc, Resumes.loop h.queue hr⟩))
  | loopSteps n =>
    obtain ⟨_, hc, hr⟩ := of_bind hr
    exact .inr (.inr (.inl ⟨by simpa using hc, Resumes.loopSteps h.queue hr⟩))
  | handlerReturns =>
    cases hc : s.control with
    | idle =>
      simp only [step, hc] at hr
      cases hr
    | handling list it caller =>
      simp only [step, hc] at hr
      exact .inr (.inr (.inr ⟨list, it, caller, rfl, hr⟩))

theorem step_insertion (hop : op.insertion = some (e, t, prio, freed)) : s.step op = .ok (s.insert freed e t prio) := by
  cases op with
  | insertEvent | insertMade | insertCallback =>
    cases hop
    rfl
  | removeEvent | loop | loopSteps | handlerReturns => cases hop

theorem Op.timely_insertion (ht : op.timely s = true) (hop : op.insertion = some (e, t, prio, freed)) :
    s.queue.currentCycle ≤ t ∧ t ≤ maxCycle := by
  unfold timely at ht
  rw [hop] at ht
  simpa using ht

theorem Ordered.step (h : s.Ordered) (ht : op.timely s = true) (hr : s.step op = .ok s') : s'.Ordered := by
  obtain ⟨e, t, prio, freed, hop, rfl⟩ | ⟨id, t, rfl, hr⟩ | ⟨-, hr⟩ | ⟨list, it, caller, hc, hr⟩ := step_cases h hr
  · obtain ⟨hle, hmax⟩ := Op.timely_insertion ht hop
    exact h.insert hle hmax
  · exact h.remove hr
  · exact hr.ordered h.queue
  · obtain ⟨e, call, he, hcycle, rfl⟩ | ⟨-, hr⟩ := advance_cases h hc hr
    · refine ⟨h.queue, fun list' it' caller' hl => ?_⟩
      obtain ⟨rfl, rfl, rfl⟩ := Control.handling.inj hl
      exact ⟨(h.handling _ it caller hc).1, e, he, hcycle⟩
    · exact (Resumes.finish h.queue (h.next_eq hc) hr).ordered h.queue.erase

end QueueRun

end Nvm
