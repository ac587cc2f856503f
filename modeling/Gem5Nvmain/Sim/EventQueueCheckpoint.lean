import Gem5Nvmain.Sim.EventQueueRuns

/- Checkpoints of the event queue (sim/eventq.cc, and `Globals` of sim/serialize.cc).

  A checkpoint lists the queued events in the order in which they would be served. When they are restored, in the
  order of the list, each one schedules itself, and so comes on top of the events of its time and priority that were
  restored before it: these are served in the opposite order then. The flag AutoSerialize of the events is a
  parameter, and an event goes by its number in a checkpoint. -/
namespace Gem5.Sim
open Lib Function List EventQueue

/-- What a checkpoint has of an event. -/
structure EventSection where
  name : Nat
  _when : Nat
  _priority : Int
  /-- flag Scheduled -/
  scheduled : Bool
  /-- flag Squashed -/
  squashed : Bool
  deriving DecidableEq, Repr

def Event.serialize (name : Nat) (e : Event) : EventSection :=
  { name := name, _when := e._when, _priority := e._priority, scheduled := e.scheduled, squashed := e.squashed }

namespace EventQueue

/-- The inner loop of `serialize`: the event and those beneath it. -/
def binEvents (events : Nat → Event) (autoSerialize : Nat → Bool) : Nat → Option Nat → Except Stop (List Nat)
  | _, none => pure []
  | 0, some _ => .error .outOfFuel
  | fuel + 1, some event => do
    let eventPtrs ← binEvents events autoSerialize fuel (events event).nextInBin
    pure (if autoSerialize event then event :: eventPtrs else eventPtrs)

/-- The outer loop. -/
def eventPtrs (events : Nat → Event) (autoSerialize : Nat → Bool) (n : Nat) : Nat → Option Nat → Except Stop (List Nat)
  | _, none => pure []
  | 0, some _ => .error .outOfFuel
  | fuel + 1, some nextBin => do
    let bin ← binEvents events autoSerialize n (some nextBin)
    let rest ← eventPtrs events autoSerialize n fuel (events nextBin).nextBin
    pure (bin ++ rest)

def serialize (fuel : Nat) (q : EventQueue) (autoSerialize : Nat → Bool) : Except Stop (List EventSection) := do
  let eventPtrs ← eventPtrs q.events autoSerialize fuel fuel q.head
  pure (eventPtrs.map fun event => (q.events event).serialize event)

/-- The event as its section has it, with the flags Scheduled and Squashed cleared. -/
def setSection (q : EventQueue) (s : EventSection) : EventQueue :=
  let event := { q.events s.name with _when := s._when, _priority := s._priority, scheduled := false, squashed := false }
  { q with events := update q.events s.name event }

/-- `Event::unserialize`. -/
def unserializeEvent (fuel : Nat) (q : EventQueue) (s : EventSection) : Except Stop EventQueue := do
  let q ← if (q.events s.name).scheduled then q.deschedule fuel s.name else pure q
  let q := q.setSection s
  if s.scheduled && !s.squashed then q.schedule fuel s.name s._when else pure q

/-- The tick of the checkpoint is set, and the events are created one after the other. -/
def unserialize (fuel tick : Nat) (sections : List EventSection) : Except Stop EventQueue :=
  sections.foldlM (unserializeEvent fuel) { events := fun _ => {}, _curTick := tick }

/-- The events as they are served when none is scheduled any more. -/
def serviceAll : Nat → EventQueue → Except Stop (List Nat)
  | 0, q => if q.head = none then pure [] else .error .outOfFuel
  | fuel + 1, q =>
    if q.head = none then pure []
    else do
      let (event, q) ← q.serviceOne
      let events ← serviceAll fuel q
      pure (event :: events)

/-- The section of an event that is scheduled. -/
abbrev queued (key : Nat → Nat ×ₗ Int) (x : Nat) : EventSection := ⟨x, (ofLex (key x)).1, (ofLex (key x)).2, true, false⟩

variable {events : Nat → Event} {autoSerialize : Nat → Bool} {q : EventQueue} {bins : List (Nat × List Nat)} {l order : List Nat}
  {r : EventSection} {x fuel n : Nat}

/-! ## What is listed, and what is served -/

theorem binEvents_spec (h : Stack (fun e => (events e).nextInBin) x l) (hauto : ∀ y ∈ x :: l, autoSerialize y = true) (hfuel : l.length < fuel) :
    binEvents events autoSerialize fuel (some x) = .ok (x :: l) := by
  induction l generalizing x fuel with
  | nil =>
    obtain ⟨fuel, rfl⟩ := Nat.exists_eq_add_of_le' (Nat.succ_le_of_lt hfuel)
    have hnone : (events x).nextInBin = none := h
    have hend : binEvents events autoSerialize fuel none = .ok [] := by cases fuel <;> rfl
    unfold binEvents
    rw [hnone]
    show (do let eventPtrs ← binEvents events autoSerialize fuel none; _) = _
    rw [hend]
    exact congrArg Except.ok (if_pos (hauto x mem_cons_self))
  | cons y l ih =>
    obtain ⟨fuel, rfl⟩ := Nat.exists_eq_add_of_le' (Nat.succ_le_of_lt hfuel)
    have hsome : (events x).nextInBin = some y := h.1
    unfold binEvents
    rw [hsome, ih h.2 (fun z hz => hauto z (mem_cons_of_mem x hz)) (Nat.lt_of_succ_lt_succ hfuel)]
    exact congrArg Except.ok (if_pos (hauto x mem_cons_self))

theorem eventPtrs_spec (h : Linked events bins) (hauto : ∀ y ∈ flat bins, autoSerialize y = true) (hn : (flat bins).length ≤ n)
    (hfuel : bins.length ≤ fuel) : eventPtrs events autoSerialize n fuel (first bins) = .ok (flat bins) := by
  induction bins generalizing fuel with
  | nil => cases fuel <;> rfl
  | cons b bins ih =>
    obtain ⟨fuel, rfl⟩ := Nat.exists_eq_add_of_le' ((Nat.succ_le_succ (Nat.zero_le bins.length)).trans hfuel)
    obtain ⟨hstack, hright, hrest⟩ := h
    have hnext : (events b.1).nextBin = first bins := hright.trans Option.or_none
    rw [flat_cons, length_append] at hn
    have hbin : binEvents events autoSerialize n (some b.1) = .ok (b.1 :: b.2) := by
      refine binEvents_spec hstack (fun y hy => hauto y (mem_append_left _ hy)) ?_
      exact (Nat.lt_succ_self _).trans_le ((Nat.le_add_right _ _).trans hn)
    have htail := ih hrest (fun y hy => hauto y (mem_append_right _ hy)) ((Nat.le_add_left _ _).trans hn)
      (Nat.le_of_succ_le_succ hfuel)
    show eventPtrs events autoSerialize n (fuel + 1) (some b.1) = _
    unfold eventPtrs
    rw [hbin, hnext, htail]
    rfl

theorem serviceAll_spec (h : Holds q bins) (hfuel : (flat bins).length ≤ fuel) : serviceAll fuel q = .ok (flat bins) := by
  induction fuel generalizing q bins with
  | zero =>
    cases bins with
    | nil => exact if_pos h.head
    | cons b bins => cases hfuel
  | succ fuel ih =>
    cases bins with
    | nil => exact if_pos h.head
    | cons b bins =>
      have hhead : q.head ≠ none := by
        rw [h.head]
        nofun
      obtain ⟨t, ht, hholds, -⟩ := serviceOne_spec h
      have hrest := ih hholds (by
        rw [flat_popBin]
        exact Nat.le_of_succ_le_succ hfuel)
      unfold serviceAll
      rw [if_neg hhead, ht]
      show (do let events ← serviceAll fuel t; pure (b.1 :: events)) = .ok _
      rw [hrest, flat_popBin]
      rfl

/-! ## What is restored -/

theorem unserializeEvent_spec (h : Holds q bins) (hlifo : Lifo (fun y => (q.events y).key) (flat bins) order) (hnot : r.name ∉ flat bins)
    (hidle : (q.events r.name).scheduled = false) (hscheduled : r.scheduled = true) (hsquashed : r.squashed = false)
    (hn : bins.length ≤ n) (hwhen : q._curTick ≤ r._when) :
    ∃ t bins', q.unserializeEvent n r = .ok t ∧ Holds t bins' ∧ Lifo (fun y => (t.events y).key) (flat bins') (order ++ [r.name]) ∧
      (t.events r.name).key = toLex (r._when, r._priority) ∧ t._curTick = q._curTick ∧
      ∀ y, y ≠ r.name → (t.events y).key = (q.events y).key ∧ (t.events y).scheduled = (q.events y).scheduled := by
  have hother (y : Nat) (hy : y ≠ r.name) : (q.setSection r).events y = q.events y := update_of_ne hy _ _
  have hself : (q.setSection r).events r.name =
      { q.events r.name with _when := r._when, _priority := r._priority, scheduled := false, squashed := false } := update_self ..
  have hpointers (y : Nat) : ((q.setSection r).events y).nextBin = (q.events y).nextBin ∧
      ((q.setSection r).events y).nextInBin = (q.events y).nextInBin := by
    by_cases hy : y = r.name
    · rw [hy, hself]
      exact ⟨rfl, rfl⟩
    · rw [hother y hy]
      exact ⟨rfl, rfl⟩
  have hkey : ∀ y ∈ flat bins, ((q.setSection r).events y).key = (q.events y).key := by
    intro y hy
    rw [hother y (fun heq => hnot (heq ▸ hy))]
  have hset : Holds (q.setSection r) bins := h.same rfl (fun y => (hpointers y).1) (fun y => (hpointers y).2) hkey
  obtain ⟨t, bins', -, -, ht, hholds, -, -, hsch, hlifo', hsame, htick⟩ := QueueSystem.insert_when hset hnot (hlifo.congr hkey) hn r._when
  have hdata := t.setScheduled_data r.name true
  have hwhen' := (q.setSection r).setWhen_data r.name r._when
  refine ⟨t.setScheduled r.name true, bins', ?_, hholds.setScheduled _ _, hlifo'.congr fun y _ => (hdata y).2.2.1, ?_, htick, fun y hy => ⟨?_, ?_⟩⟩
  · unfold unserializeEvent schedule
    rw [hidle, hscheduled, hsquashed]
    have htime : decide (r._when ≥ (q.setSection r)._curTick) = true := decide_eq_true hwhen
    simp only [Bool.false_eq_true, if_false, pure_eq_ok, bind_ok, htime, require, if_true, Bool.not_false, Bool.and_self, hself, ht]
  · rw [(hdata r.name).2.2.1, (hsame r.name).1]
    simp [setWhen, hself, Event.key]
  · rw [(hdata y).2.2.1, (hsame y).1, (hwhen' y).2.2.2 hy, hother y hy]
  · rw [(hdata y).2.2.2.2, if_neg hy, hsch y, hother y hy]

/-- The events of a checkpoint that are scheduled come out in the opposite order, among those of one time and priority. -/
theorem unserialize_spec {key : Nat → Nat ×ₗ Int} {tick : Nat} (hnodup : l.Nodup) (hn : l.length ≤ n) (hwhen : ∀ x ∈ l, tick ≤ (ofLex (key x)).1) :
    ∃ t bins', unserialize n tick (l.map (queued key)) = .ok t ∧ Holds t bins' ∧
      Binned key bins' ∧ Lifo key (flat bins') l := by
  have hgo : ∀ done rest, l = done ++ rest → ∀ q bins, Holds q bins → Lifo (fun y => (q.events y).key) (flat bins) done →
      q._curTick = tick → (∀ x ∈ done, (q.events x).key = key x) → (∀ x ∉ done, (q.events x).scheduled = false) →
      ∃ t bins', (rest.map (queued key)).foldlM (unserializeEvent n) q = .ok t ∧
        Holds t bins' ∧ Binned key bins' ∧ Lifo key (flat bins') l := by
    intro done rest hl
    induction rest generalizing done with
    | nil =>
      intro q bins h hlifo _ hkey _
      rw [hl, append_nil]
      have hsame : ∀ y ∈ flat bins, key y = (q.events y).key := fun y hy => (hkey y (hlifo.perm.mem_iff.mp hy)).symm
      exact ⟨q, bins, rfl, h, h.binned.congr hsame, hlifo.congr hsame⟩
    | cons x rest ih =>
      intro q bins h hlifo htick hkey hidle
      have hnot : x ∉ done := by
        rw [hl] at hnodup
        exact fun hmem => (nodup_append.mp hnodup).2.2 x hmem x mem_cons_self rfl
      have hx : x ∈ l := by
        rw [hl]
        exact mem_append_right _ mem_cons_self
      have hlen : bins.length ≤ n := by
        have hdone : (flat bins).length = done.length := hlifo.perm.length_eq
        have hle : bins.length ≤ (flat bins).length := length_le_flat
        rw [hl, length_append] at hn
        omega
      obtain ⟨t, bins', ht, h', hlifo', hself, htick', hother⟩ := unserializeEvent_spec
        (r := queued key x) h hlifo (fun hmem => hnot (hlifo.perm.mem_iff.mp hmem)) (hidle x hnot)
        rfl rfl hlen (htick.trans_le (hwhen x hx))
      obtain ⟨u, bins'', hu, hrest⟩ := ih (done ++ [x]) (by rw [hl, append_assoc]; rfl) t bins' h' hlifo' (htick'.trans htick)
        (fun y hy => by
          rcases mem_append.mp hy with hy | hy
          · rw [(hother y (ne_of_mem_of_not_mem hy hnot)).1, hkey y hy]
          · rw [mem_singleton.mp hy]
            exact hself)
        (fun y hy => by
          rw [mem_append, not_or, mem_singleton] at hy
          rw [(hother y hy.2).2, hidle y hy.1])
      refine ⟨u, bins'', ?_, hrest⟩
      rw [map_cons, foldlM_cons, ht]
      exact hu
  exact hgo [] l rfl _ [] ⟨rfl, trivial, ⟨nofun, List.Pairwise.nil, nodup_nil⟩⟩ (fun _ => rfl) rfl nofun fun _ _ => rfl

end EventQueue

/-! ## No event is late -/

theorem SameData.when_eq {events events' : Nat → Event} (h : SameData events events') (x : Nat) : (events' x)._when = (events x)._when :=
  congrArg (fun k => (ofLex k).1) (h x).1

theorem insert_data {q t : EventQueue} {fuel x : Nat} (h : q.insert fuel x = .ok t) : SameData q.events t.events ∧ t._curTick = q._curTick := by
  have hbefore (curr : Option Nat) : SameData q.events (Event.insertBefore q.events x curr) := by
    unfold Event.insertBefore
    split
    · exact SameData.set rfl rfl rfl
    · split <;> exact SameData.set rfl rfl rfl
  unfold EventQueue.insert at h
  split at h
  · cases h
    exact ⟨hbefore none, rfl⟩
  · split at h
    · cases h
      exact ⟨hbefore _, rfl⟩
    · obtain ⟨⟨prev, curr⟩, -, h⟩ := of_bind h
      cases h
      exact ⟨(hbefore curr).trans (SameData.set rfl rfl rfl), rfl⟩

namespace QueueSystem

variable {s u : QueueSystem} {op : QueueOp} {ops : List QueueOp} {bins : List (Nat × List Nat)} {events : Nat → Event} {autoSerialize : Nat → Bool}

def InTime (q : EventQueue) : Prop := ∀ e, (q.events e).scheduled = true → q._curTick ≤ (q.events e)._when

/-- The event that is inserted is scheduled, and not in the past; the others are as they were. -/
theorem InTime.insert {q t : EventQueue} {e w n : Nat} (h : ∀ x, x ≠ e → (q.events x).scheduled = true → q._curTick ≤ (q.events x)._when)
    (hw : q._curTick ≤ w) (ht : (q.setWhen e w).insert n e = .ok t) : InTime (t.setScheduled e true) := by
  obtain ⟨hsame, htick⟩ := insert_data ht
  have htick : t._curTick = q._curTick := htick
  intro x hx
  show t._curTick ≤ _
  rw [htick]
  by_cases heq : x = e
  · rw [heq]
    simpa [setScheduled, setWhen, hsame.when_eq] using hw
  · have hother : (q.setWhen e w).events x = q.events x := update_of_ne heq _ _
    have hset : (t.setScheduled e true).events x = t.events x := update_of_ne heq _ _
    rw [hset] at hx ⊢
    rw [hsame.when_eq, hother]
    rw [(hsame x).2.1, hother] at hx
    exact h x heq hx

theorem InTime.mono {q t : EventQueue} (h : InTime q) (htick : t._curTick = q._curTick) (hkey : ∀ x, (t.events x).key = (q.events x).key)
    (hscheduled : ∀ x, (t.events x).scheduled = true → (q.events x).scheduled = true) : InTime t := by
  intro x hx
  have hwhen : (t.events x)._when = (q.events x)._when := congrArg (fun k => (ofLex k).1) (hkey x)
  rw [htick, hwhen]
  exact h x (hscheduled x hx)

theorem InTime.step (i : QueueInv s bins) (h : InTime s.queue) (hs : s.step op = .ok u) : InTime u.queue := by
  cases op with
  | schedule e w =>
    obtain ⟨queue, hq, hs⟩ := of_bind hs
    cases hs
    obtain ⟨_, hw, hq⟩ := of_bind hq
    obtain ⟨_, -, hq⟩ := of_bind hq
    obtain ⟨t, ht, hq⟩ := of_bind hq
    cases hq
    exact InTime.insert (fun x _ => h x) (of_decide_eq_true (require_eq_ok.mp hw)) ht
  | deschedule e =>
    obtain ⟨queue, hq, hs⟩ := of_bind hs
    cases hs
    obtain ⟨_, he, hq⟩ := of_bind hq
    obtain ⟨t, ht, -, hsame, htick⟩ := remove_spec i.holds ((i.scheduled e).mp (require_eq_ok.mp he)) i.length.le
    rw [ht] at hq
    cases hq
    have hdata := (t.setSquashed e false).setScheduled_data e false
    have hsquash := t.setSquashed_data e false
    refine h.mono htick (fun x => ?_) fun x hx => ?_
    · rw [(hdata x).2.2.1, (hsquash x).2.2.1, (hsame x).1]
    · rw [(hdata x).2.2.2.2, (hsquash x).2.2.2, (hsame x).2.1] at hx
      split at hx
      · cases hx
      · exact hx
  | reschedule e w always =>
    obtain ⟨queue, hq, hs⟩ := of_bind hs
    cases hs
    obtain ⟨_, hw, hq⟩ := of_bind hq
    obtain ⟨_, -, hq⟩ := of_bind hq
    have hw : s.queue._curTick ≤ w := of_decide_eq_true (require_eq_ok.mp hw)
    -- the flag Squashed does not matter
    have hclear (v : EventQueue) (hv : InTime (v.setScheduled e true)) : InTime ((v.setSquashed e false).setScheduled e true) := by
      have hdata := (v.setSquashed e false).setScheduled_data e true
      have hdata' := v.setScheduled_data e true
      have hsquash := v.setSquashed_data e false
      refine hv.mono rfl (fun x => ?_) fun x hx => ?_
      · rw [(hdata x).2.2.1, (hsquash x).2.2.1, (hdata' x).2.2.1]
      · rw [(hdata x).2.2.2.2, (hsquash x).2.2.2] at hx
        rw [(hdata' x).2.2.2.2, hx]
    split at hq
    · rename_i he
      obtain ⟨t, ht, -, hsame, htick⟩ := remove_spec i.holds ((i.scheduled e).mp he) i.length.le
      rw [ht] at hq
      obtain ⟨_, hpure, hq⟩ := of_bind hq
      cases hpure
      obtain ⟨v, hv, hq⟩ := of_bind hq
      cases hq
      refine hclear v (InTime.insert (fun x _ hx => ?_) (htick.trans_le hw) hv)
      rw [htick, hsame.when_eq]
      exact h x ((hsame x).2.1.symm.trans hx)
    · obtain ⟨_, hpure, hq⟩ := of_bind hq
      cases hpure
      obtain ⟨v, hv, hq⟩ := of_bind hq
      cases hq
      exact hclear v (InTime.insert (fun x _ => h x) hw hv)
  | squash e =>
    cases hs
    have hsquash := s.queue.setSquashed_data e true
    exact h.mono rfl (fun x => (hsquash x).2.2.1) fun x hx => (hsquash x).2.2.2.symm.trans hx
  | serviceOne =>
    obtain ⟨⟨event, queue⟩, hq, hs⟩ := of_bind hs
    cases hs
    cases bins with
    | nil =>
      unfold serviceOne at hq
      rw [i.holds.head] at hq
      cases hq
    | cons b bins =>
      obtain ⟨t, ht, -, hdata, htick⟩ := serviceOne_spec i.holds
      cases ht.symm.trans hq
      intro x hx
      have hwhen : (queue.events x)._when = (s.queue.events x)._when := congrArg (fun k => (ofLex k).1) (hdata x).1
      have hx : (s.queue.events x).scheduled = true := by
        rw [(hdata x).2] at hx
        split at hx
        · cases hx
        · exact hx
      show queue._curTick ≤ _
      rw [hwhen]
      rcases htick with htick | htick
      · rw [htick]
        exact h x hx
      · rw [htick]
        have hle := (Event.le_iff _ _).mpr (i.holds.binned.head_le rfl x ((i.scheduled x).mp hx))
        simp only [Event.le, Bool.or_eq_true, Bool.and_eq_true, decide_eq_true_eq, beq_iff_eq] at hle
        omega

/-! ## The order of a restored queue -/

/-- The queue that is restored from the checkpoint serves the events in the order in which they would have been served. -/
def RestoresOrder (autoSerialize : Nat → Bool) (s : QueueSystem) : Prop :=
  ∃ sections t events, s.queue.serialize s.order.length autoSerialize = .ok sections ∧
    unserialize s.order.length s.queue._curTick sections = .ok t ∧
    s.queue.serviceAll s.order.length = .ok events ∧ t.serviceAll s.order.length = .ok events

theorem run_inv (hnone : ∀ e, (events e).scheduled = false) (hr : Exec QueueStep { queue := { events := events } } ops s) :
    (∃ bins, QueueInv s bins) ∧ InTime s.queue := by
  apply hr.invariant
  · exact ⟨QueueInv.run hnone .nil, fun e he => absurd he (by simp [hnone e])⟩
  · rintro t op u ⟨⟨bins, i⟩, h⟩ hs
    exact ⟨i.step hs, h.step i hs⟩

/-- Exactly when no two events of the queue have one time and priority, a restored queue serves them in the order of the old one. -/
theorem restores_iff (hnone : ∀ e, (events e).scheduled = false) (hr : Exec QueueStep { queue := { events := events } } ops s)
    (hauto : ∀ e, (s.queue.events e).scheduled = true → autoSerialize e = true)
    (hsquashed : ∀ e, (s.queue.events e).scheduled = true → (s.queue.events e).squashed = false) :
    RestoresOrder autoSerialize s ↔
      ∀ e f, (s.queue.events e).scheduled = true → (s.queue.events f).scheduled = true → s.keyOf e = s.keyOf f → e = f := by
  obtain ⟨⟨bins, i⟩, htime⟩ := run_inv hnone hr
  have hserialize : s.queue.serialize s.order.length autoSerialize = .ok ((flat bins).map (queued s.keyOf)) := by
    have hptrs := eventPtrs_spec i.holds.linked (fun y hy => hauto y ((i.scheduled y).mpr hy)) i.length.le i.bins_length
    unfold serialize
    rw [i.holds.head, hptrs]
    refine congrArg Except.ok (map_congr_left fun x hx => ?_)
    have hx := (i.scheduled x).mpr hx
    unfold Event.serialize
    rw [hx, hsquashed x hx]
    rfl
  have hwhen : ∀ x ∈ flat bins, s.queue._curTick ≤ (ofLex (s.keyOf x)).1 := fun x hx => htime x ((i.scheduled x).mpr hx)
  obtain ⟨t, bins', ht, hholds, hbinned, hlifo⟩ := unserialize_spec i.holds.binned.nodup i.length.le hwhen
  have hserved := serviceAll_spec i.holds i.length.le
  have hserved' := serviceAll_spec hholds (hlifo.perm.length_eq.trans i.length).le
  have hsame : flat bins' = flat bins ↔ ∀ e f, e ∈ flat bins → f ∈ flat bins → s.keyOf e = s.keyOf f → e = f :=
    hlifo.eq_iff hbinned.sorted i.holds.binned.sorted i.holds.binned.nodup
  simp only [i.scheduled]
  rw [← hsame]
  constructor
  · rintro ⟨sections, t', events, hs, ht', hold, hnew⟩
    cases hserialize.symm.trans hs
    cases ht.symm.trans ht'
    cases hserved.symm.trans hold
    exact Except.ok.inj (hserved'.symm.trans hnew)
  · intro heq
    rw [heq] at hserved'
    exact ⟨_, t, _, hserialize, ht, hserved, hserved'⟩

theorem scheduled_iff (hnone : ∀ e, (events e).scheduled = false) (hr : Exec QueueStep { queue := { events := events } } ops s) (e : Nat) :
    (s.queue.events e).scheduled = true ↔ e ∈ s.order := by
  obtain ⟨bins, i⟩ := QueueInv.run hnone hr
  rw [i.scheduled, i.lifo.perm.mem_iff]

theorem restores_iff_two : ∃ s, Exec QueueStep { queue := { events := fun _ => {} } } [.schedule 0 10, .schedule 1 20] s ∧
    RestoresOrder (fun _ => true) s := by
  refine Exec.ends_with (p := fun s =>
      decide (s.order = [0, 1] ∧ s.keyOf 0 ≠ s.keyOf 1 ∧ (s.queue.events 0).squashed = false ∧ (s.queue.events 1).squashed = false))
    (by decide) fun s hr hend => ?_
  obtain ⟨horder, hne, hzero, hone⟩ := of_decide_eq_true hend
  refine (restores_iff (fun _ => rfl) hr (fun _ _ => rfl) fun e he => ?_).mpr fun e f he hf heq => ?_
  · rw [scheduled_iff (fun _ => rfl) hr, horder] at he
    obtain rfl | rfl : e = 0 ∨ e = 1 := by simpa using he
    · exact hzero
    · exact hone
  · rw [scheduled_iff (fun _ => rfl) hr, horder] at he hf
    obtain rfl | rfl : e = 0 ∨ e = 1 := by simpa using he
    · obtain rfl | rfl : f = 0 ∨ f = 1 := by simpa using hf
      · rfl
      · exact absurd heq hne
    · obtain rfl | rfl : f = 0 ∨ f = 1 := by simpa using hf
      · exact absurd heq.symm hne
      · rfl

/-- Of two events of one time, the later one is served first; restored, it is served last. -/
theorem restored_reversed : ¬ ∀ ops s, Exec QueueStep { queue := { events := fun _ => {} } } ops s →
    (∀ e, (s.queue.events e).scheduled = true → (s.queue.events e).squashed = false) → RestoresOrder (fun _ => true) s := by
  intro hall
  have hrun : endsIn step { queue := { events := fun _ => {} } } [.schedule 0 10, .schedule 1 10] (fun s =>
      decide (s.order = [0, 1] ∧ (s.queue.events 0).squashed = false ∧ (s.queue.events 1).squashed = false ∧
        s.queue.serviceAll 2 = .ok [1, 0] ∧ (do
          let sections ← s.queue.serialize 2 (fun _ => true)
          let t ← unserialize 2 s.queue._curTick sections
          t.serviceAll 2) = .ok [0, 1])) = true := by
    decide
  obtain ⟨s, hr, hend⟩ := Exec.of_endsIn hrun
  obtain ⟨horder, hzero, hone, hold, hnew⟩ := of_decide_eq_true hend
  obtain ⟨sections, t, events, hs, ht, hserved, hserved'⟩ := hall _ s hr fun e he => by
    rw [scheduled_iff (fun _ => rfl) hr, horder] at he
    obtain rfl | rfl : e = 0 ∨ e = 1 := by simpa using he
    · exact hzero
    · exact hone
  have hlen : s.order.length = 2 := by
    rw [horder]
    rfl
  rw [hlen] at hs ht hserved hserved'
  rw [hs, bind_ok, ht, bind_ok, hserved'] at hnew
  cases hold.symm.trans hserved
  cases hnew

end QueueSystem

end Gem5.Sim
