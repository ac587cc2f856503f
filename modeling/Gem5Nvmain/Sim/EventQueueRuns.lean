import Gem5Nvmain.Sim.EventQueueBins

/- The event queue as a priority queue, over its runs.

  `order` has the scheduled events in the order in which they came. Every scheduled event is in one bin, once, and
  among the events of one time and priority the latest one is on top (`QueueInv`). So `serviceOne` takes a least
  event, and of these the latest. -/
namespace Gem5.Sim
open Lib Function List EventQueue

variable {events : Nat → Event} {q q' t : EventQueue} {bins bins' : List (Nat × List Nat)} {b : Nat × List Nat} {e w : Nat}

/-! ## Operations that keep the bins -/

theorem Holds.same (h : Holds q bins) (hhead : q'.head = q.head) (hbin : ∀ e, (q'.events e).nextBin = (q.events e).nextBin)
    (hin : ∀ e, (q'.events e).nextInBin = (q.events e).nextInBin) (hkey : ∀ e ∈ flat bins, (q'.events e).key = (q.events e).key) : Holds q' bins where
  head := hhead.trans h.head
  linked := h.linked.congr (fun b _ => hbin b.1) fun e _ => hin e
  binned := h.binned.congr hkey

theorem EventQueue.setScheduled_data (q : EventQueue) (e : Nat) (v : Bool) (x : Nat) :
    ((q.setScheduled e v).events x).nextBin = (q.events x).nextBin ∧ ((q.setScheduled e v).events x).nextInBin = (q.events x).nextInBin ∧
    ((q.setScheduled e v).events x).key = (q.events x).key ∧ ((q.setScheduled e v).events x).squashed = (q.events x).squashed ∧
    ((q.setScheduled e v).events x).scheduled = if x = e then v else (q.events x).scheduled := by
  unfold setScheduled
  by_cases hx : x = e
  · subst hx
    simp [Event.key]
  · simp [hx]

theorem EventQueue.setSquashed_data (q : EventQueue) (e : Nat) (v : Bool) (x : Nat) :
    ((q.setSquashed e v).events x).nextBin = (q.events x).nextBin ∧ ((q.setSquashed e v).events x).nextInBin = (q.events x).nextInBin ∧
    ((q.setSquashed e v).events x).key = (q.events x).key ∧ ((q.setSquashed e v).events x).scheduled = (q.events x).scheduled := by
  unfold setSquashed
  by_cases hx : x = e
  · subst hx
    simp [Event.key]
  · simp [hx]

theorem EventQueue.setWhen_data (q : EventQueue) (e w : Nat) (x : Nat) :
    ((q.setWhen e w).events x).nextBin = (q.events x).nextBin ∧ ((q.setWhen e w).events x).nextInBin = (q.events x).nextInBin ∧
    ((q.setWhen e w).events x).scheduled = (q.events x).scheduled ∧ (x ≠ e → ((q.setWhen e w).events x).key = (q.events x).key) := by
  unfold setWhen
  by_cases hx : x = e
  · subst hx
    simp
  · simp [hx]

theorem Holds.setScheduled (h : Holds q bins) (e : Nat) (v : Bool) : Holds (q.setScheduled e v) bins :=
  h.same rfl (fun x => (q.setScheduled_data e v x).1) (fun x => (q.setScheduled_data e v x).2.1) fun x _ => (q.setScheduled_data e v x).2.2.1

theorem Holds.setSquashed (h : Holds q bins) (e : Nat) (v : Bool) : Holds (q.setSquashed e v) bins :=
  h.same rfl (fun x => (q.setSquashed_data e v x).1) (fun x => (q.setSquashed_data e v x).2.1) fun x _ => (q.setSquashed_data e v x).2.2.1

theorem Holds.setWhen (h : Holds q bins) (he : e ∉ flat bins) (w : Nat) : Holds (q.setWhen e w) bins :=
  h.same rfl (fun x => (q.setWhen_data e w x).1) (fun x => (q.setWhen_data e w x).2.1) fun x hx =>
    (q.setWhen_data e w x).2.2.2 fun heq => he (heq ▸ hx)

/-! ## The head -/

theorem flat_popBin : flat ((popBin b).toList ++ bins) = b.2 ++ flat bins := by
  obtain ⟨x, l⟩ := b
  cases l <;> simp [popBin]

/-- The head is taken out of its bin. -/
theorem popHead_spec (h : Holds q (b :: bins)) : Holds (q.popHead b.1) ((popBin b).toList ++ bins) ∧ SameData q.events (q.popHead b.1).events := by
  obtain ⟨top, l⟩ := b
  have hbinned : Binned (fun e => (q.events e).key) ((popBin (top, l)).toList ++ bins) := by
    have hremove := h.binned.remove (mem_append_left _ mem_cons_self)
    have hpassed : passed (fun e => (q.events e).key) top ((top, l) :: bins) = [] := takeWhile_cons_of_neg (by simp)
    have hahead : ahead (fun e => (q.events e).key) top ((top, l) :: bins) = (top, l) :: bins := dropWhile_cons_of_neg (by simp)
    unfold removeBin eraseBin at hremove
    rw [hpassed, hahead] at hremove
    simpa using hremove
  obtain ⟨hstack, hright, hrest⟩ := id h.linked
  have hnext : (q.events top).nextBin = first bins := hright.trans Option.or_none
  unfold popHead
  cases l with
  | nil =>
    have hnone : (q.events top).nextInBin = none := hstack
    rw [hnone]
    exact ⟨⟨hnext, hrest, hbinned⟩, .refl _⟩
  | cons y l =>
    have hsome : (q.events top).nextInBin = some y := hstack.1
    have hsame : SameData q.events (update q.events y { q.events y with nextBin := (q.events top).nextBin }) := SameData.set rfl rfl rfl
    have hdown : (fun e => (update q.events y { q.events y with nextBin := (q.events top).nextBin } e).nextInBin) = fun e => (q.events e).nextInBin := by
      funext e
      by_cases he : e = y
      · rw [he, update_self]
      · rw [update_of_ne he]
    rw [hsome]
    refine ⟨⟨rfl, ?_, hsame.binned hbinned⟩, hsame⟩
    unfold Linked
    rw [hdown]
    refine Row.pop h.linked h.binned.nodup (fun w hw => ?_) ?_
    · dsimp only
      rw [update_of_ne hw]
    · dsimp only
      rw [update_self]

theorem serviceOne_spec (h : Holds q (b :: bins)) : ∃ t, q.serviceOne = .ok (b.1, t) ∧ Holds t ((popBin b).toList ++ bins) ∧
    (∀ x, (t.events x).key = (q.events x).key ∧ (t.events x).scheduled = if x = b.1 then false else (q.events x).scheduled) ∧
    (t._curTick = q._curTick ∨ t._curTick = (q.events b.1)._when) := by
  obtain ⟨hpop, hsame⟩ := popHead_spec (h.setScheduled b.1 false)
  have hdata (x : Nat) := q.setScheduled_data b.1 false x
  have hkeep (x : Nat) : (((q.setScheduled b.1 false).popHead b.1).events x).key = (q.events x).key ∧
      (((q.setScheduled b.1 false).popHead b.1).events x).scheduled = if x = b.1 then false else (q.events x).scheduled :=
    ⟨(hsame x).1.trans (hdata x).2.2.1, (hsame x).2.1.trans (hdata x).2.2.2.2⟩
  have htick : ((q.setScheduled b.1 false).popHead b.1)._curTick = q._curTick := by
    unfold popHead
    split <;> rfl
  unfold serviceOne
  rw [h.head]
  dsimp only [first, head?_cons, Option.map_some]
  split
  · refine ⟨_, rfl, hpop.setSquashed b.1 false, fun x => ?_, .inl htick⟩
    obtain ⟨-, -, hkey, hscheduled⟩ := setSquashed_data ((q.setScheduled b.1 false).popHead b.1) b.1 false x
    exact ⟨hkey.trans (hkeep x).1, hscheduled.trans (hkeep x).2⟩
  · exact ⟨_, rfl, hpop.same rfl (fun _ => rfl) (fun _ => rfl) fun _ _ => rfl, hkeep, .inr (congrArg (fun k => (ofLex k).1) (hkeep b.1).1)⟩

/-! ## Runs -/

structure QueueSystem where
  queue : EventQueue
  /-- the scheduled events, the oldest first -/
  order : List Nat := []

inductive QueueOp where
  | schedule (event when' : Nat)
  | deschedule (event : Nat)
  | reschedule (event when' : Nat) (always : Bool)
  | squash (event : Nat)
  | serviceOne
  deriving DecidableEq, Repr

namespace QueueSystem

variable {s u : QueueSystem} {op : QueueOp} {ops : List QueueOp}

def step (s : QueueSystem) : QueueOp → Except Stop QueueSystem
  | .schedule event when' => do
    let queue ← s.queue.schedule s.order.length event when'
    pure { queue := queue, order := s.order ++ [event] }
  | .deschedule event => do
    let queue ← s.queue.deschedule s.order.length event
    pure { queue := queue, order := s.order.erase event }
  | .reschedule event when' always => do
    let queue ← s.queue.reschedule s.order.length event when' always
    pure { queue := queue, order := s.order.erase event ++ [event] }
  | .squash event => pure { s with queue := s.queue.setSquashed event true }
  | .serviceOne => do
    let (event, queue) ← s.queue.serviceOne
    pure { queue := queue, order := s.order.erase event }

/-- The keys of the events of the queue. -/
abbrev keyOf (s : QueueSystem) (e : Nat) : Nat ×ₗ Int := (s.queue.events e).key

structure QueueInv (s : QueueSystem) (bins : List (Nat × List Nat)) : Prop where
  holds : Holds s.queue bins
  scheduled : ∀ e, (s.queue.events e).scheduled = true ↔ e ∈ flat bins
  lifo : Lifo s.keyOf (flat bins) s.order

theorem QueueInv.length (i : QueueInv s bins) : (flat bins).length = s.order.length := i.lifo.perm.length_eq

theorem QueueInv.bins_length (i : QueueInv s bins) : bins.length ≤ s.order.length := length_le_flat.trans i.length.le

/-- An event that is not in the queue can be inserted, at any time. -/
theorem insert_when {q : EventQueue} {order : List Nat} {n : Nat} (h : Holds q bins) (hnot : e ∉ flat bins)
    (hlifo : Lifo (fun x => (q.events x).key) (flat bins) order) (hn : bins.length ≤ n) (w : Nat) :
    ∃ t bins' l₁ l₂, (q.setWhen e w).insert n e = .ok t ∧ Holds t bins' ∧ flat bins = l₁ ++ l₂ ∧ flat bins' = l₁ ++ e :: l₂ ∧
      (∀ x, (t.events x).scheduled = (q.events x).scheduled) ∧ Lifo (fun x => (t.events x).key) (flat bins') (order ++ [e]) ∧
      SameData (q.setWhen e w).events t.events ∧ t._curTick = q._curTick := by
  have hwhen := q.setWhen_data e w
  have hholds := h.setWhen hnot w
  obtain ⟨t, ht, hinserted, hsame, htick⟩ := insert_spec hholds hnot hn
  obtain ⟨l₁, l₂, hflat, hflat', hlt, -⟩ := hholds.binned.insert_place e
  refine ⟨t, _, l₁, l₂, ht, hinserted, hflat, hflat', fun x => (hsame x).2.1.trans (hwhen x).2.2.1, ?_, hsame, htick⟩
  rw [hflat', hsame.keys]
  refine Lifo.insert ?_ hlt
  rw [← hflat]
  exact hlifo.congr fun y hy => (hwhen y).2.2.2 fun heq => hnot (heq ▸ hy)

theorem QueueInv.not_mem (i : QueueInv s bins) (he : (s.queue.events e).scheduled = false) : e ∉ flat bins := fun hmem => by
  rw [(i.scheduled e).mpr hmem] at he
  cases he

theorem QueueInv.remove (i : QueueInv s bins) (he : (s.queue.events e).scheduled = true) :
    ∃ t bins', s.queue.remove s.order.length e = .ok t ∧ Holds t bins' ∧ flat bins' = (flat bins).erase e ∧ SameData s.queue.events t.events := by
  have hmem := (i.scheduled e).mp he
  obtain ⟨t, ht, hholds, hsame, -⟩ := remove_spec i.holds hmem i.length.le
  exact ⟨t, _, ht, hholds, i.holds.binned.remove_flat hmem, hsame⟩

theorem QueueInv.serviceOne (i : QueueInv s (b :: bins)) : ∃ t bins' older newer, s.queue.serviceOne = .ok (b.1, t) ∧ Holds t bins' ∧
    flat (b :: bins) = b.1 :: flat bins' ∧ (∀ f ∈ flat (b :: bins), s.keyOf b.1 ≤ s.keyOf f) ∧ s.order = older ++ b.1 :: newer ∧
    (∀ f ∈ newer, s.keyOf f ≠ s.keyOf b.1) ∧
    ∀ x, (t.events x).key = s.keyOf x ∧ (t.events x).scheduled = if x = b.1 then false else (s.queue.events x).scheduled := by
  obtain ⟨t, ht, hholds, hdata, -⟩ := serviceOne_spec i.holds
  obtain ⟨older, newer, horder, hnewer⟩ := i.lifo.head i.holds.binned.nodup
  refine ⟨t, _, older, newer, ht, hholds, ?_, i.holds.binned.head_le rfl, horder, hnewer, hdata⟩
  rw [flat_popBin]
  rfl

theorem flat_insert_iff {l l₁ l₂ : List Nat} {f : Nat → Bool} (hf : ∀ x, f x = true ↔ x ∈ l) (hl : l = l₁ ++ l₂) (x : Nat) :
    (if x = e then true else f x) = true ↔ x ∈ l₁ ++ e :: l₂ := by
  by_cases hx : x = e
  · simp [hx]
  · rw [if_neg hx, hf, hl]
    simp [hx]

theorem erase_iff {l : List Nat} {f : Nat → Bool} (hf : ∀ x, f x = true ↔ x ∈ l) (hnodup : l.Nodup) (x : Nat) :
    (if x = e then false else f x) = true ↔ x ∈ l.erase e := by
  rw [hnodup.mem_erase_iff]
  by_cases hx : x = e
  · simp [hx]
  · simp [hx, hf]

theorem QueueInv.schedule (i : QueueInv s bins) (hs : s.step (.schedule e w) = .ok u) : ∃ bins, QueueInv u bins := by
  obtain ⟨queue, hq, hs⟩ := of_bind hs
  cases hs
  obtain ⟨_, -, hq⟩ := of_bind hq
  obtain ⟨_, hreq, hq⟩ := of_bind hq
  have he : (s.queue.events e).scheduled = false := by simpa using require_eq_ok.mp hreq
  obtain ⟨t, bins', l₁, l₂, ht, hholds, hflat, hflat', hscheduled, hlifo, -⟩ := insert_when i.holds (i.not_mem he) i.lifo i.bins_length w
  rw [ht] at hq
  cases hq
  have hdata := t.setScheduled_data e true
  refine ⟨bins', hholds.setScheduled e true, fun x => ?_, hlifo.congr fun y _ => (hdata y).2.2.1⟩
  rw [(hdata x).2.2.2.2, hscheduled x, hflat']
  exact flat_insert_iff i.scheduled hflat x

theorem QueueInv.deschedule (i : QueueInv s bins) (hs : s.step (.deschedule e) = .ok u) : ∃ bins, QueueInv u bins := by
  obtain ⟨queue, hq, hs⟩ := of_bind hs
  cases hs
  obtain ⟨_, hreq, hq⟩ := of_bind hq
  obtain ⟨t, bins', ht, hholds, hflat, hsame⟩ := i.remove (require_eq_ok.mp hreq)
  rw [ht] at hq
  cases hq
  have hdata := (t.setSquashed e false).setScheduled_data e false
  have hsquash := t.setSquashed_data e false
  have hkey (x : Nat) : (((t.setSquashed e false).setScheduled e false).events x).key = s.keyOf x :=
    (hdata x).2.2.1.trans ((hsquash x).2.2.1.trans (hsame x).1)
  refine ⟨bins', (hholds.setSquashed e false).setScheduled e false, fun x => ?_, ?_⟩
  · rw [(hdata x).2.2.2.2, (hsquash x).2.2.2, (hsame x).2.1, hflat]
    exact erase_iff i.scheduled i.holds.binned.nodup x
  · rw [hflat]
    exact (i.lifo.erase i.holds.binned.nodup e).congr fun y _ => hkey y

theorem QueueInv.reschedule {always : Bool} (i : QueueInv s bins) (hs : s.step (.reschedule e w always) = .ok u) : ∃ bins, QueueInv u bins := by
  obtain ⟨queue, hq, hs⟩ := of_bind hs
  cases hs
  obtain ⟨_, -, hq⟩ := of_bind hq
  obtain ⟨_, -, hq⟩ := of_bind hq
  -- in both cases the event is not in the queue when it is inserted
  have hout : ∃ t bins', (if (s.queue.events e).scheduled = true then s.queue.remove s.order.length e else pure s.queue) = .ok t ∧
      Holds t bins' ∧ flat bins' = (flat bins).erase e ∧ SameData s.queue.events t.events := by
    split
    · rename_i he
      exact i.remove he
    · rename_i he
      have hnot := i.not_mem (Bool.eq_false_iff.mpr he)
      exact ⟨s.queue, bins, rfl, i.holds, (erase_of_not_mem hnot).symm, .refl _⟩
  obtain ⟨t, bins', ht, hholds, hflat, hsame⟩ := hout
  have hnot : e ∉ flat bins' := by
    rw [hflat]
    exact fun hmem => (i.holds.binned.nodup.mem_erase_iff.mp hmem).1 rfl
  have hlifo : Lifo (fun x => (t.events x).key) (flat bins') (s.order.erase e) := by
    rw [hflat]
    exact (i.lifo.erase i.holds.binned.nodup e).congr fun y _ => (hsame y).1
  have hlen : bins'.length ≤ s.order.length := by
    have hle : bins'.length ≤ (flat bins').length := length_le_flat
    rw [hflat] at hle
    exact hle.trans ((length_erase_le).trans i.length.le)
  obtain ⟨v, bins'', l₁, l₂, hv, hholds', hsplit, hflat', hscheduled, hlifo', -⟩ := insert_when hholds hnot hlifo hlen w
  have hqueue : queue = (v.setSquashed e false).setScheduled e true := by
    split at hq
    · rename_i he
      rw [if_pos he] at ht
      obtain ⟨t', ht', hq⟩ := of_bind hq
      cases ht.symm.trans ht'
      obtain ⟨v', hv', hq⟩ := of_bind hq
      cases hv.symm.trans hv'
      cases hq
      rfl
    · rename_i he
      rw [if_neg he] at ht
      obtain ⟨t', ht', hq⟩ := of_bind hq
      cases ht.symm.trans ht'
      obtain ⟨v', hv', hq⟩ := of_bind hq
      cases hv.symm.trans hv'
      cases hq
      rfl
  subst hqueue
  have hdata := (v.setSquashed e false).setScheduled_data e true
  have hsquash := v.setSquashed_data e false
  refine ⟨bins'', (hholds'.setSquashed e false).setScheduled e true, fun x => ?_, ?_⟩
  · rw [(hdata x).2.2.2.2, (hsquash x).2.2.2, hscheduled x, (hsame x).2.1, hflat']
    by_cases hx : x = e
    · simp [hx]
    · have hmem : x ∈ flat bins' ↔ x ∈ flat bins := by
        rw [hflat]
        exact mem_erase_of_ne hx
      rw [if_neg hx, i.scheduled x, ← hmem, hsplit]
      simp [hx]
  · exact hlifo'.congr fun y _ => (hdata y).2.2.1.trans (hsquash y).2.2.1

theorem QueueInv.step (i : QueueInv s bins) (hs : s.step op = .ok u) : ∃ bins, QueueInv u bins := by
  cases op with
  | schedule event when' => exact i.schedule hs
  | deschedule event => exact i.deschedule hs
  | reschedule event when' always => exact i.reschedule hs
  | squash event =>
    cases hs
    have hdata := s.queue.setSquashed_data event true
    exact ⟨bins, i.holds.setSquashed event true, fun x => by rw [(hdata x).2.2.2]; exact i.scheduled x, i.lifo.congr fun y _ => (hdata y).2.2.1⟩
  | serviceOne =>
    obtain ⟨⟨event, queue⟩, hq, hs⟩ := of_bind hs
    cases hs
    cases bins with
    | nil =>
      unfold EventQueue.serviceOne at hq
      rw [i.holds.head] at hq
      cases hq
    | cons b bins =>
      obtain ⟨t, bins', -, -, ht, hholds, hflat, -, -, -, hdata⟩ := i.serviceOne
      cases ht.symm.trans hq
      have herase : flat bins' = (flat (b :: bins)).erase b.1 := by rw [hflat, erase_cons_head]
      refine ⟨bins', hholds, fun x => ?_, ?_⟩
      · rw [(hdata x).2, herase]
        exact erase_iff i.scheduled i.holds.binned.nodup x
      · rw [herase]
        exact (i.lifo.erase i.holds.binned.nodup b.1).congr fun y _ => (hdata y).1

abbrev QueueStep : QueueSystem → QueueOp → QueueSystem → Prop := StepOf step

theorem QueueInv.run (hnone : ∀ e, (events e).scheduled = false) (hr : Exec QueueStep { queue := { events := events } } ops s) :
    ∃ bins, QueueInv s bins := by
  refine hr.invariant (P := fun s => ∃ bins, QueueInv s bins) ?_ fun t op u ⟨bins, i⟩ hs => i.step hs
  refine ⟨[], ⟨rfl, trivial, ⟨fun b hb => absurd hb not_mem_nil, List.Pairwise.nil, nodup_nil⟩⟩, fun e => ?_, fun k => rfl⟩
  show (events e).scheduled = true ↔ e ∈ []
  simp [hnone e]

/-- The event queue is a priority queue. Its bins have increasing times and priorities, and every scheduled event
  once. An insertion and a removal always succeed, and keep the order of the other events; and the event that is taken
  is a least one, and of these the latest. -/
theorem priority_queue (hnone : ∀ e, (events e).scheduled = false) (hr : Exec QueueStep { queue := { events := events } } ops s) :
    ∃ bins, s.queue.head = first bins ∧ Linked s.queue.events bins ∧ bins.Pairwise (fun b c => s.keyOf b.1 < s.keyOf c.1) ∧
    (∀ b ∈ bins, ∀ e ∈ b.2, s.keyOf e = s.keyOf b.1) ∧ (∀ e, (s.queue.events e).scheduled = true ↔ e ∈ flat bins) ∧ (flat bins).Nodup ∧
    (∀ e w, (s.queue.events e).scheduled = false → ∃ t bins' l₁ l₂, (s.queue.setWhen e w).insert s.order.length e = .ok t ∧ Holds t bins' ∧
      flat bins = l₁ ++ l₂ ∧ flat bins' = l₁ ++ e :: l₂) ∧
    (∀ e, (s.queue.events e).scheduled = true → ∃ t bins', s.queue.remove s.order.length e = .ok t ∧ Holds t bins' ∧
      flat bins' = (flat bins).erase e) ∧
    (bins ≠ [] → ∃ e t bins' older newer, s.queue.serviceOne = .ok (e, t) ∧ Holds t bins' ∧ flat bins = e :: flat bins' ∧
      (∀ f, (s.queue.events f).scheduled = true → s.keyOf e ≤ s.keyOf f) ∧ s.order = older ++ e :: newer ∧
      ∀ f ∈ newer, s.keyOf f ≠ s.keyOf e) := by
  obtain ⟨bins, i⟩ := QueueInv.run hnone hr
  refine ⟨bins, i.holds.head, i.holds.linked, i.holds.binned.increasing, i.holds.binned.same, i.scheduled, i.holds.binned.nodup, ?_, ?_, ?_⟩
  · intro e w he
    obtain ⟨t, bins', l₁, l₂, ht, hholds, hflat, hflat', -⟩ := insert_when i.holds (i.not_mem he) i.lifo i.bins_length w
    exact ⟨t, bins', l₁, l₂, ht, hholds, hflat, hflat'⟩
  · intro e he
    obtain ⟨t, bins', ht, hholds, hflat, -⟩ := i.remove he
    exact ⟨t, bins', ht, hholds, hflat⟩
  · intro hne
    obtain ⟨b, rest, rfl⟩ := exists_cons_of_ne_nil hne
    obtain ⟨t, bins', older, newer, ht, hholds, hflat, hle, horder, hnewer, -⟩ := i.serviceOne
    exact ⟨b.1, t, bins', older, newer, ht, hholds, hflat, fun f hf => hle f ((i.scheduled f).mp hf), horder, hnewer⟩

/-- Of three events of one time the first is taken out again, and an earlier one is served. -/
theorem priority_queue_three : ∃ s, Exec QueueStep { queue := { events := fun _ => {} } }
      [.schedule 0 10, .schedule 1 10, .schedule 2 10, .schedule 3 5, .deschedule 0, .serviceOne] s ∧ s.order = [1, 2] ∧
    ∃ bins, s.queue.head = first bins ∧ Linked s.queue.events bins ∧ (∀ e, (s.queue.events e).scheduled = true ↔ e ∈ flat bins) ∧
      (flat bins).Nodup := by
  refine Exec.ends_with (p := fun s => decide (s.order = [1, 2])) (by decide) fun s hr hend => ?_
  obtain ⟨bins, hhead, hlinked, -, -, hscheduled, hnodup, -⟩ := priority_queue (fun _ => rfl) hr
  exact ⟨of_decide_eq_true hend, bins, hhead, hlinked, hscheduled, hnodup⟩

end QueueSystem

end Gem5.Sim
