import Gem5Nvmain.Nvm.EventQueueRuns
import Gem5Nvmain.Lib.ShownKeys
import Mathlib.Data.Int.Order.Basic

/- The order of the events of one cycle.

  `InsertEvent` compares the priority of the call with the one stored in each event of the cycle. InsertCallback
  stores its priority; an event that InsertEvent makes keeps the 0 of the constructor. As long as no event of a cycle
  was handled, its list in the map is what the insertions make of it, one after the other (`Line`), and Process runs
  the list from its beginning. So the events come in the order of their priorities exactly when each was put in its
  right place (`same_cycle_order_iff`). -/
namespace Nvm
open Lib List

namespace QueueRun
open EventQueue
variable {s s' : QueueRun} {e d : Event} {t c : Nat} {prio : Int} {freed : Nat → Int} {l : List Event} {ops : List Op} {op : Op}

/-! ## What was inserted -/

/-- The events of the insertions with the priorities of the calls. -/
def insertions (ops : List Op) : List (Event × Int) :=
  (ops.filterMap Op.insertion).mapIdx fun k i => ({ i.1 with id := k, cycle := i.2.1 }, i.2.2.1)

def insertionsAt (t : Nat) (ops : List Op) : List (Event × Int) := (insertions ops).filter fun x => x.1.cycle == t

theorem insertions_snoc (ops : List Op) (hop : op.insertion = some (e, t, prio, freed)) : insertions (ops ++ [op]) =
      insertions ops ++ [({ e with id := (insertions ops).length, cycle := t }, prio)] := by
  have hlen : (insertions ops).length = (ops.filterMap Op.insertion).length := length_mapIdx
  unfold insertions at hlen ⊢
  simp [hop]

theorem insertions_snoc_none (hop : op.insertion = none) : insertions (ops ++ [op]) = insertions ops := by
  unfold insertions
  simp [hop]

theorem insertions_ids : (insertions ops).map (fun x => x.1.id) = range (insertions ops).length := by
  unfold insertions
  apply ext_getElem
  · simp
  · intro k h1 h2
    simp

/-! ## The list of one cycle -/

/-- The list that the insertions make. -/
def listFor (t : Nat) (ops : List Op) : List (Event × Int) :=
  insertAll Prod.snd (fun x => x.1.priority) (insertionsAt t ops)

/-- What was handled and what is still to come, in this order. -/
def line (s : QueueRun) : List Event := s.handled ++ s.pending

def ofCycle (t : Nat) (l : List Event) : List Event := l.filter fun e => e.cycle == t

theorem mem_ofCycle : e ∈ ofCycle t l ↔ e ∈ l ∧ e.cycle = t := by
  simp [ofCycle]

theorem ofCycle_append {m : List Event} : ofCycle t (l ++ m) = ofCycle t l ++ ofCycle t m := filter_append ..

theorem ofCycle_eq_nil (h : ∀ e ∈ l, e.cycle ≠ t) : ofCycle t l = [] := by
  apply filter_eq_nil_iff.mpr
  intro e he
  simpa using h e he

theorem ofCycle_insertIdx {j : Nat} (he : e.cycle ≠ t) : ofCycle t (l.insertIdx j e) = ofCycle t l := by
  induction j generalizing l with
  | zero => exact filter_cons_of_neg (by simpa using he)
  | succ j ih =>
    cases l with
    | nil => rfl
    | cons d l =>
      rw [insertIdx_succ_cons]
      unfold ofCycle at ih ⊢
      rw [filter_cons, filter_cons, ih]

theorem ofCycle_eraseIdx {j : Nat} (hj : l[j]? = some e) (he : e.cycle ≠ t) : ofCycle t (l.eraseIdx j) = ofCycle t l := by
  induction j generalizing l with
  | zero =>
    cases l with
    | nil => rfl
    | cons d l =>
      obtain rfl : d = e := Option.some.inj hj
      exact (filter_cons_of_neg (by simpa using he)).symm
  | succ j ih =>
    cases l with
    | nil => rfl
    | cons d l =>
      rw [eraseIdx_cons_succ]
      unfold ofCycle at ih ⊢
      rw [filter_cons, filter_cons, ih hj]

/-- In a sorted map an insertion for the cycle is one into the list of the cycle. -/
theorem ofCycle_place {read : Event → Int} {x : Event} (hx : x.cycle = t)
    (hsorted : l.Pairwise fun a b => a.cycle ≤ b.cycle) :
    ofCycle t (l.insertIdx (l.findIdx (comesAfter read t prio)) x) =
      insertShown (fun _ => prio) read x (ofCycle t l) := by
  induction l with
  | nil => exact filter_cons_of_pos (by simpa using hx)
  | cons d l ih =>
    obtain ⟨hd, htail⟩ := pairwise_cons.mp hsorted
    have hkept : ∀ m, ofCycle t (x :: m) = x :: ofCycle t m := fun m => filter_cons_of_pos (by simpa using hx)
    rw [findIdx_cons]
    cases hafter : comesAfter read t prio d with
    | true =>
      show ofCycle t (x :: d :: l) = _
      rw [hkept]
      rcases comesAfter_iff.mp hafter with hlt | ⟨hcycle, hprio⟩
      · have hnil : ofCycle t (d :: l) = [] := by
          apply ofCycle_eq_nil
          intro e he
          obtain rfl | he := mem_cons.mp he
          · omega
          · have := hd e he
            omega
        rw [hnil]
        rfl
      · have hhead : ofCycle t (d :: l) = d :: ofCycle t l := filter_cons_of_pos (by simpa using hcycle)
        rw [hhead, insertShown, if_pos hprio]
    | false =>
      have hnot : ¬ (t < d.cycle ∨ d.cycle = t ∧ prio < read d) := by
        rw [← comesAfter_iff, hafter]
        exact Bool.false_ne_true
      show ofCycle t (d :: l.insertIdx _ x) = _
      by_cases hcycle : d.cycle = t
      · have hhead : ∀ m, ofCycle t (d :: m) = d :: ofCycle t m := fun m => filter_cons_of_pos (by simpa using hcycle)
        rw [hhead, hhead, ih htail, insertShown, if_neg fun h => hnot (.inr ⟨hcycle, h⟩)]
      · have hskip : ∀ m, ofCycle t (d :: m) = ofCycle t m := fun m => filter_cons_of_neg (by simpa using hcycle)
        rw [hskip, hskip, ih htail]

theorem map_insertShown {x : Event × Int} {m : List (Event × Int)} :
    (insertShown Prod.snd (fun y => y.1.priority) x m).map Prod.fst =
      insertShown (fun _ => x.2) Event.priority x.1 (m.map Prod.fst) := by
  induction m with
  | nil => rfl
  | cons y m ih =>
    rw [map_cons, insertShown, insertShown]
    split
    · rfl
    · exact congrArg (y.1 :: ·) ih

theorem insertShown_congr {read read' : Event → Int} (h : ∀ d ∈ l, read d = read' d) :
    insertShown (fun _ => prio) read e l = insertShown (fun _ => prio) read' e l := by
  induction l with
  | nil => rfl
  | cons d l ih =>
    rw [insertShown, insertShown, h d mem_cons_self, ih fun x hx => h x (mem_cons_of_mem d hx)]

/-! ## Runs -/

structure Line (t : Nat) (ops : List Op) (s : QueueRun) : Prop where
  ordered : s.Ordered
  inserted : s.inserted = (insertions ops).map Prod.fst
  known : ∀ e ∈ s.queue.eventMap, e ∈ s.inserted
  running : ∀ list it caller, s.control = .handling list it caller → ∃ d ∈ s.handled, d.cycle = list
  line : ofCycle t s.line = (listFor t ops).map Prod.fst

/-- No event of the cycle is removed, and none is inserted after one was handled. -/
def Op.keeps (t : Nat) (s : QueueRun) (op : Op) : Bool :=
  match op with
  | .removeEvent _ c => decide (c ≠ t)
  | op =>
    match op.insertion with
    | some (_, c, _, _) => decide (c ≠ t) || s.handled.all fun d => d.cycle != t
    | none => true

theorem Line.init : Line t [] {} where
  ordered := Ordered.init
  inserted := rfl
  known _ he := absurd he not_mem_nil
  running _ _ _ hc := nomatch hc
  line := rfl

/-- Before an event of the cycle is handled, all of its list is to come. -/
theorem Line.pending_eq (ho : s.Ordered)
    (hrun : ∀ list it caller, s.control = .handling list it caller → ∃ d ∈ s.handled, d.cycle = list)
    (hnone : ∀ d ∈ s.handled, d.cycle ≠ t) : ofCycle t s.pending = ofCycle t s.queue.eventMap ∧
      ∀ list it caller, s.control = .handling list it caller → ∀ d ∈ s.queue.eventMap.take (it + 1), d.cycle ≠ t := by
  have htake : ∀ list it caller, s.control = .handling list it caller →
      ∀ d ∈ s.queue.eventMap.take (it + 1), d.cycle ≠ t := by
    intro list it caller hc d hd
    obtain ⟨hlist, x, hx, hcycle⟩ := ho.handling list it caller hc
    obtain ⟨r, hr, hrlist⟩ := hrun list it caller hc
    obtain ⟨hit, hxget⟩ := List.getElem?_eq_some_iff.mp hx
    have hle : d.cycle ≤ s.queue.currentCycle := by
      obtain ⟨k, hk, rfl⟩ := mem_iff_getElem.mp hd
      rw [length_take] at hk
      rw [getElem_take, ← hcycle, ← hxget]
      rcases Nat.lt_or_eq_of_le (show k ≤ it by omega) with hlt | rfl
      · exact pairwise_iff_getElem.mp ho.queue.sorted k it (by omega) hit hlt
      · exact Nat.le_refl _
    have hge := (ho.queue.range d (mem_of_mem_take hd)).1
    have hne := hnone r hr
    omega
  refine ⟨?_, htake⟩
  unfold pending
  cases hc : s.control with
  | idle => rfl
  | handling list it caller =>
    show ofCycle t (s.queue.eventMap.drop (it + 1)) = _
    conv => rhs; rw [← take_append_drop (it + 1) s.queue.eventMap]
    rw [ofCycle_append, ofCycle_eq_nil (htake list it caller hc), nil_append]

/-- `GetPriority()` of an event that is to come. -/
theorem Line.priorityOf_eq (h : Line t ops s) (hnone : ∀ d ∈ s.handled, d.cycle ≠ t) (he : e ∈ ofCycle t s.queue.eventMap) :
    s.priorityOf freed e = e.priority := by
  obtain ⟨hmem, hcycle⟩ := mem_ofCycle.mp he
  have hdeleted : s.isDeleted e = false := by
    unfold isDeleted
    cases hc : s.control with
    | idle => rfl
    | handling list it caller =>
      apply any_eq_false.mpr
      intro d hd
      have hne := (Line.pending_eq h.ordered h.running hnone).2 list it caller hc d
        ((take_sublist_take_left (Nat.le_succ it)).subset hd)
      intro hid
      have hids : s.inserted.map Event.id = range (insertions ops).length := by
        rw [h.inserted, map_map]
        exact insertions_ids
      have hnodup : (s.inserted.map Event.id).Nodup := hids ▸ nodup_range
      have heq : d = e := inj_on_of_nodup_map hnodup (h.known d (mem_of_mem_take hd)) (h.known e hmem)
        (by simpa using hid)
      exact hne (heq ▸ hcycle)
  rw [priorityOf, hdeleted]
  rfl

theorem insert_handled : (s.insert freed e c prio).handled = s.handled :=
  congrArg (map Handled.event) insert_requested.processed

theorem insert_pending (hc : c ≠ t) : ofCycle t (s.insert freed e c prio).pending = ofCycle t s.pending := by
  have hplace : s.queue.place (s.priorityOf freed) c prio ≤ s.queue.eventMap.length := findIdx_le_length
  unfold QueueRun.insert pending
  cases hcontrol : s.control with
  | idle => exact ofCycle_insertIdx hc
  | handling list it caller =>
    by_cases hle : s.queue.place (s.priorityOf freed) c prio ≤ it
    · simp only [if_pos hle]
      exact congrArg (ofCycle t) (drop_insertIdx_before (Nat.le_succ_of_le hle))
    · simp only [if_neg hle]
      show ofCycle t ((s.queue.eventMap.insertIdx _ _).drop (it + 1)) = _
      rw [drop_insertIdx_rest (by omega) hplace]
      exact ofCycle_insertIdx hc

/-- A removal from another cycle. -/
theorem remove_pending {id : Nat} (hc : c ≠ t) (hr : s.remove id c = .ok s') :
    ofCycle t s'.pending = ofCycle t s.pending := by
  unfold QueueRun.remove at hr
  split at hr
  next hj =>
    cases hr
    unfold pending
    simp only [removeEvent_notFound hj]
  next j hj =>
    obtain ⟨hmap, d, hd, -, hcycle⟩ := removeEvent_found hj
    have hne : d.cycle ≠ t := hcycle ▸ hc
    cases hcontrol : s.control with
    | idle =>
      simp only [hcontrol] at hr
      cases hr
      unfold pending
      simp only [hcontrol, hmap]
      exact ofCycle_eraseIdx hd hne
    | handling list it caller =>
      simp only [hcontrol] at hr
      split at hr
      · cases hr
      split at hr
      next hlt =>
        cases hr
        unfold pending
        simp only [hcontrol, hmap]
        rw [drop_eraseIdx_rest (by omega)]
        apply ofCycle_eraseIdx _ hne
        rw [getElem?_drop, Nat.add_sub_cancel' (by omega)]
        exact hd
      next hlt =>
        cases hr
        unfold pending
        simp only [hcontrol, hmap]
        rw [drop_eraseIdx_before (by omega), show it - 1 + 1 + 1 = it + 1 by omega]

theorem Resumes.line (hr : s.Resumes s') : s'.line = s.handled ++ s.queue.eventMap := by
  obtain ⟨u, -, -, rfl⟩ | ⟨e, rest, caller, call, hl, rfl⟩ := hr
  · rfl
  · show (s.processed ++ [_]).map Handled.event ++ s.queue.eventMap.drop 1 = _
    rw [hl, map_append, append_assoc]
    rfl

theorem Resumes.running (hr : s.Resumes s') {list it : Nat} {caller : Caller} (hc : s'.control = .handling list it caller) :
    ∃ d ∈ s'.handled, d.cycle = list := by
  obtain ⟨u, -, -, rfl⟩ | ⟨e, rest, caller', call, hl, rfl⟩ := hr
  · cases hc
  · obtain ⟨rfl, rfl, rfl⟩ := Control.handling.inj hc
    refine ⟨e, ?_, rfl⟩
    show e ∈ (s.processed ++ [_]).map Handled.event
    rw [map_append]
    exact mem_append_right _ (mem_singleton.mpr rfl)

theorem Resumes.eventMap (hr : s.Resumes s') : s'.queue.eventMap = s.queue.eventMap ∧ s'.inserted = s.inserted := by
  obtain ⟨u, -, -, rfl⟩ | ⟨e, rest, caller, call, hl, rfl⟩ := hr
  · exact ⟨rfl, rfl⟩
  · exact ⟨rfl, rfl⟩

theorem Line.moved (h : Line t ops s) (hop : op.insertion = none) (ho : s'.Ordered) (hi : s'.inserted = s.inserted)
    (hk : ∀ e ∈ s'.queue.eventMap, e ∈ s.queue.eventMap)
    (hrun : ∀ list it caller, s'.control = .handling list it caller → ∃ d ∈ s'.handled, d.cycle = list)
    (hline : ofCycle t s'.line = ofCycle t s.line) : Line t (ops ++ [op]) s' where
  ordered := ho
  inserted := by rw [hi, insertions_snoc_none hop, h.inserted]
  known e he := by
    rw [hi]
    exact h.known e (hk e he)
  running := hrun
  line := by
    have hsame : listFor t (ops ++ [op]) = listFor t ops := by
      unfold listFor insertionsAt
      rw [insertions_snoc_none hop]
    rw [hline, hsame, h.line]

theorem Line.insert (h : Line t ops s) (hop : op.insertion = some (e, c, prio, freed)) (htimely : op.timely s = true)
    (hkeeps : c = t → ∀ d ∈ s.handled, d.cycle ≠ t) : Line t (ops ++ [op]) (s.insert freed e c prio) := by
  have hlen : (insertions ops).length = s.inserted.length := by rw [h.inserted, length_map]
  have hsnoc := insertions_snoc ops hop
  rw [hlen] at hsnoc
  obtain ⟨hle, hmax⟩ := Op.timely_insertion htimely hop
  have ho : (s.insert freed e c prio).Ordered := h.ordered.insert hle hmax
  have hrun : ∀ list it caller, (s.insert freed e c prio).control = .handling list it caller →
      ∃ d ∈ (s.insert freed e c prio).handled, d.cycle = list := by
    intro list it caller hc
    obtain ⟨it', hc'⟩ := insert_requested.caller list it caller hc
    rw [insert_handled]
    exact h.running list it' caller hc'
  refine ⟨ho, ?_, ?_, hrun, ?_⟩
  · rw [insert_inserted, hsnoc, map_append, ← h.inserted]
    rfl
  · intro d hd
    rw [insert_inserted]
    rw [insert_eventMap] at hd
    obtain rfl | hd := eq_or_mem_of_mem_insertIdx hd
    · exact mem_append_right _ (mem_singleton.mpr rfl)
    · exact mem_append_left _ (h.known d hd)
  · unfold QueueRun.line
    rw [ofCycle_append, insert_handled]
    by_cases hc : c = t
    · subst hc
      have hnone := hkeeps rfl
      have hnone' : ∀ d ∈ (s.insert freed e c prio).handled, d.cycle ≠ c := by
        rw [insert_handled]
        exact hnone
      have hnil : ofCycle c s.handled = [] := ofCycle_eq_nil hnone
      have hpending := (Line.pending_eq h.ordered h.running hnone).1
      have hline : ofCycle c s.pending = (listFor c ops).map Prod.fst := by
        have := h.line
        unfold QueueRun.line at this
        rwa [ofCycle_append, hnil, nil_append] at this
      have hlist : listFor c (ops ++ [op]) = insertShown Prod.snd (fun y => y.1.priority)
          ({ e with id := s.inserted.length, cycle := c }, prio) (listFor c ops) := by
        unfold listFor insertionsAt
        rw [hsnoc, filter_append, filter_cons_of_pos (by simp), filter_nil, insertAll_concat]
      rw [hnil, nil_append, (Line.pending_eq ho hrun hnone').1, insert_eventMap, hlist, map_insertShown, ← hline, hpending]
      refine (ofCycle_place (t := c) rfl h.ordered.queue.sorted).trans ?_
      exact insertShown_congr fun d hd => h.priorityOf_eq hnone hd
    · have hlist : listFor t (ops ++ [op]) = listFor t ops := by
        unfold listFor insertionsAt
        rw [hsnoc, filter_append, filter_cons_of_neg (by simpa using hc), filter_nil, append_nil]
      rw [insert_pending hc, hlist, ← ofCycle_append]
      exact h.line

theorem Op.keeps_insertion (hkeeps : op.keeps t s = true) (hop : op.insertion = some (e, c, prio, freed)) (hc : c = t) :
    ∀ d ∈ s.handled, d.cycle ≠ t := by
  have hall : (decide (c ≠ t) || s.handled.all fun d => d.cycle != t) = true := by
    cases op with
    | insertEvent | insertMade | insertCallback =>
      cases hop
      exact hkeeps
    | removeEvent | loop | loopSteps | handlerReturns => cases hop
  intro d hd
  simp only [hc, ne_eq, not_true_eq_false, decide_false, Bool.false_or, all_eq_true, bne_iff_ne] at hall
  exact hall d hd

theorem remove_inserted {id : Nat} (hr : s.remove id c = .ok s') : s'.inserted = s.inserted := by
  unfold QueueRun.remove at hr
  split at hr
  · cases hr
    rfl
  · simp only at hr
    split at hr
    · cases hr
      rfl
    · split at hr
      · cases hr
      split at hr
      · cases hr
        rfl
      · cases hr
        rfl

theorem Line.step (h : Line t ops s) (htimely : op.timely s = true) (hkeeps : op.keeps t s = true)
    (hr : s.step op = .ok s') : Line t (ops ++ [op]) s' := by
  have ho := h.ordered.step htimely hr
  cases hop : op.insertion with
  | some i =>
    obtain ⟨e, c, prio, freed⟩ := i
    obtain rfl : s.insert freed e c prio = s' := Except.ok.inj ((step_insertion hop).symm.trans hr)
    exact h.insert hop htimely (Op.keeps_insertion hkeeps hop)
  | none =>
    obtain ⟨e, c, prio, freed, hop', -⟩ | ⟨id, c, rfl, hr⟩ | ⟨hc, hr⟩ | ⟨list, it, caller, hc, hr⟩ := step_cases h.ordered hr
    · rw [hop] at hop'
      cases hop'
    · have hne : c ≠ t := of_decide_eq_true hkeeps
      obtain ⟨hreq, hsub⟩ := remove_requested hr
      have hhandled : s'.handled = s.handled := congrArg (map Handled.event) hreq.processed
      refine h.moved hop ho (remove_inserted hr) hsub ?_ ?_
      · intro list it caller hc
        obtain ⟨it', hc'⟩ := hreq.caller list it caller hc
        rw [hhandled]
        exact h.running list it' caller hc'
      · unfold QueueRun.line
        rw [ofCycle_append, ofCycle_append, hhandled, remove_pending hne hr]
    · refine h.moved hop ho hr.eventMap.2 ?_ (fun _ _ _ => hr.running) ?_
      · intro e he
        rwa [hr.eventMap.1] at he
      · rw [hr.line]
        unfold QueueRun.line pending
        rw [hc]
    · have hpending : s.pending = s.queue.eventMap.drop (it + 1) := by
        unfold pending
        rw [hc]
      obtain ⟨e, call, he, hcycle, rfl⟩ | ⟨herase, hr⟩ := advance_cases h.ordered hc hr
      · have hdrop : s.queue.eventMap.drop (it + 1) = e :: s.queue.eventMap.drop (it + 1 + 1) := by
          obtain ⟨hlt, rfl⟩ := List.getElem?_eq_some_iff.mp he
          exact drop_eq_getElem_cons hlt
        have hhandled : (s.goesOn list (it + 1) caller e call).handled = s.handled ++ [e] := map_append ..
        refine h.moved hop ho rfl (fun _ hd => hd) ?_ ?_
        · intro list' it' caller' hl
          obtain ⟨rfl, rfl, rfl⟩ := Control.handling.inj hl
          obtain ⟨d, hd, hdlist⟩ := h.running _ it _ hc
          rw [hhandled]
          exact ⟨d, mem_append_left _ hd, hdlist⟩
        · unfold QueueRun.line
          rw [hhandled, hpending, hdrop, append_assoc]
          rfl
      · have hresumes := Resumes.finish h.ordered.queue (h.ordered.next_eq hc) hr
        refine h.moved hop ho hresumes.eventMap.2 ?_ (fun _ _ _ => hresumes.running) ?_
        · intro e he
          rw [hresumes.eventMap.1] at he
          exact mem_of_mem_filter he
        · rw [hresumes.line, herase, QueueRun.line, hpending]
          rfl

/-- The calls of a run insert at the current cycle or later, and leave the cycle `t` alone once it is being processed. -/
abbrev Keeping (t : Nat) (s : QueueRun) (op : Op) (s' : QueueRun) : Prop :=
  StepIf (fun s op => op.timely s && op.keeps t s) step s op s'

theorem Exec.line (hr : Exec (Keeping t) {} ops s) : Line t ops s := by
  refine hr.history_invariant Line.init ?_
  intro ops s op s' h ⟨hc, hs⟩
  obtain ⟨htimely, hkeeps⟩ := Bool.and_eq_true_iff.mp hc
  exact h.step htimely hkeeps hs

/-! ## The order -/

/-- The events of the cycle were handled in the order of the priorities they were inserted with, and in the order of
  the insertions where these are equal. -/
def InOrder (t : Nat) (ops : List Op) (s : QueueRun) : Prop :=
  (ofCycle t s.handled).Pairwise fun a b =>
    ∀ p q, (a, p) ∈ insertions ops → (b, q) ∈ insertions ops → p < q ∨ p = q ∧ a.id < b.id

theorem insertions_unique {x y : Event × Int} (hx : x ∈ insertions ops) (hy : y ∈ insertions ops) (h : x.1 = y.1) : x = y := by
  have hnodup : ((insertions ops).map fun x => x.1.id).Nodup := insertions_ids ▸ nodup_range
  exact inj_on_of_nodup_map hnodup hx hy (congrArg Event.id h)

theorem insertionsAt_rising : (insertionsAt t ops).Pairwise fun x y => x.1.id < y.1.id := by
  have hids : ((insertions ops).map fun x => x.1.id).Pairwise (· < ·) := by
    rw [insertions_ids]
    exact pairwise_lt_range
  exact (pairwise_map.mp hids).filter _

/-- When all events of the cycle were handled, they came in order exactly when each insertion put its event in its
  right place: no earlier event whose priority is not above stores a priority above, and the first earlier one whose
  priority is above stores one above. -/
theorem same_cycle_order_iff (hr : Exec (Keeping t) {} ops s) (hall : ∀ e ∈ s.pending, e.cycle ≠ t) :
    s.InOrder t ops ↔
      ∀ earlier x, earlier ++ [x] <+: insertionsAt t ops →
        PlacedRight Prod.snd (fun y : Event × Int => y.1.priority) (fun y => y.1.id) earlier x := by
  have hline := (Exec.line hr).line
  unfold QueueRun.line at hline
  rw [ofCycle_append, ofCycle_eq_nil hall, append_nil] at hline
  rw [← pairwise_insertAll insertionsAt_rising]
  show (ofCycle t s.handled).Pairwise _ ↔ (listFor t ops).Pairwise _
  rw [hline, pairwise_map]
  have hmem : ∀ x ∈ listFor t ops, x ∈ insertions ops :=
    fun x hx => mem_of_mem_filter (perm_insertAll.mem_iff.mp hx)
  constructor
  · intro h
    exact List.Pairwise.imp_of_mem (fun hx hy hxy => hxy _ _ (hmem _ hx) (hmem _ hy)) h
  · intro h
    refine List.Pairwise.imp_of_mem (fun {x y} hx hy hxy p q hp hq => ?_) h
    obtain rfl : p = x.2 := congrArg Prod.snd (insertions_unique hp (hmem x hx) rfl)
    obtain rfl : q = y.2 := congrArg Prod.snd (insertions_unique hq (hmem y hy) rfl)
    exact hxy

theorem placedRight_of_stored (h : ∀ x ∈ insertionsAt t ops, x.1.priority = x.2) {earlier : List (Event × Int)}
    {x : Event × Int} (hp : earlier ++ [x] <+: insertionsAt t ops) :
    PlacedRight Prod.snd (fun y : Event × Int => y.1.priority) (fun y => y.1.id) earlier x :=
  PlacedRight.of_shown fun y hy => h y (hp.subset (mem_append_left _ hy))

/-- The command queues (40) and a refresh (20), both as callbacks. -/
def callbackOps : List Op :=
  [.insertCallback (some 1) (some 1) 0 none 40 fun _ => 0, .insertCallback (some 1) (some 2) 0 none 20 fun _ => 0,
    .loop, .handlerReturns, .handlerReturns]

theorem callbacks_in_order :
    ∃ s, Exec (Keeping 0) {} callbackOps s ∧ s.handled.length = 2 ∧ s.InOrder 0 callbackOps := by
  refine Exec.ends_withIf (p := fun s => decide (s.handled.length = 2) && decide (s.pending = []))
    (by decide) fun s hr hs => ?_
  obtain ⟨hlen, hpending⟩ := Bool.and_eq_true_iff.mp hs
  have hall : ∀ e ∈ s.pending, e.cycle ≠ 0 := by
    rw [of_decide_eq_true hpending]
    exact fun _ he => absurd he not_mem_nil
  have hstored : ∀ x ∈ insertionsAt 0 callbackOps, x.1.priority = x.2 := by decide
  exact ⟨of_decide_eq_true hlen, (same_cycle_order_iff hr hall).mpr fun _ _ hp => placedRight_of_stored hstored hp⟩

/-- The transaction queue (30), which the controller inserts by InsertEvent, and a refresh (20). -/
def mixedOps : List Op :=
  [.insertEvent .cycle (some 1) none 0 none 30 fun _ => 0, .insertCallback (some 1) (some 1) 0 none 20 fun _ => 0,
    .loop, .handlerReturns, .handlerReturns]

/-- The event stores the priority 0, so the refresh comes behind it. -/
theorem same_cycle_out_of_order :
    ¬ ∀ t ops s, Exec (Keeping t) {} ops s → (∀ e ∈ s.pending, e.cycle ≠ t) → s.InOrder t ops := by
  intro h
  have hrun : endsInIf (fun s op => op.timely s && op.keeps 0 s) step {} mixedOps
      (fun s => decide (ofCycle 0 s.handled = (insertions mixedOps).map Prod.fst) && decide (s.pending = [])) = true := by
    decide
  obtain ⟨s, hr, hs⟩ := Exec.of_endsInIf hrun
  obtain ⟨hhandled, hpending⟩ := Bool.and_eq_true_iff.mp hs
  have hall : ∀ e ∈ s.pending, e.cycle ≠ 0 := by
    rw [of_decide_eq_true hpending]
    exact fun _ he => absurd he not_mem_nil
  have horder := h 0 mixedOps s hr hall
  unfold InOrder at horder
  rw [of_decide_eq_true hhandled] at horder
  have hfirst := (pairwise_cons.mp horder).1 _ mem_cons_self 30 20 mem_cons_self
    (mem_cons_of_mem _ mem_cons_self)
  exact absurd hfirst (by decide)

end QueueRun

end Nvm
