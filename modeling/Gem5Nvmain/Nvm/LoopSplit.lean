import Gem5Nvmain.Nvm.EventQueueSpec

/- `Loop(a)` and then `Loop(b)` is `Loop(a + b)`.

  A call of Loop with the calls that its handlers make is one list of steps (`LoopCall`). Of two calls of Loop the
  second one starts where the first one leaves the clock, and the steps that a running call of `Loop(a + b)` has left
  are those of `Loop(a)` and `b` more (`extend`). So whatever a step does in the call of `Loop(a)`, the same step does
  in that of `Loop(a + b)`, until the first one returns: then the second one is where `Loop(b)` begins
  (`step_extend`).

  This holds as long as the clock does not come to the largest cycle, which stands for no event: there `Loop` can wrap
  round and pass over events that it would come to in pieces (`loop_not_split`). -/
namespace Nvm
open Lib

/-- The same place in a call that has `b` steps more. -/
def Control.extend (b : Nat) : Control → Control
  | .handling list it (.steps stepCycles) => .handling list it (.steps (stepCycles + b))
  | c => c

namespace QueueRun
open EventQueue
variable {s s' u w : QueueRun} {a b k n : Nat} {op : Op} {h : List Op} {caller : Caller}

def extend (b : Nat) (s : QueueRun) : QueueRun := { s with control := s.control.extend b }

/-- A handler inserts into later cycles only. -/
def Op.later (s : QueueRun) (op : Op) : Bool :=
  match op.insertion with
  | some (_, t, _, _) => decide (s.queue.currentCycle < t) && decide (t ≤ maxCycle)
  | none => true

/-- A call that a handler makes, or its return. -/
def HandlerStep (s : QueueRun) (op : Op) (s' : QueueRun) : Prop :=
  s.control ≠ .idle ∧ op.later s = true ∧ s.step op = .ok s'

/-- A call of `Loop(steps)` in which the handlers make the calls `h`, up to its return. -/
def LoopCall (s : QueueRun) (steps : Nat) (h : List Op) (s' : QueueRun) : Prop :=
  ∃ u, s.step (.loopSteps steps) = .ok u ∧ Exec HandlerStep u h s' ∧ s'.control = .idle

/-- From the call of `Loop(a)` to that of `Loop(a + b)`. -/
def resume (b : Nat) (s : QueueRun) : Except Stop QueueRun :=
  match s.control with
  | .idle => s.loopSteps b
  | .handling .. => .ok (s.extend b)

/-- The queue is in order, and the clock stays below the largest cycle for the steps that are left and `b` more. -/
structure Within (b : Nat) (s : QueueRun) : Prop where
  ordered : s.Ordered
  handling : ∀ list it caller, s.control = .handling list it caller →
    ∃ k, caller = .steps k ∧ s.queue.currentCycle + k + b < maxCycle

/-! ## One call of Loop -/

theorem loopSteps_eq (hnext : s.queue.currentCycle < s.queue.nextEventCycle) : s.loopSteps n = s.loopWhile n := by
  unfold loopSteps
  rw [if_neg fun h => by omega]

theorem Ordered.lt_next (ho : s.queue.Ordered) (hafter : ∀ e ∈ s.queue.eventMap, s.queue.currentCycle < e.cycle)
    (hclock : s.queue.currentCycle < maxCycle) : s.queue.currentCycle < s.queue.nextEventCycle := by
  rw [ho.next]
  exact le_firstCycle (show s.queue.currentCycle + 1 ≤ maxCycle from hclock) hafter

variable {list it : Nat}

theorem handle_resume : s.handle list it (.steps (k + b)) = s.handle list it (.steps k) >>= resume b := by
  unfold handle
  cases index s.queue.eventMap it with
  | error e => rfl
  | ok e => rfl

theorem process_resume : s.process (.steps (k + b)) = s.process (.steps k) >>= resume b := by
  unfold process
  cases hcount : require (s.queue.count s.queue.nextEventCycle) with
  | error e => rfl
  | ok u => exact handle_resume

theorem loopWhile_stops (hclock : s.queue.currentCycle + n ≤ maxCycle)
    (hlt : s.queue.currentCycle + n < s.queue.nextEventCycle) :
    s.loopWhile n = .ok (s.stopAt (s.queue.currentCycle + n)) := by
  unfold loopWhile
  split
  next hn =>
    rw [hn]
    rfl
  · rw [addCycles_of_le hclock, if_pos hlt]

/-- The next event comes within the steps. -/
theorem loopWhile_comes (ho : s.queue.Ordered) (hn : 0 < n) (hclock : s.queue.currentCycle + n ≤ maxCycle)
    (hle : s.queue.nextEventCycle ≤ s.queue.currentCycle + n) : s.loopWhile n =
      (s.stopAt s.queue.nextEventCycle).process (.steps (n - (s.queue.nextEventCycle - s.queue.currentCycle))) := by
  have hmax := ho.next_le_max
  have hnext := ho.le_next
  have hsub : subCycles s.queue.nextEventCycle s.queue.currentCycle = s.queue.nextEventCycle - s.queue.currentCycle :=
    subCycles_of_le hnext hmax
  have hadd : addCycles s.queue.currentCycle (s.queue.nextEventCycle - s.queue.currentCycle) = s.queue.nextEventCycle := by
    rw [addCycles_of_le (by omega)]
    omega
  have hrest : subCycles n (s.queue.nextEventCycle - s.queue.currentCycle) =
      n - (s.queue.nextEventCycle - s.queue.currentCycle) := subCycles_of_le (by omega) (by omega)
  unfold loopWhile
  rw [if_neg (by omega), addCycles_of_le hclock, if_neg (by omega)]
  simp only [hsub, hadd, hrest]

/-- The loop for `k + b` steps goes on where the loop for `k` steps stops. -/
theorem loopWhile_resume (ho : s.queue.Ordered) (hnext : s.queue.currentCycle < s.queue.nextEventCycle)
    (hclock : s.queue.currentCycle + k + b < maxCycle) : s.loopWhile (k + b) = s.loopWhile k >>= resume b := by
  by_cases hlt : s.queue.currentCycle + k < s.queue.nextEventCycle
  · -- The first `k` steps bring no event, so both loops look for one from the same clock.
    have hordered : (s.stopAt (s.queue.currentCycle + k)).queue.Ordered :=
      ho.stopAt (fun e he => Nat.le_trans (Nat.le_of_lt hlt) (ho.next_le he)) (by omega)
    rw [loopWhile_stops (by omega) hlt]
    show _ = (s.stopAt (s.queue.currentCycle + k)).loopSteps b
    rw [loopSteps_eq hlt]
    by_cases hfar : s.queue.currentCycle + (k + b) < s.queue.nextEventCycle
    · rw [loopWhile_stops (by omega) hfar, ← Nat.add_assoc]
      refine (loopWhile_stops (s := s.stopAt (s.queue.currentCycle + k)) ?_ ?_).symm
      · show s.queue.currentCycle + k + b ≤ maxCycle
        omega
      · show s.queue.currentCycle + k + b < s.queue.nextEventCycle
        omega
    · have hsteps : k + b - (s.queue.nextEventCycle - s.queue.currentCycle) =
          b - (s.queue.nextEventCycle - (s.queue.currentCycle + k)) := by omega
      rw [loopWhile_comes ho (by omega) (by omega) (by omega), hsteps]
      refine (loopWhile_comes hordered ?_ ?_ ?_).symm
      · omega
      · show s.queue.currentCycle + k + b ≤ maxCycle
        omega
      · show s.queue.nextEventCycle ≤ s.queue.currentCycle + k + b
        omega
  · -- Both loops come to the same event.
    have hsteps : k + b - (s.queue.nextEventCycle - s.queue.currentCycle) =
        k - (s.queue.nextEventCycle - s.queue.currentCycle) + b := by omega
    rw [loopWhile_comes ho (by omega) (by omega) (by omega), hsteps, loopWhile_comes ho (by omega) (by omega) (by omega)]
    exact process_resume

/-! ## The steps of the handlers -/

@[simp] theorem extend_queue : (s.extend b).queue = s.queue := rfl

theorem extend_control_idle : (s.extend b).control = .idle ↔ s.control = .idle := by
  unfold extend Control.extend
  cases s.control with
  | idle => simp
  | handling list it caller => cases caller <;> simp

theorem extend_handling (b list : Nat) (caller : Caller) :
    ∃ caller', ∀ it, (Control.handling list it caller).extend b = .handling list it caller' := by
  cases caller with
  | loop => exact ⟨.loop, fun _ => rfl⟩
  | steps k => exact ⟨.steps (k + b), fun _ => rfl⟩

variable {freed : Nat → Int} {e : Event} {t : Nat} {prio : Int}

theorem extend_insert : (s.extend b).insert freed e t prio = (s.insert freed e t prio).extend b := by
  have hread : (s.extend b).priorityOf freed = s.priorityOf freed := by
    unfold priorityOf isDeleted extend Control.extend
    cases s.control with
    | idle => rfl
    | handling list it caller => cases caller <;> rfl
  unfold QueueRun.insert
  rw [hread]
  unfold extend
  cases hc : s.control with
  | idle => rfl
  | handling list it caller =>
    obtain ⟨caller', hextend⟩ := extend_handling b list caller
    by_cases hj : s.queue.place (s.priorityOf freed) t prio ≤ it
    · simp only [hextend, if_pos hj]
    · simp only [hextend, if_neg hj]

variable {id : Nat}

theorem extend_remove : (s.extend b).remove id t = s.remove id t >>= fun u => .ok (u.extend b) := by
  unfold remove
  simp only [extend_queue]
  cases s.queue.find id t with
  | none => rfl
  | some j =>
    unfold extend
    cases hc : s.control with
    | idle => rfl
    | handling list it caller =>
      obtain ⟨caller', hextend⟩ := extend_handling b list caller
      by_cases hj : j = it
      · simp only [hextend, if_pos hj, bind_error]
      · by_cases hlt : it < j
        · simp only [hextend, if_neg hj, if_pos hlt, bind_ok]
        · simp only [hextend, if_neg hj, if_neg hlt, bind_ok]

theorem resume_busy (hc : s.control ≠ .idle) : resume b s = .ok (s.extend b) := by
  unfold resume
  cases h : s.control with
  | idle => exact absurd h hc
  | handling list it caller => rfl

theorem insert_busy (hc : s.control ≠ .idle) : (s.insert freed e t prio).control ≠ .idle := by
  unfold QueueRun.insert
  cases h : s.control with
  | idle => exact absurd h hc
  | handling list it caller =>
    dsimp only
    split
    · exact nofun
    · exact nofun

theorem remove_busy (hc : s.control ≠ .idle) (hr : s.remove id t = .ok s') : s'.control ≠ .idle := by
  unfold QueueRun.remove at hr
  split at hr
  · cases hr
    exact hc
  · cases h : s.control with
    | idle => exact absurd h hc
    | handling list it caller =>
      simp only [h] at hr
      split at hr
      · cases hr
      split at hr
      · cases hr
        exact nofun
      · cases hr
        exact nofun

theorem advance_extend (hw : s.Within b) (hc : s.control = .handling list it (.steps k)) :
    (s.extend b).advance list it (.steps (k + b)) = s.advance list it (.steps k) >>= resume b := by
  obtain ⟨k', hk, hclock⟩ := hw.handling list it (.steps k) hc
  obtain rfl := Caller.steps.inj hk
  have hcur := hw.ordered.next_eq hc
  have hfinish : (s.extend b).finish (.steps (k + b)) = s.finish (.steps k) >>= resume b := by
    have herased : s.erased.queue.Ordered := hw.ordered.queue.erase
    have hafter : ∀ e ∈ s.erased.queue.eventMap, s.erased.queue.currentCycle < e.cycle := by
      intro e he
      have hlt := hw.ordered.queue.lt_of_mem_erase he
      show s.queue.currentCycle < e.cycle
      omega
    have hnext := Ordered.lt_next herased hafter (show s.queue.currentCycle < maxCycle by omega)
    exact loopWhile_resume herased hnext hclock
  unfold advance
  simp only [extend_queue]
  cases s.queue.eventMap[it + 1]? with
  | none => exact hfinish
  | some e =>
    by_cases hlist : e.cycle = list
    · simp only [if_pos hlist]
      exact handle_resume
    · simp only [if_neg hlist]
      exact hfinish

/-- In the longer call a step does what it does in the shorter one, and where the shorter one returns the next one
  begins. -/
theorem step_extend (hw : s.Within b) (hc : s.control ≠ .idle) : (s.extend b).step op = s.step op >>= resume b := by
  have hbusy : (s.extend b).control ≠ .idle := fun h => hc (extend_control_idle.mp h)
  cases hop : op.insertion with
  | some i =>
    rw [step_insertion hop, step_insertion hop, extend_insert]
    exact (resume_busy (insert_busy hc)).symm
  | none =>
    cases op with
    | insertEvent | insertMade | insertCallback => cases hop
    | removeEvent id t =>
      show (s.extend b).remove id t = s.remove id t >>= resume b
      rw [extend_remove]
      cases hr : s.remove id t with
      | error e => rfl
      | ok u => exact (resume_busy (remove_busy hc hr)).symm
    | loop =>
      have hfails : ∀ u : QueueRun, u.control ≠ .idle → u.step .loop = .error .assertFailed := by
        intro u hu
        simp [step, require, hu]
      rw [hfails _ hbusy, hfails _ hc]
      rfl
    | loopSteps n =>
      have hfails : ∀ u : QueueRun, u.control ≠ .idle → u.step (.loopSteps n) = .error .assertFailed := by
        intro u hu
        simp [step, require, hu]
      rw [hfails _ hbusy, hfails _ hc]
      rfl
    | handlerReturns =>
      cases h : s.control with
      | idle => exact absurd h hc
      | handling list it caller =>
        obtain ⟨k, rfl, -⟩ := hw.handling list it caller h
        have hextended : (s.extend b).control = .handling list it (.steps (k + b)) := by
          unfold extend
          rw [h]
          rfl
        simp only [step, h, hextended]
        exact advance_extend hw h

theorem Within.loopWhile (ho : s.queue.Ordered) (hclock : s.queue.currentCycle + n + b < maxCycle)
    (hr : s.loopWhile n = .ok u) : u.Within b := by
  refine ⟨(Resumes.loopWhile ho hr).ordered ho, ?_⟩
  intro list it caller hc
  obtain ⟨-, rfl⟩ | ⟨e, rest, call, hl, hle, rfl⟩ := loopWhile_cases ho hr
  · cases hc
  · obtain ⟨rfl, rfl, rfl⟩ := Control.handling.inj hc
    have hadd : addCycles s.queue.currentCycle n = s.queue.currentCycle + n := addCycles_of_le (by omega)
    have hsub : subCycles n (e.cycle - s.queue.currentCycle) = n - (e.cycle - s.queue.currentCycle) :=
      subCycles_of_le (by omega) (by omega)
    refine ⟨_, rfl, ?_⟩
    show e.cycle + _ + b < maxCycle
    omega

theorem Within.requested (hw : s.Within b) (hreq : s.Requested s') (ho : s'.Ordered) : s'.Within b := by
  refine ⟨ho, ?_⟩
  intro list it caller hl
  obtain ⟨it', hl'⟩ := hreq.caller list it caller hl
  rw [hreq.clock]
  exact hw.handling list it' caller hl'

theorem Within.step (hw : s.Within b) (hs : HandlerStep s op s') : s'.Within b := by
  obtain ⟨hc, hlater, hr⟩ := hs
  have htimely : op.timely s = true := by
    cases hop : op.insertion with
    | none => simp only [Op.timely, hop]
    | some i =>
      simp only [Op.later, hop, Bool.and_eq_true, decide_eq_true_eq] at hlater
      simp only [Op.timely, hop, Bool.and_eq_true, decide_eq_true_eq]
      omega
  have ho := hw.ordered.step htimely hr
  obtain ⟨e, t, prio, freed, -, rfl⟩ | ⟨id, t, rfl, hr⟩ | ⟨hidle, -⟩ | ⟨list, it, caller, hcontrol, hr⟩ :=
    step_cases hw.ordered hr
  · exact hw.requested insert_requested ho
  · exact hw.requested (remove_requested hr).1 ho
  · exact absurd hidle hc
  · obtain ⟨k, rfl, hclock⟩ := hw.handling list it caller hcontrol
    obtain ⟨e, call, he, hcycle, rfl⟩ | ⟨-, hr⟩ := advance_cases hw.ordered hcontrol hr
    · refine ⟨ho, ?_⟩
      intro list' it' caller' hl
      obtain ⟨rfl, rfl, rfl⟩ := Control.handling.inj hl
      exact ⟨k, rfl, hclock⟩
    · exact Within.loopWhile (s := s.erased) hw.ordered.queue.erase hclock hr

theorem Exec.within (hw : s.Within b) (hr : Exec HandlerStep s h s') : s'.Within b :=
  hr.invariant hw fun _ _ _ ht hs => ht.step hs

/-! ## Two calls and one -/

theorem resume_run (hw : s.Within b) (hr : Exec HandlerStep s h u) (hresume : resume b u = .ok w) :
    ∃ w₀, resume b s = .ok w₀ ∧ Exec HandlerStep w₀ h w := by
  induction hr generalizing w with
  | nil => exact ⟨w, hresume, .nil⟩
  | snoc hr hs ih =>
    obtain ⟨hc, hlater, hstep⟩ := hs
    obtain ⟨w₀, hstart, hrun⟩ := ih (resume_busy hc)
    refine ⟨w₀, hstart, .snoc hrun ⟨fun h => hc (extend_control_idle.mp h), hlater, ?_⟩⟩
    rw [step_extend (Exec.within hw hr) hc, hstep]
    exact hresume

/-- What the handlers do in the call of `Loop(a + b)` is done in that of `Loop(a)` until it returns, and from there in
  that of `Loop(b)`. -/
theorem split_run (hw : s.Within b) {w₀ : QueueRun} (hresume : resume b s = .ok w₀) (hr : Exec HandlerStep w₀ h w) :
    (∃ u, Exec HandlerStep s h u ∧ u.control ≠ .idle ∧ w = u.extend b) ∨
      ∃ h₁ h₂ u w₁, h = h₁ ++ h₂ ∧ Exec HandlerStep s h₁ u ∧ u.control = .idle ∧ u.loopSteps b = .ok w₁ ∧
        Exec HandlerStep w₁ h₂ w := by
  have harrive : ∀ {h : List Op} {u w : QueueRun}, Exec HandlerStep s h u → resume b u = .ok w →
      (∃ u, Exec HandlerStep s h u ∧ u.control ≠ .idle ∧ w = u.extend b) ∨
        ∃ h₁ h₂ u w₁, h = h₁ ++ h₂ ∧ Exec HandlerStep s h₁ u ∧ u.control = .idle ∧ u.loopSteps b = .ok w₁ ∧
          Exec HandlerStep w₁ h₂ w := by
    intro h u w hr hresume
    by_cases hc : u.control = .idle
    · refine .inr ⟨h, [], u, w, (List.append_nil h).symm, hr, hc, ?_, .nil⟩
      unfold resume at hresume
      rwa [hc] at hresume
    · rw [resume_busy hc] at hresume
      exact .inl ⟨u, hr, hc, (Except.ok.inj hresume).symm⟩
  induction hr with
  | nil => exact harrive .nil hresume
  | snoc hr hs ih =>
    obtain ⟨u, hu, hc, rfl⟩ | ⟨h₁, h₂, u, w₁, rfl, hu, hc, hloop, hrun⟩ := ih
    · obtain ⟨-, hlater, hstep⟩ := hs
      rw [step_extend (Exec.within hw hu) hc] at hstep
      obtain ⟨u', hu', hresume'⟩ := of_bind hstep
      exact harrive (.snoc hu ⟨hc, hlater, hu'⟩) hresume'
    · exact .inr ⟨h₁, _, u, w₁, List.append_assoc .., hu, hc, hloop, .snoc hrun hs⟩

theorem step_loopSteps : s.step (.loopSteps n) = .ok u ↔ s.control = .idle ∧ s.loopSteps n = .ok u := by
  show (require (s.control == .idle) >>= fun _ => s.loopSteps n) = .ok u ↔ _
  rw [bind_eq_ok]
  simp

/-- Advancing in pieces is advancing at once: whatever the handlers do, the two calls end in a state exactly when the
  one call does. The states are the same, with the clock, the queue and the list of the handled events. -/
theorem loop_split (ho : s.queue.Ordered) (hafter : ∀ e ∈ s.queue.eventMap, s.queue.currentCycle < e.cycle)
    (hclock : s.queue.currentCycle + a + b < maxCycle) :
    LoopCall s (a + b) h s' ↔ ∃ h₁ h₂ s₁, h = h₁ ++ h₂ ∧ LoopCall s a h₁ s₁ ∧ LoopCall s₁ b h₂ s' := by
  have hnext := Ordered.lt_next ho hafter (by omega)
  have hsplit : s.loopSteps (a + b) = s.loopSteps a >>= resume b := by
    rw [loopSteps_eq hnext, loopSteps_eq hnext]
    exact loopWhile_resume ho hnext hclock
  constructor
  · intro ⟨w₀, hstep, hrun, hidle⟩
    obtain ⟨hc, hloop⟩ := step_loopSteps.mp hstep
    rw [hsplit] at hloop
    obtain ⟨u₀, hu₀, hresume⟩ := of_bind hloop
    have hw : u₀.Within b := by
      rw [loopSteps_eq hnext] at hu₀
      exact Within.loopWhile ho hclock hu₀
    obtain ⟨u, -, hbusy, rfl⟩ | ⟨h₁, h₂, u, w₁, hh, hu, huc, hloop', hrun'⟩ := split_run hw hresume hrun
    · exact absurd (extend_control_idle.mp hidle) hbusy
    · exact ⟨h₁, h₂, u, hh, ⟨u₀, step_loopSteps.mpr ⟨hc, hu₀⟩, hu, huc⟩, w₁, step_loopSteps.mpr ⟨huc, hloop'⟩, hrun', hidle⟩
  · intro ⟨h₁, h₂, s₁, hh, ⟨u₀, hstep, hu, huc⟩, w₁, hstep', hrun', hidle⟩
    obtain ⟨hc, hu₀⟩ := step_loopSteps.mp hstep
    obtain ⟨-, hloop'⟩ := step_loopSteps.mp hstep'
    have hw : u₀.Within b := by
      rw [loopSteps_eq hnext] at hu₀
      exact Within.loopWhile ho hclock hu₀
    have hresume : resume b s₁ = .ok w₁ := by
      unfold resume
      rw [huc]
      exact hloop'
    obtain ⟨w₀, hw₀, hrun⟩ := resume_run hw hu hresume
    refine ⟨w₀, step_loopSteps.mpr ⟨hc, ?_⟩, hh ▸ .append hrun hrun', hidle⟩
    rw [hsplit, hu₀]
    exact hw₀

/-- The clock at 5 and a callback at 10. -/
def callbackAt10 : QueueRun where
  queue := { eventMap := [{ type := .callback, cycle := 10 }], nextEventCycle := 10, currentCycle := 5 }

theorem callbackAt10_ordered : callbackAt10.queue.Ordered ∧
    ∀ e ∈ callbackAt10.queue.eventMap, callbackAt10.queue.currentCycle < e.cycle := by
  have hevent : ∀ e ∈ callbackAt10.queue.eventMap, e.cycle = 10 := by
    intro e he
    rw [List.mem_singleton.mp he]
  refine ⟨⟨List.pairwise_singleton _ _, rfl, ?_, by decide⟩, ?_⟩
  · intro e he
    rw [hevent e he]
    decide
  · intro e he
    rw [hevent e he]
    decide

/-- The handler inserts a callback at 12 and returns, then that of the second callback returns. -/
def twoCallbacks : List Op := [.insertCallback none none 12 none 0 fun _ => 0, .handlerReturns, .handlerReturns]

/-- Nine cycles at once, and in pieces that meet at the first event. -/
theorem nine_cycles : ∃ s', s'.queue.currentCycle = 14 ∧ s'.processed.length = 2 ∧
    LoopCall callbackAt10 (5 + 4) twoCallbacks s' ∧
      ∃ h₁ h₂ s₁, twoCallbacks = h₁ ++ h₂ ∧ LoopCall callbackAt10 5 h₁ s₁ ∧ LoopCall s₁ 4 h₂ s' := by
  have hrun : ∃ u, callbackAt10.step (.loopSteps 9) = .ok u ∧
      endsInIf (fun s op => s.control != .idle && op.later s) step u twoCallbacks (fun s =>
        decide (s.control = .idle) && decide (s.queue.currentCycle = 14) && decide (s.processed.length = 2)) = true :=
    ⟨callbackAt10.comesTo { type := .callback, cycle := 10 } (.steps 4) (some (.callback none none none)),
      by decide +kernel, by decide +kernel⟩
  obtain ⟨u, hu, hends⟩ := hrun
  obtain ⟨s', hr, hs⟩ := Exec.of_endsInIf hends
  simp only [Bool.and_eq_true, decide_eq_true_eq] at hs
  obtain ⟨⟨hidle, hclock⟩, hlen⟩ := hs
  have hcall : LoopCall callbackAt10 (5 + 4) twoCallbacks s' := by
    refine ⟨u, hu, hr.mono ?_, hidle⟩
    intro s op s' ⟨hc, hstep⟩
    obtain ⟨hbusy, hlater⟩ := Bool.and_eq_true_iff.mp hc
    exact ⟨by simpa using hbusy, hlater, hstep⟩
  exact ⟨s', hclock, hlen, hcall, (loop_split callbackAt10_ordered.1 callbackAt10_ordered.2 (by decide)).mp hcall⟩

theorem run_nil (hr : Exec HandlerStep s [] s') : s' = s := by
  generalize hl : ([] : List Op) = l at hr
  cases hr with
  | nil => rfl
  | snoc => exact absurd hl.symm (List.append_ne_nil_of_right_ne_nil _ (List.cons_ne_nil _ _))

/-- The steps of both calls together go round the largest cycle, and the callback is passed over. -/
theorem loop_not_split : ¬ ∀ (s s' : QueueRun) (a b : Nat) (h : List Op), s.queue.Ordered →
      (∀ e ∈ s.queue.eventMap, s.queue.currentCycle < e.cycle) → a + b ≤ maxCycle →
      (LoopCall s (a + b) h s' ↔ ∃ h₁ h₂ s₁, h = h₁ ++ h₂ ∧ LoopCall s a h₁ s₁ ∧ LoopCall s₁ b h₂ s') := by
  intro hall
  have hwhole : LoopCall callbackAt10 (10 + (2 ^ 64 - 12)) [] (callbackAt10.stopAt 3) := by
    have hwrap : addCycles callbackAt10.queue.currentCycle (10 + (2 ^ 64 - 12)) = 3 := by
      unfold addCycles
      decide
    refine ⟨callbackAt10.stopAt 3, step_loopSteps.mpr ⟨rfl, ?_⟩, .nil, rfl⟩
    rw [loopSteps_eq (by decide), loopWhile, if_neg (by decide), hwrap, if_pos (by decide)]
  obtain ⟨h₁, h₂, s₁, hh, ⟨u, hstep, hrun, hidle⟩, -⟩ :=
    (hall callbackAt10 _ _ _ [] callbackAt10_ordered.1 callbackAt10_ordered.2 (by decide)).mp hwhole
  obtain ⟨rfl, -⟩ := List.append_eq_nil_iff.mp hh.symm
  obtain rfl := run_nil hrun
  have hloop := (step_loopSteps.mp hstep).2
  rw [loopSteps_eq (by decide)] at hloop
  -- Within ten cycles `Loop` comes to the callback, and its handler has not returned.
  obtain ⟨hle, -⟩ | ⟨e, rest, call, -, -, rfl⟩ := loopWhile_cases callbackAt10_ordered.1 hloop
  · have hten := hle _ List.mem_cons_self
    rw [addCycles_of_le (by decide)] at hten
    exact absurd hten (by decide)
  · cases hidle

end QueueRun

end Nvm
