import Gem5Nvmain.Mem.XBarLayer
import Mathlib.Data.List.Nodup

/- The layer never strands a port.

  `Tracked` ties the two places where a port can wait to what the ports and the peer have heard, and `Phase` the state
  of the layer to the calls that are open: at most a packet on its way to the peer, and a `sendRetry` around it. Every
  step keeps both (`Inv.step`), and none fails an assertion, but for a packet that takes no time at tick 0. So whoever
  waits will be called (`attended`), in the order of the refusals (`InOrder`). -/
namespace Gem5.Mem.XBarLayer
open Lib List System

variable {P : Type} {h : List (Event P)} {p q : P} {line : List P} {peer : Option P}

/-! ## What the ports and the peer wait for -/

@[simp] theorem peerOwesRetry_refused : peerOwesRetry (h ++ [.refused p]) = peerOwesRetry h := by
  unfold peerOwesRetry
  rw [reverse_append]
  rfl

@[simp] theorem peerOwesRetry_refusedByPeer : peerOwesRetry (h ++ [.refusedByPeer p]) = true := by
  unfold peerOwesRetry
  rw [reverse_append]
  rfl

@[simp] theorem peerOwesRetry_peerRetry : peerOwesRetry (h ++ [.peerRetry]) = false := by
  unfold peerOwesRetry
  rw [reverse_append]
  rfl

@[simp] theorem peerOwesRetry_retried : peerOwesRetry (h ++ [.retried p]) = peerOwesRetry h := by
  unfold peerOwesRetry
  rw [reverse_append]
  rfl

variable [DecidableEq P]

/-- The ports that were refused and not retried since. -/
structure Pending (P : Type) where
  byPeer : Option P := none
  /-- in the order of the refusals -/
  byLayer : List P := []
  deriving DecidableEq, Repr

def Pending.after (q : Pending P) : Event P → Pending P
  | .refused p => { q with byLayer := q.byLayer ++ [p] }
  | .refusedByPeer p => { q with byPeer := some p }
  | .peerRetry => q
  | .retried p => if q.byPeer = some p then { q with byPeer := none } else { q with byLayer := q.byLayer.erase p }

def pending (h : List (Event P)) : Pending P := h.foldl Pending.after {}

/-- The port that has to be retried before the others. -/
def Pending.first (q : Pending P) : Option P :=
  match q.byPeer with
  | some p => some p
  | none => q.byLayer.head?

/-- Every port was retried when it was the first. -/
def InOrder (h : List (Event P)) : Prop := ∀ h₁ p h₂, h = h₁ ++ .retried p :: h₂ → (pending h₁).first = some p

theorem pending_snoc (h : List (Event P)) (e : Event P) : pending (h ++ [e]) = (pending h).after e := by
  unfold pending
  rw [foldl_append]
  rfl

theorem InOrder.snoc {e : Event P} (hi : InOrder h) (he : ∀ p, e = .retried p → (pending h).first = some p) : InOrder (h ++ [e]) := by
  intro h₁ p h₂ heq
  rcases append_eq_append_iff.mp heq with ⟨k, rfl, hk⟩ | ⟨k, rfl, hk⟩
  · cases k with
    | nil =>
      cases hk
      simpa using he p rfl
    | cons f k =>
      have := congrArg length hk
      simp at this
  · cases k with
    | nil =>
      cases hk
      simpa using he p rfl
    | cons f k =>
      cases hk
      exact hi h₁ p k rfl

@[simp] theorem stillRefused_refused : stillRefused (h ++ [.refused q]) p = (q == p || stillRefused h p) := by
  unfold stillRefused
  by_cases hq : q = p <;> simp [Event.isOf, hq]

@[simp] theorem stillRefused_refusedByPeer :
    stillRefused (h ++ [.refusedByPeer q]) p = (q == p || stillRefused h p) := by
  unfold stillRefused
  by_cases hq : q = p <;> simp [Event.isOf, hq]

@[simp] theorem stillRefused_peerRetry : stillRefused (h ++ [.peerRetry]) p = stillRefused h p := by
  unfold stillRefused
  simp [Event.isOf]

@[simp] theorem stillRefused_retried : stillRefused (h ++ [.retried q]) p = (q != p && stillRefused h p) := by
  unfold stillRefused
  by_cases hq : q = p <;> simp [Event.isOf, hq]

/-! ## The places where they wait -/

def Layer.waiting (l : Layer P) : List P := l.waitingForPeer.toList ++ l.waitingForLayer

/-- `line` and `peer` are `waitingForLayer` and `waitingForPeer`. -/
structure Tracked (line : List P) (peer : Option P) (h : List (Event P)) : Prop where
  queue : peer.toList ++ line = (pending h).byPeer.toList ++ (pending h).byLayer
  held : ∀ p, peer = some p → (pending h).byPeer = some p
  nodup : (peer.toList ++ line).Nodup
  mem : ∀ p, p ∈ peer.toList ++ line ↔ stillRefused h p = true
  owes : peerOwesRetry h = peer.isSome
  order : InOrder h

theorem Tracked.init : Tracked (P := P) [] none [] where
  queue := rfl
  held := by simp
  nodup := nodup_nil
  mem := by simp [stillRefused]
  owes := rfl
  order := by simp [InOrder]

theorem Tracked.refused (t : Tracked line peer h) (hp : stillRefused h p = false) :
    Tracked (line ++ [p]) peer (h ++ [.refused p]) where
  queue := by
    rw [pending_snoc, ← append_assoc, t.queue, append_assoc]
    rfl
  held q hq := by
    rw [pending_snoc]
    exact t.held q hq
  nodup := by
    have hmem : p ∉ peer.toList ++ line := by
      rw [t.mem, hp]
      exact Bool.false_ne_true
    rw [← append_assoc]
    exact nodup_append.mpr ⟨t.nodup, nodup_singleton p, by
      intro a ha b hb
      rw [mem_singleton] at hb
      rintro rfl
      exact hmem (hb ▸ ha)⟩
  mem q := by
    rw [← append_assoc, mem_append, t.mem, stillRefused_refused, Bool.or_eq_true, beq_iff_eq, mem_singleton,
      or_comm, eq_comm]
  owes := by rw [peerOwesRetry_refused, t.owes]
  order := t.order.snoc (by simp)

theorem Tracked.refusedByPeer (t : Tracked line none h) (hb : (pending h).byPeer = none) (hp : stillRefused h p = false) :
    Tracked line (some p) (h ++ [.refusedByPeer p]) where
  queue := by
    have hline := t.queue
    rw [hb] at hline
    rw [pending_snoc]
    exact congrArg (p :: ·) hline
  held q hq := by
    rw [pending_snoc]
    exact hq
  nodup := by
    have hmem : p ∉ line := by
      intro hmem
      have := (t.mem p).mp hmem
      rw [hp] at this
      cases this
    exact nodup_cons.mpr ⟨hmem, t.nodup⟩
  mem q := by
    have hq : q ∈ line ↔ stillRefused h q = true := t.mem q
    rw [stillRefused_refusedByPeer, Bool.or_eq_true, beq_iff_eq, ← hq, Option.toList_some, singleton_append, mem_cons,
      eq_comm]
  owes := peerOwesRetry_refusedByPeer
  order := t.order.snoc (by simp)

theorem Tracked.peerRetry (t : Tracked line (some p) h) : Tracked (p :: line) none (h ++ [.peerRetry]) where
  queue := by
    rw [pending_snoc]
    exact t.queue
  held := by simp
  nodup := t.nodup
  mem q := by
    rw [stillRefused_peerRetry]
    exact t.mem q
  owes := peerOwesRetry_peerRetry
  order := t.order.snoc (by simp)

theorem Tracked.first (t : Tracked (p :: line) none h) : (pending h).first = some p := by
  have hq := t.queue
  unfold Pending.first
  cases hb : (pending h).byPeer with
  | none =>
    rw [hb] at hq
    rw [← show p :: line = (pending h).byLayer from hq]
    rfl
  | some r =>
    rw [hb] at hq
    cases (cons_eq_cons.mp hq).1
    rfl

theorem Tracked.pending_retried (t : Tracked (p :: line) none h) :
    pending (h ++ [.retried p]) = { byPeer := none, byLayer := line } := by
  have hq := t.queue
  rw [pending_snoc]
  unfold Pending.after
  cases hb : (pending h).byPeer with
  | none =>
    rw [hb] at hq
    dsimp only
    rw [if_neg (Option.some_ne_none p).symm, ← show p :: line = (pending h).byLayer from hq, erase_cons_head]
  | some r =>
    rw [hb] at hq
    obtain ⟨rfl, hl⟩ := cons_eq_cons.mp hq
    dsimp only
    rw [if_pos rfl, hl]
    rfl

theorem Tracked.retried (t : Tracked (p :: line) none h) : Tracked line none (h ++ [.retried p]) where
  queue := by rw [t.pending_retried]
  held := by simp
  nodup := (nodup_cons.mp t.nodup).2
  mem q := by
    have hq := t.mem q
    have hp : p ∉ line := (nodup_cons.mp t.nodup).1
    rw [stillRefused_retried, Bool.and_eq_true, bne_iff_ne, ← hq]
    simp only [Option.toList_none, nil_append, mem_cons]
    constructor
    · intro hmem
      exact ⟨fun h => hp (h ▸ hmem), .inr hmem⟩
    · rintro ⟨hne, rfl | hmem⟩
      · exact absurd rfl hne
      · exact hmem
  owes := by rw [peerOwesRetry_retried, t.owes]
  order := t.order.snoc (by
    intro r hr
    cases hr
    exact t.first)

/-! ## The layer and the open calls -/

variable {x : XBarParams} {s t : System P} {rest : List (Call P)} {op : LayerOp P} {n : Nat}

/-- Around the call that is innermost there is at most a `sendRetry`. -/
def Outer (calls : List (Call P)) : Prop := calls = [] ∨ ∃ q, calls = [.sendRetry q]

/-- Nothing is scheduled, and the peer has taken all it was offered. -/
structure Free (s : System P) : Prop where
  event : s.layer.releaseEvent = none
  peer : s.layer.waitingForPeer = none
  none : (pending s.history).byPeer = none

inductive Phase (s : System P) : Prop where
  | idle (hc : s.calls = []) (hs : s.layer.state = .idle) (he : s.layer.releaseEvent = none)
      (hw : s.layer.waitingForLayer ≠ [] → s.layer.waitingForPeer ≠ none)
  | occupied (n : Nat) (hc : Outer s.calls) (hs : s.layer.state = .busy) (he : s.layer.releaseEvent = some n) (hn : s.curTick ≤ n)
  | forwarding (p : P) (rest : List (Call P)) (hc : s.calls = .forward p :: rest) (ho : Outer rest) (hs : s.layer.state = .busy)
      (hf : Free s) (hp : stillRefused s.history p = false)
  | retrying (q : P) (hc : s.calls = [.sendRetry q]) (hs : s.layer.state = .retry) (hf : Free s)

structure Inv (s : System P) : Prop where
  tracked : Tracked s.layer.waitingForLayer s.layer.waitingForPeer s.history
  phase : Phase s

theorem Inv.init : Inv (P := P) {} where
  tracked := Tracked.init
  phase := Phase.idle rfl rfl rfl (absurd rfl)

theorem le_updateTick {period tick curTick : Nat} (hp : 0 < period) : curTick ≤ updateTick period tick curTick := by
  unfold updateTick
  dsimp only
  split
  · assumption
  · split
    · assumption
    · have : curTick - (tick + period) ≤ period * ((curTick - (tick + period)) ⌈/⌉ period) := (ceilDiv_le_iff_le_mul hp).mp le_rfl
      rw [Nat.mul_comm] at this
      omega

section
omit [DecidableEq P]
variable {l : Layer P} {now u : Nat}

theorem occupyLayer_eq (hs : l.state = .busy) (he : l.releaseEvent = none) (h0 : u ≠ 0) (hu : now ≤ u) :
    l.occupyLayer now u = .ok { l with releaseEvent := some u } := by
  unfold Layer.occupyLayer
  simp [hs, he, h0, hu, require]

theorem succeededTiming_eq (hs : l.state = .busy) (he : l.releaseEvent = none) (h0 : u ≠ 0) (hu : now ≤ u) :
    l.succeededTiming now u = .ok { l with releaseEvent := some u } := by
  unfold Layer.succeededTiming
  rw [occupyLayer_eq hs he h0 hu, hs]
  rfl

theorem failedTiming_eq (hs : l.state = .busy) (hp : l.waitingForPeer = none) (he : l.releaseEvent = none) (h0 : u ≠ 0)
    (hu : now ≤ u) : l.failedTiming p now u = .ok { l with waitingForPeer := some p, releaseEvent := some u } := by
  have hocc := occupyLayer_eq (l := { l with waitingForPeer := some p }) hs he h0 hu
  unfold Layer.failedTiming
  rw [hp]
  dsimp only
  rw [hocc, hs]
  rfl

theorem retried_eq (hs : l.state = .retry) (he : l.releaseEvent = none) (h0 : u ≠ 0) (hu : now ≤ u) :
    l.retried now u = .ok { l with state := .busy, releaseEvent := some u } := by
  unfold Layer.retried
  rw [if_pos hs]
  exact occupyLayer_eq rfl he h0 hu

theorem retried_eq_self (hs : l.state = .busy) : l.retried now u = .ok l := by
  unfold Layer.retried
  rw [if_neg (by simp [hs])]
  rfl

end

/-! ## The steps -/

theorem Inv.request (i : Inv s) (ha : s.allowed (.request p) = true) (hp : s.patient (.request p) = true) :
    ∃ t, s.step x (.request p) = .ok t ∧ Inv t := by
  have hp : Call.forward p ∉ s.calls := by simpa [patient] using hp
  have ha : stillRefused s.history p = false := by simpa [allowed] using ha
  by_cases hb : s.layer.state = .busy ∨ s.layer.waitingForPeer.isSome = true
  · -- refused: the port goes to the end of the line
    have hnot : p ∉ s.layer.waitingForLayer := by
      intro hmem
      have := (i.tracked.mem p).mp (mem_append_right _ hmem)
      rw [ha] at this
      cases this
    refine ⟨{ s with
      layer := { s.layer with waitingForLayer := s.layer.waitingForLayer ++ [p] }
      history := s.history ++ [.refused p] }, ?_, i.tracked.refused ha, ?_⟩
    · simp [step, Layer.tryTiming, hb, hnot, require]
    · cases i.phase with
      | idle hc hs he hw =>
        refine Phase.idle hc hs he fun _ hnone => ?_
        rw [hs, hnone] at hb
        simp at hb
      | occupied n hc hs he hn => exact Phase.occupied n hc hs he hn
      | forwarding q rest hc ho hs hf hq =>
        refine Phase.forwarding q rest hc ho hs ⟨hf.event, hf.peer, ?_⟩ ?_
        · rw [pending_snoc]
          exact hf.none
        · have hne : p ≠ q := by
            rintro rfl
            exact hp (hc ▸ mem_cons_self)
          simpa [hne] using hq
      | retrying q hc hs hf =>
        rw [hs, hf.peer] at hb
        simp at hb
  · -- accepted: the packet is on its way to the peer
    have hpeer : s.layer.waitingForPeer = none := by
      have := (not_or.mp hb).2
      simpa using this
    refine ⟨{ s with layer := { s.layer with state := .busy }, calls := .forward p :: s.calls }, ?_, i.tracked, ?_⟩
    · simp only [step, Layer.tryTiming, if_neg hb]
      rfl
    · cases i.phase with
      | idle hc hs he hw =>
        have hline : s.layer.waitingForLayer = [] := by
          by_contra hne
          exact hw hne hpeer
        have hq := i.tracked.queue
        rw [hline, hpeer] at hq
        have hnone : (pending s.history).byPeer.toList = [] := (append_eq_nil_iff.mp hq.symm).1
        refine Phase.forwarding p [] (congrArg _ hc) (.inl rfl) rfl ⟨he, hpeer, ?_⟩ ha
        simpa using hnone
      | occupied n hc hs he hn => exact absurd (.inl hs) hb
      | forwarding q rest hc ho hs hf hq => exact absurd (.inl hs) hb
      | retrying q hc hs hf =>
        exact Phase.forwarding p [.sendRetry q] (congrArg _ hc) (.inr ⟨q, rfl⟩) rfl ⟨hf.event, hf.peer, hf.none⟩ ha

theorem Inv.forwarding (i : Inv s) (hc : s.calls = .forward p :: rest) :
    Outer rest ∧ s.layer.state = .busy ∧ Free s ∧ stillRefused s.history p = false := by
  cases i.phase with
  | idle hc' => simp [hc] at hc'
  | occupied n hc' =>
    rcases hc' with hc' | ⟨q, hc'⟩
    · simp [hc] at hc'
    · simp [hc] at hc'
  | forwarding q rest' hc' ho hs hf hp =>
    rw [hc] at hc'
    cases hc'
    exact ⟨ho, hs, hf, hp⟩
  | retrying q hc' => simp [hc] at hc'

omit [DecidableEq P] in
theorem allowed_forward (h : (match s.calls with
    | .forward _ :: _ => true
    | _ => false) = true) : ∃ p rest, s.calls = .forward p :: rest := by
  split at h
  · rename_i p rest hc
    exact ⟨p, rest, hc⟩
  · cases h

theorem Inv.succeeded {size latency : Nat} (hx : 0 < x.clockPeriod) (i : Inv s) (ha : s.allowed (.succeeded size latency) = true)
    (ht : s.takesTime x (.succeeded size latency) = true) : ∃ t, s.step x (.succeeded size latency) = .ok t ∧ Inv t := by
  obtain ⟨p, rest, hc⟩ := allowed_forward ha
  obtain ⟨ho, hs, hf, hp⟩ := i.forwarding hc
  have hnow : s.curTick ≤ (s.update x).packetFinishTime x size latency := by
    unfold packetFinishTime update
    dsimp only
    omega
  have h0 : (s.update x).packetFinishTime x size latency ≠ 0 := by
    have hpos := hx.ne'
    unfold packetFinishTime update
    simp only [takesTime, Bool.or_eq_true, bne_iff_ne] at ht
    rw [Ne, Nat.add_eq_zero_iff, Nat.add_eq_zero_iff, Nat.add_eq_zero_iff, Nat.mul_eq_zero, Nat.mul_eq_zero, Nat.add_eq_zero_iff]
    tauto
  refine ⟨{ s.update x with
    layer := { s.layer with releaseEvent := some ((s.update x).packetFinishTime x size latency) }
    calls := s.calls.tail }, ?_, i.tracked, ?_⟩
  · exact bind_eq_ok.mpr ⟨_, succeededTiming_eq hs hf.event h0 hnow, rfl⟩
  · exact Phase.occupied _ (by simpa [hc] using ho) hs rfl hnow

theorem Inv.failed (hx : 0 < x.clockPeriod) (i : Inv s) (ha : s.allowed .failed = true) (ht : s.takesTime x .failed = true) :
    ∃ t, s.step x .failed = .ok t ∧ Inv t := by
  obtain ⟨p, rest, hc⟩ := allowed_forward ha
  obtain ⟨ho, hs, hf, hp⟩ := i.forwarding hc
  have hedge : s.curTick ≤ updateTick x.clockPeriod s.tick s.curTick := le_updateTick hx
  have hnow : s.curTick ≤ (s.update x).clockEdge x x.headerCycles := Nat.le_add_right_of_le hedge
  have h0 : (s.update x).clockEdge x x.headerCycles ≠ 0 := by
    simp only [takesTime, Bool.or_eq_true, bne_iff_ne] at ht
    unfold clockEdge update
    dsimp only
    rw [Ne, Nat.add_eq_zero_iff, Nat.mul_eq_zero]
    omega
  have htracked : Tracked s.layer.waitingForLayer none s.history := hf.peer ▸ i.tracked
  refine ⟨{ s.update x with
    layer := { s.layer with waitingForPeer := some p, releaseEvent := some ((s.update x).clockEdge x x.headerCycles) }
    calls := rest
    history := s.history ++ [.refusedByPeer p] }, ?_, htracked.refusedByPeer hf.none hp, ?_⟩
  · simp only [step, hc]
    exact bind_eq_ok.mpr ⟨_, failedTiming_eq hs hf.peer hf.event h0 hnow, rfl⟩
  · exact Phase.occupied _ ho hs rfl hnow

/-- `sendRetry` has returned. -/
theorem Inv.returned (hx : 0 < x.clockPeriod) (i : Inv s) (ha : s.allowed .returned = true) :
    ∃ t, s.step x .returned = .ok t ∧ Inv t := by
  have hc : ∃ q rest, s.calls = .sendRetry q :: rest := by
    simp only [allowed] at ha
    split at ha
    · rename_i q rest hc
      exact ⟨q, rest, hc⟩
    · cases ha
  obtain ⟨q, rest, hc⟩ := hc
  cases i.phase with
  | idle hc' => simp [hc] at hc'
  | forwarding p rest' hc' => simp [hc] at hc'
  | occupied n hc' hs he hn =>
    refine ⟨{ s.update x with calls := s.calls.tail }, ?_, i.tracked, Phase.occupied n ?_ hs he hn⟩
    · exact bind_eq_ok.mpr ⟨_, retried_eq_self hs, rfl⟩
    · rcases hc' with hc' | ⟨r, hc'⟩
      · simp [hc] at hc'
      · left
        rw [hc']
        rfl
  | retrying r hc' hs hf =>
    have hedge : s.curTick ≤ updateTick x.clockPeriod s.tick s.curTick := le_updateTick hx
    have hnow : s.curTick ≤ (s.update x).clockEdge x 1 := Nat.le_add_right_of_le hedge
    have h0 : (s.update x).clockEdge x 1 ≠ 0 := by
      unfold clockEdge
      omega
    refine ⟨{ s.update x with
      layer := { s.layer with state := .busy, releaseEvent := some ((s.update x).clockEdge x 1) }
      calls := s.calls.tail }, ?_, i.tracked, Phase.occupied _ ?_ rfl rfl hnow⟩
    · exact bind_eq_ok.mpr ⟨_, retried_eq hs hf.event h0 hnow, rfl⟩
    · left
      rw [hc']
      rfl

theorem Inv.callRetry {l : Layer P} (hc : s.calls = []) (hs : l.state = .idle) (he : l.releaseEvent = none)
    (hline : l.waitingForLayer = p :: line) (hpeer : l.waitingForPeer = none) (t : Tracked (p :: line) none s.history) :
    ∃ l', l.retryWaiting = .ok (p, l') ∧ Inv (s.callRetry (some p, l')) := by
  refine ⟨{ l with state := .retry, waitingForLayer := line }, ?_, ?_, ?_⟩
  · unfold Layer.retryWaiting
    simp [hline, hs, require]
  · show Tracked line l.waitingForPeer _
    rw [hpeer]
    exact t.retried
  · refine Phase.retrying p (congrArg _ hc) rfl ⟨he, hpeer, ?_⟩
    exact congrArg Pending.byPeer t.pending_retried

theorem Inv.release (i : Inv s) (ha : s.allowed .release = true) : ∃ t, s.step x .release = .ok t ∧ Inv t := by
  simp only [allowed, Bool.and_eq_true, beq_iff_eq] at ha
  obtain ⟨hc, hevent⟩ := ha
  have hs : s.layer.state = .busy := by
    cases i.phase with
    | idle hc' hs he => simp [he] at hevent
    | forwarding p rest hc' => simp [hc] at hc'
    | retrying q hc' => simp [hc] at hc'
    | occupied n hc' hs he hn => exact hs
  have htracked := i.tracked
  cases hline : s.layer.waitingForLayer with
  | nil =>
    -- nobody waits for the layer
    refine ⟨s.callRetry (none, { s.layer with releaseEvent := none, state := .idle
                                              drainManager := s.layer.drainManager && s.layer.waitingForPeer.isSome }), ?_, ?_⟩
    · refine bind_eq_ok.mpr ⟨_, ?_, rfl⟩
      simp only [hs, hline]
      cases hd : s.layer.drainManager <;> cases hp : s.layer.waitingForPeer <;> rfl
    · exact ⟨htracked, Phase.idle hc rfl rfl (absurd hline)⟩
  | cons p line =>
    cases hp : s.layer.waitingForPeer with
    | none =>
      rw [hline, hp] at htracked
      obtain ⟨l', hl', hinv⟩ :=
        Inv.callRetry (l := { s.layer with releaseEvent := none, state := .idle }) hc rfl rfl hline hp htracked
      refine ⟨_, bind_eq_ok.mpr ⟨(some p, l'), ?_, rfl⟩, hinv⟩
      unfold Layer.releaseLayer
      have hne : s.layer.waitingForLayer ≠ [] := hline ▸ cons_ne_nil p line
      rw [if_pos hne, if_pos (hp ▸ rfl), hs]
      exact bind_eq_ok.mpr ⟨(), rfl, bind_eq_ok.mpr ⟨(), rfl, bind_eq_ok.mpr ⟨_, hl', rfl⟩⟩⟩
    | some q =>
      -- the peer has to retry first
      refine ⟨s.callRetry (none, { s.layer with releaseEvent := none, state := .idle }), ?_, htracked, ?_⟩
      · refine bind_eq_ok.mpr ⟨_, ?_, rfl⟩
        simp only [hs, hline, hp]
        rfl
      · refine Phase.idle hc rfl rfl fun _ hnone => ?_
        rw [show s.layer.waitingForPeer = none from hnone] at hp
        cases hp

theorem Inv.recvRetry (i : Inv s) (ha : s.allowed .recvRetry = true) : ∃ t, s.step x .recvRetry = .ok t ∧ Inv t := by
  have hsome : s.layer.waitingForPeer.isSome = true := i.tracked.owes.symm.trans ha
  obtain ⟨p, hp⟩ := Option.isSome_iff_exists.mp hsome
  have htracked := i.tracked
  rw [hp] at htracked
  have hback := htracked.peerRetry
  cases i.phase with
  | idle hc hs he hw =>
    obtain ⟨l', hl', hinv⟩ := Inv.callRetry (s := { s with history := s.history ++ [.peerRetry] })
      (l := { s.layer with waitingForLayer := p :: s.layer.waitingForLayer, waitingForPeer := none }) hc hs he rfl rfl hback
    refine ⟨_, bind_eq_ok.mpr ⟨(some p, l'), ?_, rfl⟩, hinv⟩
    unfold Layer.recvRetry
    simp only [hp, if_pos hs]
    exact bind_eq_ok.mpr ⟨_, hl', rfl⟩
  | occupied n hc hs he hn =>
    refine ⟨{ s with
      layer := { s.layer with waitingForLayer := p :: s.layer.waitingForLayer, waitingForPeer := none }
      history := s.history ++ [.peerRetry] }, ?_, hback, Phase.occupied n hc hs he hn⟩
    refine bind_eq_ok.mpr ⟨(none, { s.layer with waitingForLayer := p :: s.layer.waitingForLayer, waitingForPeer := none }), ?_, rfl⟩
    unfold Layer.recvRetry
    rw [hp]
    dsimp only
    rw [if_neg (by simp [hs]), hs]
    rfl
  | forwarding q rest hc ho hs hf hq =>
    rw [hf.peer] at hsome
    cases hsome
  | retrying q hc hs hf =>
    rw [hf.peer] at hsome
    cases hsome

theorem Inv.drain (i : Inv s) : ∃ t, s.step x .drain = .ok t ∧ Inv t := by
  refine ⟨_, rfl, ?_⟩
  unfold Layer.drain
  split
  · refine ⟨i.tracked, ?_⟩
    cases i.phase with
    | idle hc hs he hw => exact Phase.idle hc hs he hw
    | occupied n hc hs he hn => exact Phase.occupied n hc hs he hn
    | forwarding p rest hc ho hs hf hp => exact Phase.forwarding p rest hc ho hs ⟨hf.event, hf.peer, hf.none⟩ hp
    | retrying q hc hs hf => exact Phase.retrying q hc hs ⟨hf.event, hf.peer, hf.none⟩
  · exact i

theorem Inv.advance (i : Inv s) (ha : s.allowed (.advance n) = true) : ∃ t, s.step x (.advance n) = .ok t ∧ Inv t := by
  simp only [allowed, Bool.and_eq_true, beq_iff_eq] at ha
  obtain ⟨⟨hc, hle⟩, hall⟩ := ha
  refine ⟨_, rfl, i.tracked, ?_⟩
  cases i.phase with
  | idle hc hs he hw => exact Phase.idle hc hs he hw
  | occupied m hc hs he hn =>
    rw [he] at hall
    exact Phase.occupied m hc hs he (by simpa using hall)
  | forwarding p rest hc' => simp [hc] at hc'
  | retrying q hc' => simp [hc] at hc'

theorem Inv.step (hx : 0 < x.clockPeriod) (i : Inv s) (ha : s.allowed op = true) (hp : s.patient op = true)
    (ht : s.takesTime x op = true) : ∃ t, s.step x op = .ok t ∧ Inv t := by
  cases op with
  | request p => exact i.request ha hp
  | succeeded size latency => exact i.succeeded hx ha ht
  | failed => exact i.failed hx ha ht
  | returned => exact i.returned hx ha
  | release => exact i.release ha
  | recvRetry => exact i.recvRetry ha
  | drain => exact i.drain
  | advance n => exact i.advance ha

/-! ## The runs -/

/-- Someone will see to it that the ports in the line are retried. -/
def System.Attended (s : System P) : Prop :=
  (s.layer.state = .busy ∧ (s.layer.releaseEvent.isSome = true ∨ ∃ p, .forward p ∈ s.calls)) ∨
    (s.layer.state = .retry ∧ ∃ q, .sendRetry q ∈ s.calls) ∨ s.layer.waitingForPeer.isSome = true

theorem Inv.attended (i : Inv s) (hline : s.layer.waitingForLayer ≠ []) : s.Attended := by
  cases i.phase with
  | idle hc hs he hw => exact .inr (.inr (Option.isSome_iff_ne_none.mpr (hw hline)))
  | occupied n hc hs he hn => exact .inl ⟨hs, .inl (he ▸ rfl)⟩
  | forwarding p rest hc ho hs hf hp => exact .inl ⟨hs, .inr ⟨p, hc ▸ mem_cons_self⟩⟩
  | retrying q hc hs hf => exact .inr (.inl ⟨hs, q, hc ▸ mem_cons_self⟩)

variable {ops : List (LayerOp P)}

/-- The steps of a system whose ports and peer keep to the protocol. -/
abbrev LayerStep (x : XBarParams) : System P → LayerOp P → System P → Prop :=
  StepIf (fun s op => s.allowed op && s.patient op && s.takesTime x op) (step x)

theorem Inv.run (hx : 0 < x.clockPeriod) (hr : Exec (LayerStep x) {} ops s) : Inv s := by
  refine hr.invariant Inv.init fun t op u i hs => ?_
  obtain ⟨hc, hs⟩ := hs
  rw [Bool.and_eq_true, Bool.and_eq_true] at hc
  obtain ⟨v, hv, hinv⟩ := i.step hx hc.1.1 hc.1.2 hc.2
  rw [hs] at hv
  cases hv
  exact hinv

/-- No assertion of the layer fails; every port that was refused and not retried waits in one place, once; the ports
  are retried in the order of the refusals, the one that the peer refused first; and as long as a port waits in the
  line, the layer is busy until its release, sends a packet or a retry, or waits for the peer. -/
theorem never_stranded (hx : 0 < x.clockPeriod) (hr : Exec (LayerStep x) {} ops s) :
    (∀ op, s.allowed op = true → s.patient op = true → s.takesTime x op = true → ∃ t, s.step x op = .ok t) ∧
    s.layer.waiting.Nodup ∧ (∀ p, p ∈ s.layer.waiting ↔ stillRefused s.history p = true) ∧
    InOrder s.history ∧ (s.layer.waitingForLayer ≠ [] → s.Attended) := by
  have i := Inv.run hx hr
  refine ⟨fun op ha hp ht => ?_, i.tracked.nodup, i.tracked.mem, i.tracked.order, i.attended⟩
  obtain ⟨t, hs, -⟩ := i.step hx ha hp ht
  exact ⟨t, hs⟩

/-- Three ports meet at the layer, and the peer refuses the first one. -/
theorem never_stranded_three : ∃ s : System Nat, s.layer.waitingForLayer = [1, 2] ∧
    (∀ op, s.allowed op = true → s.patient op = true → s.takesTime { clockPeriod := 500 } op = true →
      ∃ t, s.step { clockPeriod := 500 } op = .ok t) ∧
    s.layer.waiting.Nodup ∧ (∀ p, p ∈ s.layer.waiting ↔ stillRefused s.history p = true) ∧
    InOrder s.history ∧ (s.layer.waitingForLayer ≠ [] → s.Attended) := by
  have hrun : endsInIf (fun s op => s.allowed op && s.patient op && s.takesTime { clockPeriod := 500 } op)
      (step { clockPeriod := 500 }) ({} : System Nat)
      [.request 0, .failed, .request 1, .request 2, .advance 500, .release, .recvRetry, .request 0, .succeeded 64 0, .returned]
      (fun s => s.layer.waitingForLayer == [1, 2]) = true := by decide
  obtain ⟨s, hr, hs⟩ := Exec.of_endsInIf hrun
  exact ⟨s, beq_iff_eq.mp hs, never_stranded (by decide) hr⟩

/-- While a packet is on its way to the peer nothing is scheduled. Without header cycles a packet without data takes
  no time, so that the first tick fails the assertion in `occupyLayer`. And a port that calls while its own packet is
  on its way can wait twice. -/
theorem stranded_while_sending :
    (∃ (ops : List (LayerOp Nat)) (s : System Nat), Exec (LayerStep { clockPeriod := 500 }) {} ops s ∧
      s.layer.waitingForLayer = [2] ∧ s.layer.state = .busy ∧ s.layer.releaseEvent = none ∧ s.layer.waitingForPeer = none) ∧
    (∃ s : System Nat, Exec (LayerStep { clockPeriod := 500, headerCycles := 0 }) {} [.request 0] s ∧
      s.allowed (.succeeded 0 0) = true ∧ s.patient (.succeeded 0 0) = true ∧
      s.step { clockPeriod := 500, headerCycles := 0 } (.succeeded 0 0) = .error .assertFailed) ∧
    ∃ (ops : List (LayerOp Nat)) (s : System Nat),
      Exec (StepIf (fun s op => s.allowed op && s.takesTime { clockPeriod := 500 } op) (step { clockPeriod := 500 })) {} ops s ∧
      s.layer.waiting = [0, 0] := by
  have hsending : endsInIf (fun s op => s.allowed op && s.patient op && s.takesTime { clockPeriod := 500 } op)
      (step { clockPeriod := 500 }) ({} : System Nat)
      [.request 0, .succeeded 64 0, .request 1, .request 2, .advance 4500, .release, .request 1]
      (fun s => s.layer == { state := .busy, waitingForLayer := [2] }) = true := by decide
  have hfirst : endsInIf (fun s op => s.allowed op && s.patient op && s.takesTime { clockPeriod := 500, headerCycles := 0 } op)
      (step { clockPeriod := 500, headerCycles := 0 }) ({} : System Nat) [.request 0]
      (fun s => s.allowed (.succeeded 0 0) && s.patient (.succeeded 0 0) &&
        (s.step { clockPeriod := 500, headerCycles := 0 } (.succeeded 0 0) matches .error .assertFailed)) = true := by
    decide
  have htwice : endsInIf (fun s op => s.allowed op && s.takesTime { clockPeriod := 500 } op) (step { clockPeriod := 500 })
      ({} : System Nat) [.request 0, .request 0, .failed] (fun s => s.layer.waiting == [0, 0]) = true := by
    decide
  obtain ⟨s, hr, hs⟩ := Exec.of_endsInIf hsending
  obtain ⟨t, hr', ht⟩ := Exec.of_endsInIf hfirst
  obtain ⟨u, hr'', hu⟩ := Exec.of_endsInIf htwice
  have hs := beq_iff_eq.mp hs
  rw [Bool.and_eq_true, Bool.and_eq_true] at ht
  refine ⟨⟨_, s, hr, ?_⟩, ⟨t, hr', ht.1.1, ht.1.2, ?_⟩, ⟨_, u, hr'', beq_iff_eq.mp hu⟩⟩
  · rw [hs]
    exact ⟨rfl, rfl, rfl, rfl⟩
  · have ht := ht.2
    split at ht
    · assumption
    · cases ht

end Gem5.Mem.XBarLayer
