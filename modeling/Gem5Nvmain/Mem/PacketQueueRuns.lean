import Gem5Nvmain.Mem.PacketQueue

/- The order of a packet queue, and its progress.

  The packets that were sent, followed by those in the list, are the stable sort of what was given to the queue
  (`Arranged`): an insertion into the list is one into the whole, since no packet is added for a tick before one that
  was sent. `Phase` ties the flag and the event to the list: between the sends a packet at the head either has its
  event, at most a tick after it became ready, or was refused. Every step keeps both (`Inv.step`). -/
namespace Gem5.Mem.PacketQueue
open Lib List System

variable {α : Type} {slave : Bool} {q : PacketQueue α} {s t : System α} {d front : DeferredPacket α}
  {rest before calls : List (DeferredPacket α)} {n now : Nat} {op : QueueOp α}

abbrev tickOf (d : DeferredPacket α) : Nat := d.tick

/-! ## The order of the packets -/

/-- In the order of their ticks, and among equal ticks in the order of the calls. -/
structure Arranged (packets calls : List (DeferredPacket α)) : Prop where
  ascending : Ascending tickOf packets
  stable : ∀ t, packets.filter (tickOf · = t) = calls.filter (tickOf · = t)

theorem Arranged.insert (h : Arranged (before ++ rest) calls) (hd : ∀ e ∈ before, e.tick ≤ d.tick) :
    Arranged (before ++ insertAfter tickOf d rest) (calls ++ [d]) := by
  rw [← insertAfter_append hd]
  refine ⟨h.ascending.insertAfter, fun t => ?_⟩
  rw [filter_insertAfter t h.ascending, h.stable, filter_append]

theorem Arranged.tail (h : Arranged (before ++ rest) calls) : Ascending tickOf rest := (pairwise_append.mp h.ascending).2.1

/-! ## Insertion -/

theorem schedule_eq (h : now ≤ n) : q.schedule now n = .ok { q with sendEvent := some n } := by
  unfold schedule
  rw [decide_eq_true h]
  rfl

/-- The new packet comes first. -/
theorem schedSendTiming_front (hd : now ≤ d.tick) (hlen : q.transmitList.length ≤ 100)
    (hlt : q.transmitList.head?.all (d.tick < ·.tick) = true) (hw : q.waitingOnRetry = false)
    (hev : ∀ n, q.sendEvent = some n → d.tick < n) :
    q.schedSendTiming now d = .ok { q with transmitList := insertAfter tickOf d q.transmitList, sendEvent := some d.tick } := by
  have hsched (l : List (DeferredPacket α)) : ({ q with transmitList := l } : PacketQueue α).schedSendEvent now d.tick =
      .ok { q with transmitList := l, sendEvent := some d.tick } := by
    unfold schedSendEvent
    rw [if_neg (by simp [hw])]
    cases he : q.sendEvent with
    | none => exact schedule_eq hd
    | some n =>
      dsimp only
      rw [if_pos (hev n he)]
      exact schedule_eq hd
  have hreq : require (decide (d.tick ≥ now)) = .ok () := require_eq_ok.mpr (decide_eq_true hd)
  unfold schedSendTiming
  rw [hreq, bind_ok, if_neg (Nat.not_lt.mpr hlen)]
  cases hl : q.transmitList with
  | nil => exact hsched [d]
  | cons front rest =>
    have hlt : d.tick < front.tick := by simpa [hl] using hlt
    have hnot : ¬ front.tick ≤ d.tick := Nat.not_le.mpr hlt
    simp only [if_pos hlt, insertAfter, if_neg hnot]
    exact hsched (d :: front :: rest)

/-- The new packet comes behind the front. -/
theorem schedSendTiming_behind (hd : now ≤ d.tick) (hlen : q.transmitList.length ≤ 100) (hl : q.transmitList = front :: rest)
    (hle : front.tick ≤ d.tick) (hsorted : Ascending tickOf q.transmitList) :
    q.schedSendTiming now d = .ok { q with transmitList := front :: insertAfter tickOf d rest } := by
  rw [hl] at hsorted
  have hreq : require (decide (d.tick ≥ now)) = .ok () := require_eq_ok.mpr (decide_eq_true hd)
  unfold schedSendTiming
  rw [hreq, bind_ok, if_neg (Nat.not_lt.mpr hlen), hl]
  dsimp only
  rw [if_neg (Nat.not_lt.mpr hle), getLastD_cons]
  split
  · -- not less than the back: not less than anything
    rename_i hback
    have hall : ∀ e ∈ rest, tickOf e ≤ tickOf d := fun e he => le_trans (hsorted.le_last e (mem_cons_of_mem front he)) hback
    rw [insertAfter_of_le hall]
    rfl
  · rfl

/-! ## The invariant -/

def System.sentPackets (s : System α) : List (DeferredPacket α) := s.sent.map Prod.fst

/-- The list, the flag, the event and the open call. -/
inductive Phase (s : System α) : Prop where
  | empty (hl : s.queue.transmitList = []) (ho : s.sending = none) (hw : s.queue.waitingOnRetry = false)
      (he : s.queue.sendEvent = none) (hr : s.retryOwed = false)
  | scheduled (head : DeferredPacket α) (rest : List (DeferredPacket α)) (n : Nat) (hl : s.queue.transmitList = head :: rest)
      (ho : s.sending = none) (hw : s.queue.waitingOnRetry = false) (he : s.queue.sendEvent = some n) (hr : s.retryOwed = false)
      (hnow : s.curTick ≤ n) (hready : head.tick ≤ n) (hdue : n ≤ max head.tick s.headSince + 1)
  | waiting (head : DeferredPacket α) (rest : List (DeferredPacket α)) (hl : s.queue.transmitList = head :: rest)
      (ho : s.sending = none) (hw : s.queue.waitingOnRetry = true) (he : s.queue.sendEvent = none) (hr : s.retryOwed = true)
      (hready : head.tick ≤ s.curTick) (hrefused : s.refused = some head)
  | sending (head : DeferredPacket α) (rest : List (DeferredPacket α)) (hl : s.queue.transmitList = head :: rest)
      (ho : s.sending = some head) (he : s.queue.sendEvent = none) (hr : s.retryOwed = false) (hready : head.tick ≤ s.curTick)
      (hrefused : s.queue.waitingOnRetry = true → s.refused = some head)

structure Inv (slave : Bool) (s : System α) : Prop where
  arranged : Arranged (s.sentPackets ++ s.queue.transmitList) s.calls
  sent : ∀ e ∈ s.sent, e.1.tick ≤ e.2 ∧ e.2 ≤ s.curTick
  listed : ∀ d ∈ s.queue.transmitList, d.tick < MaxTick ∧ (slave && d.sendAsSnoop) = false
  since : s.headSince ≤ s.curTick
  phase : Phase s

theorem Inv.init : Inv slave ({} : System α) where
  arranged := ⟨List.Pairwise.nil, fun _ => rfl⟩
  sent := by simp
  listed := by simp
  since := le_rfl
  phase := Phase.empty rfl rfl rfl rfl rfl

/-! ## Adding a packet -/

theorem Inv.sent_le (i : Inv slave s) (hd : s.curTick ≤ d.tick) : ∀ e ∈ s.sentPackets, e.tick ≤ d.tick := by
  intro e he
  obtain ⟨p, hp, rfl⟩ := mem_map.mp he
  exact (i.sent p hp).1.trans ((i.sent p hp).2.trans hd)

theorem Inv.listed_insert (i : Inv slave s) (hmax : d.tick < MaxTick) (hs : (slave && d.sendAsSnoop) = false) :
    ∀ e ∈ insertAfter tickOf d s.queue.transmitList, e.tick < MaxTick ∧ (slave && e.sendAsSnoop) = false := by
  intro e he
  rcases mem_insertAfter.mp he with rfl | he
  · exact ⟨hmax, hs⟩
  · exact i.listed e he

/-- The packet comes to the head of a queue that is neither waiting nor sending. -/
theorem Inv.schedFront (i : Inv slave s) (hd : s.curTick ≤ d.tick) (hmax : d.tick < MaxTick) (hs : (slave && d.sendAsSnoop) = false)
    (hlen : s.queue.transmitList.length ≤ 100) (hlt : s.queue.transmitList.head?.all (d.tick < ·.tick) = true)
    (ho : s.sending = none) (hw : s.queue.waitingOnRetry = false) (hr : s.retryOwed = false)
    (hev : ∀ n, s.queue.sendEvent = some n → d.tick < n) : ∃ t, s.step slave (.schedSendTiming d) = .ok t ∧ Inv slave t := by
  have hinsert : ∃ rest, insertAfter tickOf d s.queue.transmitList = d :: rest := by
    cases hl : s.queue.transmitList with
    | nil => exact ⟨[], rfl⟩
    | cons front rest =>
      rw [hl] at hlt
      have hlt : d.tick < front.tick := of_decide_eq_true hlt
      exact ⟨front :: rest, if_neg (Nat.not_le.mpr hlt)⟩
  obtain ⟨rest, hrest⟩ := hinsert
  refine ⟨_, bind_eq_ok.mpr ⟨_, schedSendTiming_front hd hlen hlt hw hev, if_pos hlt⟩, ?_⟩
  exact {
    arranged := i.arranged.insert (i.sent_le hd)
    sent := i.sent
    listed := i.listed_insert hmax hs
    since := le_rfl
    phase := Phase.scheduled d rest d.tick hrest ho hw rfl hr hd le_rfl (by
      refine Nat.le_succ_of_le ?_
      exact le_max_left _ _) }

/-- The packet comes behind the head, which stays as it is. -/
theorem Inv.schedBehind (i : Inv slave s) (hd : s.curTick ≤ d.tick) (hmax : d.tick < MaxTick) (hs : (slave && d.sendAsSnoop) = false)
    (hlen : s.queue.transmitList.length ≤ 100) (hl : s.queue.transmitList = front :: rest) (hle : front.tick ≤ d.tick) :
    ∃ t, s.step slave (.schedSendTiming d) = .ok t ∧ Inv slave t := by
  have hcond : ¬ s.queue.transmitList.head?.all (d.tick < ·.tick) = true := by
    rw [hl]
    simpa using hle
  have hlist : insertAfter tickOf d s.queue.transmitList = front :: insertAfter tickOf d rest := by
    rw [hl]
    exact if_pos hle
  refine ⟨_, bind_eq_ok.mpr ⟨_, schedSendTiming_behind hd hlen hl hle i.arranged.tail, if_neg hcond⟩, ?_⟩
  have harranged := i.arranged.insert (i.sent_le hd)
  have hlisted := i.listed_insert hmax hs
  rw [hlist] at harranged hlisted
  refine ⟨harranged, i.sent, hlisted, i.since, ?_⟩
  cases i.phase with
  | empty hl' => simp [hl] at hl'
  | scheduled head rest' n hl' ho hw he hr hnow hready hdue =>
    cases hl.symm.trans hl'
    exact Phase.scheduled front _ n rfl ho hw he hr hnow hready hdue
  | waiting head rest' hl' ho hw he hr hready hrefused =>
    cases hl.symm.trans hl'
    exact Phase.waiting front _ rfl ho hw he hr hready hrefused
  | sending head rest' hl' ho he hr hready hrefused =>
    cases hl.symm.trans hl'
    exact Phase.sending front _ rfl ho he hr hready hrefused

theorem Inv.schedSendTiming (i : Inv slave s) (ha : s.allowed slave (.schedSendTiming d) = true)
    (ht : s.inTime (.schedSendTiming d) = true) : ∃ t, s.step slave (.schedSendTiming d) = .ok t ∧ Inv slave t := by
  simp only [allowed, Bool.and_eq_true, decide_eq_true_eq, Bool.not_eq_true'] at ha
  obtain ⟨⟨⟨hd, -⟩, hlen⟩, hs⟩ := ha
  have hmax : d.tick < MaxTick := of_decide_eq_true ht
  cases i.phase with
  | empty hl ho hw he hr =>
    exact i.schedFront hd hmax hs hlen (by rw [hl]; rfl) ho hw hr (by simp [he])
  | scheduled head rest n hl ho hw he hr hnow hready hdue =>
    by_cases hlt : d.tick < head.tick
    · refine i.schedFront hd hmax hs hlen (by rw [hl]; exact decide_eq_true hlt) ho hw hr ?_
      intro m hm
      rw [he] at hm
      cases hm
      exact hlt.trans_le hready
    · exact i.schedBehind hd hmax hs hlen hl (Nat.le_of_not_lt hlt)
  -- a packet that was offered is ready, and the new one is not before this tick
  | waiting head rest hl ho hw he hr hready hrefused => exact i.schedBehind hd hmax hs hlen hl (hready.trans hd)
  | sending head rest hl ho he hr hready hrefused => exact i.schedBehind hd hmax hs hlen hl (hready.trans hd)

/-! ## Sending -/

theorem trySendTiming_eq (hl : q.transmitList = front :: rest) (hready : front.tick ≤ now) (hs : (slave && front.sendAsSnoop) = false) :
    q.trySendTiming slave now = .ok front := by
  unfold trySendTiming deferredPacketReady
  rw [hl]
  refine bind_eq_ok.mpr ⟨(), require_eq_ok.mpr (decide_eq_true hready), ?_⟩
  refine bind_eq_ok.mpr ⟨front, rfl, ?_⟩
  exact bind_eq_ok.mpr ⟨(), require_eq_ok.mpr (by rw [hs]; rfl), rfl⟩

theorem Inv.processSendEvent (i : Inv slave s) (ha : s.allowed slave .processSendEvent = true) :
    ∃ t, s.step slave .processSendEvent = .ok t ∧ Inv slave t := by
  simp only [allowed, Bool.and_eq_true, beq_iff_eq] at ha
  obtain ⟨-, hev⟩ := ha
  cases i.phase with
  | empty hl ho hw he hr => simp [he] at hev
  | waiting head rest hl ho hw he hr hready hrefused => simp [he] at hev
  | sending head rest hl ho he hr hready hrefused => simp [he] at hev
  | scheduled head rest n hl ho hw he hr hnow hready hdue =>
    rw [he] at hev
    cases hev
    have hs : (slave && head.sendAsSnoop) = false := (i.listed head (hl ▸ mem_cons_self)).2
    have htry := trySendTiming_eq hl hready hs
    refine ⟨{ s with queue := { s.queue with sendEvent := none }, sending := some head }, ?_, ?_⟩
    · refine bind_eq_ok.mpr ⟨(), require_eq_ok.mpr (by simp [hw]), ?_⟩
      exact bind_eq_ok.mpr ⟨head, htry, rfl⟩
    · refine ⟨i.arranged, i.sent, i.listed, i.since, ?_⟩
      exact Phase.sending head rest hl rfl rfl hr hready fun hw' => by simp [hw] at hw'

theorem Inv.retry (i : Inv slave s) (ha : s.allowed slave .retry = true) : ∃ t, s.step slave .retry = .ok t ∧ Inv slave t := by
  simp only [allowed, Bool.and_eq_true] at ha
  obtain ⟨howed, -⟩ := ha
  cases i.phase with
  | empty hl ho hw he hr => simp [hr] at howed
  | scheduled head rest n hl ho hw he hr hnow hready hdue => simp [hr] at howed
  | sending head rest hl ho he hr hready hrefused => simp [hr] at howed
  | waiting head rest hl ho hw he hr hready hrefused =>
    have hs : (slave && head.sendAsSnoop) = false := (i.listed head (hl ▸ mem_cons_self)).2
    refine ⟨{ s with sending := some head, retryOwed := false }, ?_, ?_⟩
    · refine bind_eq_ok.mpr ⟨(), require_eq_ok.mpr hw, ?_⟩
      exact bind_eq_ok.mpr ⟨head, trySendTiming_eq hl hready hs, rfl⟩
    · refine ⟨i.arranged, i.sent, i.listed, i.since, ?_⟩
      exact Phase.sending head rest hl rfl he rfl hready fun _ => hrefused

/-- The next packet gets its event, at its tick or at the next one. -/
theorem scheduleSend_eq (he : q.sendEvent = none) (hl : q.transmitList = front :: rest) (hmax : front.tick < MaxTick)
    (hnow : now + 1 < MaxTick) : q.scheduleSend now = .ok { q with sendEvent := some (max front.tick (now + 1)) } := by
  have hnext : max (min q.deferredPacketReadyTime MaxTick) ((now + 1) % 2 ^ 64) = max front.tick (now + 1) := by
    have htime : q.deferredPacketReadyTime = front.tick := by
      unfold deferredPacketReadyTime
      rw [hl]
      rfl
    rw [htime, min_eq_left hmax.le, Nat.mod_eq_of_lt]
    exact hnow.trans (by decide)
  have hne : max front.tick (now + 1) ≠ MaxTick := (max_lt hmax hnow).ne
  have hle : now ≤ max front.tick (now + 1) := (Nat.le_succ now).trans (le_max_right _ _)
  unfold scheduleSend
  rw [hnext, if_pos hne, he]
  exact schedule_eq hle

theorem scheduleSend_empty (hl : q.transmitList = []) (hnow : now + 1 < MaxTick) :
    ∃ drain, q.scheduleSend now = .ok { q with drainManager := drain } := by
  have hnext : max (min q.deferredPacketReadyTime MaxTick) ((now + 1) % 2 ^ 64) = MaxTick := by
    have htime : q.deferredPacketReadyTime = MaxTick := by
      unfold deferredPacketReadyTime
      rw [hl]
      rfl
    rw [htime, min_self, Nat.mod_eq_of_lt (hnow.trans (by decide)), max_eq_left hnow.le]
  unfold scheduleSend
  rw [hnext, if_neg (not_not.mpr rfl)]
  split
  · exact ⟨false, rfl⟩
  · exact ⟨q.drainManager, rfl⟩

/-- What the receiver took goes from the list to what was sent. -/
theorem Inv.took (i : Inv slave s) (hl : s.queue.transmitList = front :: rest) (hready : front.tick ≤ s.curTick)
    (hlist : t.queue.transmitList = rest) (hsent : t.sent = s.sent ++ [(front, s.curTick)]) (hcalls : t.calls = s.calls)
    (hcur : t.curTick = s.curTick) (hsince : t.headSince = s.curTick) (hp : Phase t) : Inv slave t where
  arranged := by
    have harranged := i.arranged
    rw [hl] at harranged
    rw [hcalls, sentPackets, hsent, hlist, map_append, append_assoc]
    exact harranged
  sent := by
    rw [hsent, hcur]
    intro e hmem
    rcases mem_append.mp hmem with hmem | hmem
    · exact i.sent e hmem
    · rw [mem_singleton.mp hmem]
      exact ⟨hready, le_rfl⟩
  listed := by
    rw [hlist]
    intro d hd
    exact i.listed d (hl ▸ mem_cons_of_mem front hd)
  since := by rw [hsince, hcur]
  phase := hp

theorem Inv.accepted (i : Inv slave s) (ha : s.allowed slave (.answer true) = true) (ht : s.inTime (.answer true) = true) :
    ∃ t, s.step slave (.answer true) = .ok t ∧ Inv slave t := by
  have ho : s.sending.isSome = true := ha
  have hnow : s.curTick + 1 < MaxTick := of_decide_eq_true ht
  cases i.phase with
  | empty hl ho' => simp [ho'] at ho
  | scheduled head rest n hl ho' => simp [ho'] at ho
  | waiting head rest hl ho' => simp [ho'] at ho
  | sending head rest hl ho' he hr hready hrefused =>
    cases rest with
    | nil =>
      obtain ⟨drain, hs⟩ := scheduleSend_empty (q := { s.queue with waitingOnRetry := false, transmitList := [] }) rfl hnow
      have hdone : s.queue.sendDone s.curTick true =
          .ok { s.queue with waitingOnRetry := false, transmitList := [], drainManager := drain } := by
        unfold sendDone
        rw [hl]
        exact hs
      refine ⟨_, bind_eq_ok.mpr ⟨_, hdone, if_pos rfl⟩, ?_⟩
      refine i.took hl hready rfl ?_ rfl rfl rfl (Phase.empty rfl rfl rfl he hr)
      rw [ho']
      rfl
    | cons front rest =>
      have hmax : front.tick < MaxTick := (i.listed front (hl ▸ mem_cons_of_mem head mem_cons_self)).1
      have hs := scheduleSend_eq (q := { s.queue with waitingOnRetry := false, transmitList := front :: rest }) he rfl hmax hnow
      have hdone : s.queue.sendDone s.curTick true =
          .ok { s.queue with
            waitingOnRetry := false, transmitList := front :: rest, sendEvent := some (max front.tick (s.curTick + 1)) } := by
        unfold sendDone
        rw [hl]
        exact hs
      refine ⟨_, bind_eq_ok.mpr ⟨_, hdone, if_pos rfl⟩, ?_⟩
      refine i.took hl hready rfl ?_ rfl rfl rfl ?_
      · rw [ho']
        rfl
      · refine Phase.scheduled front rest (max front.tick (s.curTick + 1)) rfl rfl rfl rfl hr ?_ (le_max_left _ _) ?_
        · exact (Nat.le_succ _).trans (le_max_right _ _)
        · show max front.tick (s.curTick + 1) ≤ max front.tick s.curTick + 1
          omega

theorem Inv.refusal (i : Inv slave s) (ha : s.allowed slave (.answer false) = true) :
    ∃ t, s.step slave (.answer false) = .ok t ∧ Inv slave t := by
  have ho : s.sending.isSome = true := ha
  cases i.phase with
  | empty hl ho' => simp [ho'] at ho
  | scheduled head rest n hl ho' => simp [ho'] at ho
  | waiting head rest hl ho' => simp [ho'] at ho
  | sending head rest hl ho' he hr hready hrefused =>
    refine ⟨_, rfl, i.arranged, i.sent, i.listed, i.since, ?_⟩
    exact Phase.waiting head rest hl rfl rfl he rfl hready ho'

theorem Inv.drain (i : Inv slave s) : ∃ t, s.step slave .drain = .ok t ∧ Inv slave t := by
  refine ⟨_, rfl, ?_⟩
  unfold PacketQueue.drain
  split
  · exact i
  · refine ⟨i.arranged, i.sent, i.listed, i.since, ?_⟩
    cases i.phase with
    | empty hl ho hw he hr => exact Phase.empty hl ho hw he hr
    | scheduled head rest n hl ho hw he hr hnow hready hdue => exact Phase.scheduled head rest n hl ho hw he hr hnow hready hdue
    | waiting head rest hl ho hw he hr hready hrefused => exact Phase.waiting head rest hl ho hw he hr hready hrefused
    | sending head rest hl ho he hr hready hrefused => exact Phase.sending head rest hl ho he hr hready hrefused

theorem Inv.advance (i : Inv slave s) (ha : s.allowed slave (.advance n) = true) : ∃ t, s.step slave (.advance n) = .ok t ∧ Inv slave t := by
  simp only [allowed, Bool.and_eq_true, decide_eq_true_eq] at ha
  obtain ⟨⟨⟨-, hle⟩, -⟩, hall⟩ := ha
  refine ⟨_, rfl, i.arranged, fun e he => ⟨(i.sent e he).1, (i.sent e he).2.trans hle⟩, i.listed, i.since.trans hle, ?_⟩
  cases i.phase with
  | empty hl ho hw he hr => exact Phase.empty hl ho hw he hr
  | scheduled head rest m hl ho hw he hr hnow hready hdue =>
    rw [he] at hall
    have hall : n ≤ m := by simpa using hall
    exact Phase.scheduled head rest m hl ho hw he hr hall hready hdue
  | waiting head rest hl ho hw he hr hready hrefused => exact Phase.waiting head rest hl ho hw he hr (hready.trans hle) hrefused
  | sending head rest hl ho he hr hready hrefused => exact Phase.sending head rest hl ho he hr (hready.trans hle) hrefused

theorem Inv.step (i : Inv slave s) (ha : s.allowed slave op = true) (ht : s.inTime op = true) :
    ∃ t, s.step slave op = .ok t ∧ Inv slave t := by
  cases op with
  | schedSendTiming d => exact i.schedSendTiming ha ht
  | processSendEvent => exact i.processSendEvent ha
  | retry => exact i.retry ha
  | answer accepted =>
    cases accepted with
    | true => exact i.accepted ha ht
    | false => exact i.refusal ha
  | drain => exact i.drain
  | advance n => exact i.advance ha

/-! ## The runs -/

abbrev QueueStep (slave : Bool) : System α → QueueOp α → System α → Prop :=
  StepIf (fun s op => s.allowed slave op && s.inTime op) (step slave)

variable {ops : List (QueueOp α)}

theorem Inv.run (hr : Exec (QueueStep slave) {} ops s) : Inv slave s := by
  refine hr.invariant Inv.init fun t op u i hs => ?_
  obtain ⟨hc, hs⟩ := hs
  rw [Bool.and_eq_true] at hc
  obtain ⟨v, hv, hinv⟩ := i.step hc.1 hc.2
  rw [hs] at hv
  cases hv
  exact hinv

theorem Inv.waits_for_refused (i : Inv slave s) (hw : s.queue.waitingOnRetry = true) :
    ∃ head rest, s.queue.transmitList = head :: rest ∧ s.refused = some head := by
  cases i.phase with
  | empty hl ho hw' => simp [hw] at hw'
  | scheduled head rest n hl ho hw' => simp [hw] at hw'
  | waiting head rest hl ho hw' he hr hready hrefused => exact ⟨head, rest, hl, hrefused⟩
  | sending head rest hl ho he hr hready hrefused => exact ⟨head, rest, hl, hrefused hw⟩

theorem Inv.waits_or_scheduled (i : Inv slave s) (hne : s.queue.transmitList ≠ []) (ho : s.sending = none) :
    s.queue.waitingOnRetry = !s.queue.sendEvent.isSome := by
  cases i.phase with
  | empty hl => exact absurd hl hne
  | scheduled head rest n hl ho hw he =>
    rw [hw, he]
    rfl
  | waiting head rest hl ho hw he =>
    rw [hw, he]
    rfl
  | sending head rest hl ho' => simp [ho] at ho'

theorem Inv.due (i : Inv slave s) (hl : s.queue.transmitList = front :: rest) (hev : s.queue.sendEvent = some n) :
    n ≤ max front.tick s.headSince + 1 := by
  cases i.phase with
  | empty hl' => simp [hl] at hl'
  | scheduled head rest m hl' ho hw he hr hnow hready hdue =>
    cases hl.symm.trans hl'
    cases hev.symm.trans he
    exact hdue
  | waiting head rest hl' ho hw he => simp [hev] at he
  | sending head rest hl' ho he => simp [hev] at he

/-- The packets are sent once each, in the order of their ticks and then of the calls, and not before their tick.
  Between the sends a packet at the head waits for the retry that it was refused before, or for the event, which is
  due a tick after it was ready at the latest. No assertion fails. -/
theorem order_and_progress (hr : Exec (QueueStep slave) {} ops s) :
    (∀ op, s.allowed slave op = true → s.inTime op = true → ∃ t, s.step slave op = .ok t) ∧
    Arranged (s.sentPackets ++ s.queue.transmitList) s.calls ∧ (∀ e ∈ s.sent, e.1.tick ≤ e.2) ∧
    (s.queue.waitingOnRetry = true → ∃ head rest, s.queue.transmitList = head :: rest ∧ s.refused = some head) ∧
    (s.queue.transmitList ≠ [] → s.sending = none → s.queue.waitingOnRetry = !s.queue.sendEvent.isSome) ∧
    ∀ head rest n, s.queue.transmitList = head :: rest → s.queue.sendEvent = some n → n ≤ max head.tick s.headSince + 1 := by
  have i := Inv.run hr
  refine ⟨fun op ha ht => ?_, i.arranged, fun e he => (i.sent e he).1, i.waits_for_refused, i.waits_or_scheduled,
    fun head rest n => i.due⟩
  obtain ⟨t, hs, -⟩ := i.step ha ht
  exact ⟨t, hs⟩

/-- A packet is refused, and others are added while it is offered again. -/
theorem order_and_progress_three : ∃ s : System Nat, s.sentPackets.map (·.pkt) = [1, 2] ∧
    (∀ op, s.allowed false op = true → s.inTime op = true → ∃ t, s.step false op = .ok t) ∧
    Arranged (s.sentPackets ++ s.queue.transmitList) s.calls ∧ (∀ e ∈ s.sent, e.1.tick ≤ e.2) ∧
    (s.queue.waitingOnRetry = true → ∃ head rest, s.queue.transmitList = head :: rest ∧ s.refused = some head) ∧
    (s.queue.transmitList ≠ [] → s.sending = none → s.queue.waitingOnRetry = !s.queue.sendEvent.isSome) ∧
    ∀ head rest n, s.queue.transmitList = head :: rest → s.queue.sendEvent = some n → n ≤ max head.tick s.headSince + 1 := by
  have hrun : endsInIf (fun s op => s.allowed false op && s.inTime op) (step false) ({} : System Nat)
      [.schedSendTiming { tick := 9, pkt := 3 }, .schedSendTiming { tick := 4, pkt := 1 }, .advance 4, .processSendEvent, .answer false,
        .advance 6, .retry, .schedSendTiming { tick := 8, pkt := 2 }, .answer true, .advance 8, .processSendEvent, .answer true]
      (fun s => s.sentPackets.map (·.pkt) == [1, 2]) = true := by decide
  obtain ⟨s, hr, hs⟩ := Exec.of_endsInIf hrun
  exact ⟨s, beq_iff_eq.mp hs, order_and_progress hr⟩

/-- A packet for `MaxTick` is left in the list without an event, and while a packet is offered there is neither an
  event nor a retry to wait for. -/
theorem neither_waiting_nor_scheduled :
    (∃ (ops : List (QueueOp Nat)) (s : System Nat), Exec (StepIf (allowed false) (step false)) {} ops s ∧
      s.queue.transmitList = [{ tick := MaxTick, pkt := 2 }] ∧ s.sending = none ∧ s.queue.waitingOnRetry = false ∧
      s.queue.sendEvent = none) ∧
    ∃ (ops : List (QueueOp Nat)) (s : System Nat), Exec (QueueStep false) {} ops s ∧
      s.queue.transmitList = [{ tick := 4, pkt := 1 }] ∧ s.queue.waitingOnRetry = false ∧ s.queue.sendEvent = none := by
  have hmax : endsInIf (allowed false) (step false) ({} : System Nat)
      [.schedSendTiming { tick := 4, pkt := 1 }, .schedSendTiming { tick := MaxTick, pkt := 2 }, .advance 4, .processSendEvent, .answer true]
      (fun s => decide (s.queue.transmitList = [{ tick := MaxTick, pkt := 2 }] ∧ s.sending = none ∧ s.queue.waitingOnRetry = false ∧
        s.queue.sendEvent = none)) = true := by decide
  have hsending : endsInIf (fun s op => s.allowed false op && s.inTime op) (step false) ({} : System Nat)
      [.schedSendTiming { tick := 4, pkt := 1 }, .advance 4, .processSendEvent]
      (fun s => decide (s.queue.transmitList = [{ tick := 4, pkt := 1 }] ∧ s.queue.waitingOnRetry = false ∧
        s.queue.sendEvent = none)) = true := by decide
  obtain ⟨s, hr, hs⟩ := Exec.of_endsInIf hmax
  obtain ⟨t, hr', ht⟩ := Exec.of_endsInIf hsending
  exact ⟨⟨_, s, hr, of_decide_eq_true hs⟩, _, t, hr', of_decide_eq_true ht⟩

end Gem5.Mem.PacketQueue
