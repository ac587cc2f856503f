import Gem5Nvmain.Nvm.WritePausing

/- What is left of a write when it is interrupted, over whole runs.

  The log of a run says what `CheckWritePausing` recorded at each interruption and how long each resumed write takes,
  and `Sane` is the claim about it. The difference that is recorded does not exceed the attempt exactly when the cycle
  that the pause mode goes back to is not behind `writeEnd` (`sub_le_sub_iff`). It can be: the event of a write comes
  after `writeEnd`, and a resumed write has the iteration starts of a whole one (`Unfinished`). A resumed write takes
  longer than it had left when the latencies of the encoder and of the endurance model are added once more
  (`SameTime`).

  `PauseInv` is what an interruption relies on: the iteration starts in the order of the set, one of them since
  `writeStart`, and in a request that is paused what was recorded last. -/
namespace Nvm
open Lib List Function Except

/-! ## Iteration starts -/

theorem mem_insertStart {t u : BitVec 64} {l : List (BitVec 64)} : u ∈ insertStart t l ↔ u = t ∨ u ∈ l := by
  induction l with
  | nil => simp [insertStart]
  | cons v l ih =>
    unfold insertStart
    split
    · exact mem_cons
    · split
      · rw [mem_cons, ih, mem_cons]
        exact or_left_comm
      · have hv : v = t := by bv_omega
        simp [hv]

theorem sorted_insertStart {t : BitVec 64} {l : List (BitVec 64)} (h : (l.map BitVec.toNat).Pairwise (· < ·)) :
    ((insertStart t l).map BitVec.toNat).Pairwise (· < ·) := by
  induction l with
  | nil => exact pairwise_singleton _ _
  | cons v l ih =>
    unfold insertStart
    have hv : ∀ u ∈ l, v.toNat < u.toNat :=
      fun u hu => rel_of_pairwise_cons h (mem_map_of_mem hu)
    have hcons : ∀ (a : BitVec 64) (us : List (BitVec 64)), (∀ u ∈ us, a.toNat < u.toNat) →
        (us.map BitVec.toNat).Pairwise (· < ·) → ((a :: us).map BitVec.toNat).Pairwise (· < ·) := by
      intro a us ha hus
      refine pairwise_cons.mpr ⟨?_, hus⟩
      intro n hn
      obtain ⟨u, hu, rfl⟩ := mem_map.mp hn
      exact ha u hu
    split
    · rename_i hlt
      apply hcons t (v :: l) _ h
      intro u hu
      have htv : t.toNat < v.toNat := hlt
      obtain rfl | hu := mem_cons.mp hu
      · exact htv
      · exact Nat.lt_trans htv (hv u hu)
    · split
      · rename_i hlt
        apply hcons v _ _ (ih h.of_cons)
        intro u hu
        obtain rfl | hu := mem_insertStart.mp hu
        · exact hlt
        · exact hv u hu
      · exact h

/-- The starts of a write that begins now. -/
structure Begun (now : BitVec 64) (l : List (BitVec 64)) : Prop where
  sorted : (l.map BitVec.toNat).Pairwise (· < ·)
  first : l = [] ∨ now ∈ l

namespace Begun
variable {now t d : BitVec 64} {l : List (BitVec 64)}

theorem nil : Begun now [] := ⟨List.Pairwise.nil, .inl rfl⟩

theorem insert (h : Begun now l) (hl : l = [] → t = now) : Begun now (insertStart t l) := by
  refine ⟨sorted_insertStart h.sorted, .inr (mem_insertStart.mpr ?_)⟩
  obtain hnil | hmem := h.first
  · exact .inl (hl hnil).symm
  · exact .inr hmem

theorem insertStart_ne_nil : insertStart t l ≠ [] := ne_nil_of_mem (mem_insertStart.mpr (.inl rfl))

theorem uniform (p : CellParams) : Begun now (p.uniformStarts now) := by
  unfold CellParams.uniformStarts
  induction p.averageWriteIterations.toNat with
  | zero => exact nil
  | succ n ih =>
    rw [range_succ, foldl_append]
    apply ih.insert
    intro hnil
    -- the first start is now, and behind it the list is not empty
    cases n with
    | zero => simp
    | succ n =>
      rw [range_succ, foldl_append] at hnil
      exact absurd hnil insertStart_ne_nil

theorem pulses (h : Begun now l) (hl : l ≠ []) (n : Nat) : Begun now (CellParams.pulseStarts d n t l) := by
  induction n generalizing t l with
  | zero => exact h
  | succ n ih => exact ih (h.insert fun hnil => absurd hnil hl) insertStart_ne_nil

theorem pulsed (once again count : BitVec 64) : Begun now (CellParams.pulsed now once again count).starts :=
  (nil.insert fun _ => rfl).pulses insertStart_ne_nil count.toNat

variable {draw : BitVec 64} {w : CellWrite}

theorem writeMLC2 {p : CellParams} {data : List (BitVec 32)}
    (hr : p.writeMLC2 now draw data = .ok w) : Begun now w.starts := by
  obtain ⟨_, -, hr⟩ := of_bind hr
  obtain ⟨_, -, hr⟩ := of_bind hr
  obtain ⟨_, -, hr⟩ := of_bind hr
  obtain ⟨_, -, hr⟩ := of_bind hr
  obtain ⟨-, -, hr⟩ := of_bind hr
  dsimp only at hr
  split at hr
  · cases hmode : p.programMode with
    | srms =>
      rw [hmode] at hr
      obtain rfl := ok.inj hr
      exact pulsed _ _ _
    | ssmr =>
      rw [hmode] at hr
      obtain rfl := ok.inj hr
      exact pulsed _ _ _
  · split at hr
    · obtain rfl := ok.inj hr
      exact pulsed _ _ _
    · split at hr
      · obtain rfl := ok.inj hr
        exact pulsed _ _ _
      · cases hr

theorem writeCellData {p : CellParams} {early : Bool} {data : Option (List (BitVec 32))}
    (hr : p.writeCellData early now draw data = .ok w) : Begun now w.starts := by
  unfold CellParams.writeCellData at hr
  split at hr
  · obtain rfl := ok.inj hr
    split
    · exact uniform p
    · exact nil
  · split at hr
    · obtain rfl := ok.inj hr
      exact nil
    · cases data with
      | none =>
        obtain rfl := ok.inj hr
        exact nil
      | some words =>
        dsimp only at hr
        split at hr
        · obtain rfl := ok.inj hr
          exact nil
        · split at hr
          · exact writeMLC2 hr
          · obtain rfl := ok.inj hr
            exact nil

end Begun

/-! ## The log of a run -/

namespace WritingArray

inductive Entry where
  /-- `CheckWritePausing` recorded what an attempt of `writeTimer` cycles has left. -/
  | interrupted (r : Nat) (writeProgress writeTimer : BitVec 64)
  /-- A write that was paused begins again, and takes `writeTimer` cycles. -/
  | resumed (r : Nat) (writeTimer : BitVec 64)
  deriving DecidableEq

/-- What the write had left when it was interrupted last. -/
def left (r : Nat) : List Entry → Option (BitVec 64)
  | [] => none
  | .interrupted r' writeProgress _ :: log => if r' = r then some writeProgress else left r log
  | .resumed _ _ :: log => left r log

/-- An interruption records at most the time of the attempt, and a resumed write takes at most what it had left
  (newest first). -/
def Sane : List Entry → Prop
  | [] => True
  | .interrupted _ writeProgress writeTimer :: log => writeProgress ≤ writeTimer ∧ Sane log
  | .resumed r writeTimer :: log =>
    (∀ writeProgress, left r log = some writeProgress → writeTimer ≤ writeProgress) ∧ Sane log

variable (p : PausingParams) (s s' : WritingArray)

/-- What a command from `s` to `s'` adds to the log. -/
def Command.entry (c : Command) : Option Entry :=
  if s.isIssuable p c then
    match c with
    | .activate _ _ | .read _ _ =>
      (s.interrupted p).map fun r => .interrupted r (s'.requests r).writeProgress (s.writeEnd - s.writeStart)
    | .write r _ _ _ _ _ => if (s.requests r).paused then some (.resumed r (s'.writeEnd - s'.writeStart)) else none
    | .precharge _ _ _ _ | .refresh => none
  else none

def Op.entry : Op → Option Entry
  | .issue c => c.entry p s s'
  | .advance _ | .respond _ | .force _ => none

/-- A sub-array with the log of its run. -/
structure PausingRun where
  array : WritingArray
  log : List Entry

namespace PausingRun

def new (columns : Nat → ColumnRequest) : PausingRun := ⟨WritingArray.new columns, []⟩

def step (p : PausingParams) (x : PausingRun) (op : Op) : Except Stop PausingRun := do
  let s ← x.array.step p op
  pure ⟨s, (op.entry p x.array s).toList ++ x.log⟩

end PausingRun

/-- The attempt is not over at the cycle that the pause mode goes back to. -/
def Unfinished : Prop :=
  if p.pauseMode = .optimal then s.now - s.writeStart ≤ s.writeEnd - s.writeStart
  else ∀ t ∈ s.writeIterationStarts, s.writeStart ≤ t → t ≤ s.now → t - s.writeStart ≤ s.writeEnd - s.writeStart

/-- The latencies add nothing to the time that a write had left, or so much that the sum wraps. -/
def SameTime (w : WriteRequest) (latency : BitVec 64) : Prop :=
  p.writeMode = .writeThrough → latency = 0 ∨ 2 ^ 64 ≤ w.writeProgress.toNat + latency.toNat

/-- The condition under which a command leaves the log sane. -/
def Command.inTime (c : Command) : Prop :=
  s.isIssuable p c = true →
    match c with
    | .activate _ _ | .read _ _ => (s.interrupted p).isSome → s.Unfinished p
    | .write r _ _ _ encLat endrLat => (s.requests r).paused = true → SameTime p (s.requests r) (encLat + endrLat)
    | .precharge _ _ _ _ | .refresh => True

def Op.inTime : Op → Prop
  | .issue c => c.inTime p s
  | .advance _ | .respond _ | .force _ => True

/-! ## The invariant -/

variable {p s s'} {log : List Entry} {r : Nat}

structure PauseInv (s : WritingArray) (log : List Entry) : Prop where
  clock : s.writeStart ≤ s.now
  sorted : (s.writeIterationStarts.map BitVec.toNat).Pairwise (· < ·)
  reached : s.writeIterationStarts = [] ∨ ∃ t ∈ s.writeIterationStarts, s.writeStart ≤ t ∧ t ≤ s.now
  left : ∀ r, (s.requests r).paused = true → left r log = some (s.requests r).writeProgress

/-- A step that interrupts and begins no write. -/
structure Keeps (s s' : WritingArray) : Prop where
  now : s.now ≤ s'.now
  writeStart : s'.writeStart = s.writeStart
  starts : s'.writeIterationStarts = s.writeIterationStarts ∨ Begun s'.now s'.writeIterationStarts
  paused : ∀ r, (s'.requests r).paused = (s.requests r).paused
  writeProgress : ∀ r, (s'.requests r).writeProgress = (s.requests r).writeProgress

theorem PauseInv.keep (h : PauseInv s log) (hk : Keeps s s') : PauseInv s' log := by
  have hclock : s'.writeStart ≤ s'.now := by
    rw [hk.writeStart]
    exact BitVec.le_trans h.clock hk.now
  have hleft : ∀ r, (s'.requests r).paused = true → WritingArray.left r log = some (s'.requests r).writeProgress := by
    intro r hr
    rw [hk.writeProgress]
    exact h.left r (hk.paused r ▸ hr)
  obtain heq | hbegun := hk.starts
  · refine ⟨hclock, heq ▸ h.sorted, ?_, hleft⟩
    rw [heq, hk.writeStart]
    obtain hnil | ⟨t, ht, hge, hle⟩ := h.reached
    · exact .inl hnil
    · exact .inr ⟨t, ht, hge, BitVec.le_trans hle hk.now⟩
  · refine ⟨hclock, hbegun.sorted, ?_, hleft⟩
    obtain hnil | hnow := hbegun.first
    · exact .inl hnil
    · exact .inr ⟨s'.now, hnow, hclock, BitVec.le_refl _⟩

theorem Keeps.refl (s : WritingArray) : Keeps s s :=
  ⟨BitVec.le_refl _, rfl, .inl rfl, fun _ => rfl, fun _ => rfl⟩

/-! ## Interruptions -/

variable {x : BitVec 64}

theorem sub_le_sub_iff {e w : BitVec 64} : e - x ≤ e - w ↔ x - w ≤ e - w := by bv_omega

/-- What is recorded does not exceed the attempt exactly when the attempt is not over. -/
theorem writeProgress_le_iff (h : PauseInv s log) : s.writeProgress p ≤ s.writeEnd - s.writeStart ↔ s.Unfinished p := by
  unfold writeProgress Unfinished
  split
  · exact sub_le_sub_iff
  · rw [sub_le_sub_iff]
    obtain ⟨heq, hall⟩ | ⟨hmem, hle, hmax⟩ :=
      lastUpTo_spec s.writeStart h.sorted
    · -- no iteration has begun: the whole attempt is left
      have hstart : s.nextIterationStart = s.writeStart := heq
      constructor
      · intro _ t ht _ hnow
        have hlt := hall t ht
        have hnow' : t.toNat ≤ s.now.toNat := hnow
        omega
      · bv_omega
    · have hle' : s.nextIterationStart ≤ s.now := hle
      have hlast : ∀ t ∈ s.writeIterationStarts, t ≤ s.now → t ≤ s.nextIterationStart := hmax
      constructor
      · intro hin t ht hge hnow
        have := hlast t ht hnow
        bv_omega
      · intro hall
        obtain hnil | ⟨t, ht, hge, hnow⟩ := h.reached
        · rw [hnil] at hmem
          cases hmem
        · exact hall _ hmem (BitVec.le_trans hge (hlast t ht hnow)) hle'

variable {w : WriteRequest}

@[simp] theorem interrupt_writeProgress {t e : BitVec 64} : (w.interrupt p x t e).writeProgress = x := by
  unfold WriteRequest.interrupt
  dsimp only
  split
  · split <;> rfl
  · rfl

theorem checkWritePausing_none (hi : s.interrupted p = none) : s.checkWritePausing p = s := by
  unfold checkWritePausing
  rw [hi]

/-- What an interruption changes of the fields that the log depends on. -/
structure Interrupts (p : PausingParams) (r : Nat) (s s' : WritingArray) : Prop where
  now : s'.now = s.now
  writeStart : s'.writeStart = s.writeStart
  starts : s'.writeIterationStarts = s.writeIterationStarts
  request : (s'.requests r).writeProgress = s.writeProgress p
  others : ∀ r', r' ≠ r → s'.requests r' = s.requests r'

theorem checkWritePausing_some (hi : s.interrupted p = some r) : Interrupts p r s (s.checkWritePausing p) := by
  unfold checkWritePausing
  rw [hi]
  refine ⟨rfl, rfl, rfl, ?_, fun r' hr => ?_⟩
  · show (update s.requests r _ r).writeProgress = _
    rw [update_self, interrupt_writeProgress]
  · exact update_of_ne hr _ _

variable {writeTimer : BitVec 64}

theorem PauseInv.interrupt (h : PauseInv s log) (hi : Interrupts p r s s') :
    PauseInv s' (.interrupted r (s.writeProgress p) writeTimer :: log) := by
  refine ⟨?_, hi.starts ▸ h.sorted, ?_, fun r' hr' => ?_⟩
  · rw [hi.writeStart, hi.now]
    exact h.clock
  · rw [hi.starts, hi.writeStart, hi.now]
    exact h.reached
  · by_cases hr : r = r'
    · subst hr
      exact (if_pos rfl).trans (congrArg some hi.request.symm)
    · rw [hi.others r' (Ne.symm hr)] at hr' ⊢
      exact (if_neg hr).trans (h.left r' hr')

/-! ## Commands -/

theorem activate_keeps (row : BitVec 64) : Keeps (s.checkWritePausing p) (s.activate p row) := by
  unfold activate
  dsimp only
  split
  · exact .refl _
  · exact ⟨BitVec.le_refl _, rfl, .inl rfl, fun _ => rfl, fun _ => rfl⟩

theorem read_keeps (request : ColumnRequest) (decLat : BitVec 64) :
    Keeps (s.checkWritePausing p) (s.read p request decLat) := by
  unfold read
  dsimp only
  split
  · exact .refl _
  · split
    · exact ⟨BitVec.le_refl _, rfl, .inl rfl, fun _ => rfl, fun _ => rfl⟩
    · exact ⟨BitVec.le_refl _, rfl, .inl rfl, fun _ => rfl, fun _ => rfl⟩

theorem refresh_keeps : Keeps s (s.refresh p) := by
  unfold refresh
  split
  · exact .refl _
  · exact ⟨BitVec.le_refl _, rfl, .inl rfl, fun _ => rfl, fun _ => rfl⟩

variable {data : Option (List (BitVec 32))} {draw encLat endrLat : BitVec 64}

theorem precharge_keeps (hr : s.precharge p data draw encLat endrLat = .ok s') : Keeps s s' := by
  unfold precharge at hr
  split at hr
  · obtain rfl := ok.inj hr
    exact .refl _
  · obtain ⟨⟨writeTimer, starts⟩, hstarts, hr⟩ := of_bind hr
    obtain rfl := ok.inj hr
    refine ⟨BitVec.le_refl _, rfl, ?_, fun _ => rfl, fun _ => rfl⟩
    unfold prechargeTimer at hstarts
    split at hstarts
    · obtain ⟨write, hwrite, hstarts⟩ := of_bind hstarts
      obtain ⟨-, rfl⟩ := Prod.mk.inj (ok.inj hstarts)
      exact .inr (Begun.writeCellData hwrite)
    · obtain ⟨-, rfl⟩ := Prod.mk.inj (ok.inj hstarts)
      exact .inl rfl

theorem add_le_self_iff {y : BitVec 64} : x + y ≤ x ↔ y = 0 ∨ 2 ^ 64 ≤ x.toNat + y.toNat := by
  constructor
  · intro hle
    by_cases hy : 2 ^ 64 ≤ x.toNat + y.toNat
    · exact .inr hy
    · bv_omega
  · rintro (rfl | hwrap)
    · bv_omega
    · bv_omega

variable {draw' : BitVec 64}

theorem cellWrite_spec {write : CellWrite} (hr : s.cellWrite p w data draw draw' = .ok write) :
    Begun s.now write.starts ∧
      (w.paused = true → write.delay = w.writeProgress ∨ (p.writeMode = .writeBack ∧ write.delay = 0)) := by
  obtain ⟨first, hfirst, hr⟩ := of_bind hr
  obtain ⟨write', hwrite, hr⟩ := of_bind hr
  obtain rfl := ok.inj hr
  have hcells : Begun s.now write'.starts ∧ (w.paused = true → write'.delay = w.writeProgress) := by
    split at hwrite
    · obtain rfl := ok.inj hwrite
      have hbegun : Begun s.now first.starts := Begun.writeCellData hfirst
      exact ⟨hbegun, fun _ => rfl⟩
    · rename_i hpaused
      exact ⟨Begun.writeCellData hwrite, fun h => absurd h hpaused⟩
  split
  · rename_i hback
    exact ⟨hcells.1, fun _ => .inr ⟨hback.1, rfl⟩⟩
  · exact ⟨hcells.1, fun h => .inl (hcells.2 h)⟩

theorem occupy_spec (w : WriteRequest) (writeTimer : BitVec 64) :
    (s.occupy p r w writeTimer).now = s.now ∧ (s.occupy p r w writeTimer).writeStart = s.now ∧
      (s.occupy p r w writeTimer).writeEnd = s.now + writeTimer ∧
      (s.occupy p r w writeTimer).writeIterationStarts = s.writeIterationStarts ∧
      (s.occupy p r w writeTimer).requests = s.requests := by
  unfold occupy
  dsimp only
  split <;> exact ⟨rfl, rfl, rfl, rfl, rfl⟩

/-- What a Write changes of the fields that the log depends on. -/
structure Begins (p : PausingParams) (r : Nat) (latency : BitVec 64) (s s' : WritingArray) : Prop where
  now : s'.now = s.now
  writeStart : s'.writeStart = s.now
  starts : Begun s.now s'.writeIterationStarts
  request : (s'.requests r).paused = false
  others : ∀ r', r' ≠ r → s'.requests r' = s.requests r'
  resumed : (s.requests r).paused = true →
    (s'.writeEnd - s'.writeStart ≤ (s.requests r).writeProgress ↔ SameTime p (s.requests r) latency)

variable {latency : BitVec 64}

/-- A write begins where its request and the iteration starts have been set. -/
theorem begins_of_occupy {s₁ : WritingArray} (hnow : s₁.now = s.now)
    (hstarts : Begun s.now s₁.writeIterationStarts) (hpaused : (s₁.requests r).paused = false)
    (hothers : ∀ r', r' ≠ r → s₁.requests r' = s.requests r') (htime : (s.requests r).paused = true →
      (writeTimer ≤ (s.requests r).writeProgress ↔ SameTime p (s.requests r) latency)) :
    Begins p r latency s (s₁.occupy p r w writeTimer) := by
  obtain ⟨onow, ostart, oend, ostarts, orequests⟩ := occupy_spec w writeTimer
  refine ⟨onow.trans hnow, ostart.trans hnow, ostarts ▸ hstarts, orequests ▸ hpaused, ?_, ?_⟩
  · intro r' hr
    rw [orequests]
    exact hothers r' hr
  · intro hp
    have hdiff : s₁.now + writeTimer - s₁.now = writeTimer := by bv_omega
    rw [oend, ostart, hdiff]
    exact htime hp

theorem write_begins (hi : s.isIssuable p (.write r data draw draw' encLat endrLat) = true)
    (hr : s.write p r data draw draw' encLat endrLat = .ok s') : Begins p r (encLat + endrLat) s s' := by
  unfold write at hr
  dsimp only at hr
  split at hr
  · -- the checks of `IsIssuable` are made once more
    rename_i hbad
    simp only [isIssuable, Bool.and_eq_true, decide_eq_true_eq, beq_iff_eq] at hi
    obtain ⟨⟨hwrite, hstate⟩, hrow⟩ := hi
    obtain hlt | hclosed | hother := hbad
    · exact absurd hwrite (BitVec.not_le.mpr hlt)
    · exact absurd hstate hclosed
    · exact absurd hrow hother
  · obtain ⟨write, hcells, hr⟩ := of_bind hr
    obtain ⟨hbegun, hdelay⟩ := cellWrite_spec hcells
    cases hmode : p.writeMode with
    | writeBack =>
      rw [hmode] at hr
      obtain rfl := ok.inj hr
      apply begins_of_occupy
      · rfl
      · exact hbegun
      · exact congrArg WriteRequest.paused (update_self r _ s.requests)
      · intro r' hr
        exact update_of_ne hr _ _
      · intro hp
        have hle : write.delay ≤ (s.requests r).writeProgress := by
          obtain heq | ⟨-, hzero⟩ := hdelay hp
          · rw [heq]
            exact BitVec.le_refl _
          · bv_omega
        exact iff_of_true hle fun h => absurd (hmode.symm.trans h) (by decide)
    | writeThrough =>
      rw [hmode] at hr
      obtain rfl := ok.inj hr
      apply begins_of_occupy
      · rfl
      · exact hbegun
      · exact congrArg WriteRequest.paused (update_self r _ s.requests)
      · intro r' hr
        exact update_of_ne hr _ _
      · intro hp
        have heq : write.delay = (s.requests r).writeProgress := by
          obtain heq | ⟨hback, -⟩ := hdelay hp
          · exact heq
          · cases hmode.symm.trans hback
        rw [heq, add_le_self_iff]
        exact ⟨fun h _ => h, fun h => h hmode⟩

theorem requestComplete_keeps (e : ResponseType) : Keeps s (s.requestComplete p e) := by
  unfold requestComplete
  split
  · split
    · exact ⟨BitVec.le_refl _, rfl, .inl rfl, fun _ => rfl, fun _ => rfl⟩
    · exact .refl _
  · exact ⟨BitVec.le_refl _, rfl, .inl rfl, fun _ => rfl, fun _ => rfl⟩
  · exact ⟨BitVec.le_refl _, rfl, .inl rfl, fun _ => rfl, fun _ => rfl⟩

theorem force_keeps (r : Nat) : Keeps s (s.setRequest r { s.requests r with forced := true }) := by
  have hrequest : ∀ r', (update s.requests r { s.requests r with forced := true } r').paused =
      (s.requests r').paused ∧ (update s.requests r { s.requests r with forced := true } r').writeProgress =
      (s.requests r').writeProgress := by
    intro r'
    by_cases hr : r' = r
    · subst hr
      rw [update_self]
      exact ⟨rfl, rfl⟩
    · rw [update_of_ne hr]
      exact ⟨rfl, rfl⟩
  exact ⟨BitVec.le_refl _, rfl, .inl rfl, fun r' => (hrequest r').1, fun r' => (hrequest r').2⟩

/-! ## One step -/

variable {e : Option Entry}

section
variable (h : PauseInv s log)
include h

theorem quiet_sane (hk : Keeps s s') {inTime : Prop} (he : e = none)
    (hin : inTime) : PauseInv s' (e.toList ++ log) ∧ (Sane (e.toList ++ log) ↔ Sane log ∧ inTime) := by
  subst he
  exact ⟨h.keep hk, (and_iff_left hin).symm⟩

/-- An ACTIVATE or READ logs a sane value exactly when the attempt that it interrupts is not over. -/
theorem interrupting_sane (hk : Keeps (s.checkWritePausing p) s')
    (he : e = (s.interrupted p).map fun r => .interrupted r (s'.requests r).writeProgress (s.writeEnd - s.writeStart)) :
    PauseInv s' (e.toList ++ log) ∧
      (Sane (e.toList ++ log) ↔ Sane log ∧ ((s.interrupted p).isSome → s.Unfinished p)) := by
  cases hi : s.interrupted p with
  | none =>
    rw [checkWritePausing_none hi] at hk
    rw [hi] at he
    exact quiet_sane h hk he fun hnone => absurd hnone Bool.false_ne_true
  | some r =>
    have hint := checkWritePausing_some hi
    have hprogress : (s'.requests r).writeProgress = s.writeProgress p := (hk.writeProgress r).trans hint.request
    rw [hi, Option.map_some, hprogress] at he
    subst he
    refine ⟨(h.interrupt hint).keep hk, ?_⟩
    calc Sane (.interrupted r (s.writeProgress p) (s.writeEnd - s.writeStart) :: log)
        ↔ s.writeProgress p ≤ s.writeEnd - s.writeStart ∧ Sane log := .rfl
      _ ↔ s.Unfinished p ∧ Sane log := and_congr_left' (writeProgress_le_iff h)
      _ ↔ Sane log ∧ s.Unfinished p := and_comm
      _ ↔ Sane log ∧ ((some r).isSome → s.Unfinished p) := by simp only [Option.isSome_some, true_imp_iff]

theorem PauseInv.begin (hb : Begins p r latency s s')
    (he : e = if (s.requests r).paused then some (.resumed r (s'.writeEnd - s'.writeStart)) else none) :
    PauseInv s' (e.toList ++ log) := by
  have hclock : s'.writeStart ≤ s'.now := by
    rw [hb.writeStart, hb.now]
    exact BitVec.le_refl _
  have hlog : ∀ r', WritingArray.left r' (e.toList ++ log) = WritingArray.left r' log := by
    intro r'
    subst he
    split <;> rfl
  refine ⟨hclock, hb.starts.sorted, ?_, fun r' hr' => ?_⟩
  · obtain hnil | hnow := hb.starts.first
    · exact .inl hnil
    · exact .inr ⟨s.now, hnow, hb.writeStart ▸ BitVec.le_refl _, hb.now ▸ BitVec.le_refl _⟩
  · have hne : r' ≠ r := by
      intro heq
      rw [heq, hb.request] at hr'
      exact Bool.false_ne_true hr'
    rw [hlog, hb.others r' hne]
    rw [hb.others r' hne] at hr'
    exact h.left r' hr'

/-- A Write logs a sane time exactly when the latencies do not change what was left. -/
theorem begin_sane (hb : Begins p r latency s s')
    (he : e = if (s.requests r).paused then some (.resumed r (s'.writeEnd - s'.writeStart)) else none) :
    Sane (e.toList ++ log) ↔ Sane log ∧ ((s.requests r).paused = true → SameTime p (s.requests r) latency) := by
  by_cases hp : (s.requests r).paused = true
  · rw [if_pos hp] at he
    subst he
    have hleft := h.left r hp
    calc Sane (.resumed r (s'.writeEnd - s'.writeStart) :: log)
        ↔ (∀ x, left r log = some x → s'.writeEnd - s'.writeStart ≤ x) ∧ Sane log := .rfl
      _ ↔ s'.writeEnd - s'.writeStart ≤ (s.requests r).writeProgress ∧ Sane log := by
        rw [hleft]
        exact and_congr_left' ⟨fun hall => hall _ rfl, fun hle x hx => Option.some.inj hx ▸ hle⟩
      _ ↔ SameTime p (s.requests r) latency ∧ Sane log := and_congr_left' (hb.resumed hp)
      _ ↔ Sane log ∧ ((s.requests r).paused = true → SameTime p (s.requests r) latency) := by
        rw [and_comm]
        exact and_congr_right' ⟨fun hs _ => hs, fun hs => hs hp⟩
  · rw [if_neg hp] at he
    subst he
    exact (and_iff_left fun h => absurd h hp).symm

theorem issueCommand_sane {c : Command} (hr : s.issueCommand p c = .ok s') :
    PauseInv s' ((c.entry p s s').toList ++ log) ∧ (Sane ((c.entry p s s').toList ++ log) ↔ Sane log ∧ c.inTime p s) := by
  by_cases hi : s.isIssuable p c = true
  · unfold issueCommand at hr
    rw [if_pos hi] at hr
    have hin : ∀ {b : Prop}, (s.isIssuable p c = true → b) ↔ b := ⟨fun hb => hb hi, fun hb _ => hb⟩
    unfold Command.inTime
    rw [hin]
    cases c with
    | activate row priority =>
      obtain rfl := ok.inj hr
      exact interrupting_sane h (activate_keeps row) (if_pos hi)
    | read request decLat =>
      obtain rfl := ok.inj hr
      exact interrupting_sane h (read_keeps request decLat) (if_pos hi)
    | write r data draw draw' encLat endrLat =>
      have hb := write_begins hi hr
      exact ⟨h.begin hb (if_pos hi), begin_sane h hb (if_pos hi)⟩
    | precharge data draw encLat endrLat => exact quiet_sane h (precharge_keeps hr) (if_pos hi) trivial
    | refresh =>
      obtain rfl := ok.inj hr
      exact quiet_sane h refresh_keeps (if_pos hi) trivial
  · unfold issueCommand at hr
    rw [if_neg hi] at hr
    obtain rfl := ok.inj hr
    exact quiet_sane h (.refl _) (if_neg hi) fun h => absurd h hi

theorem step_sane {op : Op} (hr : s.step p op = .ok s') :
    PauseInv s' ((op.entry p s s').toList ++ log) ∧ (Sane ((op.entry p s s').toList ++ log) ↔ Sane log ∧ op.inTime p s) := by
  cases op with
  | advance t =>
    obtain ⟨_, hready, hr⟩ := of_bind hr
    obtain rfl := ok.inj hr
    have hle : s.now ≤ t := of_decide_eq_true (Bool.and_eq_true_iff.mp (require_eq_ok.mp hready)).1
    have hk : Keeps s { s with now := t } := ⟨hle, rfl, .inl rfl, fun _ => rfl, fun _ => rfl⟩
    exact quiet_sane h hk rfl trivial
  | respond i =>
    obtain ⟨e, -, hr⟩ := of_bind hr
    obtain ⟨-, -, hr⟩ := of_bind hr
    obtain rfl := ok.inj hr
    have hk := requestComplete_keeps (p := p) (s := { s with responses := s.responses.eraseIdx i }) e.type
    have hk' : Keeps s _ := ⟨hk.now, hk.writeStart, hk.starts, hk.paused, hk.writeProgress⟩
    exact quiet_sane h hk' rfl trivial
  | force r =>
    obtain rfl := ok.inj hr
    exact quiet_sane h (force_keeps r) rfl trivial
  | issue c => exact issueCommand_sane h hr

end

/-! ## Runs -/

theorem PauseInv.new (columns : Nat → ColumnRequest) : PauseInv (WritingArray.new columns) [] :=
  ⟨BitVec.le_refl _, List.Pairwise.nil, .inl rfl, fun _ h => absurd h Bool.false_ne_true⟩

theorem PausingRun.sane_iff {columns : Nat → ColumnRequest} {ops : List Op} {x : PausingRun}
    (hr : Exec (StepOf (PausingRun.step p)) (PausingRun.new columns) ops x) : PauseInv x.array x.log ∧ (Sane x.log ↔
      EachStep (StepOf (PausingRun.step p)) (PausingRun.new columns) ops fun y op _ => op.inTime p y.array) := by
  induction hr with
  | nil =>
    refine ⟨PauseInv.new columns, iff_of_true trivial ?_⟩
    intro h e t u hk
    exact absurd (prefix_nil.mp hk) (append_ne_nil_of_right_ne_nil _ (cons_ne_nil _ _))
  | snoc hr hs ih =>
    obtain ⟨hinv, hsane⟩ := ih
    obtain ⟨s, hstep, hu⟩ := of_bind hs
    obtain rfl := ok.inj hu
    obtain ⟨hinv', hsane'⟩ := step_sane hinv hstep
    refine ⟨hinv', ?_⟩
    rw [EachStep.snoc_iff StepOf.eq hr hs, ← hsane]
    exact hsane'

/-- In every run, what an interruption records and what a resumed write takes are sane exactly when every interruption
  comes while the attempt is not over and every write is resumed in the time that it had left. -/
theorem write_pausing_sane_iff (p : PausingParams) {columns : Nat → ColumnRequest} {ops : List Op} {x : PausingRun}
    (hr : Exec (StepOf (PausingRun.step p)) (PausingRun.new columns) ops x) : Sane x.log ↔
      EachStep (StepOf (PausingRun.step p)) (PausingRun.new columns) ops fun y op _ => op.inTime p y.array :=
  (PausingRun.sane_iff hr).2

/-- A write of 60 cycles that is paused in the optimal mode when more than 40% of it is done. -/
def optimalPausing : PausingParams where
  cells := { tBURST := 4, rate := 2, busWidth := 64, mlcLevels := 1, uniformWrites := true, energyCurrent := false,
             programMode := .srms, tWP := 60, tWP0 := 40, tWP1 := 60, nWP00 := 1, nWP01 := 7, nWP10 := 5, nWP11 := 1,
             wpMaxVariance := 2 }
  writeMode := .writeThrough
  writePausing := true
  pauseMode := .optimal
  exceedsThreshold := fun writeProgress writeTimer => decide (5 * writeProgress.toNat < 3 * writeTimer.toNat)
  maxCancellations := 4
  usePrecharge := false
  rows := 64
  tAL := 0
  tCAS := 10
  tCCD := 4
  tCWD := 7
  tRAS := 24
  tRCD := 9
  tRFC := 107
  tRP := 9
  tRTP := 5
  tRTRS := 1
  tWR := 10
  tWTR := 5

/-- All requests are for row 0, one burst each. -/
def rowZero : Nat → ColumnRequest := fun _ => ⟨0, 1, false⟩

/-- A write that is interrupted at cycle `t`. -/
def interruptAt (t : BitVec 64) : List Op :=
  [.issue (.activate 0 false), .advance 9, .issue (.write 0 none 0 0 0 0), .advance t, .issue (.activate 1 true)]

/-- It is paused, comes back and begins again. -/
def pauseAndResume (encLat : BitVec 64) : List Op :=
  interruptAt 49 ++ [.advance 50, .respond 0, .issue (.activate 0 false), .advance 59, .issue (.write 0 none 0 0 encLat 0)]

theorem paused_write_resumes : ∃ x : PausingRun, x.log = [.resumed 0 20, .interrupted 0 20 60] ∧
      (Sane x.log ↔ EachStep (StepOf (PausingRun.step optimalPausing)) (PausingRun.new rowZero) (pauseAndResume 0)
        fun y op _ => op.inTime optimalPausing y.array) := by
  obtain ⟨x, hr, hx⟩ := Exec.of_endsIn (f := PausingRun.step optimalPausing) (s := PausingRun.new rowZero)
    (l := pauseAndResume 0) (p := fun x => decide (x.log = [.resumed 0 20, .interrupted 0 20 60])) (by decide)
  exact ⟨x, of_decide_eq_true hx, write_pausing_sane_iff optimalPausing hr⟩

/-- A write that is interrupted one cycle behind its end has more left than it was to take, and one that is resumed
  takes longer by the latency of the encoder. -/
theorem late_interruption_wraps :
    (∃ x, Exec (StepOf (PausingRun.step optimalPausing)) (PausingRun.new rowZero) (interruptAt 70) x ∧
      x.log = [.interrupted 0 (BitVec.allOnes 64) 60] ∧ ¬Sane x.log) ∧
    (∃ x, Exec (StepOf (PausingRun.step optimalPausing)) (PausingRun.new rowZero) (pauseAndResume 2) x ∧
      x.log = [.resumed 0 22, .interrupted 0 20 60] ∧ ¬Sane x.log) := by
  constructor
  · obtain ⟨x, hr, hx⟩ := Exec.of_endsIn (f := PausingRun.step optimalPausing) (s := PausingRun.new rowZero)
      (l := interruptAt 70) (p := fun x => decide (x.log = [.interrupted 0 (BitVec.allOnes 64) 60])) (by decide)
    have hlog := of_decide_eq_true hx
    refine ⟨x, hr, hlog, fun hsane => ?_⟩
    rw [hlog] at hsane
    exact absurd hsane.1 (by decide)
  · obtain ⟨x, hr, hx⟩ := Exec.of_endsIn (f := PausingRun.step optimalPausing) (s := PausingRun.new rowZero)
      (l := pauseAndResume 2) (p := fun x => decide (x.log = [.resumed 0 22, .interrupted 0 20 60])) (by decide)
    have hlog := of_decide_eq_true hx
    refine ⟨x, hr, hlog, fun hsane => ?_⟩
    rw [hlog] at hsane
    exact absurd (hsane.1 20 rfl) (by decide)

end WritingArray

end Nvm
