import Gem5Nvmain.Nvm.Activations

/- The registers of a rank, its banks and their sub-arrays.

  Without write pausing they only go up, with one exception: a WRITE_PRECHARGE sets the `nextPowerDown` of its bank
  from `nextActivate`, whatever `nextPowerDown` was (`registers_forward`). `PoweredRank.Le` compares all registers at
  once. -/
namespace Nvm
open Lib Function PoweredRank Nat Next

variable {p : Params} {tm : PowerTiming p} {c : Nat} {r : Request p}

theorem Next.le_trans {n m l : Next} (h : n.le m) (h' : m.le l) : n.le l := by
  obtain ⟨ha, hr, hw, hp⟩ := h
  obtain ⟨ha', hr', hw', hp'⟩ := h'
  exact ⟨Nat.le_trans ha ha', Nat.le_trans hr hr', Nat.le_trans hw hw', Nat.le_trans hp hp'⟩

/-! ## Banks -/

namespace Bank
variable {b b' : Bank p}

/-- No register of the bank or of a sub-array goes down. -/
structure Le (b b' : Bank p) : Prop where
  next : b.next.le b'.next
  subArrays : ∀ i, (b.subArrays i).next.le (b'.subArrays i).next

theorem Le.refl (b : Bank p) : Le b b := ⟨le_refl _, fun _ => le_refl _⟩

theorem Le.trans {b'' : Bank p} (h : Le b b') (h' : Le b' b'') : Le b b'' :=
  ⟨le_trans h.next h'.next, fun i => le_trans (h.subArrays i) (h'.subArrays i)⟩

variable (tm : Timing p)

theorem onSubArray_le (hpause : p.writePausing = false) (b : Bank p) (i : Nat) : Le b (b.onSubArray tm c i r) := by
  refine ⟨le_refl _, fun j => ?_⟩
  by_cases hj : j = i
  · subst hj
    have hle := SubArray.issueCommand_le tm (s := b.subArray c j) (c := c) (r := r) hpause
    simp only [subArray, SubArray.settle_registers] at hle
    simpa only [onSubArray, update_self, subArray] using hle
  · simp only [onSubArray, update_of_ne hj]
    exact le_refl _

theorem onSubArrays_le (hpause : p.writePausing = false) (l : List Nat) (b : Bank p) :
    Le b (l.foldl (fun b i => b.onSubArray tm c i r) b) := by
  induction l generalizing b with
  | nil => exact .refl b
  | cons i l ih => exact (onSubArray_le tm hpause b i).trans (ih _)

theorem issueCommand_le (hpause : p.writePausing = false) (b : Bank p) : Le b (b.issueCommand tm c r) := by
  have hsub := onSubArray_le tm (c := c) (r := r) hpause b r.address.subarray
  have hmeet (n : Next) : b.next.le (b.next.meet n) := le_meet _ _
  unfold issueCommand
  cases htype : r.type <;> simp only
  case activate =>
    unfold activate
    split
    · exact .refl b
    · exact ⟨hsub.next, hsub.subArrays⟩
  case read | readPrecharge =>
    unfold read
    split
    · exact ⟨hmeet _, hsub.subArrays⟩
    · exact ⟨hmeet _, hsub.subArrays⟩
  case write | writePrecharge =>
    unfold write
    split
    · exact ⟨hmeet _, hsub.subArrays⟩
    · exact ⟨hmeet _, hsub.subArrays⟩
  case precharge => exact ⟨hsub.next, hsub.subArrays⟩
  case prechargeAll =>
    have hall := onSubArrays_le tm (c := c) (r := r) hpause b.activeSubArrayQueue b
    exact ⟨hall.next, hall.subArrays⟩
  case refresh => exact hsub
  case cachedRead | cachedWrite => exact .refl b

end Bank

theorem SubArrayPower.issueCommand_le (hpause : p.writePausing = false) (s : SubArray p) (w : SubArrayPower) :
    w.nextPowerDown ≤ (w.issueCommand tm c s r).nextPowerDown := by
  have hcheck : w.checkWritePausing c s = w := by simp [checkWritePausing, hpause]
  unfold issueCommand
  cases r.type <;> simp only [hcheck]
  case activate | read | readPrecharge | write | writePrecharge => exact le_max_left _ _
  all_goals exact le_refl _

namespace PoweredBank
variable {b b' : PoweredBank p}

structure Le (b b' : PoweredBank p) : Prop where
  bank : Bank.Le b.toBank b'.toBank
  powerDown : b.nextPowerDown ≤ b'.nextPowerDown
  powerUp : b.nextPowerUp ≤ b'.nextPowerUp
  subArrays : ∀ i, (b.subArrayPower i).nextPowerDown ≤ (b'.subArrayPower i).nextPowerDown

theorem Le.refl (b : PoweredBank p) : Le b b := ⟨Bank.Le.refl _, le_refl _, le_refl _, fun _ => le_refl _⟩

theorem Le.trans {b'' : PoweredBank p} (h : Le b b') (h' : Le b' b'') : Le b b'' :=
  ⟨h.bank.trans h'.bank, le_trans h.powerDown h'.powerDown, le_trans h.powerUp h'.powerUp,
    fun i => le_trans (h.subArrays i) (h'.subArrays i)⟩

/-- A WRITE_PRECHARGE does not take `nextPowerDown` back. -/
def keepsPowerDown (tm : PowerTiming p) (c : Nat) (b : PoweredBank p) (r : Request p) : Prop :=
  r.type = .writePrecharge → b.nextPowerDown ≤ max b.next.activate (c + tm.burst * (tm.burstCount r - 1) + tm.tAL + tm.tCWD +
    tm.tBURST + tm.tWR + tm.tRP)

instance (b : PoweredBank p) : Decidable (b.keepsPowerDown tm c r) := inferInstanceAs (Decidable (_ → _))

theorem powerDownAfter_le_iff : b.nextPowerDown ≤ b.powerDownAfter tm c r ↔ b.keepsPowerDown tm c r := by
  unfold powerDownAfter keepsPowerDown
  cases r.type <;> simp

theorem request_le_iff (hpause : p.writePausing = false) : Le b (b.request tm c r) ↔ b.keepsPowerDown tm c r := by
  unfold request
  split
  · rename_i hidle
    refine ⟨fun _ htype => ?_, fun _ => .refl b⟩
    rw [htype] at hidle
    cases hidle.1
  · refine ⟨fun h => powerDownAfter_le_iff.mp h.powerDown, fun h => ?_⟩
    refine ⟨Bank.issueCommand_le tm.toTiming hpause _, powerDownAfter_le_iff.mpr h, le_refl _, fun i => ?_⟩
    by_cases hi : i = r.address.subarray
    · subst hi
      simp only [update_self]
      exact SubArrayPower.issueCommand_le hpause _ _
    · simp only [update_of_ne hi]
      exact le_refl _

theorem powerDown_le (d : PowerDown) : Le b (b.powerDown tm c d) :=
  ⟨Bank.Le.refl _, le_refl _, le_max_left _ _, fun _ => le_refl _⟩

theorem powerUp_le : Le b (b.powerUp tm c) :=
  ⟨⟨le_meet _ _, fun _ => le_refl _⟩, le_max_left _ _, le_refl _, fun _ => le_refl _⟩

end PoweredBank

/-! ## Ranks -/

theorem Rank.issueCommand_le (tm : Timing p) (k : Rank p) : k.next.le (k.issueCommand tm c r).next := by
  have hmeet (n : Next) : k.next.le (k.next.meet n) := le_meet _ _
  unfold issueCommand
  cases r.type
  case refresh =>
    simp only [activated, (onBanks_window tm _ k).2.2]
    exact hmeet _
  case cachedRead | cachedWrite => exact le_refl _
  all_goals exact hmeet _

namespace PoweredRank
variable {k k' : PoweredRank p} {cmd : Command p}

/-- No register of the rank, a bank or a sub-array goes down. -/
structure Le (k k' : PoweredRank p) : Prop where
  next : k.next.le k'.next
  banks : ∀ i, PoweredBank.Le (k.banks i) (k'.banks i)

theorem Le.refl (k : PoweredRank p) : Le k k := ⟨le_refl _, fun _ => PoweredBank.Le.refl _⟩

theorem Le.trans {k'' : PoweredRank p} (h : Le k k') (h' : Le k' k'') : Le k k'' :=
  ⟨le_trans h.next h'.next, fun i => (h.banks i).trans (h'.banks i)⟩

/-- A command does not take back a `nextPowerDown`. -/
def keepsPowerDown (tm : PowerTiming p) (c : Nat) (k : PoweredRank p) : Command p → Prop
  | .request r => (k.banks r.address.bank).keepsPowerDown tm c r
  | _ => True

instance (k : PoweredRank p) : Decidable (k.keepsPowerDown tm c cmd) :=
  match cmd with
  | .request r => inferInstanceAs (Decidable ((k.banks r.address.bank).keepsPowerDown tm c r))
  | .powerDown _ | .powerUp => inferInstanceAs (Decidable True)

theorem request_le_iff (hpause : p.writePausing = false) :
    Le k (k.request tm c r) ↔ (k.banks r.address.bank).keepsPowerDown tm c r := by
  constructor
  · intro h htype
    have hbank := h.banks r.address.bank
    have hreached : r.address.bank ∈ reached r := by simp [reached, htype]
    simp only [request, if_pos hreached] at hbank
    exact (PoweredBank.request_le_iff hpause).mp hbank htype
  · intro h
    refine ⟨Rank.issueCommand_le tm.toTiming k.toRank, fun i => ?_⟩
    simp only [request]
    split
    · rename_i hi
      refine (PoweredBank.request_le_iff hpause).mpr fun htype => ?_
      have heq : i = r.address.bank := by simpa [reached, htype] using hi
      rw [heq]
      exact h htype
    · exact PoweredBank.Le.refl _

/-- A command that is accepted moves the registers forward exactly when it keeps `nextPowerDown`. -/
theorem dispatch_le_iff (hpause : p.writePausing = false) (h : k.dispatch tm c cmd = .ok k') :
    Le k k' ↔ k.keepsPowerDown tm c cmd := by
  have hbanks {f : Nat → PoweredBank p} (hf : ∀ i, PoweredBank.Le (k.banks i) (f i)) (i : Nat) :
      PoweredBank.Le (k.banks i) (if i < p.banks then f i else k.banks i) := by
    split
    · exact hf i
    · exact PoweredBank.Le.refl _
  cases cmd with
  | request r =>
    cases h
    exact request_le_iff hpause
  | powerDown d =>
    obtain ⟨-, -, h⟩ := of_bind h
    cases h
    exact iff_of_true ⟨le_refl _, hbanks fun _ => PoweredBank.powerDown_le d⟩ trivial
  | powerUp =>
    obtain ⟨-, -, h⟩ := of_bind h
    cases h
    exact iff_of_true ⟨le_refl _, hbanks fun _ => PoweredBank.powerUp_le⟩ trivial

end PoweredRank

/-! ## Runs -/

namespace RankRun
variable {x y : RankRun p} {op : Op p} {ops : List (Op p)}

/-- A step does not accept a WRITE_PRECHARGE that takes `nextPowerDown` back. -/
def keepsPowerDown (tm : PowerTiming p) (x : RankRun p) : Op p → Bool
  | .issueCommand cmd => !x.accepts tm cmd || decide (x.rank.keepsPowerDown tm x.cycle cmd)
  | _ => true

theorem step_le_iff (hpause : p.writePausing = false) (hs : x.step tm op = .ok y) :
    PoweredRank.Le x.rank y.rank ↔ x.keepsPowerDown tm op = true := by
  have hrefl := PoweredRank.Le.refl x.rank
  cases op with
  | notify r =>
    cases hs
    exact iff_of_true ⟨notify_le tm x.cycle r, fun _ => PoweredBank.Le.refl _⟩ rfl
  | requestComplete =>
    simp only [step] at hs
    split at hs <;> cases hs <;> exact iff_of_true ⟨hrefl.next, hrefl.banks⟩ rfl
  | tick =>
    simp only [step] at hs
    split at hs <;> cases hs <;> exact iff_of_true hrefl rfl
  | issueCommand cmd =>
    simp only [step] at hs
    split at hs
    · rename_i hevent
      cases hs
      have hrefused : x.accepts tm cmd = false := by simp [accepts, hevent]
      exact iff_of_true hrefl (by simp [keepsPowerDown, hrefused])
    · rename_i hevent
      obtain ⟨⟨k, accepted⟩, hk, hs⟩ := of_bind hs
      cases hs
      have haccepts : x.accepts tm cmd = accepted := by simp [accepts, hevent, hk]
      simp only [keepsPowerDown, haccepts]
      rcases issueCommand_cases hk with ⟨rfl, -, hk⟩ | ⟨rfl, rfl⟩
      · simpa using dispatch_le_iff hpause hk
      · exact iff_of_true hrefl rfl

/-- No register goes down in a run whose steps keep `nextPowerDown`, and every other step takes one down. -/
theorem registers_forward (tm : PowerTiming p) (hpause : p.writePausing = false) :
    (∀ (x y : RankRun p) (op : Op p), x.step tm op = .ok y →
      (PoweredRank.Le x.rank y.rank ↔ x.keepsPowerDown tm op = true)) ∧
    ∀ (x y : RankRun p) (ops : List (Op p)),
      Exec (StepIf (keepsPowerDown tm) (step tm)) x ops y → PoweredRank.Le x.rank y.rank := by
  refine ⟨fun x y op hs => step_le_iff hpause hs, fun x y ops hr => ?_⟩
  refine hr.invariant (P := fun y => PoweredRank.Le x.rank y.rank) (PoweredRank.Le.refl _) fun y op z ih hs => ?_
  exact ih.trans ((step_le_iff hpause hs.2).mpr hs.1)

def openTiming : PowerTiming device := { tRAW := 1, tRRDR := 1, tRCD := 1 }

/-- A command for row 1 of a sub-array in the first bank. -/
def toSubArray (type : OpType) (i : Nat) (h : i < 2) : Op device :=
  .issueCommand (.request { type := type, address := ⟨1, 0, 0, 0, i, device.banks_pos, device.ranks_pos, h⟩ })

/-- A row is opened, written and closed, and its bank may be powered down 30 cycles later. -/
theorem registers_forward_device : ∃ y, Exec (StepIf (keepsPowerDown openTiming) (step openTiming))
      ⟨init openTiming false, 0⟩
      [.tick, toSubArray .activate 1 (by decide), .tick, toSubArray .writePrecharge 1 (by decide)] y ∧
    (y.rank.banks 0).nextPowerDown = 32 ∧ PoweredRank.Le (init openTiming false) y.rank := by
  refine Exec.ends_withIf (p := fun y => decide ((y.rank.banks 0).nextPowerDown = 32)) (by decide) fun y hr hy => ?_
  exact ⟨of_decide_eq_true hy, (registers_forward openTiming rfl).2 _ _ _ hr⟩

/-- A sub-array of the bank is refreshed, which keeps the bank from being powered down until cycle 109, and the
  WRITE_PRECHARGE of the other one takes that back to cycle 32. -/
theorem powerDown_taken_back : ∃ x y, Exec (StepOf (step openTiming)) ⟨init openTiming false, 0⟩
      [.tick, toSubArray .activate 1 (by decide), .tick, toSubArray .refresh 0 (by decide)] x ∧
    x.step openTiming (toSubArray .writePrecharge 1 (by decide)) = .ok y ∧ ¬PoweredRank.Le x.rank y.rank := by
  refine Exec.ends_with_two (p := fun x : RankRun device =>
      !x.keepsPowerDown openTiming (toSubArray .writePrecharge 1 (by decide)) &&
      (x.step openTiming (toSubArray .writePrecharge 1 (by decide))).isOk) (by decide) fun x hr hx => ?_
  obtain ⟨hkeeps, hok⟩ := Bool.and_eq_true_iff.mp hx
  cases hs : x.step openTiming (toSubArray .writePrecharge 1 (by decide)) with
  | error e => simp [hs, Except.toBool] at hok
  | ok y =>
    refine ⟨y, rfl, fun hle => ?_⟩
    rw [(step_le_iff rfl hs).mp hle] at hkeeps
    cases hkeeps

end RankRun

end Nvm
