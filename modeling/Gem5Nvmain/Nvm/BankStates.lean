import Gem5Nvmain.Nvm.Power
import Gem5Nvmain.Nvm.RowCycle

/- A bank and its sub-arrays.

  `activeSubArrayQueue` is the bank's own list of the sub-arrays that are open. It agrees with them as long as no
  ACTIVATE comes to a sub-array of the list (`bank_agrees`). With `UsePrecharge` none does, as a sub-array that is not
  closed refuses it; without, the bank takes it and has the sub-array in its list twice (`activated_twice`).

  `Bank.WF` compares the list with the rows. What it says of a sub-array that is closing is not enough without
  `UsePrecharge`: `Closes` is the rest. -/
namespace Nvm
open Lib Function PoweredBank

variable {p : Params} {c : Nat} {r : Request p}

namespace SubArray
variable {tm : Timing p} {s : SubArray p}

/-- A sub-array that is closing is not activated until then, and is open only if its implicit precharge has not begun. -/
structure Closes (s : SubArray p) : Prop where
  activate : ∀ t, s.closedAt = some t → t ≤ s.next.activate
  opened : ∀ t, s.closedAt = some t → s.state = .opened → s.prechargeAt ≠ none

theorem Closes.init : Closes ({} : SubArray p) := ⟨nofun, nofun⟩

theorem Closes.of_none (h : s.closedAt = none) : s.Closes := by
  refine ⟨fun t ht => ?_, fun t ht => ?_⟩
  · rw [h] at ht
    cases ht
  · rw [h] at ht
    cases ht

theorem closeBehind_closes (t : Nat) : (s.closeBehind tm t).Closes := by
  refine ⟨fun u hu => ?_, fun u _ _ => nofun⟩
  cases hu
  simp only [closeBehind, Next.meet]
  omega

variable (tm) in
theorem issueCommand_closes (hidle : s.closedAt = none) : (s.issueCommand tm c r).Closes := by
  unfold issueCommand
  cases r.type <;> simp only
  case activate =>
    unfold activate
    exact Closes.of_none (by simpa using hidle)
  case read | readPrecharge =>
    unfold read
    simp only
    split
    · exact closeBehind_closes _
    · exact Closes.of_none (by simpa using hidle)
  case write | writePrecharge =>
    unfold write
    simp only
    split
    · exact closeBehind_closes _
    · exact Closes.of_none (by simpa using hidle)
  case precharge | prechargeAll =>
    unfold precharge
    refine ⟨fun t ht => ?_, fun _ _ h => by cases h⟩
    cases ht
    simp only [Next.meet]
    omega
  case refresh =>
    unfold refresh
    refine ⟨fun t ht => ?_, fun _ _ h => by cases h⟩
    cases ht
    simp only [Next.meet]
    omega
  case cachedRead | cachedWrite => exact Closes.of_none hidle

/-- A row is open exactly in a sub-array that is open and has no implicit precharge to come. -/
theorem row_iff (hw : s.WF) (hc : s.Closes) :
    s.row ≠ none ↔ (s.settle c).state = .opened ∧ (s.settle c).prechargeAt = none := by
  cases hat : s.closedAt with
  | none =>
    have hpre := (hw.idle hat).1
    rw [settle_idle hw hat]
    simp [row, hat, hpre]
  | some t =>
    have hnone : s.row = none := by simp [row, hat]
    rw [hnone]
    refine ⟨absurd rfl, fun h => ?_⟩
    obtain ⟨hstate, hpre⟩ := h
    by_cases ht : t ≤ c
    · rw [(settle_closed hw hat ht).1] at hstate
      cases hstate
    · -- the implicit precharge would have begun
      exfalso
      cases hs : s.prechargeAt with
      | none =>
        simp only [settle, beginPrecharge, hs, close, hat, ht] at hstate
        exact hc.opened t hat hstate hs
      | some u =>
        by_cases hu : u ≤ c
        · simp [settle, beginPrecharge, hs, hu, close, hat, ht] at hstate
        · simp [settle, beginPrecharge, hs, hu, close, hat, ht] at hpre

end SubArray

namespace Bank
variable {tm : Timing p} {b : Bank p}

variable (tm) in
/-- A command changes only sub-arrays that take it. -/
theorem issueCommand_subArrays (hw : b.WF) (h : b.isIssuable c r = true) (i : Nat) :
    (b.issueCommand tm c r).subArrays i = b.subArrays i ∨ ((b.subArray c i).isIssuable c r = true ∧
      (b.issueCommand tm c r).subArrays i = (b.subArray c i).issueCommand tm c r) := by
  have hone {b' : Bank p} (hchild : (b.subArray c r.address.subarray).isIssuable c r = true)
      (hb' : b'.subArrays = (b.onSubArray tm c r.address.subarray r).subArrays) :
      b'.subArrays i = b.subArrays i ∨ ((b.subArray c i).isIssuable c r = true ∧
        b'.subArrays i = (b.subArray c i).issueCommand tm c r) := by
    by_cases hi : i = r.address.subarray
    · subst hi
      exact .inr ⟨hchild, by rw [hb']; exact update_self ..⟩
    · exact .inl (by rw [hb']; exact update_of_ne hi ..)
  unfold isIssuable at h
  unfold issueCommand
  cases htype : r.type <;> simp only [htype, Bool.and_eq_true] at h ⊢
  case activate =>
    unfold activate
    split
    · exact .inl rfl
    · exact hone h.2 rfl
  case read | readPrecharge =>
    unfold read
    simp only
    split
    · exact hone h.2 rfl
    · exact hone h.2 rfl
  case write | writePrecharge =>
    unfold write
    simp only
    split
    · exact hone h.2 rfl
    · exact hone h.2 rfl
  case precharge => exact hone h.2 rfl
  case prechargeAll =>
    have hsubs := congrFun (onSubArrays_eq tm (c := c) (r := r) (b := b) hw.nodup) i
    simp only [prechargeAll, hsubs]
    split
    · rename_i hi
      exact .inr ⟨List.all_eq_true.mp h.2 i hi, rfl⟩
    · exact .inl rfl
  case refresh => exact hone h.2 rfl
  case cachedRead | cachedWrite => exact .inl trivial

end Bank

/-! ## Banks with power-down -/

namespace PoweredBank
variable {tm : PowerTiming p} {b : PoweredBank p} {cmd : Command p}

/-- CLOSED, or a precharge power-down state. -/
def closedState (b : PoweredBank p) : Prop :=
  match b.power with
  | none => b.state = .closed
  | some .pda => False
  | some .pdpf | some .pdps => True

/-- The loop of PRECHARGE_ALL succeeds on the sub-arrays of a list. -/
def closesAll (tm : Timing p) (c : Nat) (r : Request p) (b : Bank p) : List Nat → Bool
  | [] => true
  | i :: l => (b.subArray c i).isIssuable c r && closesAll tm c r (b.onSubArray tm c i r) l

/-- The list of active sub-arrays agrees with them, at cycle `c`. -/
structure Agrees (tm : PowerTiming p) (c : Nat) (b : PoweredBank p) : Prop where
  nodup : b.activeSubArrayQueue.Nodup
  active : ∀ i, i ∈ b.activeSubArrayQueue ↔ (b.subArray c i).state = .opened ∧ (b.subArray c i).prechargeAt = none
  closed : b.closedState ↔ b.activeSubArrayQueue = []
  prechargeAll : ∀ r, r.type = .prechargeAll → b.isIssuable c (.request r) = true →
    closesAll tm.toTiming c r b.toBank b.activeSubArrayQueue = true

/-- The invariant of a bank. -/
structure Inv (b : PoweredBank p) : Prop where
  wf : b.toBank.WF
  closes : ∀ i, (b.subArrays i).Closes
  power : ∀ d, b.power = some d → (d = .pda ↔ b.state = .opened)

theorem Inv.init (initPD : Bool) : Inv (init initPD : PoweredBank p) := by
  refine ⟨Bank.WF.init, fun _ => SubArray.Closes.init, fun d hd => ?_⟩
  cases initPD with
  | false => cases hd
  | true =>
    cases hd
    exact iff_of_false nofun nofun

/-- An ACTIVATE does not come to a sub-array that is active. -/
def opensNew (b : PoweredBank p) : Command p → Bool
  | .request r => r.type != .activate || !b.activeSubArrayQueue.contains r.address.subarray
  | _ => true

theorem Inv.atRest (h : Inv b) (hnew : b.opensNew (.request r) = true) (i : Nat) (hi : Bank.Reaches r i) :
    (b.subArrays i).AtRest c r := by
  intro hsub
  refine ⟨(SubArray.isIssuable_idle (h.wf.subArrays i) (.inr (h.closes i).activate) hsub).1, fun htype => ?_⟩
  have hmem : r.address.subarray ∉ b.activeSubArrayQueue := by simpa [opensNew, htype] using hnew
  have heq : i = r.address.subarray := by simpa [Bank.Reaches, htype] using hi
  rw [heq]
  exact not_not.mp (mt (h.wf.active r.address.subarray).mpr hmem)

theorem request_power : (b.request tm c r).power = b.power := by
  unfold request
  split <;> rfl

variable (tm) in
theorem Inv.request (h : Inv b) (hissuable : b.isIssuable c (.request r) = true) (hnew : b.opensNew (.request r) = true) :
    Inv (b.request tm c r) := by
  obtain ⟨hpower, hbank⟩ := Bool.and_eq_true_iff.mp hissuable
  have htook : Bank.Took b.toBank r (b.toBank.issueCommand tm.toTiming c r) := Bank.issue_took h.wf (h.atRest hnew) hbank
  have hsame := toBank_request tm c b r
  refine ⟨?_, fun i => ?_, fun d hd => ?_⟩
  · rw [hsame]
    exact htook.wf
  · rw [hsame]
    rcases Bank.issueCommand_subArrays tm.toTiming h.wf hbank i with hi | ⟨hsub, hi⟩
    · rw [hi]
      exact h.closes i
    · rw [hi]
      exact SubArray.issueCommand_closes _
        (SubArray.isIssuable_idle (h.wf.subArrays i) (.inr (h.closes i).activate) hsub).1
  · rw [request_power, Option.isNone_iff_eq_none.mp hpower] at hd
    cases hd

variable (c tm) in
theorem Inv.powerDown (h : Inv b) (d : PowerDown) : Inv (b.powerDown tm c d) := by
  refine ⟨h.wf, h.closes, fun d' hd' => ?_⟩
  simp only [PoweredBank.powerDown, Option.some.injEq] at hd' ⊢
  rw [← hd']
  cases b.state with
  | opened => simp
  | closed => cases d <;> simp

variable (c tm) in
theorem Inv.powerUp (h : Inv b) (hissuable : b.isIssuable c .powerUp = true) : Inv (b.powerUp tm c) := by
  obtain ⟨d, hd⟩ := Option.isSome_iff_exists.mp (Bool.and_eq_true_iff.mp hissuable).2
  have hstate : (b.powerUp tm c).state = b.state := by
    have hpda := h.power d hd
    simp only [PoweredBank.powerUp, hd, Option.some.injEq]
    cases hs : b.state with
    | opened => rw [if_pos (hpda.mpr hs)]
    | closed =>
      refine if_neg fun heq => ?_
      rw [hpda.mp heq] at hs
      cases hs
  exact ⟨Bank.same_wf h.wf rfl hstate h.wf.subArrays fun _ => rfl, h.closes, nofun⟩

variable (tm) in
theorem Inv.step (h : Inv b) (hissuable : b.isIssuable c cmd = true) (hnew : b.opensNew cmd = true) :
    Inv (b.issueCommand tm c cmd) := by
  cases cmd with
  | request r => exact h.request tm hissuable hnew
  | powerDown d => exact h.powerDown c tm d
  | powerUp => exact h.powerUp c tm hissuable

theorem closesAll_of_issuable {l : List Nat} {b : Bank p} {tm : Timing p} (hnd : l.Nodup)
    (h : ∀ i ∈ l, (b.subArray c i).isIssuable c r = true) : closesAll tm c r b l = true := by
  induction l generalizing b with
  | nil => rfl
  | cons i l ih =>
    obtain ⟨hi, hnd⟩ := List.nodup_cons.mp hnd
    simp only [closesAll, h i (List.mem_cons_self ..)]
    refine ih hnd fun j hj => ?_
    have hne : j ≠ i := fun heq => hi (heq ▸ hj)
    have hsame : (b.onSubArray tm c i r).subArray c j = b.subArray c j :=
      congrArg (SubArray.settle c) (update_of_ne hne ..)
    rw [hsame]
    exact h j (List.mem_cons_of_mem _ hj)

variable (c tm) in
theorem Inv.agrees (h : Inv b) : Agrees tm c b := by
  have hstate := h.wf.state
  refine ⟨h.wf.nodup, fun i => ?_, ?_, fun r htype hissuable => ?_⟩
  · exact (h.wf.active i).trans (SubArray.row_iff (h.wf.subArrays i) (h.closes i))
  · unfold closedState
    cases hp : b.power with
    | none =>
      cases hs : b.state with
      | closed => simpa [hs] using hstate
      | opened => simpa [hs] using hstate
    | some d =>
      have hpda := h.power d hp
      cases d with
      | pda => simpa using hstate.mp (hpda.mp rfl)
      | pdpf | pdps =>
        have hclosed : ¬b.state = .opened := fun hs => nomatch hpda.mpr hs
        simpa [hclosed] using hstate
  · obtain ⟨-, hbank⟩ := Bool.and_eq_true_iff.mp hissuable
    simp only [Bank.isIssuable, htype, Bool.and_eq_true] at hbank
    exact closesAll_of_issuable h.wf.nodup (List.all_eq_true.mp hbank.2)

theorem Inv.opensNew (h : Inv b) (huse : p.usePrecharge = true) (hissuable : b.isIssuable c cmd = true) :
    b.opensNew cmd = true := by
  cases cmd with
  | powerDown d => rfl
  | powerUp => rfl
  | request r =>
    by_cases htype : r.type = .activate
    · obtain ⟨-, hbank⟩ := Bool.and_eq_true_iff.mp hissuable
      simp only [Bank.isIssuable, htype, Bool.and_eq_true] at hbank
      have hrow := (SubArray.atRest (h.wf.subArrays r.address.subarray) huse hbank.2).2 htype
      have hmem : r.address.subarray ∉ b.activeSubArrayQueue := fun hmem => (h.wf.active _).mp hmem hrow
      simpa [opensNew, htype] using hmem
    · simp [opensNew, htype]

end PoweredBank

/-! ## Runs -/

/-- A bank and the cycle it is at. The events up to this cycle have been processed. -/
structure BankRun (p : Params) where
  bank : PoweredBank p
  cycle : Nat := 0

namespace BankRun
variable {tm : PowerTiming p} {x y : BankRun p}

inductive Op (p : Params) where
  | issueCommand (cmd : Command p)
  | tick

def step (tm : PowerTiming p) (x : BankRun p) : Op p → Except Stop (BankRun p)
  | .issueCommand cmd =>
    .ok (if x.bank.isIssuable x.cycle cmd then { x with bank := x.bank.issueCommand tm x.cycle cmd } else x)
  | .tick => .ok { x with cycle := x.cycle + 1 }

/-- Precharges are used, or no ACTIVATE is accepted for a sub-array that is active. -/
def opensNew (x : BankRun p) : Op p → Bool
  | .issueCommand cmd => p.usePrecharge || !x.bank.isIssuable x.cycle cmd || x.bank.opensNew cmd
  | .tick => true

theorem step_inv {op : Op p} (h : PoweredBank.Inv x.bank) (hnew : x.opensNew op = true) (hs : x.step tm op = .ok y) :
    PoweredBank.Inv y.bank := by
  cases op with
  | tick =>
    cases hs
    exact h
  | issueCommand cmd =>
    cases hs
    split
    · rename_i hissuable
      refine h.step tm hissuable ?_
      cases huse : p.usePrecharge with
      | true => exact h.opensNew huse hissuable
      | false => simpa [opensNew, huse, hissuable] using hnew
    · exact h

/-- A bank agrees with its sub-arrays at all times, in every run in which no ACTIVATE is accepted for a sub-array that
  is active or precharges are used. Such an ACTIVATE breaks it at once. -/
theorem bank_agrees (tm : PowerTiming p) (initPD : Bool) :
    (∀ ops x, Exec (StepIf opensNew (step tm)) ⟨PoweredBank.init initPD, 0⟩ ops x →
      ∀ c, PoweredBank.Agrees tm c x.bank) ∧
    ∀ (x y : BankRun p) (op : Op p), x.opensNew op = false → x.step tm op = .ok y →
      ∀ c, ¬PoweredBank.Agrees tm c y.bank := by
  refine ⟨fun ops x hr c => ?_, fun x y op hold hs c h => ?_⟩
  · have hinv : PoweredBank.Inv x.bank :=
      hr.invariant (P := fun x => PoweredBank.Inv x.bank) (PoweredBank.Inv.init initPD) fun _ _ _ h hs => step_inv h hs.1 hs.2
    exact hinv.agrees c tm
  · cases op with
    | tick => cases hold
    | issueCommand cmd =>
      cases cmd with
      | powerDown d => simp [opensNew, PoweredBank.opensNew] at hold
      | powerUp => simp [opensNew, PoweredBank.opensNew] at hold
      | request r =>
        simp only [opensNew, PoweredBank.opensNew, Bool.or_eq_false_iff, Bool.not_eq_false', bne_eq_false_iff_eq] at hold
        obtain ⟨⟨-, hissuable⟩, htype, hactive⟩ := hold
        have hmem : r.address.subarray ∈ x.bank.activeSubArrayQueue := List.contains_iff_mem.mp hactive
        simp only [step, hissuable, Except.ok.injEq] at hs
        have hqueue : y.bank.activeSubArrayQueue = r.address.subarray :: x.bank.activeSubArrayQueue := by
          rw [← hs]
          show ((x.bank.request tm x.cycle r).toBank).activeSubArrayQueue = _
          rw [PoweredBank.toBank_request, Bank.issueCommand, htype, Bank.activate, if_neg]
          exact fun hidle => absurd (hidle.2 ▸ hmem) List.not_mem_nil
        have hnd := h.nodup
        rw [hqueue] at hnd
        exact (List.nodup_cons.mp hnd).1 hmem

/-- A command for row 1 of a sub-array. -/
def toRow (type : OpType) (i : Nat) (h : i < 2) : Op device :=
  .issueCommand (.request { type := type, address := ⟨1, 0, 0, 0, i, device.banks_pos, device.ranks_pos, h⟩ })

def fastTiming : PowerTiming device := { tRCD := 1, tRAS := 1 }

/-- Two sub-arrays are opened, and one closes again. -/
theorem bank_agrees_device : ∃ x, Exec (StepIf opensNew (step fastTiming)) ⟨init false, 0⟩
      [toRow .activate 0 (by decide), toRow .activate 1 (by decide), .tick, toRow .readPrecharge 0 (by decide)] x ∧
    x.bank.activeSubArrayQueue = [1] ∧ PoweredBank.Agrees fastTiming 5 x.bank := by
  refine Exec.ends_withIf (p := fun x => decide (x.bank.activeSubArrayQueue = [1])) (by decide) fun x hr hx => ?_
  exact ⟨of_decide_eq_true hx, (bank_agrees fastTiming false).1 _ x hr 5⟩

/-- The device without `UsePrecharge`. -/
def unprecharged : Params := { device with usePrecharge := false }

/-- An ACTIVATE of a row of the only sub-array that is opened. -/
def reopens (row : Nat) : Op unprecharged :=
  .issueCommand (.request { type := .activate, address := ⟨row, 0, 0, 0, 0, by decide, by decide, by decide⟩ })

/-- The second row is opened without a precharge. A PRECHARGE_ALL is then accepted, and fails. -/
theorem activated_twice : ∃ x, Exec (StepOf (step {})) ⟨init false, 0⟩ [reopens 1, .tick, reopens 2] x ∧
    x.bank.activeSubArrayQueue = [0, 0] ∧ ¬PoweredBank.Agrees {} x.cycle x.bank ∧
    ∃ r : Request unprecharged, x.bank.isIssuable 30 (.request r) = true ∧ r.type = .prechargeAll ∧
      closesAll {} 30 r x.bank.toBank x.bank.activeSubArrayQueue = false := by
  let all : Request unprecharged := { type := .prechargeAll, address := ⟨0, 0, 0, 0, 0, by decide, by decide, by decide⟩ }
  refine Exec.ends_with (p := fun x => decide (x.bank.activeSubArrayQueue = [0, 0]) && (x.bank.isIssuable 30 (.request all) &&
      !closesAll {} 30 all x.bank.toBank x.bank.activeSubArrayQueue)) (by decide) fun x hr hx => ?_
  simp only [Bool.and_eq_true, decide_eq_true_eq, Bool.not_eq_true'] at hx
  refine ⟨hx.1, fun h => ?_, all, hx.2.1, rfl, hx.2.2⟩
  have hnd := h.nodup
  rw [hx.1] at hnd
  exact absurd hnd (by decide)

end BankRun

end Nvm
