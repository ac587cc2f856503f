import Gem5Nvmain.Nvm.Banks
import Mathlib.Data.List.Nodup
import Mathlib.Order.Filter.AtTopBot.Basic

/- The rows of the banks.

  Seen from above, a sub-array has a row open or it has none (`SubArray.row`): one that an implicit precharge is about
  to close counts as closed, since its registers keep every command away until it is. `nextRow` says which commands
  are legal for a row and what they make of it. A command that the memory takes is legal for every sub-array it
  reaches and does what `nextRow` says (`Ranks.issue_rows`), and one that is legal is taken from some cycle on, if
  nothing else is issued (`Ranks.eventually_issuable`).

  The first needs precharges (`UsePrecharge`), or at least no ACTIVATE of a row over another one (`SubArray.AtRest`),
  and the second no write pausing. -/
namespace Nvm
open Function Filter List Option

variable {p : Params} {tm : Timing p} {c : Nat} {r : Request p}

/-- What a command makes of the open row of a sub-array, if it is legal. -/
def nextRow (row : Option Nat) (r : Request p) : Option (Option Nat) :=
  match r.type with
  | .activate => if row = none then some (some r.address.row) else none
  | .read | .write => if row = some r.address.row then some row else none
  | .readPrecharge | .writePrecharge => if row = some r.address.row then some none else none
  | .precharge | .prechargeAll => some none
  | .refresh => if row = none then some none else none
  | .cachedRead | .cachedWrite => none

theorem eventually_le (n : Nat) : ∀ᶠ t in atTop, decide (n ≤ t) = true := by
  refine eventually_atTop.mpr ⟨n, fun t ht => ?_⟩
  simpa using ht

theorem eventually_all {l : List Nat} {f : Nat → Nat → Bool} (h : ∀ i ∈ l, ∀ᶠ t in atTop, f t i = true) :
    ∀ᶠ t in atTop, l.all (f t) = true := by
  induction l with
  | nil => simp
  | cons i l ih =>
    have hrest := ih fun j hj => h j (mem_cons_of_mem _ hj)
    filter_upwards [h i (mem_cons_self ..), hrest] with t hi hl
    simp [hi, hl]

/-! ## Sub-arrays -/

namespace SubArray
variable {s : SubArray p}

def row (s : SubArray p) : Option Nat := if s.state = .opened ∧ s.closedAt = none then some s.openRow else none

/-- No command comes to a sub-array that is closing: it is not open any more, or its registers are set to the time at
  which it is closed. -/
structure WF (s : SubArray p) : Prop where
  closing : ∀ t, s.closedAt = some t → s.state ≠ .closed ∧ (∀ u, s.prechargeAt = some u → u ≤ t) ∧
    (s.state = .opened → t ≤ s.next.activate ∧ t ≤ s.next.read ∧ t ≤ s.next.write ∧ t ≤ s.next.precharge)
  idle : s.closedAt = none → s.prechargeAt = none ∧ (s.state = .closed ∨ s.state = .opened)

theorem WF.init : WF ({} : SubArray p) := by
  refine ⟨fun t h => ?_, fun _ => ⟨rfl, .inl rfl⟩⟩
  cases h

theorem settle_idle (hw : s.WF) (h : s.closedAt = none) : s.settle c = s := by
  have hpre := (hw.idle h).1
  simp only [settle, beginPrecharge, hpre, close, h]

variable {t : Nat}

theorem settle_closed (hw : s.WF) (h : s.closedAt = some t) (ht : t ≤ c) :
    (s.settle c).state = .closed ∧ (s.settle c).closedAt = none ∧ (s.settle c).prechargeAt = none ∧
      (s.settle c).next = s.next := by
  cases hpre : s.prechargeAt with
  | none => simp [settle, beginPrecharge, hpre, close, h, ht]
  | some u =>
    have hu : u ≤ c := Nat.le_trans ((hw.closing t h).2.1 u hpre) ht
    simp [settle, beginPrecharge, hpre, hu, close, h, ht]

theorem settle_closing (h : s.closedAt = some t) (ht : c < t) :
    (s.settle c).closedAt = some t ∧ ((s.settle c).state = s.state ∨ (s.settle c).state = .precharging) ∧
      (s.settle c).next = s.next := by
  have hnot : ¬t ≤ c := Nat.not_le.mpr ht
  cases hpre : s.prechargeAt with
  | none => simp [settle, beginPrecharge, hpre, close, h, hnot]
  | some u =>
    by_cases hu : u ≤ c <;> simp [settle, beginPrecharge, hpre, hu, close, h, hnot]

theorem settle_next (hw : s.WF) : (s.settle c).next = s.next := by
  cases h : s.closedAt with
  | none => rw [settle_idle hw h]
  | some t =>
    by_cases ht : t ≤ c
    · exact (settle_closed hw h ht).2.2.2
    · exact (settle_closing h (Nat.lt_of_not_le ht)).2.2

theorem settle_row (hw : s.WF) : (s.settle c).row = s.row := by
  cases h : s.closedAt with
  | none => rw [settle_idle hw h]
  | some t =>
    have hnone : s.row = none := by simp [row, h]
    by_cases ht : t ≤ c
    · rw [hnone]
      simp [row, settle_closed hw h ht]
    · rw [hnone]
      simp [row, settle_closing h (Nat.lt_of_not_le ht)]

/-- Only a sub-array that is not closing takes a command. -/
theorem isIssuable_idle (hw : s.WF) (hact : p.usePrecharge = true ∨ ∀ t, s.closedAt = some t → t ≤ s.next.activate)
    (h : (s.settle c).isIssuable c r = true) : (s.settle c).closedAt = none ∧ (s.settle c).prechargeAt = none := by
  cases hat : s.closedAt with
  | none =>
    rw [settle_idle hw hat]
    exact ⟨hat, (hw.idle hat).1⟩
  | some t =>
    by_cases ht : t ≤ c
    · exact ⟨(settle_closed hw hat ht).2.1, (settle_closed hw hat ht).2.2.1⟩
    · -- it is closing: every kind of command is refused
      exfalso
      obtain ⟨hat', hstate, hnext⟩ := settle_closing hat (Nat.lt_of_not_le ht)
      obtain ⟨hne, -, hregs⟩ := hw.closing t hat
      have hclosed : (s.settle c).state ≠ .closed := by
        rcases hstate with hs | hs
        · rw [hs]
          exact hne
        · rw [hs]
          decide
      have hopened : (s.settle c).state = .opened → t ≤ s.next.read ∧ t ≤ s.next.write ∧ t ≤ s.next.precharge := by
        intro hs
        rw [hs] at hstate
        have hsame : s.state = .opened := by
          rcases hstate with hs | hs
          · exact hs.symm
          · cases hs
        exact (hregs hsame).2
      unfold isIssuable at h
      cases htype : r.type <;> simp only [htype, Bool.and_eq_true, decide_eq_true_eq, beq_iff_eq, hnext,
        Bool.or_eq_true, Bool.false_eq_true] at h
      case activate =>
        rcases hact with huse | hact
        · simp [huse, hclosed] at h
        · have := hact t hat
          omega
      case read | readPrecharge =>
        have := hopened h.1.1.2
        omega
      case write | writePrecharge =>
        have := hopened h.1.2
        omega
      case precharge | prechargeAll =>
        rcases h.2 with hs | hs
        · have := hopened hs
          omega
        · exact hclosed hs
      case refresh => exact hclosed h.2

@[simp] theorem checkWritePausing_state : (s.checkWritePausing c).state = s.state := by
  unfold checkWritePausing
  split <;> rfl

@[simp] theorem checkWritePausing_openRow : (s.checkWritePausing c).openRow = s.openRow := by
  unfold checkWritePausing
  split <;> rfl

@[simp] theorem checkWritePausing_closedAt : (s.checkWritePausing c).closedAt = s.closedAt := by
  unfold checkWritePausing
  split <;> rfl

@[simp] theorem checkWritePausing_prechargeAt : (s.checkWritePausing c).prechargeAt = s.prechargeAt := by
  unfold checkWritePausing
  split <;> rfl

theorem closeBehind_wf (t : Nat) (hs : s.state = .opened) : (s.closeBehind tm t).WF := by
  refine ⟨fun u hu => ?_, nofun⟩
  cases hu
  refine ⟨by simp [closeBehind, hs], fun u hu => ?_, fun _ => ?_⟩
  · cases hu
    exact Nat.le_add_right _ _
  · simp only [closeBehind, Next.meet]
    omega

variable (tm) in
/-- What a sub-array that takes a command does with its row. -/
theorem issueCommand_row (hw : s.WF) (hidle : s.closedAt = none) (hclear : r.type = .activate → s.row = none)
    (h : s.isIssuable c r = true) :
    nextRow s.row r = some (s.issueCommand tm c r).row ∧ (s.issueCommand tm c r).WF := by
  have hpre := (hw.idle hidle).1
  unfold isIssuable at h
  cases htype : r.type <;> simp only [htype, Bool.and_eq_true, decide_eq_true_eq, beq_iff_eq,
    Bool.not_eq_true', Bool.or_eq_true, Bool.false_eq_true] at h
  case activate =>
    simp only [nextRow, htype, hclear htype, if_true, issueCommand, activate]
    refine ⟨by simp [row, hidle], fun t ht => ?_, fun _ => ⟨by simpa using hpre, .inr rfl⟩⟩
    simp [hidle] at ht
  case read =>
    simp only [nextRow, htype, row, h, hidle, issueCommand, read, reduceCtorEq, if_false]
    refine ⟨by simp [h, hidle], fun t ht => ?_, fun _ => ⟨by simpa using hpre, .inr (by simp [h])⟩⟩
    simp [hidle] at ht
  case readPrecharge =>
    simp only [nextRow, htype, row, h, hidle, issueCommand, read, if_true]
    exact ⟨by simp [closeBehind], closeBehind_wf _ (by simp [h])⟩
  case write =>
    simp only [nextRow, htype, row, h, hidle, issueCommand, write, reduceCtorEq, if_false]
    refine ⟨by simp, fun t ht => ?_, fun _ => ⟨hpre, .inr rfl⟩⟩
    simp at ht
  case writePrecharge =>
    simp only [nextRow, htype, row, h, hidle, issueCommand, write, if_true]
    exact ⟨by simp [closeBehind], closeBehind_wf _ rfl⟩
  case precharge | prechargeAll =>
    simp only [nextRow, htype, row, issueCommand, precharge]
    refine ⟨by simp, fun t ht => ?_, fun ht => by simp at ht⟩
    refine ⟨by simp, fun u hu => ?_, fun hs => by simp at hs⟩
    simp [hpre] at hu
  case refresh =>
    simp only [nextRow, htype, row, h, issueCommand, refresh]
    refine ⟨by simp, fun t ht => ?_, fun ht => by simp at ht⟩
    refine ⟨by simp, fun u hu => ?_, fun hs => by simp at hs⟩
    simp [hpre] at hu

theorem settle_wf (hw : s.WF) (hidle : (s.settle c).closedAt = none) : (s.settle c).WF := by
  cases hat : s.closedAt with
  | none =>
    rw [settle_idle hw hat]
    exact hw
  | some t =>
    have ht : t ≤ c := by
      by_contra hnot
      rw [(settle_closing hat (Nat.lt_of_not_le hnot)).1] at hidle
      cases hidle
    obtain ⟨hclosed, -, hpre, -⟩ := settle_closed hw hat ht
    exact ⟨fun u hu => absurd (hidle.symm.trans hu) (by simp), fun _ => ⟨hpre, .inl hclosed⟩⟩

/-- Nothing is about to happen to a sub-array that takes a command, and an ACTIVATE finds no row. -/
def AtRest (s : SubArray p) (c : Nat) (r : Request p) : Prop :=
  (s.settle c).isIssuable c r = true → (s.settle c).closedAt = none ∧ (r.type = .activate → s.row = none)

theorem atRest (hw : s.WF) (huse : p.usePrecharge = true) : s.AtRest c r := by
  intro h
  refine ⟨(isIssuable_idle hw (.inl huse) h).1, fun htype => ?_⟩
  rw [← settle_row (c := c) hw]
  simp only [isIssuable, htype, huse, Bool.true_and, Bool.and_eq_true, Bool.not_eq_true', bne_eq_false_iff_eq] at h
  simp [row, h.1.1.2]

variable (tm) in
theorem issue_row (hw : s.WF) (hrest : s.AtRest c r) (h : (s.settle c).isIssuable c r = true) :
    nextRow s.row r = some ((s.settle c).issueCommand tm c r).row ∧ ((s.settle c).issueCommand tm c r).WF := by
  obtain ⟨hidle, hclear⟩ := hrest h
  rw [← settle_row (c := c) hw] at hclear ⊢
  exact issueCommand_row tm (settle_wf hw hidle) hidle hclear h

/-- A command that is legal is taken from some cycle on. -/
theorem eventually_issuable (hw : s.WF) (hpause : p.writePausing = false) {row : Option Nat}
    (h : nextRow s.row r = some row) : ∀ᶠ t in atTop, (s.settle t).isIssuable t r = true := by
  refine eventually_atTop.mpr ⟨s.closedAt.getD 0 + s.next.activate + s.next.read + s.next.write + s.next.precharge, fun t ht => ?_⟩
  have hnext := settle_next (c := t) hw
  have hrow := settle_row (c := t) hw
  have hidle : (s.settle t).closedAt = none := by
    cases hat : s.closedAt with
    | none =>
      rw [settle_idle hw hat]
      exact hat
    | some u =>
      rw [hat, getD_some] at ht
      exact (settle_closed hw hat (by omega)).2.1
  have hstate := ((settle_wf hw hidle).idle hidle).2
  rw [← hrow] at h
  have hregs : s.next.activate ≤ t ∧ s.next.read ≤ t ∧ s.next.write ≤ t ∧ s.next.precharge ≤ t := by omega
  simp only [SubArray.row] at h
  unfold isIssuable nextRow at *
  rcases hstate with hs | hs <;> cases htype : r.type <;>
    simp_all [forcedWrite]

end SubArray

/-! ## Banks -/

namespace Bank
variable {b : Bank p} {i : Nat}

def row (b : Bank p) (i : Nat) : Option Nat := (b.subArrays i).row

/-- The queue of active sub-arrays has those with an open row. -/
structure WF (b : Bank p) : Prop where
  subArrays : ∀ i, (b.subArrays i).WF
  nodup : b.activeSubArrayQueue.Nodup
  active : ∀ i, i ∈ b.activeSubArrayQueue ↔ b.row i ≠ none
  state : b.state = .opened ↔ b.activeSubArrayQueue ≠ []

theorem WF.init : WF ({} : Bank p) := by
  refine ⟨fun _ => SubArray.WF.init, nodup_nil, fun i => ?_, ?_⟩
  · simp [row, SubArray.row]
  · simp

@[simp] theorem onSubArray_row_self : (b.onSubArray tm c i r).row i = ((b.subArray c i).issueCommand tm c r).row := by
  simp [row, onSubArray]

theorem onSubArray_row_of_ne {j : Nat} (h : j ≠ i) : (b.onSubArray tm c i r).row j = b.row j := by
  simp [row, onSubArray, update_of_ne h]

variable (tm) in
theorem onSubArray_spec (hw : b.WF) (hrest : (b.subArrays i).AtRest c r)
    (h : (b.subArray c i).isIssuable c r = true) : nextRow (b.row i) r = some ((b.onSubArray tm c i r).row i) ∧
      ∀ j, ((b.onSubArray tm c i r).subArrays j).WF := by
  obtain ⟨hrow, hwf⟩ := SubArray.issue_row tm (hw.subArrays i) hrest h
  refine ⟨?_, fun j => ?_⟩
  · rw [onSubArray_row_self]
    exact hrow
  · by_cases hj : j = i
    · subst hj
      simpa [onSubArray, subArray] using hwf
    · simp only [onSubArray, update_of_ne hj]
      exact hw.subArrays j

theorem deactivate_row (b : Bank p) (i j : Nat) : (b.deactivate i).row j = b.row j := rfl

variable {b' : Bank p}

/-- The bank forgets a sub-array that has just been closed. -/
theorem deactivate_wf (hw : b.WF) (hq : b'.activeSubArrayQueue = b.activeSubArrayQueue)
    (hs : b'.state = b.state) (hsub : ∀ j, (b'.subArrays j).WF) (hi : b'.row i = none)
    (hj : ∀ j, j ≠ i → b'.row j = b.row j) : (b'.deactivate i).WF := by
  refine ⟨hsub, ?_, fun j => ?_, ?_⟩
  · simp only [deactivate, hq]
    exact hw.nodup.erase i
  · rw [deactivate_row]
    simp only [deactivate, hq, hw.nodup.mem_erase_iff]
    by_cases h : j = i
    · subst h
      simp [hi]
    · rw [hj j h]
      simp [h, hw.active j]
  · simp only [deactivate, hq, hs]
    have hstate := hw.state
    cases herase : b.activeSubArrayQueue.erase i with
    | nil => simp
    | cons x l =>
      have hne : b.activeSubArrayQueue ≠ [] := by
        intro hnil
        rw [hnil] at herase
        cases herase
      simp [hstate.mpr hne]

theorem same_wf (hw : b.WF) (hq : b'.activeSubArrayQueue = b.activeSubArrayQueue)
    (hs : b'.state = b.state) (hsub : ∀ j, (b'.subArrays j).WF) (hrow : ∀ j, b'.row j = b.row j) : b'.WF := by
  refine ⟨hsub, ?_, fun j => ?_, ?_⟩
  · rw [hq]
    exact hw.nodup
  · rw [hq, hrow]
    exact hw.active j
  · rw [hq, hs]
    exact hw.state

/-- The sub-arrays of a bank that a command reaches. -/
def Reaches (r : Request p) (i : Nat) : Prop := r.type = .prechargeAll ∨ i = r.address.subarray

/-- A bank takes a command: it is legal for the sub-arrays it reaches, and leaves the others. -/
structure Took (b : Bank p) (r : Request p) (b' : Bank p) : Prop where
  wf : b'.WF
  reached : ∀ i, Reaches r i → nextRow (b.row i) r = some (b'.row i)
  others : ∀ i, ¬Reaches r i → b'.row i = b.row i

theorem mem_active_of_nextRow {row : Nat} (hw : b.WF) (h : b.row i = some row) : i ∈ b.activeSubArrayQueue :=
  (hw.active i).mpr (by simp [h])

theorem activate_took (hw : b.WF) (hrest : ∀ i, Reaches r i → (b.subArrays i).AtRest c r)
    (htype : r.type = .activate) (h : (b.subArray c r.address.subarray).isIssuable c r = true) :
    Took b r (b.activate tm c r) := by
  obtain ⟨hrow, hsub⟩ := onSubArray_spec tm hw (hrest _ (.inr rfl)) h
  have hclosed : b.row r.address.subarray = none ∧
      (b.onSubArray tm c r.address.subarray r).row r.address.subarray = some r.address.row := by
    simp only [nextRow, htype] at hrow
    split at hrow
    · rename_i hnone
      exact ⟨hnone, (some.inj hrow).symm⟩
    · cases hrow
  have hstate := hw.state
  have hopens : ¬(b.state ≠ .closed ∧ b.activeSubArrayQueue = []) := by
    rintro ⟨hs, hq⟩
    cases hb : b.state with
    | closed => exact hs hb
    | opened => exact hstate.mp hb hq
  have hreach (i : Nat) : Reaches r i ↔ i = r.address.subarray := by simp [Reaches, htype]
  rw [activate, if_neg hopens]
  refine ⟨⟨hsub, ?_, fun j => ?_, ?_⟩, fun i hi => ?_, fun i hi => ?_⟩
  · refine nodup_cons.mpr ⟨fun hmem => ?_, hw.nodup⟩
    exact (hw.active _).mp hmem hclosed.1
  · show j ∈ r.address.subarray :: b.activeSubArrayQueue ↔ (b.onSubArray tm c r.address.subarray r).row j ≠ none
    by_cases hj : j = r.address.subarray
    · subst hj
      simp [hclosed.2]
    · rw [onSubArray_row_of_ne hj, ← hw.active j]
      simp [hj]
  · simp
  · rw [(hreach i).mp hi]
    exact hrow
  · exact onSubArray_row_of_ne fun heq => hi ((hreach i).mpr heq)

/-- A column command. -/
theorem column_took (hw : b.WF) (hrest : ∀ i, Reaches r i → (b.subArrays i).AtRest c r)
    (htype : r.type = .read ∨ r.type = .write) (h : (b.subArray c r.address.subarray).isIssuable c r = true)
    (hq : b'.activeSubArrayQueue = b.activeSubArrayQueue) (hs : b'.state = b.state)
    (hsub : b'.subArrays = (b.onSubArray tm c r.address.subarray r).subArrays) : Took b r b' := by
  obtain ⟨hrow, hsubs⟩ := onSubArray_spec tm hw (hrest _ (.inr rfl)) h
  have hrows (j : Nat) : b'.row j = (b.onSubArray tm c r.address.subarray r).row j := by rw [row, hsub, row]
  have hreach (i : Nat) : Reaches r i ↔ i = r.address.subarray := by
    rcases htype with htype | htype <;> simp [Reaches, htype]
  have hsame (j : Nat) : b'.row j = b.row j := by
    rw [hrows]
    by_cases hj : j = r.address.subarray
    · subst hj
      rcases htype with htype | htype <;> simp only [nextRow, htype] at hrow <;> split at hrow
      · exact (some.inj hrow).symm
      · cases hrow
      · exact (some.inj hrow).symm
      · cases hrow
    · exact onSubArray_row_of_ne hj
  refine ⟨same_wf hw hq hs (fun j => ?_) hsame, fun i hi => ?_, fun i _ => hsame i⟩
  · rw [hsub]
    exact hsubs j
  · rw [hrows, (hreach i).mp hi]
    exact hrow

/-- A command that closes one sub-array. -/
theorem closing_took (hw : b.WF) (hrest : ∀ i, Reaches r i → (b.subArrays i).AtRest c r)
    (htype : r.type = .readPrecharge ∨ r.type = .writePrecharge ∨ r.type = .precharge)
    (h : (b.subArray c r.address.subarray).isIssuable c r = true)
    (hq : b'.activeSubArrayQueue = b.activeSubArrayQueue) (hs : b'.state = b.state)
    (hsub : b'.subArrays = (b.onSubArray tm c r.address.subarray r).subArrays) :
    Took b r (b'.deactivate r.address.subarray) := by
  obtain ⟨hrow, hsubs⟩ := onSubArray_spec tm hw (hrest _ (.inr rfl)) h
  have hrows (j : Nat) : b'.row j = (b.onSubArray tm c r.address.subarray r).row j := by rw [row, hsub, row]
  have hreach (i : Nat) : Reaches r i ↔ i = r.address.subarray := by
    rcases htype with htype | htype | htype <;> simp [Reaches, htype]
  have hnone : b'.row r.address.subarray = none := by
    rw [hrows]
    rcases htype with htype | htype | htype <;> simp only [nextRow, htype] at hrow
    · split at hrow
      · exact (some.inj hrow).symm
      · cases hrow
    · split at hrow
      · exact (some.inj hrow).symm
      · cases hrow
    · exact (some.inj hrow).symm
  have hothers (j : Nat) (hj : j ≠ r.address.subarray) : b'.row j = b.row j := by
    rw [hrows]
    exact onSubArray_row_of_ne hj
  refine ⟨deactivate_wf hw hq hs (fun j => ?_) hnone hothers, fun i hi => ?_, fun i hi => ?_⟩
  · rw [hsub]
    exact hsubs j
  · rw [deactivate_row, hrows, (hreach i).mp hi]
    exact hrow
  · exact hothers i fun heq => hi ((hreach i).mpr heq)

variable (tm) in
theorem onSubArrays_eq {l : List Nat} (hnd : l.Nodup) : (l.foldl (fun b i => b.onSubArray tm c i r) b).subArrays =
    fun i => if i ∈ l then (b.subArray c i).issueCommand tm c r else b.subArrays i := by
  induction l generalizing b with
  | nil => simp
  | cons j l ih =>
    obtain ⟨hj, hnd⟩ := nodup_cons.mp hnd
    rw [foldl_cons, ih hnd]
    funext i
    by_cases hij : i = j
    · subst hij
      simp [hj, onSubArray]
    · simp [hij, onSubArray, subArray]

theorem prechargeAll_took (hw : b.WF) (hrest : ∀ i, Reaches r i → (b.subArrays i).AtRest c r)
    (htype : r.type = .prechargeAll) (h : ∀ i ∈ b.activeSubArrayQueue, (b.subArray c i).isIssuable c r = true) :
    Took b r (b.prechargeAll tm c r) := by
  have hsubs := onSubArrays_eq tm (c := c) (r := r) (b := b) hw.nodup
  have hnext (row : Option Nat) : nextRow row r = some none := by simp [nextRow, htype]
  have hsub (i : Nat) : ((b.prechargeAll tm c r).subArrays i).WF ∧ (b.prechargeAll tm c r).row i = none := by
    simp only [row, prechargeAll, hsubs]
    split
    · rename_i hi
      obtain ⟨hrow, hwf⟩ := SubArray.issue_row tm (hw.subArrays i) (hrest i (.inl htype)) (h i hi)
      rw [hnext] at hrow
      exact ⟨hwf, (some.inj hrow).symm⟩
    · rename_i hi
      have hnone := mt (hw.active i).mpr hi
      exact ⟨hw.subArrays i, not_not.mp hnone⟩
  refine ⟨⟨fun i => (hsub i).1, nodup_nil, fun i => ?_, ?_⟩, fun i _ => ?_, fun i hi => absurd (.inl htype) hi⟩
  · rw [(hsub i).2]
    simp [prechargeAll]
  · simp [prechargeAll]
  · rw [hnext, (hsub i).2]

theorem refresh_took (hw : b.WF) (hrest : ∀ i, Reaches r i → (b.subArrays i).AtRest c r)
    (htype : r.type = .refresh) (h : (b.subArray c r.address.subarray).isIssuable c r = true) :
    Took b r (b.onSubArray tm c r.address.subarray r) := by
  obtain ⟨hrow, hsub⟩ := onSubArray_spec tm hw (hrest _ (.inr rfl)) h
  have hreach (i : Nat) : Reaches r i ↔ i = r.address.subarray := by simp [Reaches, htype]
  have hsame (j : Nat) : (b.onSubArray tm c r.address.subarray r).row j = b.row j := by
    by_cases hj : j = r.address.subarray
    · subst hj
      simp only [nextRow, htype] at hrow
      split at hrow
      · rename_i hnone
        rw [hnone]
        exact (some.inj hrow).symm
      · cases hrow
    · exact onSubArray_row_of_ne hj
  refine ⟨same_wf hw rfl rfl hsub hsame, fun i hi => ?_, fun i _ => hsame i⟩
  rw [(hreach i).mp hi]
  exact hrow

theorem issue_took (hw : b.WF) (hrest : ∀ i, Reaches r i → (b.subArrays i).AtRest c r)
    (h : b.isIssuable c r = true) : Took b r (b.issueCommand tm c r) := by
  unfold isIssuable at h
  cases htype : r.type <;> simp only [htype, Bool.and_eq_true] at h
  case activate =>
    simp only [issueCommand, htype]
    exact activate_took hw hrest htype h.2
  case read =>
    simp only [issueCommand, htype, read, reduceCtorEq, if_false]
    exact column_took hw hrest (.inl htype) h.2 rfl rfl rfl
  case write =>
    simp only [issueCommand, htype, write, reduceCtorEq, if_false]
    exact column_took hw hrest (.inr htype) h.2 rfl rfl rfl
  case readPrecharge =>
    simp only [issueCommand, htype, read]
    exact closing_took hw hrest (.inl htype) h.2 rfl rfl rfl
  case writePrecharge =>
    simp only [issueCommand, htype, write]
    exact closing_took hw hrest (.inr (.inl htype)) h.2 rfl rfl rfl
  case precharge =>
    simp only [issueCommand, htype]
    exact closing_took hw hrest (.inr (.inr htype)) h.2 rfl rfl rfl
  case prechargeAll =>
    simp only [issueCommand, htype]
    exact prechargeAll_took hw hrest htype (all_eq_true.mp h.2)
  case refresh =>
    simp only [issueCommand, htype]
    exact refresh_took hw hrest htype h.2
  case cachedRead | cachedWrite => simp [SubArray.isIssuable, htype] at h

theorem eventually_issuable (hw : b.WF) (hpause : p.writePausing = false)
    (h : ∀ i, Reaches r i → ∃ row, nextRow (b.row i) r = some row) : ∀ᶠ t in atTop, b.isIssuable t r = true := by
  obtain ⟨row, hrow⟩ := h r.address.subarray (.inr rfl)
  have hchild := SubArray.eventually_issuable (hw.subArrays _) hpause hrow
  have hopened (hcol : b.row r.address.subarray = some r.address.row) : (b.state == .opened) = true := by
    rw [beq_iff_eq]
    exact hw.state.mpr (ne_nil_of_mem (mem_active_of_nextRow hw hcol))
  have hcol {v : Option (Option Nat)} (hrow : (if b.row r.address.subarray = some r.address.row then v else none) = some row) :
      b.row r.address.subarray = some r.address.row := by
    by_contra hne
    rw [if_neg hne] at hrow
    cases hrow
  unfold isIssuable
  cases htype : r.type <;> simp only [nextRow, htype] at hrow
  case activate | refresh =>
    filter_upwards [eventually_le b.next.activate, hchild] with t hreg hchild
    simp [hreg, subArray, hchild]
  case read | readPrecharge =>
    filter_upwards [eventually_le b.next.read, hchild] with t hreg hchild
    simp [hreg, subArray, hchild, hopened (hcol hrow)]
  case write | writePrecharge =>
    filter_upwards [eventually_le b.next.write, hchild] with t hreg hchild
    simp [hreg, subArray, hchild, hopened (hcol hrow)]
  case precharge =>
    filter_upwards [eventually_le b.next.precharge, hchild] with t hreg hchild
    simp [hreg, subArray, hchild]
  case prechargeAll =>
    have hall : ∀ᶠ t in atTop, (b.activeSubArrayQueue.all fun i => (b.subArray t i).isIssuable t r) = true := by
      refine eventually_all fun i _ => ?_
      obtain ⟨row, hrow⟩ := h i (.inl htype)
      exact SubArray.eventually_issuable (hw.subArrays i) hpause hrow
    filter_upwards [eventually_le b.next.precharge, hall] with t hreg hall
    simp only [hreg, hall, Bool.and_self]
  case cachedRead | cachedWrite => cases hrow

end Bank

/-! ## Ranks -/

namespace Rank
variable {k : Rank p}

def row (k : Rank p) (b i : Nat) : Option Nat := (k.banks b).row i

def WF (k : Rank p) : Prop := ∀ b, (k.banks b).WF

/-- The banks of a rank that a command reaches. -/
def ReachesBank (r : Request p) (b : Nat) : Prop := if r.type = .refresh then b ∈ refreshed r else b = r.address.bank

/-- A rank takes a command. -/
structure Took (k : Rank p) (r : Request p) (k' : Rank p) : Prop where
  reached : ∀ b, ReachesBank r b → Bank.Took (k.banks b) r (k'.banks b)
  others : ∀ b, ¬ReachesBank r b → k'.banks b = k.banks b

theorem mem_refreshed {b : Nat} : b ∈ refreshed r ↔ r.address.bank ≤ b ∧ b < r.address.bank + p.banksPerRefresh := by
  simp only [refreshed, List.mem_map, List.mem_range]
  constructor
  · omega
  · intro h
    exact ⟨b - r.address.bank, by omega, by omega⟩

theorem refreshed_nodup : (refreshed r).Nodup := by
  refine List.Nodup.map (fun i j hij => ?_) nodup_range
  simpa using hij

variable (tm) in
theorem onBanks_eq {l : List Nat} (hnd : l.Nodup) : (l.foldl (fun k b => k.onBank tm c b r) k).banks =
    fun b => if b ∈ l then (k.banks b).issueCommand tm c r else k.banks b := by
  induction l generalizing k with
  | nil => simp
  | cons j l ih =>
    obtain ⟨hj, hnd⟩ := nodup_cons.mp hnd
    rw [foldl_cons, ih hnd]
    funext b
    by_cases hb : b = j
    · subst hb
      simp [hj, onBank]
    · simp [hb, onBank]

variable {k' : Rank p}

theorem onBank_took (hw : k.WF) (huse : p.usePrecharge = true)
    (htype : r.type ≠ .refresh) (h : (k.banks r.address.bank).isIssuable c r = true)
    (hk : k'.banks = (k.onBank tm c r.address.bank r).banks) : Took k r k' := by
  have hreach (b : Nat) : ReachesBank r b ↔ b = r.address.bank := by simp [ReachesBank, htype]
  refine ⟨fun b hb => ?_, fun b hb => ?_⟩
  · rw [(hreach b).mp hb, hk]
    simp only [onBank, update_self]
    exact Bank.issue_took (hw _) (fun i _ => SubArray.atRest ((hw _).subArrays i) huse) h
  · rw [hk]
    simp only [onBank, update_of_ne fun heq => hb ((hreach b).mpr heq)]

theorem refresh_took (hw : k.WF) (huse : p.usePrecharge = true)
    (htype : r.type = .refresh) (h : ∀ b ∈ refreshed r, (k.banks b).isIssuable c r = true)
    (hk : k'.banks = ((refreshed r).foldl (fun k b => k.onBank tm c b r) k).banks) : Took k r k' := by
  have hreach (b : Nat) : ReachesBank r b ↔ b ∈ refreshed r := by simp [ReachesBank, htype]
  rw [onBanks_eq tm refreshed_nodup] at hk
  refine ⟨fun b hb => ?_, fun b hb => ?_⟩
  · have hmem := (hreach b).mp hb
    simp only [hk, if_pos hmem]
    exact Bank.issue_took (hw b) (fun i _ => SubArray.atRest ((hw b).subArrays i) huse) (h b hmem)
  · simp only [hk, if_neg (mt (hreach b).mpr hb)]

theorem issue_took (hw : k.WF) (huse : p.usePrecharge = true)
    (h : k.isIssuable tm c r = true) : Took k r (k.issueCommand tm c r) := by
  unfold isIssuable at h
  cases htype : r.type <;> simp only [htype, Bool.and_eq_true] at h <;> simp only [issueCommand, htype]
  case refresh => exact refresh_took hw huse htype (all_eq_true.mp h.2) rfl
  case cachedRead | cachedWrite => simp [Bank.isIssuable, SubArray.isIssuable, htype] at h
  all_goals exact onBank_took hw huse (by simp [htype]) h.2 rfl

theorem Took.wf (hw : k.WF) (h : Took k r k') : k'.WF := by
  intro b
  by_cases hb : ReachesBank r b
  · exact (h.reached b hb).wf
  · rw [h.others b hb]
    exact hw b

theorem eventually_issuable (hw : k.WF) (hpause : p.writePausing = false)
    (h : ∀ b, ReachesBank r b → ∀ i, Bank.Reaches r i → ∃ row, nextRow (k.row b i) r = some row) :
    ∀ᶠ t in atTop, k.isIssuable tm t r = true := by
  have hbank (b : Nat) (hb : ReachesBank r b) : ∀ᶠ t in atTop, (k.banks b).isIssuable t r = true :=
    Bank.eventually_issuable (hw b) hpause (h b hb)
  unfold isIssuable
  by_cases hrefresh : r.type = .refresh
  · have hall : ∀ᶠ t in atTop, ((refreshed r).all fun b => (k.banks b).isIssuable t r) = true := by
      refine eventually_all fun b hb => hbank b ?_
      simpa [ReachesBank, hrefresh] using hb
    filter_upwards [eventually_le k.next.activate, eventually_le (k.windowEnd tm), hall] with t hreg hwindow hall
    simp only [hrefresh, hreg, hwindow, hall, Bool.and_self]
  · have hchild := hbank r.address.bank (by simp [ReachesBank, hrefresh])
    filter_upwards [eventually_le k.next.activate, eventually_le (k.windowEnd tm), eventually_le k.next.read,
      eventually_le k.next.write, eventually_le k.next.precharge, hchild] with t hact hwindow hread hwrite hpre hchild
    cases htype : r.type <;> simp_all

end Rank

/-! ## All ranks -/

namespace Ranks
variable {m : Nat → Rank p}

/-- The open row of a sub-array, by rank, bank and number. -/
def row (m : Nat → Rank p) (k : Nat × Nat × Nat) : Option Nat := (m k.1).row k.2.1 k.2.2

def WF (m : Nat → Rank p) : Prop := ∀ i, (m i).WF

theorem WF.init : WF (Ranks.init tm) := fun _ _ => Bank.WF.init

/-- The sub-arrays that a command reaches. -/
def reaches (r : Request p) (k : Nat × Nat × Nat) : Bool :=
  k.1 == r.address.rank &&
    match r.type with
    | .prechargeAll => k.2.1 == r.address.bank
    | .refresh => decide (r.address.bank ≤ k.2.1) && decide (k.2.1 < r.address.bank + p.banksPerRefresh) &&
        k.2.2 == r.address.subarray
    | _ => k.2.1 == r.address.bank && k.2.2 == r.address.subarray

theorem reaches_iff {k : Nat × Nat × Nat} : reaches r k = true ↔
    k.1 = r.address.rank ∧ Rank.ReachesBank r k.2.1 ∧ Bank.Reaches r k.2.2 := by
  unfold reaches Rank.ReachesBank Bank.Reaches
  cases htype : r.type <;> simp [Rank.mem_refreshed]

theorem notify_banks (k : Rank p) : (k.notify tm c r).banks = k.banks := by
  unfold Rank.notify
  split <;> rfl

/-- A command that the memory takes is legal where it reaches, does there what `nextRow` says, and nothing elsewhere. -/
theorem issue_rows (hw : WF m) (huse : p.usePrecharge = true)
    (h : (bankMemory tm).isIssuable m c r = true) : WF ((bankMemory tm).issueCommand m c r) ∧
      (∀ k, reaches r k = true → nextRow (row m k) r = some (row ((bankMemory tm).issueCommand m c r) k)) ∧
      ∀ k, reaches r k = false → row ((bankMemory tm).issueCommand m c r) k = row m k := by
  have htook := Rank.issue_took (hw r.address.rank) huse h
  have hself : (bankMemory tm).issueCommand m c r r.address.rank = (m r.address.rank).issueCommand tm c r :=
    if_pos rfl
  have hother (i : Nat) (hi : i ≠ r.address.rank) : ((bankMemory tm).issueCommand m c r i).banks = (m i).banks := by
    show (if i = r.address.rank then _ else _ : Rank p).banks = _
    rw [if_neg hi, notify_banks]
  refine ⟨fun i => ?_, fun k hk => ?_, fun k hk => ?_⟩
  · by_cases hi : i = r.address.rank
    · rw [hi, hself]
      exact htook.wf (hw _)
    · intro b
      rw [hother i hi]
      exact hw i b
  · obtain ⟨hrank, hbank, hsub⟩ := reaches_iff.mp hk
    simp only [row, hrank, hself]
    exact (htook.reached _ hbank).reached _ hsub
  · by_cases hi : k.1 = r.address.rank
    · simp only [row, hi, hself]
      by_cases hbank : Rank.ReachesBank r k.2.1
      · refine (htook.reached _ hbank).others _ fun hsub => ?_
        rw [reaches_iff.mpr ⟨hi, hbank, hsub⟩] at hk
        cases hk
      · rw [Rank.row, htook.others _ hbank]
        rfl
    · simp only [row, Rank.row, hother _ hi]

variable (tm) in
theorem eventually_issuable (hw : WF m) (hpause : p.writePausing = false)
    (h : ∀ k, reaches r k = true → ∃ row', nextRow (row m k) r = some row') :
    ∀ᶠ t in atTop, (bankMemory tm).isIssuable m t r = true := by
  refine Rank.eventually_issuable (hw _) hpause fun b hb i hi => ?_
  exact h (r.address.rank, b, i) (reaches_iff.mpr ⟨rfl, hb, hi⟩)

/-- The sub-array that the rows are about. -/
def subArray (m : Nat → Rank p) (t : Nat) (k : Nat × Nat × Nat) : SubArray p := ((m k.1).banks k.2.1).subArray t k.2.2

/-- When nothing more is issued, a sub-array gets to the state that its row says. -/
theorem eventually_opened (hw : WF m) (k : Nat × Nat × Nat) : ∀ᶠ t in atTop,
    ((subArray m t k).state = .opened ↔ row m k ≠ none) ∧ ∀ n, row m k = some n → (subArray m t k).openRow = n := by
  have hsub : (((m k.1).banks k.2.1).subArrays k.2.2).WF := (hw k.1 k.2.1).subArrays k.2.2
  refine eventually_atTop.mpr ⟨(((m k.1).banks k.2.1).subArrays k.2.2).closedAt.getD 0, fun t ht => ?_⟩
  simp only [subArray, Bank.subArray, row, Rank.row, Bank.row]
  generalize ((m k.1).banks k.2.1).subArrays k.2.2 = s at hsub ht
  cases hat : s.closedAt with
  | none =>
    rw [SubArray.settle_idle hsub hat]
    simp [SubArray.row, hat]
  | some u =>
    rw [hat, getD_some] at ht
    simp [SubArray.row, hat, SubArray.settle_closed hsub hat ht]

theorem not_issuable_cached (h : r.type = .cachedRead ∨ r.type = .cachedWrite) :
    (bankMemory tm).isIssuable m c r = false := by
  show (m r.address.rank).isIssuable tm c r = false
  rcases h with h | h <;> simp [Rank.isIssuable, Bank.isIssuable, SubArray.isIssuable, h]

end Ranks

end Nvm
