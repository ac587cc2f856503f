import Gem5Nvmain.Nvm.BankStates

/- The power states of a rank and of its banks.

  A rank powers all of its banks down and up together, and keeps a state of its own. The banks stay together in every
  run (`Together`): their registers `nextPowerUp` have the same history. The rank's state is theirs if the banks do
  not start powered down (`InitPD` sets the state of the banks and not that of the rank), and if no implicit precharge
  or refresh of the rank ends while it is powered down and its sub-arrays are idle:
  `RequestComplete` then says that the rank is closed (`power_states_agree`). -/
namespace Nvm
open Lib Function PoweredRank

variable {p : Params} {tm : PowerTiming p} {c : Nat}

def RankState.isDown : RankState → Bool
  | .down _ => true
  | .closed | .opened | .refreshing => false

namespace PoweredRank
variable {k k' : PoweredRank p} {cmd : Command p} {r : Request p}

def isDown (k : PoweredRank p) : Bool := k.state.isDown

/-- The power states of the rank and its banks agree, and the assertions about them hold. -/
structure PowerAgrees (tm : PowerTiming p) (k : PoweredRank p) : Prop where
  rank : k.isDown = true ↔ ∀ i < p.banks, (k.banks i).power.isSome = true
  banks : ∀ i < p.banks, ∀ j < p.banks, (k.banks i).power.isSome = (k.banks j).power.isSome
  canPowerUp : ∀ c, ∃ issuable, k.canPowerUp c = .ok issuable
  powerDown : ∀ c d, k.canPowerDown c d = true → ∃ k', k.powerDown tm c d = .ok k'
  powerUp : ∀ c, k.canPowerUp c = .ok true → k.isDown = true ∧ ∃ k', k.powerUp tm c = .ok k'

/-- The banks are powered down and up together. -/
def Together (k : PoweredRank p) : Prop :=
  ∀ i < p.banks, ∀ j < p.banks, (k.banks i).power.isSome = (k.banks j).power.isSome ∧
    (k.banks i).nextPowerUp = (k.banks j).nextPowerUp

/-- The invariant: the rank has the power state of its first bank. -/
structure PowerInv (k : PoweredRank p) : Prop where
  together : Together k
  rank : k.isDown = (k.banks 0).power.isSome

theorem canPowerUp_of_together (h : Together k) (c : Nat) :
    k.canPowerUp c = .ok ((k.banks 0).isIssuable c .powerUp) := by
  have hsame (i : Nat) (hi : i < p.banks) : (k.banks i).isIssuable c .powerUp = (k.banks 0).isIssuable c .powerUp := by
    obtain ⟨hpower, hup⟩ := h i hi 0 p.banks_pos
    simp only [PoweredBank.isIssuable, hpower, hup]
  have hcount : (List.range p.banks).countP (fun i => (k.banks i).isIssuable c .powerUp) =
      if (k.banks 0).isIssuable c .powerUp then p.banks else 0 := by
    have hcongr : (List.range p.banks).countP (fun i => (k.banks i).isIssuable c .powerUp) =
        (List.range p.banks).countP fun _ => (k.banks 0).isIssuable c .powerUp := by
      refine List.countP_congr fun i hi => ?_
      rw [hsame i (List.mem_range.mp hi)]
    rw [hcongr]
    cases (k.banks 0).isIssuable c .powerUp with
    | true => simp
    | false => simp
  have hpos := p.banks_pos
  have hne : (0 == p.banks) = false := beq_eq_false_iff_ne.mpr (by omega)
  unfold canPowerUp
  simp only [hcount]
  cases (k.banks 0).isIssuable c .powerUp with
  | true => simp [require]
  | false => simp [require, hne]

theorem powerUp_all {k : PoweredRank p} (h : Together k) (hissuable : k.canPowerUp c = .ok true) :
    ∀ i < p.banks, (k.banks i).isIssuable c .powerUp = true := by
  intro i hi
  rw [canPowerUp_of_together h] at hissuable
  obtain ⟨hpower, hup⟩ := h i hi 0 p.banks_pos
  have hzero := Except.ok.inj hissuable
  simpa only [PoweredBank.isIssuable, hpower, hup] using hzero

theorem PowerInv.init : PowerInv (init tm false) := ⟨fun _ _ _ _ => ⟨rfl, rfl⟩, rfl⟩

variable (tm) in
theorem PowerInv.agrees (h : PowerInv k) : PowerAgrees tm k := by
  refine ⟨?_, fun i hi j hj => (h.together i hi j hj).1, fun c => ⟨_, canPowerUp_of_together h.together c⟩,
    fun c d hd => ?_, fun c hup => ⟨?_, ?_⟩⟩
  · rw [h.rank]
    refine ⟨fun hzero i hi => ?_, fun hall => hall 0 p.banks_pos⟩
    rw [(h.together i hi 0 p.banks_pos).1]
    exact hzero
  · simp only [canPowerDown, Bool.and_eq_true] at hd
    unfold powerDown
    rw [hd.2]
    exact ⟨_, rfl⟩
  · have hzero := powerUp_all h.together hup 0 p.banks_pos
    rw [h.rank]
    exact (Bool.and_eq_true_iff.mp hzero).2
  · have hall := List.all_eq_true.mpr fun i hi => powerUp_all h.together hup i (List.mem_range.mp hi)
    unfold powerUp
    rw [hall]
    exact ⟨_, rfl⟩

theorem stateAfter_isDown (h : k.state.isDown = false) : (k.stateAfter c r).isDown = false := by
  unfold stateAfter
  cases r.type <;> simp only
  case activate =>
    split
    · rfl
    · exact h
  case precharge | prechargeAll =>
    split
    · rfl
    · exact h
  case refresh => rfl
  all_goals exact h

/-- A command that is no power-down command comes to a rank that is not powered down. -/
theorem PowerInv.request (h : PowerInv k) (hissuable : k.isIssuable tm c (.request r) = .ok true) :
    PowerInv (k.request tm c r) := by
  obtain ⟨-, -, hissuable⟩ := of_bind hissuable
  have hreached := (Bool.and_eq_true_iff.mp (Except.ok.inj hissuable)).2
  have hmem : r.address.bank ∈ reached r := by
    unfold reached
    split
    · exact Rank.mem_refreshed.mpr ⟨Nat.le_refl _, Nat.lt_add_of_pos_right p.banksPerRefresh_pos⟩
    · exact List.mem_singleton_self _
  have hbank : (k.banks 0).power.isSome = false := by
    rw [(h.together 0 p.banks_pos _ r.address.bank_lt).1]
    simpa using List.all_eq_true.mp hreached _ hmem
  have hpower (i : Nat) : ((k.request tm c r).banks i).power = (k.banks i).power ∧
      ((k.request tm c r).banks i).nextPowerUp = (k.banks i).nextPowerUp := by
    simp only [PoweredRank.request]
    split
    · refine ⟨PoweredBank.request_power, ?_⟩
      unfold PoweredBank.request
      split <;> rfl
    · exact ⟨rfl, rfl⟩
  refine ⟨fun i hi j hj => ?_, ?_⟩
  · rw [(hpower i).1, (hpower i).2, (hpower j).1, (hpower j).2]
    exact h.together i hi j hj
  · have hup : k.isDown = false := h.rank.trans hbank
    have hstate : (k.request tm c r).isDown = false := stateAfter_isDown hup
    rw [hstate, (hpower 0).1, hbank]

theorem PowerInv.powerDown {d : PowerDown} (h : PowerInv k) (hk : k.powerDown tm c d = .ok k') : PowerInv k' := by
  obtain ⟨-, -, hk⟩ := of_bind hk
  cases hk
  refine ⟨fun i hi j hj => ?_, ?_⟩
  · simp only [if_pos hi, if_pos hj, PoweredBank.powerDown, Option.isSome_some, (h.together i hi j hj).2, and_self]
  · simp only [if_pos p.banks_pos]
    rfl

theorem PowerInv.powerUp (h : PowerInv k) (hissuable : k.canPowerUp c = .ok true) (hk : k.powerUp tm c = .ok k') :
    PowerInv k' := by
  have hdown : k.state.isDown = true := ((h.agrees tm).powerUp c hissuable).1
  obtain ⟨-, -, hk⟩ := of_bind hk
  cases hk
  refine ⟨fun i hi j hj => ?_, ?_⟩
  · simp only [if_pos hi, if_pos hj, PoweredBank.powerUp, (h.together i hi j hj).2, and_self]
  · simp only [if_pos p.banks_pos, isDown]
    cases hs : k.state with
    | down d => cases d <;> rfl
    | closed | opened | refreshing =>
      rw [hs] at hdown
      cases hdown

theorem PowerInv.dispatch (h : PowerInv k) (hissuable : k.isIssuable tm c cmd = .ok true)
    (hk : k.dispatch tm c cmd = .ok k') : PowerInv k' := by
  cases cmd with
  | request r =>
    cases hk
    exact h.request hissuable
  | powerDown d => exact h.powerDown hk
  | powerUp => exact h.powerUp hissuable hk

end PoweredRank

/-! ## Runs -/

namespace RankRun
variable {x y : RankRun p} {op : Op p}

/-- No implicit precharge or refresh of the rank ends while it is powered down and its sub-arrays are idle. -/
def staysDown (x : RankRun p) : Op p → Bool
  | .requestComplete => !x.rank.completions.contains x.cycle || !x.rank.isDown || !x.rank.idle x.cycle
  | _ => true

theorem step_powerInv (h : PoweredRank.PowerInv x.rank) (hstays : x.staysDown op = true) (hs : x.step tm op = .ok y) :
    PoweredRank.PowerInv y.rank := by
  cases op with
  | notify r =>
    cases hs
    exact ⟨h.together, h.rank⟩
  | tick =>
    simp only [step] at hs
    split at hs <;> cases hs <;> exact h
  | requestComplete =>
    simp only [step] at hs
    split at hs
    · rename_i hevent
      cases hs
      refine ⟨h.together, ?_⟩
      rw [requestComplete, ← h.rank]
      split
      · rename_i hidle
        have hup : x.rank.isDown = false := by simpa [staysDown, hevent, hidle] using hstays
        exact hup.symm
      · rfl
    · cases hs
      exact h
  | issueCommand cmd =>
    simp only [step] at hs
    split at hs
    · cases hs
      exact h
    · obtain ⟨⟨k, accepted⟩, hk, hs⟩ := of_bind hs
      cases hs
      rcases issueCommand_cases hk with ⟨-, hissuable, hk⟩ | ⟨-, rfl⟩
      · exact h.dispatch hissuable hk
      · exact h

/-- The power states agree in every run that does not start powered down and in which no event of the rank comes while
  it is powered down and idle. Otherwise they do not: at the start, or after such an event. -/
theorem power_states_agree (tm : PowerTiming p) :
    (∀ ops x, Exec (StepIf staysDown (step tm)) ⟨init tm false, 0⟩ ops x → PoweredRank.PowerAgrees tm x.rank) ∧
    ¬PoweredRank.PowerAgrees tm (init tm true) ∧
    ∀ (x y : RankRun p) (op : Op p), PoweredRank.PowerAgrees tm x.rank → x.staysDown op = false → x.step tm op = .ok y →
      ¬PoweredRank.PowerAgrees tm y.rank := by
  refine ⟨fun ops x hr => ?_, fun h => ?_, fun x y op hagrees hold hs h => ?_⟩
  · have hinv : PoweredRank.PowerInv x.rank :=
      hr.invariant (P := fun x => PoweredRank.PowerInv x.rank) PoweredRank.PowerInv.init fun _ _ _ h hs =>
        step_powerInv h hs.1 hs.2
    exact hinv.agrees tm
  · cases h.rank.mpr fun _ _ => rfl
  · cases op with
    | issueCommand cmd => cases hold
    | notify r => cases hold
    | tick => cases hold
    | requestComplete =>
      simp only [staysDown, Bool.or_eq_false_iff, Bool.not_eq_false'] at hold
      obtain ⟨⟨hevent, hdown⟩, hidle⟩ := hold
      simp only [step, List.contains_iff_mem.mp hevent] at hs
      cases hs
      -- the banks are as they were, and the rank says that it is closed
      have hbanks : (x.rank.requestComplete x.cycle).isDown = true := h.rank.mpr (hagrees.rank.mp hdown)
      simp only [requestComplete, hidle] at hbanks
      cases hbanks

/-- The rank is powered down, and up again after `tPD`. -/
theorem power_states_agree_device : ∃ x, Exec (StepIf staysDown (step (p := device) {})) ⟨init {} false, 0⟩
      [.issueCommand (.powerDown .pdpf), .tick, .tick, .tick, .tick, .tick, .tick, .issueCommand .powerUp] x ∧
    (x.rank.banks 1).nextPowerDown = 12 ∧ PoweredRank.PowerAgrees {} x.rank := by
  refine Exec.ends_withIf (p := fun x => decide ((x.rank.banks 1).nextPowerDown = 12)) (by decide) fun x hr hx => ?_
  exact ⟨of_decide_eq_true hx, (power_states_agree {}).1 _ x hr⟩

/-- With `InitPD` all banks are powered down and the rank is closed, and its first PowerUp is accepted. -/
theorem powered_down_alone : ∃ k : PoweredRank device, k = init {} true ∧ k.state = .closed ∧
    (∀ i < device.banks, (k.banks i).power = some .pdpf) ∧ k.canPowerUp 0 = .ok true ∧ ¬PoweredRank.PowerAgrees {} k :=
  ⟨_, rfl, rfl, fun _ _ => rfl, rfl, fun h => nomatch h.rank.mpr fun _ _ => rfl⟩

end RankRun

end Nvm
