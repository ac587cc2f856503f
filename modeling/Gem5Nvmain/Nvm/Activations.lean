import Gem5Nvmain.Lib.Ring
import Gem5Nvmain.Nvm.Power
import Gem5Nvmain.Nvm.RowCycle

/- The activation window of a rank.

  An ACTIVATE or a REFRESH comes `tRRDR` cycles behind the last one, and `tRAW` cycles behind the one that is `rawNum`
  of them back (`activations_apart`). The registers of a rank do not know the history: `lastActivate` is a ring of
  `rawNum` cycles, read in the cell that is written next (`Windowed`).

  `Activations` is a run of a rank with the cycles of the ACTIVATE and REFRESH commands that `IssueCommand` has
  accepted. -/
namespace Nvm
open Lib Function PoweredRank

variable {p : Params} {tm : PowerTiming p}

/-- The commands that the activation window is about. -/
def isActivation : Command p → Bool
  | .request r => r.type == .activate || r.type == .refresh
  | _ => false

variable (tm : Timing p) in
theorem onBanks_window {c : Nat} {r : Request p} (l : List Nat) (k : Rank p) :
    (l.foldl (fun k b => k.onBank tm c b r) k).rawIndex = k.rawIndex ∧
      (l.foldl (fun k b => k.onBank tm c b r) k).lastActivate = k.lastActivate ∧
      (l.foldl (fun k b => k.onBank tm c b r) k).next = k.next := by
  induction l generalizing k with
  | nil => exact ⟨rfl, rfl, rfl⟩
  | cons b l ih => exact ih (k.onBank tm c b r)

namespace PoweredRank
variable {c : Nat} {k k' : PoweredRank p} {r : Request p} {cmd : Command p}

variable (tm c r) in
theorem notify_le : k.next.le (k.notify tm c r).next := by
  unfold notify Rank.notify
  cases r.type <;> simp only
  case read | readPrecharge | write | writePrecharge => exact Next.le_meet _ _
  all_goals exact Next.le_refl _

/-- What a command changes in the activation window: nothing, or it is an activation in time and it enters. -/
theorem dispatch_window (hissuable : k.isIssuable tm c cmd = .ok true) (h : k.dispatch tm c cmd = .ok k') :
    (isActivation cmd = false ∧ k'.lastActivate = k.lastActivate ∧ k'.rawIndex = k.rawIndex ∧
      k.next.activate ≤ k'.next.activate) ∨
    (isActivation cmd = true ∧ k.next.activate ≤ c ∧ k.toRank.windowEnd tm.toTiming ≤ c ∧
      k'.rawIndex = (k.rawIndex + 1) % tm.rawNum ∧
      k'.lastActivate = update k.lastActivate ((k.rawIndex + 1) % tm.rawNum) c ∧ c + tm.tRRDR ≤ k'.next.activate) := by
  cases cmd with
  | powerDown d =>
    obtain ⟨-, -, h⟩ := of_bind h
    cases h
    exact .inl ⟨rfl, rfl, rfl, Nat.le_refl _⟩
  | powerUp =>
    obtain ⟨-, -, h⟩ := of_bind h
    cases h
    exact .inl ⟨rfl, rfl, rfl, Nat.le_refl _⟩
  | request r =>
    cases h
    obtain ⟨-, -, hissuable⟩ := of_bind hissuable
    have hrank : k.toRank.isIssuable tm.toTiming c r = true := (Bool.and_eq_true_iff.mp (Except.ok.inj hissuable)).1
    have hmeet (n : Next) : k.next.activate ≤ (k.next.meet n).activate := Nat.le_max_left _ _
    unfold Rank.isIssuable at hrank
    simp only [request, Rank.issueCommand, isActivation]
    cases htype : r.type <;> simp only [htype, Bool.and_eq_true, decide_eq_true_eq] at hrank ⊢
    case activate => exact .inr ⟨rfl, hrank.1.1, hrank.1.2, rfl, rfl, Nat.le_max_right _ _⟩
    case refresh =>
      refine .inr ⟨rfl, hrank.1.1, hrank.1.2, ?_, ?_, ?_⟩
      · exact congrArg (fun i => (i + 1) % tm.rawNum) (onBanks_window tm.toTiming _ _).1
      · exact congrArg₂ (fun f i => update f ((i + 1) % tm.rawNum) c) (onBanks_window tm.toTiming _ _).2.1
          (onBanks_window tm.toTiming _ _).1
      · exact Nat.le_max_right _ _
    case cachedRead | cachedWrite => exact .inl ⟨rfl, rfl, rfl, Nat.le_refl _⟩
    all_goals exact .inl ⟨rfl, rfl, rfl, hmeet _⟩

end PoweredRank

/-! ## Runs -/

namespace RankRun

/-- `IssueCommand` is called, and it returns true. -/
def accepts (tm : PowerTiming p) (x : RankRun p) (cmd : Command p) : Bool :=
  !x.rank.completions.contains x.cycle &&
    match x.rank.issueCommand tm x.cycle cmd with
    | .ok (_, accepted) => accepted
    | .error _ => false

end RankRun

/-- A run, and the cycles of its ACTIVATE and REFRESH commands, the last one first. -/
def Activations.step (tm : PowerTiming p) (x : RankRun p × List Nat) (op : RankRun.Op p) :
    Except Stop (RankRun p × List Nat) := do
  let y ← x.1.step tm op
  let activation := match op with
    | .issueCommand cmd => isActivation cmd && x.1.accepts tm cmd
    | _ => false
  pure (y, if activation then x.1.cycle :: x.2 else x.2)

/-- Two activations in a row are `tRRDR` apart, and `rawNum + 1` of them span `tRAW` cycles. -/
structure Apart (tm : PowerTiming p) (hist : List Nat) : Prop where
  pair : ∀ i t u, hist[i + 1]? = some t → hist[i]? = some u → t + tm.tRRDR ≤ u
  window : ∀ i t u, hist[i + tm.rawNum]? = some t → hist[i]? = some u → t + tm.tRAW ≤ u

theorem Apart.push {hist : List Nat} {c : Nat} (h : Apart tm hist) (hn : 0 < tm.rawNum)
    (hlast : ∀ t, hist[0]? = some t → t + tm.tRRDR ≤ c) (hwindow : ∀ t, hist[tm.rawNum - 1]? = some t → t + tm.tRAW ≤ c) :
    Apart tm (c :: hist) := by
  refine ⟨fun i t u ht hu => ?_, fun i t u ht hu => ?_⟩
  · cases i with
    | zero =>
      cases hu
      exact hlast t ht
    | succ i => exact h.pair i t u ht hu
  · cases i with
    | zero =>
      cases hu
      rw [Nat.zero_add, List.getElem?_cons, if_neg (by omega)] at ht
      exact hwindow t ht
    | succ i =>
      rw [Nat.succ_add_eq_add_succ, Nat.add_succ] at ht
      exact h.window i t u ht hu

/-- The registers of the rank know the last activations. -/
structure Windowed (tm : PowerTiming p) (k : PoweredRank p) (hist : List Nat) : Prop where
  ring : Rings tm.rawNum k.lastActivate k.rawIndex hist
  last : ∀ t, hist[0]? = some t → t + tm.tRRDR ≤ k.next.activate

namespace Windowed
variable {k k' : PoweredRank p} {hist : List Nat} {c : Nat}

theorem same (h : Windowed tm k hist) (hact : k'.lastActivate = k.lastActivate) (hidx : k'.rawIndex = k.rawIndex)
    (hnext : k.next.activate ≤ k'.next.activate) : Windowed tm k' hist := by
  refine ⟨?_, fun t ht => ?_⟩
  · rw [hact, hidx]
    exact h.ring
  · exact Nat.le_trans (h.last t ht) hnext

theorem apart (h : Windowed tm k hist) (hapart : Apart tm hist) (hnext : k.next.activate ≤ c)
    (hwindow : k.toRank.windowEnd tm.toTiming ≤ c) : Apart tm (c :: hist) := by
  refine hapart.push (Nat.lt_of_le_of_lt (Nat.zero_le _) h.ring.index_lt) (fun t ht => ?_) fun t ht => ?_
  · exact Nat.le_trans (h.last t ht) hnext
  · -- the cell that is looked at has the activation `rawNum` back
    rw [← h.ring.oldest ht]
    exact hwindow

end Windowed

section Runs
variable {x y : RankRun p × List Nat} {op : RankRun.Op p}

/-- The invariant of a run. -/
def WindowInv (tm : PowerTiming p) (x : RankRun p × List Nat) : Prop := Windowed tm x.1.rank x.2 ∧ Apart tm x.2

theorem WindowInv.step (h : WindowInv tm x) (hs : Activations.step tm x op = .ok y) : WindowInv tm y := by
  obtain ⟨run, hrun, hs⟩ := of_bind hs
  cases hs
  cases op with
  | notify r =>
    cases hrun
    exact ⟨h.1.same rfl rfl (notify_le tm x.1.cycle r).1, h.2⟩
  | requestComplete =>
    simp only [RankRun.step] at hrun
    split at hrun
    · cases hrun
      exact ⟨h.1.same rfl rfl (Nat.le_refl _), h.2⟩
    · cases hrun
      exact h
  | tick =>
    simp only [RankRun.step] at hrun
    split at hrun <;> cases hrun <;> exact h
  | issueCommand cmd =>
    simp only [RankRun.step] at hrun
    split at hrun
    · rename_i hevent
      cases hrun
      have hrefused : x.1.accepts tm cmd = false := by simp [RankRun.accepts, hevent]
      simpa only [hrefused, Bool.and_false, Bool.false_eq_true, if_false] using h
    · rename_i hevent
      obtain ⟨⟨k, accepted⟩, hk, hrun⟩ := of_bind hrun
      cases hrun
      have haccepts : x.1.accepts tm cmd = accepted := by simp [RankRun.accepts, hevent, hk]
      simp only [haccepts]
      rcases issueCommand_cases hk with ⟨rfl, hissuable, hk⟩ | ⟨rfl, rfl⟩
      · rcases dispatch_window hissuable hk with ⟨hno, hact, hidx, hnext⟩ |
          ⟨hyes, hnext, hwindow, hidx, hact, hlast⟩
        · simp only [hno]
          exact ⟨h.1.same hact hidx hnext, h.2⟩
        · simp only [hyes]
          refine ⟨⟨?_, fun t ht => ?_⟩, h.1.apart h.2 hnext hwindow⟩
          · rw [hact, hidx]
            exact h.1.ring.push x.1.cycle
          · cases ht
            exact hlast
      · simpa only [Bool.and_false, Bool.false_eq_true, if_false] using h

/-- The activations of a rank keep `tRRDR` and the row activation window. -/
theorem activations_apart (tm : PowerTiming p) (initPD : Bool) (ops : List (RankRun.Op p)) (hraw : 1 ≤ tm.rawNum)
    (hr : Exec (StepOf (Activations.step tm)) (⟨init tm initPD, 0⟩, []) ops x) : Apart tm x.2 := by
  have hinv : WindowInv tm x := by
    refine hr.invariant ?_ fun t e u ht hs => WindowInv.step ht hs
    refine ⟨⟨Rings.start (by omega) _, nofun⟩, nofun, nofun⟩
  exact hinv.2

/-- An ACTIVATE of row 1 in a bank. -/
def activateBank (bank : Nat) (h : bank < 2) : RankRun.Op device :=
  .issueCommand (.request { type := .activate, address := ⟨1, 0, bank, 0, 0, h, device.ranks_pos, device.subArrayNum_pos⟩ })

def quickTiming : PowerTiming device := { tRAW := 1, tRRDR := 2 }

/-- Both banks are activated; the second ACTIVATE is accepted after `tRRDR`. -/
theorem activations_apart_device : ∃ x, Exec (StepOf (Activations.step quickTiming))
      (⟨init quickTiming false, 0⟩, [])
      [.tick, activateBank 0 (by decide), .tick, activateBank 1 (by decide), .tick, activateBank 1 (by decide)] x ∧
    x.2 = [3, 1] ∧ Apart quickTiming x.2 := by
  refine Exec.ends_with (p := fun x => decide (x.2 = [3, 1])) (by decide) fun x hr hx => ?_
  exact ⟨of_decide_eq_true hx, activations_apart quickTiming false _ (by decide) hr⟩

end Runs

end Nvm
