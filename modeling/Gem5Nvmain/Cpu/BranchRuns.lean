import Gem5Nvmain.Lib.UndoLog
import Gem5Nvmain.Cpu.BranchPredictor

/- Runs of the branch predictor.

  The record of a branch tells how the stack after it comes from the stack before it (`Recorded`), so undoing the
  branches from the newest on goes back from stack to stack (`squashLoop_spec`). The one record that does not tell is
  that of a return that was predicted not taken and then corrected: it is marked as having used the stack, and what it
  popped is not written down. Runs that never squash one find the stack of every branch again
  (`squash_restores_stack`); otherwise the top of stack becomes entry 0 (`older_entry_is_lost`). -/
namespace Gem5.Cpu
open Lib List Bool

variable {α : Type} {n m live : Nat} {a : α} {v : Stack α}

theorem Stack.pop_push (h : v.tos < n) : (v.push n a).pop n = v := by
  obtain ⟨tos, entries⟩ := v
  have htos : (if (if tos + 1 = n then 0 else tos + 1) = 0 then (if n = 0 then 2 ^ 32 - 1 else n - 1)
      else (if tos + 1 = n then 0 else tos + 1) - 1) = tos := by
    by_cases hwrap : tos + 1 = n
    · rw [if_pos hwrap, if_pos rfl, if_neg (by omega)]
      omega
    · rw [if_neg hwrap, if_neg (by omega), Nat.add_sub_cancel]
  exact congrArg (Stack.mk · entries) htos

/-! What the record of a branch tells. -/

/-- The record of a branch and the stacks before and after it. -/
structure Recorded (n : Nat) (h : PredictorHistory α) (before after : Stack α) : Prop where
  used : h.usedRAS = true → h.wasReturn = true ∧ after = before.pop n
  pushed : h.usedRAS = false → h.pushedRAS = true →
    h.wasCall = true ∧ before.entries.length < n ∧ ∃ a, after = before.push n a
  same : h.usedRAS = false → h.pushedRAS = false → after = before
  not_both : h.wasReturn = true → h.pushedRAS = false
  /-- A return that was predicted taken has written down what it popped. -/
  top : h.wasReturn = true → h.predTaken = true →
    h.rasIndex = before.tos ∧ h.rasIndex < n ∧ ∀ x, before.entries[0]? = some x → x = some h.rasTarget
  live_le : before.entries.length ≤ n
  tos_lt : 0 < n → before.tos < n

namespace Recorded
open ReturnAddrStack
variable {h h' : PredictorHistory α} {before after : Stack α} {ras ras' : ReturnAddrStack α}

theorem length_after (hr : Recorded n h before after) : after.entries.length = h.liveAfter before.entries.length := by
  unfold PredictorHistory.liveAfter
  cases hu : h.usedRAS with
  | true =>
    obtain ⟨-, rfl⟩ := hr.used hu
    simp [Stack.pop]
  | false =>
    cases hp : h.pushedRAS with
    | true =>
      obtain ⟨-, -, a, rfl⟩ := hr.pushed hu hp
      simp [Stack.push]
    | false =>
      rw [hr.same hu hp]
      simp

/-- Undoing a branch whose record tells what it popped gives the stack before it. -/
theorem undo (hr : Recorded n h before after) (hrec : h.unrecorded = false) (hs : Sized n ras live)
    (hv : ras.view live = after) :
    ∃ ras', BPredUnit.undoRAS h ras = .ok ras' ∧ ras'.view before.entries.length = before ∧ Sized n ras' before.entries.length := by
  unfold BPredUnit.undoRAS
  cases hu : h.usedRAS with
  | true =>
    obtain ⟨hret, hpop⟩ := hr.used hu
    have hpred : h.predTaken = true := by
      simpa [PredictorHistory.unrecorded, hret, hu] using hrec
    obtain ⟨hidx, hlt, htop⟩ := hr.top hret hpred
    rw [hidx] at hlt ⊢
    exact view_restore hs hr.live_le hlt (hv.trans hpop) htop
  | false =>
    cases hp : h.pushedRAS with
    | true =>
      obtain ⟨hcall, hlt, a, hpush⟩ := hr.pushed hu hp
      obtain ⟨hview, hsized⟩ := view_pop hs
      rw [hv, hpush, Stack.pop_push (hr.tos_lt (by omega))] at hview
      have hlive : live - 1 = before.entries.length := by
        rw [← hview, length_view]
      rw [hlive] at hview hsized
      exact ⟨ras.pop, by simp [hcall], hview, hsized⟩
    | false =>
      have hsame := hv.trans (hr.same hu hp)
      have hlive : live = before.entries.length := by
        rw [← hsame, length_view]
      rw [hlive] at hsame hs
      exact ⟨ras, by simp, hsame, hs⟩

/-- A correction leaves a record of the corrected branch. -/
theorem fixUp {taken : Bool} (hr : Recorded n h before after) (hrec : taken = false → h.unrecorded = false)
    (hs : Sized n ras live) (hv : ras.view live = after) (hfix : BPredUnit.fixUp taken h ras = .ok (ras', h')) :
    h'.seqNum = h.seqNum ∧ Recorded n h' before (ras'.view (h'.liveAfter before.entries.length)) ∧
    Sized n ras' (h'.liveAfter before.entries.length) ∧ (taken = false → ras'.view (h'.liveAfter before.entries.length) = before) := by
  have hlen : live = h.liveAfter before.entries.length := by
    rw [← hr.length_after, ← hv, length_view]
  subst hv
  cases taken with
  | true =>
    unfold BPredUnit.fixUp at hfix
    rw [if_pos rfl] at hfix
    split at hfix
    · rename_i hc
      cases hfix
      obtain ⟨hret, hu⟩ := and_eq_true_iff.mp hc
      have hu : h.usedRAS = false := by simpa using hu
      have hsame := hr.same hu (hr.not_both hret)
      obtain ⟨hview, hsized⟩ := view_pop hs
      have hlive : live = before.entries.length := by
        rw [← hsame, length_view]
      have hafter : ({ h with wasSquashed := true, usedRAS := true } : PredictorHistory α).liveAfter before.entries.length =
          live - 1 := by
        rw [hlive]
        rfl
      rw [hafter, hview, hsame]
      refine ⟨rfl, ?_, hsized, nofun⟩
      exact ⟨fun _ => ⟨hret, rfl⟩, nofun, nofun, hr.not_both, hr.top, hr.live_le,
        hr.tos_lt⟩
    · cases hfix
      have hafter : ({ h with wasSquashed := true } : PredictorHistory α).liveAfter before.entries.length = live := hlen.symm
      rw [hafter]
      exact ⟨rfl, ⟨hr.used, hr.pushed, hr.same, hr.not_both, hr.top, hr.live_le, hr.tos_lt⟩, hs, nofun⟩
  | false =>
    obtain ⟨ras₁, hundo, hview, hsized⟩ := hr.undo (hrec rfl) hs rfl
    have hout : ras' = ras₁ ∧ h'.seqNum = h.seqNum ∧ h'.usedRAS = false ∧ h'.pushedRAS = (h.pushedRAS && h.usedRAS) ∧
        h'.wasReturn = h.wasReturn ∧ h'.predTaken = h.predTaken ∧ h'.rasIndex = h.rasIndex ∧ h'.rasTarget = h.rasTarget := by
      unfold BPredUnit.fixUp at hfix
      unfold BPredUnit.undoRAS at hundo
      rw [if_neg (by simp)] at hfix
      split at hfix
      · rename_i hu
        rw [if_pos hu] at hundo
        rw [hundo] at hfix
        cases hfix
        simp [hu]
      · rename_i hu
        rw [if_neg hu] at hundo
        have hu : h.usedRAS = false := by simpa using hu
        split at hfix
        · rename_i hc
          rw [if_pos hc] at hundo
          cases hundo
          cases hfix
          simp [hu]
        · rename_i hc
          rw [if_neg hc] at hundo
          cases hundo
          cases hfix
          cases hp : h.pushedRAS with
          | false => simp [hu]
          | true =>
            have hcall := (hr.pushed hu hp).1
            simp [hcall, hp] at hc
    obtain ⟨rfl, hseq, hu, hp, hret, hpred, hidx, htgt⟩ := hout
    have hp : h'.pushedRAS = false := by
      rw [hp]
      cases hu' : h.usedRAS with
      | true => rw [hr.not_both (hr.used hu').1, Bool.false_and]
      | false => rw [Bool.and_false]
    have hafter : h'.liveAfter before.entries.length = before.entries.length := by
      simp [PredictorHistory.liveAfter, hu, hp]
    rw [hafter, hview]
    refine ⟨hseq, ?_, hsized, fun _ => rfl⟩
    refine ⟨fun hf => ?_, fun _ hf => ?_, fun _ _ => rfl, fun _ => hp, ?_, hr.live_le, hr.tos_lt⟩
    · rw [hu] at hf
      cases hf
    · rw [hp] at hf
      cases hf
    · rw [hret, hpred, hidx, htgt]
      exact hr.top

end Recorded

section Predicting
open ReturnAddrStack
variable {b : Branch α} {ras ras' : ReturnAddrStack α} {h : PredictorHistory α} {zero : α} {taken : Bool}

variable {seq : Nat}

/-- A return that is predicted taken writes down what it pops. -/
theorem recorded_return {x : α} (hs : Sized n ras live) (htop : ras.top = .ok x) :
    Recorded n ⟨seq, x, ras.topIdx, true, true, false, false, true, false⟩ (ras.view live) (ras.view live |>.pop n) := by
  have hx := index_eq_ok.mp htop
  have hlt : ras.tos < n := by
    rw [← hs.length]
    exact (List.getElem?_eq_some_iff.mp hx).1
  refine ⟨fun _ => ⟨rfl, rfl⟩, nofun, nofun, fun _ => rfl, fun _ _ => ⟨rfl, hlt, ?_⟩, ?_, hs.tos_lt⟩
  · intro y hy
    have hpos : 0 < live := by
      have hlen := (List.getElem?_eq_some_iff.mp hy).1
      simpa using hlen
    have hentry : ras.entry 0 = y := by simpa [view, hpos] using hy
    rw [← hentry, entry]
    simpa [back] using hx
  · rw [length_view]
    exact hs.live_le

variable {r : PredictorHistory α}

theorem recorded_same (hs : Sized n ras live) (hused : r.usedRAS = false) (hpushed : r.pushedRAS = false)
    (htop : r.wasReturn = true → r.predTaken = false) : Recorded n r (ras.view live) (ras.view live) := by
  refine ⟨fun hf => ?_, fun _ hf => ?_, fun _ _ => rfl, fun _ => hpushed, fun hret hpred => ?_, ?_, hs.tos_lt⟩
  · rw [hused] at hf
    cases hf
  · rw [hpushed] at hf
    cases hf
  · rw [htop hret] at hpred
    cases hpred
  · rw [length_view]
    exact hs.live_le

theorem recorded_push (hs : Sized n ras live) (hfree : live < n) (hused : r.usedRAS = false)
    (hpushed : r.pushedRAS = true) (hcall : r.wasCall = true) (hret : r.wasReturn = false) :
    Recorded n r (ras.view live) ((ras.view live).push n a) := by
  have hlen : (ras.view live).entries.length < n := by
    rw [length_view]
    exact hfree
  refine ⟨fun hf => ?_, fun _ _ => ⟨hcall, hlen, a, rfl⟩, fun _ hf => ?_, fun hf => ?_, fun hf => ?_, ?_, hs.tos_lt⟩
  · rw [hused] at hf
    cases hf
  · rw [hpushed] at hf
    cases hf
  · rw [hret] at hf
    cases hf
  · rw [hret] at hf
    cases hf
  · exact Nat.le_of_lt hlen

theorem predictCall_cases (hp : BPredUnit.predictCall b ras r = .ok (ras', h)) :
    b.isCall = true ∧ ras.push b.pc = .ok ras' ∧ h = { r with pushedRAS := true, wasCall := true } ∨
    b.isCall = false ∧ ras' = ras ∧ h = r := by
  unfold BPredUnit.predictCall at hp
  split at hp
  · rename_i hc
    obtain ⟨ras₁, hpush, hp⟩ := of_bind hp
    cases hp
    exact .inl ⟨hc, hpush, rfl⟩
  · rename_i hc
    cases hp
    exact .inr ⟨eq_false_iff.mpr hc, rfl, rfl⟩

theorem predictTarget_cases (hp : BPredUnit.predictTarget b ras r = (taken, ras', h)) :
    ras' = ras ∧ h = r ∨ b.isCall = true ∧ ras' = ras.pop ∧ h = { r with pushedRAS := false } := by
  unfold BPredUnit.predictTarget at hp
  split_ifs at hp with hvalid hcall
  · cases hp
    exact .inl ⟨rfl, rfl⟩
  · cases hp
    exact .inr ⟨(and_eq_true_iff.mp hcall).1, rfl, rfl⟩
  · cases hp
    exact .inl ⟨rfl, rfl⟩

/-- What the prediction of a branch leaves, when a call finds a cell free. -/
theorem predictRAS_spec (hs : Sized n ras live) (hfree : b.pushes = true → live < n)
    (hp : BPredUnit.predictRAS b ras ⟨seq, zero, 0, b.direction, false, false, false, false, false⟩ = .ok (taken, ras', h)) :
    h.seqNum = seq ∧ Recorded n h (ras.view live) (ras'.view (h.liveAfter live)) ∧ Sized n ras' (h.liveAfter live) := by
  unfold BPredUnit.predictRAS at hp
  by_cases hdir : b.direction = true
  · rw [if_pos hdir] at hp
    by_cases hret : b.isReturn = true
    · rw [if_pos hret] at hp
      obtain ⟨x, htop, hp⟩ := of_bind hp
      cases hp
      obtain ⟨hview, hsized⟩ := view_pop hs
      have hafter : (⟨seq, x, ras.topIdx, b.direction, true, false, false, true, false⟩ : PredictorHistory α).liveAfter live =
          live - 1 := rfl
      rw [hafter, hview, hdir]
      exact ⟨rfl, recorded_return hs htop, hsized⟩
    · rw [if_neg hret] at hp
      obtain ⟨⟨ras₁, r⟩, hcall, hp⟩ := of_bind hp
      have htarget := predictTarget_cases (Except.ok.inj hp)
      obtain ⟨hc, hpush, rfl⟩ | ⟨hc, rfl, rfl⟩ := predictCall_cases hcall
      · have hlt : live < n := hfree (by simp [Branch.pushes, hdir, hret, hc])
        obtain ⟨hview, hsized⟩ := view_push hs hlt hpush
        obtain ⟨rfl, rfl⟩ | ⟨-, rfl, rfl⟩ := htarget
        · refine ⟨rfl, ?_, hsized⟩
          have hpushed := recorded_push (a := b.pc) (r := ⟨seq, zero, 0, b.direction, false, true, true, false, false⟩) hs hlt
            rfl rfl rfl rfl
          rw [← hview] at hpushed
          exact hpushed
        · -- the call that is popped again leaves the live entries
          obtain ⟨hpop, hsized'⟩ := view_pop hsized
          rw [hview, Stack.pop_push (hs.tos_lt (by omega)), Nat.add_sub_cancel] at hpop
          refine ⟨rfl, ?_, hsized'⟩
          have hsame := recorded_same (r := ⟨seq, zero, 0, b.direction, false, false, true, false, false⟩) hs rfl rfl
            nofun
          rw [← hpop] at hsame
          rw [← hpop]
          exact hsame
      · obtain ⟨rfl, rfl⟩ | ⟨hc', -, -⟩ := htarget
        · exact ⟨rfl, recorded_same hs rfl rfl nofun, hs⟩
        · rw [hc] at hc'
          cases hc'
  · rw [if_neg hdir] at hp
    have hdir : b.direction = false := by simpa using hdir
    cases hret : b.isReturn with
    | true =>
      rw [hret] at hp
      cases hp
      exact ⟨rfl, recorded_same hs rfl rfl (fun _ => hdir), hs⟩
    | false =>
      rw [hret] at hp
      cases hp
      exact ⟨rfl, recorded_same hs rfl rfl nofun, hs⟩

end Predicting

/-! Squashing back to a branch. -/

section Squashing
open ReturnAddrStack
variable {ras : ReturnAddrStack α} {base : Stack α} {ps : List (Processed α)} {c k : Nat}

def Snapshot.view (s : Snapshot α) : Stack α := s.ras.view s.live

/-- Undoing a branch goes back to the stack before it. -/
def goBack (e : PredictorHistory α × Stack α) (_ : Stack α) : Stack α := e.2

def toMark (p : Processed α) : Mark (Stack α) (PredictorHistory α × Stack α) :=
  ⟨p.record.seqNum, [(p.record, p.before.view)], p.after.view⟩

/-- The records of the branches after `c`. -/
def inFlight (c : Nat) (ps : List (Processed α)) : List (PredictorHistory α) := (newer c (ps.map toMark)).map Prod.fst

variable {p : Processed α}

theorem inFlight_cons_of_lt (h : c < p.record.seqNum) : inFlight c (p :: ps) = p.record :: inFlight c ps := by
  unfold inFlight
  rw [map_cons, newer_cons_of_lt h]
  rfl

theorem inFlight_cons_of_le (hnum : Numbered ((p :: ps).map toMark)) (h : p.record.seqNum ≤ c) :
    inFlight c (p :: ps) = [] := by
  unfold inFlight
  rw [map_cons] at hnum ⊢
  rw [newer_cons_of_le hnum h, map_nil]

theorem seqNum_le (hnum : Numbered ((p :: ps).map toMark)) (h : p.record.seqNum ≤ k) :
    (p :: ps).filter (fun q => decide (q.record.seqNum ≤ k)) = p :: ps := by
  apply filter_eq_self.mpr
  intro q hq
  obtain rfl | hq := mem_cons.mp hq
  · exact decide_eq_true h
  · have hlt : q.record.seqNum < p.record.seqNum := (pairwise_cons.mp hnum).1 (toMark q) (mem_map_of_mem hq)
    exact decide_eq_true (by omega)

/-- A squash to `k` that meets no unrecorded return finds the stack right after the last branch up to `k`. -/
theorem squashLoop_to (hm : Marks goBack base (ps.map toMark) (ras.view live)) (hnum : Numbered (ps.map toMark))
    (hrec : ∀ p ∈ ps, Recorded n p.record p.before.view p.after.view) (hc : c ≤ k)
    (hmet : ∀ p ∈ ps, k < p.record.seqNum → p.record.unrecorded = false) (hs : Sized n ras live) :
    ∃ ras' live', BPredUnit.squashLoop k (inFlight c ps) ras =
        .ok ⟨ras', inFlight c (ps.filter fun p => decide (p.record.seqNum ≤ k))⟩ ∧
      ras'.view live' = stateAt base k (ps.map toMark) ∧ Sized n ras' live' := by
  induction ps generalizing ras live with
  | nil =>
    generalize hv : ras.view live = v at hm
    cases hm
    exact ⟨ras, live, rfl, hv, hs⟩
  | cons p ps ih =>
    obtain ⟨hp, hps⟩ := forall_mem_cons.mp hrec
    obtain ⟨hmp, hmps⟩ := forall_mem_cons.mp hmet
    generalize hv : ras.view live = v at hm
    cases hm with
    | cons hm =>
      have hm : Marks goBack base (ps.map toMark) p.before.view := hm
      by_cases hlt : k < p.record.seqNum
      · obtain ⟨ras₁, hundo, hview, hsized⟩ := hp.undo (hmp hlt) hs hv
        rw [← hview] at hm
        obtain ⟨ras', live', hloop, hstate, hs'⟩ := ih hm (pairwise_cons.mp hnum).2 hps hmps hsized
        refine ⟨ras', live', ?_, ?_, hs'⟩
        · rw [inFlight_cons_of_lt (by omega), filter_cons_of_neg (by simpa using hlt)]
          unfold BPredUnit.squashLoop
          rw [if_pos hlt, hundo]
          exact hloop
        · rw [hstate, map_cons, stateAt_cons_of_lt hlt]
      · have hle : p.record.seqNum ≤ k := by omega
        refine ⟨ras, live, ?_, ?_, hs⟩
        · rw [seqNum_le hnum hle]
          by_cases hcp : c < p.record.seqNum
          · rw [inFlight_cons_of_lt hcp]
            unfold BPredUnit.squashLoop
            rw [if_neg hlt]
            rfl
          · rw [inFlight_cons_of_le hnum (by omega)]
            rfl
        · rw [map_cons, stateAt_cons_of_le hle]
          exact hv

end Squashing

/-! Runs. -/

namespace Predicted
open ReturnAddrStack
variable [Inhabited α] {s t : Predicted α} {k : Nat} {unit : BPredUnit α}

/-- What holds between the branch predictor and the branches it has processed. -/
structure Inv (n : Nat) (s : Predicted α) : Prop where
  marks : Marks goBack (start n : Predicted α).snapshot.view (s.processed.map toMark) s.snapshot.view
  numbered : Numbered (s.processed.map toMark)
  history : s.unit.predHist = inFlight s.committed s.processed
  recorded : ∀ p ∈ s.processed, Recorded n p.record p.before.view p.after.view
  below : ∀ p ∈ s.processed, p.record.seqNum ≤ s.last
  sized : Sized n s.unit.ras s.live

theorem inv_start : Inv n (start n : Predicted α) where
  marks := .nil
  numbered := List.Pairwise.nil
  history := rfl
  recorded := by simp [start]
  below := by simp [start]
  sized := sized_init n

omit [Inhabited α] in
theorem map_upTo : (s.upTo k).map toMark = (s.processed.map toMark).filter fun m => decide (m.number ≤ k) := by
  rw [filter_map]
  rfl

theorem view_afterUpTo : stateAt (start n : Predicted α).snapshot.view k (s.processed.map toMark) = (s.afterUpTo n k).view := by
  unfold stateAt afterUpTo upTo
  rw [find?_map, head?_filter]
  have hsame : ((fun m : Mark (Stack α) (PredictorHistory α × Stack α) => decide (m.number ≤ k)) ∘ toMark) =
      fun p : Processed α => decide (p.record.seqNum ≤ k) := rfl
  rw [hsame]
  cases s.processed.find? fun p => decide (p.record.seqNum ≤ k) <;> rfl

theorem met_of_records (hi : Inv n s) (hk : s.committed ≤ k) (hmet : s.records k = true) :
    ∀ p ∈ s.processed, k < p.record.seqNum → p.record.unrecorded = false := by
  intro p hp hlt
  unfold records at hmet
  rw [hi.history] at hmet
  have hmem : p.record ∈ inFlight s.committed s.processed := by
    apply mem_map.mpr
    refine ⟨(p.record, p.before.view), mem_flatMap.mpr ⟨toMark p, ?_, mem_singleton.mpr rfl⟩, rfl⟩
    refine mem_filter.mpr ⟨mem_map_of_mem hp, decide_eq_true ?_⟩
    exact Nat.lt_of_le_of_lt hk hlt
  have hat := all_eq_true.mp hmet p.record hmem
  have hnot : ¬ p.record.seqNum ≤ k := by omega
  simpa [hnot] using hat

theorem Inv.squashed (hi : Inv n s) (hk : s.committed ≤ k) (hmet : s.records k = true) :
    ∃ unit, s.unit.squash k = .ok unit ∧ unit.ras.view (s.afterUpTo n k).live = (s.afterUpTo n k).view ∧
      unit.predHist = inFlight s.committed (s.upTo k) ∧ Sized n unit.ras (s.afterUpTo n k).live := by
  obtain ⟨ras, live, hloop, hview, hsized⟩ :=
    squashLoop_to hi.marks hi.numbered hi.recorded hk (met_of_records hi hk hmet) hi.sized
  rw [view_afterUpTo] at hview
  have hlive := (view_eq hview).2.1
  subst hlive
  refine ⟨⟨ras, inFlight s.committed (s.upTo k)⟩, ?_, hview, rfl, hsized⟩
  unfold BPredUnit.squash
  rw [hi.history]
  exact hloop

theorem Inv.goBack (hi : Inv n s) (hview : unit.ras.view (s.afterUpTo n k).live = (s.afterUpTo n k).view)
    (hhist : unit.predHist = inFlight s.committed (s.upTo k)) (hsized : Sized n unit.ras (s.afterUpTo n k).live) :
    Inv n { s with unit, live := (s.afterUpTo n k).live, processed := s.upTo k } := by
  refine ⟨?_, ?_, hhist, fun p hp => hi.recorded p (mem_filter.mp hp).1, fun p hp => hi.below p (mem_filter.mp hp).1, hsized⟩
  · have hforget := hi.marks.forget (n := k) hi.numbered
    rw [view_afterUpTo, ← hview, ← map_upTo] at hforget
    exact hforget
  · rw [map_upTo]
    exact hi.numbered.filter _

theorem Inv.predict {b : Branch α} {taken : Bool} {h : PredictorHistory α} {rest : List (PredictorHistory α)} (hi : Inv n s)
    (hlegal : s.legal n (.predict b) = true) (hp : s.unit.predict b = .ok (taken, unit)) (hhist : unit.predHist = h :: rest) :
    Inv n ⟨unit, h.liveAfter s.live, ⟨h, s.snapshot, ⟨unit.ras, h.liveAfter s.live⟩⟩ :: s.processed, s.committed, b.seqNum⟩ := by
  obtain ⟨⟨taken', ras, record⟩, hras, hp⟩ := of_bind hp
  cases hp
  obtain ⟨rfl, hrest⟩ := cons.inj hhist
  obtain ⟨hord, hfree⟩ := and_eq_true_iff.mp hlegal
  obtain ⟨hlast, hcom⟩ := and_eq_true_iff.mp hord
  have hlast := of_decide_eq_true hlast
  have hcom := of_decide_eq_true hcom
  have hpush : b.pushes = true → s.live < n := by
    intro hb
    simpa [hb] using hfree
  obtain ⟨hseq, hrec, hsized⟩ := predictRAS_spec hi.sized hpush hras
  refine ⟨?_, ?_, ?_, ?_, ?_, hsized⟩
  · exact .cons hi.marks
  · refine pairwise_cons.mpr ⟨?_, hi.numbered⟩
    intro m hm
    obtain ⟨p, hp, rfl⟩ := mem_map.mp hm
    have hle := hi.below p hp
    change p.record.seqNum < record.seqNum
    omega
  · rw [inFlight_cons_of_lt (by rw [hseq]; exact hcom), hi.history]
  · exact forall_mem_cons.mpr ⟨hrec, hi.recorded⟩
  · refine forall_mem_cons.mpr ⟨Nat.le_of_eq hseq, fun p hp => ?_⟩
    exact Nat.le_of_lt (Nat.lt_of_le_of_lt (hi.below p hp) hlast)

theorem Inv.update (hi : Inv n s) : Inv n { s with unit := s.unit.update k, committed := max s.committed k } := by
  refine ⟨hi.marks, hi.numbered, ?_, hi.recorded, hi.below, hi.sized⟩
  have hstamped : Stamped (fun e : PredictorHistory α × Stack α => e.1.seqNum) (s.processed.map toMark) := by
    intro m hm e he
    obtain ⟨p, -, rfl⟩ := mem_map.mp hm
    rw [mem_singleton.mp he]
    rfl
  have hdrop := congrArg (map Prod.fst) (dropWhile_reverse_newer (n := s.committed) (k := k) hi.numbered hstamped)
  change (s.unit.predHist.reverse.dropWhile _).reverse = _
  rw [hi.history]
  unfold inFlight
  rw [← hdrop, map_reverse, ← map_reverse, dropWhile_map]
  rfl

/-- A correction goes back to the branch and then corrects it; a branch that is not taken leaves what was before it. -/
theorem Inv.correct {taken : Bool} (hi : Inv n s) (hk : s.committed ≤ k) (hmet : s.recorded (.squashCorrect k taken) = true)
    (hc : s.unit.squashCorrect k taken = .ok unit) :
    unit.predHist = [] ∧ Inv n { s with unit, live := (s.afterUpTo n k).live, processed := s.upTo k } ∨
    ∃ h rest p ps, unit.predHist = h :: rest ∧ s.upTo k = p :: ps ∧
      Inv n ⟨unit, h.liveAfter p.before.live, ⟨h, p.before, ⟨unit.ras, h.liveAfter p.before.live⟩⟩ :: ps, s.committed, s.last⟩ ∧
      (taken = false → unit.ras.view p.before.live = p.before.view) := by
  obtain ⟨hrec, hfront⟩ := and_eq_true_iff.mp hmet
  obtain ⟨u, hu, hview, hhist, hsized⟩ := hi.squashed hk hrec
  have hback := hi.goBack hview hhist hsized
  unfold BPredUnit.squashCorrect at hc
  rw [hu, bind_ok] at hc
  obtain ⟨ras, hist⟩ := u
  change hist = inFlight s.committed (s.upTo k) at hhist
  change ras.view (s.afterUpTo n k).live = (s.afterUpTo n k).view at hview
  cases hist with
  | nil =>
    cases hc
    exact .inl ⟨rfl, hback⟩
  | cons h rest =>
    obtain ⟨_, hseq, hc⟩ := of_bind hc
    have hseq : h.seqNum = k := of_decide_eq_true (require_eq_ok.mp hseq)
    obtain ⟨⟨ras', h'⟩, hfix, hc⟩ := of_bind hc
    cases hc
    right
    have hafter : s.afterUpTo n k = (((s.upTo k).head?).map Processed.after).getD (start n).snapshot := rfl
    obtain ⟨hm, hnum, -, hrecs, hbelow, hsz⟩ := hback
    cases hup : s.upTo k with
    | nil =>
      rw [hup] at hhist
      cases hhist
    | cons p ps =>
      rw [hup] at hhist hm hnum hrecs hbelow hafter
      have hlt : s.committed < p.record.seqNum := by
        by_contra hge
        rw [inFlight_cons_of_le hnum (by omega)] at hhist
        cases hhist
      rw [inFlight_cons_of_lt hlt] at hhist
      obtain ⟨rfl, rfl⟩ := cons.inj hhist
      have hunrec : taken = false → p.record.unrecorded = false := by
        intro htaken
        have hmem : p ∈ s.processed := by
          have hin : p ∈ s.upTo k := by
            rw [hup]
            exact mem_cons_self
          exact (mem_filter.mp hin).1
        have hin : p.record ∈ s.unit.predHist := by
          rw [hi.history]
          refine mem_map.mpr ⟨(p.record, p.before.view), mem_flatMap.mpr ⟨toMark p, ?_, mem_singleton.mpr rfl⟩, rfl⟩
          exact mem_filter.mpr ⟨mem_map_of_mem hmem, decide_eq_true hlt⟩
        rw [htaken, Bool.false_or] at hfront
        have hat := all_eq_true.mp hfront p.record hin
        simpa [hseq] using hat
      rw [hafter] at hview hsz
      have hp := (forall_mem_cons.mp hrecs).1
      obtain ⟨hseq', hrec', hsized', hbefore⟩ := hp.fixUp hunrec hsz hview hfix
      have hlen : p.before.view.entries.length = p.before.live := length_view
      rw [hlen] at hrec' hsized' hbefore
      refine ⟨h', inFlight s.committed ps, p, ps, rfl, rfl, ?_, ?_⟩
      · refine ⟨?_, ?_, ?_, ?_, ?_, hsized'⟩
        · exact .cons hm.tail
        · obtain ⟨hfirst, hrest⟩ := pairwise_cons.mp hnum
          refine pairwise_cons.mpr ⟨fun m hm => ?_, hrest⟩
          have hm := hfirst m hm
          change m.number < h'.seqNum
          rw [hseq']
          exact hm
        · rw [inFlight_cons_of_lt (by rw [hseq']; exact hlt)]
        · exact forall_mem_cons.mpr ⟨hrec', (forall_mem_cons.mp hrecs).2⟩
        · obtain ⟨hfirst, hrest⟩ := forall_mem_cons.mp hbelow
          refine forall_mem_cons.mpr ⟨?_, hrest⟩
          rw [hseq']
          exact hfirst
      · intro htaken
        have heq := hbefore htaken
        have hlive := (view_eq heq).2.1
        rw [hlive] at heq
        exact heq

theorem Inv.step {e : BranchEvent α} (hi : Inv n s)
    (h : StepIf (fun s e => s.legal n e && s.recorded e) (Predicted.step n) s e t) : Inv n t := by
  obtain ⟨hc, h⟩ := h
  obtain ⟨hlegal, hmet⟩ := and_eq_true_iff.mp hc
  cases e with
  | predict b =>
    obtain ⟨⟨taken, unit⟩, hp, h⟩ := of_bind h
    obtain ⟨⟨taken', ras, record⟩, hras, hp'⟩ := of_bind hp
    cases hp'
    cases h
    exact hi.predict hlegal hp rfl
  | update k =>
    cases h
    exact hi.update
  | squash k =>
    obtain ⟨unit, hs, h⟩ := of_bind h
    cases h
    obtain ⟨u, hu, hview, hhist, hsized⟩ := hi.squashed (of_decide_eq_true hlegal) hmet
    rw [hs] at hu
    cases hu
    exact hi.goBack hview hhist hsized
  | squashCorrect k taken =>
    obtain ⟨unit, hs, h⟩ := of_bind h
    obtain ⟨hnil, hback⟩ | ⟨h', rest, p, ps, hhist, hup, hnext, -⟩ := hi.correct (of_decide_eq_true hlegal) hmet hs
    · rw [hnil] at h
      cases h
      exact hback
    · rw [hhist, hup] at h
      cases h
      exact hnext

omit [Inhabited α] in
theorem same_of_view {u : ReturnAddrStack α} {x : Snapshot α} (h : u.view x.live = x.view) : Snapshot.Same ⟨u, x.live⟩ x :=
  view_eq h

end Predicted

/-- In a run whose squashes and corrections never undo a return that was predicted not taken and then corrected to be
  taken, a squash to `k` gives the top of stack and the live entries there were right after the last branch up to `k`,
  and correcting a branch to be not taken those there were right before it. -/
theorem squash_restores_stack {α : Type} [Inhabited α] {numEntries : Nat} {t : Predicted α} {es : List (BranchEvent α)}
    (hr : Exec (StepIf (fun s e => s.legal numEntries e && s.recorded e) (Predicted.step numEntries))
      (Predicted.start numEntries) es t) {k : Nat} (hk : t.committed ≤ k) :
    (t.recorded (.squash k) = true → ∃ unit, t.unit.squash k = .ok unit ∧
      Snapshot.Same ⟨unit.ras, (t.afterUpTo numEntries k).live⟩ (t.afterUpTo numEntries k)) ∧
    (t.recorded (.squashCorrect k false) = true → ∀ unit, t.unit.squashCorrect k false = .ok unit → unit.predHist ≠ [] →
      ∃ p, (t.upTo k).head? = some p ∧ Snapshot.Same ⟨unit.ras, p.before.live⟩ p.before) := by
  have hi : Predicted.Inv numEntries t := by
    apply hr.invariant Predicted.inv_start
    intro s e t hi hstep
    exact hi.step hstep
  constructor
  · intro hmet
    obtain ⟨unit, hs, hview, -, -⟩ := hi.squashed hk hmet
    exact ⟨unit, hs, Predicted.same_of_view hview⟩
  · intro hmet unit hs hne
    obtain ⟨hnil, -⟩ | ⟨h, rest, p, ps, -, hup, -, hbefore⟩ := hi.correct hk hmet hs
    · exact absurd hnil hne
    · exact ⟨p, by rw [hup]; rfl, Predicted.same_of_view (hbefore rfl)⟩

/-- A call, a branch and a return that pops the call's address; the squash back to the branch puts it on again. -/
theorem squash_restores_stack_small : ∃ (t : Predicted Nat) (unit : BPredUnit Nat),
    Exec (StepIf (fun s e => s.legal 4 e && s.recorded e) (Predicted.step 4)) (Predicted.start 4)
      [.predict ⟨1, 10, true, true, false, false, false⟩, .predict ⟨2, 20, false, false, false, false, false⟩,
        .predict ⟨3, 30, true, false, true, false, false⟩] t ∧
    t.unit.squash 2 = .ok unit ∧ Snapshot.Same ⟨unit.ras, (t.afterUpTo 4 2).live⟩ (t.afterUpTo 4 2) := by
  refine Exec.ends_withIf_two (p := fun t => decide (t.committed ≤ 2) && t.recorded (.squash 2)) (by decide) fun t hr ht => ?_
  obtain ⟨hk, hmet⟩ := and_eq_true_iff.mp ht
  obtain ⟨unit, hs, hsame⟩ := (squash_restores_stack hr (of_decide_eq_true hk)).1 hmet
  exact ⟨unit, hs, hsame⟩

/-- The return is predicted not taken and corrected to be taken: the squash back to the branch before it empties the
  stack on which the call's address was. -/
theorem older_entry_is_lost : ∃ (t : Predicted Nat) (unit : BPredUnit Nat),
    Exec (StepIf (Predicted.legal 4) (Predicted.step 4)) (Predicted.start 4)
      [.predict ⟨1, 10, true, true, false, false, false⟩, .predict ⟨2, 20, false, false, false, false, false⟩,
        .predict ⟨3, 30, false, false, true, false, false⟩, .squashCorrect 3 true] t ∧
    t.committed ≤ 2 ∧ t.unit.squash 2 = .ok unit ∧ (t.afterUpTo 4 2).live = 1 ∧
    ¬ Snapshot.Same ⟨unit.ras, (t.afterUpTo 4 2).live⟩ (t.afterUpTo 4 2) := by
  refine Exec.ends_withIf_two (p := fun t => match t.unit.squash 2 with
        | .ok unit => decide (t.committed ≤ 2) && decide ((t.afterUpTo 4 2).live = 1) &&
            decide (unit.ras.tos ≠ (t.afterUpTo 4 2).ras.tos)
        | .error _ => false) (by decide) fun t hr ht => ?_
  split at ht
  · rename_i unit hs
    obtain ⟨ht, htos⟩ := and_eq_true_iff.mp ht
    obtain ⟨hk, hlive⟩ := and_eq_true_iff.mp ht
    exact ⟨unit, of_decide_eq_true hk, hs, of_decide_eq_true hlive, fun hsame => of_decide_eq_true htos hsame.1⟩
  · cases ht

end Gem5.Cpu
