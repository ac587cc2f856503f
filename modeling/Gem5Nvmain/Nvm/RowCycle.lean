import Gem5Nvmain.Nvm.Banks

/- The row cycle of a sub-array.

  A row stays open for `MAX(tRCD, tRAS)` cycles and until the writes to it have recovered, and `tRP` cycles pass
  before a row is opened again. The registers say so to a PRECHARGE. The implicit precharge of a READ_PRECHARGE or
  WRITE_PRECHARGE does not look at `nextPrecharge`: it begins when the event comes that the command has inserted.

  `TakenCommand` is what a sub-array took, `RowCycle` is the claim about the commands in their order, and `Late` says
  which column commands come late enough for their implicit precharge. An explicit precharge and an ACTIVATE are
  always in time, and so is a WRITE_PRECHARGE behind a write (`row_cycle_iff`).

  `Remembers` is the invariant: what the registers remember of each command.

  `now + tRCD - tAL` does not wrap where `tAL <= tRCD`; nothing here needs more of `tAL`. -/
namespace Nvm
open Lib List SubArray

variable {p : Params}

/-- A command that a sub-array took, and the sub-array before. -/
structure TakenCommand (p : Params) where
  before : SubArray p
  cycle : Nat
  request : Request p

/-- `IssueCommand` accepts a command, at a cycle that is not before the last one. -/
def Accepts (tm : Timing p) (x : SubArray p × Nat) (e : TakenCommand p) (y : SubArray p × Nat) : Prop :=
  x.2 ≤ e.cycle ∧ e.before = x.1.settle e.cycle ∧ e.before.isIssuable e.cycle e.request = true ∧
    y = (e.before.issueCommand tm e.cycle e.request, e.cycle)

namespace TakenCommand
variable (tm : Timing p) (e : TakenCommand p)

/-- When the precharge of the command begins: at once, or when the event comes that it inserts. -/
def begins : Option Nat :=
  match e.request.type with
  | .precharge | .prechargeAll => some e.cycle
  | .readPrecharge | .writePrecharge => (e.before.issueCommand tm e.cycle e.request).prechargeAt
  | _ => none

def activates : Prop := e.request.type = .activate

def writes : Prop := e.request.type = .write ∨ e.request.type = .writePrecharge

/-- When the implicit precharge of a read may begin. -/
def readEnd : Nat :=
  e.cycle + tm.tAL + tm.tRTP + tm.decLat e.request + tm.burst * (tm.burstCount e.request - 1)

/-- When the data of a write is in the cells and they have recovered. -/
def recovered : Nat :=
  e.cycle + tm.burst * (tm.burstCount e.request - 1) + tm.tAL + tm.tCWD + tm.tBURST +
    e.before.writeTimer tm e.request + tm.tWR

end TakenCommand

/-- The timing of a row, for a command `d` that is taken before `e`. -/
structure InTime (tm : Timing p) (d e : TakenCommand p) : Prop where
  opened : d.activates → ∀ t, e.begins tm = some t → d.cycle + max tm.tRCD tm.tRAS ≤ t
  closed : ∀ t, d.begins tm = some t → e.activates → t + tm.tRP ≤ e.cycle
  written : d.writes → ∀ t, e.begins tm = some t → d.recovered tm ≤ t

/-- The timing of the rows, for the commands that were taken (oldest first). -/
def RowCycle (tm : Timing p) (hist : List (TakenCommand p)) : Prop :=
  hist.Pairwise (InTime tm) ∧ ∀ e ∈ hist, e.writes → ∀ t, e.begins tm = some t → e.recovered tm ≤ t

/-- A READ_PRECHARGE comes late enough for `tRAS` and for a write before it, a WRITE_PRECHARGE for `tRAS`. -/
structure Late (tm : Timing p) (d e : TakenCommand p) : Prop where
  read : e.request.type = .readPrecharge → d.activates → d.cycle + tm.tRAS ≤ e.readEnd tm
  readBehind : e.request.type = .readPrecharge → d.request.type = .write → d.recovered tm ≤ e.readEnd tm
  write : e.request.type = .writePrecharge → d.activates → d.cycle + tm.tRAS ≤ e.recovered tm

/-! ## What the registers remember -/

/-- What the registers remember of a command. -/
structure Remembers (tm : Timing p) (n : Next) (d : TakenCommand p) : Prop where
  activate : d.activates → d.cycle + max tm.tRCD tm.tRAS ≤ n.precharge ∧ d.cycle + tm.tRCD ≤ n.read + tm.tAL ∧
    d.cycle + tm.tRCD ≤ n.write + tm.tAL
  begins : ∀ t, d.begins tm = some t → t + tm.tRP ≤ n.activate
  closing : d.request.type = .writePrecharge → d.recovered tm ≤ n.read
  writes : d.writes → d.recovered tm ≤ n.precharge ∧ d.recovered tm ≤ n.write + tm.tAL + tm.tCWD + tm.tBURST + tm.tWR

/-- The registers only go up. -/
def Next.le (n m : Next) : Prop :=
  n.activate ≤ m.activate ∧ n.read ≤ m.read ∧ n.write ≤ m.write ∧ n.precharge ≤ m.precharge

theorem Next.le_refl (n : Next) : n.le n := ⟨Nat.le_refl _, Nat.le_refl _, Nat.le_refl _, Nat.le_refl _⟩

theorem Next.le_meet (n m : Next) : n.le (n.meet m) :=
  ⟨Nat.le_max_left _ _, Nat.le_max_left _ _, Nat.le_max_left _ _, Nat.le_max_left _ _⟩

theorem Remembers.mono {tm : Timing p} {n m : Next} {d : TakenCommand p} (h : Remembers tm n d) (hle : n.le m) :
    Remembers tm m d := by
  obtain ⟨hact, hread, hwrite, hpre⟩ := hle
  refine ⟨fun hd => ?_, fun t ht => ?_, fun hd => ?_, fun hd => ?_⟩
  · have h := h.activate hd
    omega
  · have h := h.begins t ht
    omega
  · have h := h.closing hd
    omega
  · have h := h.writes hd
    omega

namespace SubArray
variable {s : SubArray p} {c : Nat} {r : Request p}

@[simp] theorem beginPrecharge_next (c : Nat) (s : SubArray p) : (s.beginPrecharge c).next = s.next := by
  unfold beginPrecharge
  split
  · split <;> rfl
  · rfl

@[simp] theorem close_next (c : Nat) (s : SubArray p) : (s.close c).next = s.next := by
  unfold close
  split
  · split <;> rfl
  · rfl

@[simp] theorem settle_registers (c : Nat) (s : SubArray p) : (s.settle c).next = s.next := by
  rw [settle, close_next, beginPrecharge_next]

variable (tm : Timing p)

theorem issueCommand_le (hpause : p.writePausing = false) : s.next.le (s.issueCommand tm c r).next := by
  have hcheck : s.checkWritePausing c = s := by simp [checkWritePausing, hpause]
  unfold issueCommand
  cases r.type
  case activate => simpa only [activate, hcheck] using Next.le_meet _ _
  case read | readPrecharge =>
    simp only [read, hcheck]
    split
    · exact Next.le_meet _ _
    · exact Next.le_meet _ _
  case write | writePrecharge =>
    simp only [write]
    split
    · exact Next.le_meet _ _
    · exact Next.le_meet _ _
  case precharge | prechargeAll => exact Next.le_meet _ _
  case refresh => exact Next.le_meet _ _
  case cachedRead | cachedWrite => exact Next.le_refl _

end SubArray

namespace TakenCommand
variable {tm : Timing p} {e : TakenCommand p} {t : Nat}

theorem begins_readPrecharge (he : e.request.type = .readPrecharge) : e.begins tm = some (e.readEnd tm) := by
  simp [begins, he, SubArray.issueCommand, SubArray.read, SubArray.closeBehind, readEnd]

theorem begins_writePrecharge (he : e.request.type = .writePrecharge) : e.begins tm = some (e.recovered tm) := by
  simp [begins, he, issueCommand, write, closeBehind, recovered]

/-- What begins a precharge. -/
theorem begins_cases (h : e.begins tm = some t) :
    ((e.request.type = .precharge ∨ e.request.type = .prechargeAll) ∧ t = e.cycle) ∨
    (e.request.type = .readPrecharge ∧ t = e.readEnd tm) ∨ (e.request.type = .writePrecharge ∧ t = e.recovered tm) := by
  cases htype : e.request.type with
  | precharge =>
    simp only [begins, htype, Option.some.injEq] at h
    exact .inl ⟨.inl rfl, h.symm⟩
  | prechargeAll =>
    simp only [begins, htype, Option.some.injEq] at h
    exact .inl ⟨.inr rfl, h.symm⟩
  | readPrecharge =>
    rw [begins_readPrecharge htype] at h
    exact .inr (.inl ⟨rfl, (Option.some.inj h).symm⟩)
  | writePrecharge =>
    rw [begins_writePrecharge htype] at h
    exact .inr (.inr ⟨rfl, (Option.some.inj h).symm⟩)
  | activate | read | write | refresh | cachedRead | cachedWrite =>
    simp only [begins, htype] at h
    cases h

variable (tm e) in
/-- A command that is taken is remembered. -/
theorem remembered (hpause : p.writePausing = false) :
    Remembers tm (e.before.issueCommand tm e.cycle e.request).next e := by
  have hcheck : e.before.checkWritePausing e.cycle = e.before := by simp [checkWritePausing, hpause]
  refine ⟨fun he => ?_, fun t ht => ?_, fun he => ?_, fun he => ?_⟩
  · simp only [activates] at he
    simp only [issueCommand, he, activate, hcheck, Next.meet]
    omega
  · rcases begins_cases ht with ⟨he, rfl⟩ | ⟨he, rfl⟩ | ⟨he, rfl⟩
    · rcases he with he | he
      · simp only [issueCommand, he, precharge, Next.meet]
        split <;> omega
      · simp only [issueCommand, he, precharge, Next.meet]
        split <;> omega
    · simp only [SubArray.issueCommand, he, SubArray.read, hcheck, SubArray.closeBehind, Next.meet, if_true, readEnd]
      omega
    · simp only [issueCommand, he, write, closeBehind, Next.meet, if_true, recovered,
        writeTimer]
      omega
  · simp only [issueCommand, he, write, closeBehind, Next.meet, if_true, recovered,
      writeTimer]
    omega
  · rcases he with he | he
    · have hmul : tm.burst * (tm.burstCount e.request - 1) ≤ tm.burst * tm.burstCount e.request :=
        Nat.mul_le_mul_left _ (Nat.sub_le _ _)
      simp only [issueCommand, he, write, Next.meet, reduceCtorEq, if_false, recovered, writeTimer]
      omega
    · simp only [issueCommand, he, write, closeBehind, Next.meet, if_true, recovered,
        writeTimer]
      omega

end TakenCommand

/-! ## Runs -/

section Runs
variable {tm : Timing p} {hist : List (TakenCommand p)} {x y : SubArray p × Nat} {d e : TakenCommand p}

theorem Accepts.next_le (hpause : p.writePausing = false) (h : Accepts tm x e y) : x.1.next.le y.1.next := by
  obtain ⟨-, hbefore, -, rfl⟩ := h
  have hle := issueCommand_le tm (s := e.before) (c := e.cycle) (r := e.request) hpause
  rw [hbefore, settle_registers] at hle
  rw [hbefore]
  exact hle

theorem Accepts.of_le (h : Accepts tm x e y) : x.1.next.of e.request.type ≤ e.cycle := by
  obtain ⟨-, hbefore, hissuable, -⟩ := h
  rw [hbefore] at hissuable
  unfold isIssuable at hissuable
  cases htype : e.request.type <;> simp_all [Next.of]

theorem Accepts.remembered (hpause : p.writePausing = false) (h : Accepts tm x e y) : Remembers tm y.1.next e := by
  obtain ⟨-, -, -, rfl⟩ := h
  exact e.remembered tm hpause

/-- A relation between the commands of a run, from what the registers remember of the first. -/
theorem pairwise_of {R : TakenCommand p → TakenCommand p → Prop} (hpause : p.writePausing = false)
    (h : ∀ d e (y z : SubArray p × Nat), Remembers tm y.1.next d → Accepts tm y e z → R d e)
    (hr : Exec (Accepts tm) x hist y) : hist.Pairwise R := by
  have hboth : (∀ d ∈ hist, Remembers tm y.1.next d) ∧ hist.Pairwise R := by
    induction hr with
    | nil => exact ⟨fun d hd => absurd hd not_mem_nil, List.Pairwise.nil⟩
    | @snoc hist y z e _ hs ih =>
      obtain ⟨hmem, hpair⟩ := ih
      refine ⟨fun d hd => ?_, pairwise_append.mpr ⟨hpair, pairwise_singleton _ _, fun d hd e' he' => ?_⟩⟩
      · rcases mem_append.mp hd with hd | hd
        · exact (hmem d hd).mono (hs.next_le hpause)
        · rw [mem_singleton.mp hd]
          exact hs.remembered hpause
      · rw [mem_singleton.mp he']
        exact h d e y z (hmem d hd) hs
  exact hboth.2

/-- A command that comes late enough is in time. -/
theorem inTime_of_late {y z : SubArray p × Nat} (hd : Remembers tm y.1.next d)
    (hs : Accepts tm y e z) (hlate : Late tm d e) : InTime tm d e := by
  have hle := hs.of_le
  refine ⟨fun hact t ht => ?_, fun t ht hact => ?_, fun hw t ht => ?_⟩
  · obtain ⟨hpre, hread, hwrite⟩ := hd.activate hact
    rcases TakenCommand.begins_cases ht with ⟨he | he, rfl⟩ | ⟨he, rfl⟩ | ⟨he, rfl⟩
    · simp only [he, Next.of] at hle
      omega
    · simp only [he, Next.of] at hle
      omega
    · have hras := hlate.read he hact
      simp only [he, Next.of] at hle
      simp only [TakenCommand.readEnd] at hras ⊢
      omega
    · have hras := hlate.write he hact
      simp only [he, Next.of] at hle
      simp only [TakenCommand.recovered] at hras ⊢
      omega
  · have hrp := hd.begins t ht
    rw [show e.request.type = .activate from hact] at hle
    simp only [Next.of] at hle
    omega
  · obtain ⟨hpre, hwrite⟩ := hd.writes hw
    rcases TakenCommand.begins_cases ht with ⟨he | he, rfl⟩ | ⟨he, rfl⟩ | ⟨he, rfl⟩
    · simp only [he, Next.of] at hle
      omega
    · simp only [he, Next.of] at hle
      omega
    · rcases hw with hw | hw
      · exact hlate.readBehind he hw
      · -- the registers keep every read behind an implicit precharge
        have hclosing := hd.closing hw
        simp only [he, Next.of] at hle
        simp only [TakenCommand.readEnd]
        omega
    · simp only [he, Next.of] at hle
      have hend : e.cycle + tm.tAL + tm.tCWD + tm.tBURST + tm.tWR ≤ e.recovered tm := by
        simp only [TakenCommand.recovered]
        omega
      omega

theorem late_of_inTime (h : InTime tm d e) : Late tm d e := by
  refine ⟨fun he hact => ?_, fun he hw => ?_, fun he hact => ?_⟩
  · have hopen := h.opened hact _ (TakenCommand.begins_readPrecharge he)
    omega
  · exact h.written (.inl hw) _ (TakenCommand.begins_readPrecharge he)
  · have hopen := h.opened hact _ (TakenCommand.begins_writePrecharge he)
    omega

end Runs

/-- The rows of a sub-array keep their timing exactly when every READ_PRECHARGE and WRITE_PRECHARGE comes late enough
  for its implicit precharge. -/
theorem row_cycle_iff (tm : Timing p) (hist : List (TakenCommand p)) (s : SubArray p × Nat) (hpause : p.writePausing = false)
    (hr : Exec (Accepts tm) ({}, 0) hist s) : RowCycle tm hist ↔ hist.Pairwise (Late tm) := by
  constructor
  · exact fun h => h.1.imp late_of_inTime
  · intro h
    have himp : hist.Pairwise fun d e => Late tm d e → InTime tm d e :=
      pairwise_of hpause (fun d e y z hd hs hlate => inTime_of_late hd hs hlate) hr
    refine ⟨(h.and himp).imp fun h => h.2 h.1, fun e _ hw t ht => ?_⟩
    rcases hw with hw | hw
    · simp only [TakenCommand.begins, hw] at ht
      cases ht
    · rw [TakenCommand.begins_writePrecharge hw] at ht
      exact Nat.le_of_eq (Option.some.inj ht)

/-! A device with two banks of two sub-arrays. -/

def device : Params where
  ranks := 1
  banks := 2
  rows := 4
  subArrayNum := 2
  rbSize := 8
  queueModel := .perBank
  banksPerRefresh := 1
  ranks_pos := Nat.one_pos
  banks_pos := Nat.two_pos
  subArrayNum_pos := Nat.two_pos
  rbSize_pos := eight_pos
  scheme_ok := Params.rankFirst_ok
  banksPerRefresh_pos := Nat.one_pos
  banksPerRefresh_le := by decide

/-- A command for row 1 of the first sub-array. -/
def rowOne (type : OpType) : Request device := { type := type, address := ⟨1, 0, 0, 0, 0, device.banks_pos, device.ranks_pos, device.subArrayNum_pos⟩ }

/-- The first commands: the row is opened, and written when it can be. -/
def opensRow : TakenCommand device := ⟨{}, 0, rowOne .activate⟩

def rowOpened : SubArray device := opensRow.before.issueCommand {} 0 (rowOne .activate)

def writesRow : TakenCommand device := ⟨rowOpened, 9, rowOne .write⟩

def rowWritten : SubArray device := rowOpened.issueCommand {} 9 (rowOne .write)

/-- The row is opened, written and, when that has recovered, read and closed. -/
theorem row_cycle_recovered : ∃ hist s, Exec (Accepts (p := device) {}) ({}, 0) hist s ∧
    hist.map (fun e => (e.cycle, e.begins {})) = [(0, none), (9, none), (25, some 30)] ∧ RowCycle {} hist := by
  have hr : Exec (Accepts {}) ({}, 0) [opensRow, writesRow, ⟨rowWritten, 25, rowOne .readPrecharge⟩]
      (rowWritten.issueCommand {} 25 (rowOne .readPrecharge), 25) := by
    refine .snoc (.snoc (.snoc .nil (u := (rowOpened, 0)) ?_) (u := (rowWritten, 9)) ?_) ?_
    · exact ⟨Nat.le_refl _, rfl, by decide, rfl⟩
    · exact ⟨by decide, rfl, by decide, rfl⟩
    · exact ⟨by decide, rfl, by decide, rfl⟩
  refine ⟨_, _, hr, by decide, (row_cycle_iff {} _ _ rfl hr).mpr ?_⟩
  refine pairwise_cons.mpr ⟨?_, pairwise_cons.mpr ⟨?_, pairwise_singleton _ _⟩⟩
  · intro e he
    simp only [mem_cons, not_mem_nil, or_false] at he
    rcases he with rfl | rfl
    · exact ⟨nofun, nofun, nofun⟩
    · exact ⟨fun _ _ => by decide, fun _ => nofun, nofun⟩
  · intro e he
    rw [mem_singleton.mp he]
    exact ⟨fun _ => nofun, fun _ _ => by decide, nofun⟩

/-- The row is read as soon as it is open, and its implicit precharge begins `tRCD + tRTP` cycles after the ACTIVATE:
  14 cycles, where `tRAS` is 24. -/
theorem row_closed_early : ∃ hist s, Exec (Accepts (p := device) {}) ({}, 0) hist s ∧ ¬RowCycle {} hist := by
  have hr : Exec (Accepts {}) ({}, 0) [opensRow, ⟨rowOpened, 9, rowOne .readPrecharge⟩]
      (rowOpened.issueCommand {} 9 (rowOne .readPrecharge), 9) := by
    refine .snoc (.snoc .nil (u := (rowOpened, 0)) ?_) ?_
    · exact ⟨Nat.le_refl _, rfl, by decide, rfl⟩
    · exact ⟨by decide, rfl, by decide, rfl⟩
  refine ⟨_, _, hr, fun h => ?_⟩
  have hopened := (rel_of_pairwise_cons h.1 (mem_singleton_self _)).opened rfl 14 (by decide)
  exact absurd hopened (by decide)

end Nvm
