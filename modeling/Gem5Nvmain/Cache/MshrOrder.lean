import Gem5Nvmain.Cache.MshrUpgrade
import Mathlib.Data.List.Nodup

/- No target of an MSHR is lost or reordered.

  `History` is an MSHR together with what it was given: the packets accepted from above and those popped, and a bound
  on the order numbers used so far. A call may rewrite the command of a packet, so a target is compared by its
  `Ident`.

  The calls come in any order the assertions allow (`FreeStep`). Order is a fact about the two lists alone (`Lined`):
  what is added goes to the end of the concatenation because nothing is added to `targets` from above while something
  is deferred. A snoop may be added to `targets` then; `handleFill` would put deferred targets behind it, but a saved
  snoop sets one of the flags that forbid it (`OrderInv.snooped`). -/
namespace Gem5.Cache
open Lib Gem5.Mem List TargetList Mshr

/-- A target up to the command of its packet. -/
structure Ident where
  order : Nat
  pkt : Packet
  snoop : Bool
  deriving DecidableEq, Repr

def identOf (order : Nat) (pkt : Packet) (source : Source) : Ident :=
  ⟨order, { pkt with cmd := .invalidCmd }, source == .fromSnoop⟩

def Target.ident (t : Target) : Ident := identOf t.order t.pkt t.source

def TargetList.idents (l : TargetList) : List Ident := l.list.map Target.ident

/-- The packets from above, in `targets` and then in `deferredTargets`. -/
def Mshr.waiting (m : Mshr) : List Ident :=
  (m.targets.idents ++ m.deferredTargets.idents).filter (!·.snoop)

/-! ## Histories -/

/-- The calls on one MSHR, in any order. `MSHRQueue::allocate` takes an MSHR without targets, and only a target that
  is there is popped. The cache marks an MSHR pending right after its deferred targets were promoted, and gives it
  back when nothing is deferred. -/
inductive FreeStep : Register → MshrCall → Register → Prop where
  | allocate {m m' : Mshr} {p : Phase} {addr size : Nat} {pkt : Packet} {whenReady : Tick} {order : Nat}
      (hfree : m.getNumTargets = 0) (h : m.allocate addr size pkt whenReady order = .ok m') :
      FreeStep ⟨m, p⟩ (.allocate addr size pkt whenReady order) ⟨m', .normal⟩
  | allocateTarget {m m' : Mshr} {p : Phase} {pkt : Packet} {whenReady : Tick} {order : Nat}
      (h : m.allocateTarget pkt whenReady order = .ok m') :
      FreeStep ⟨m, p⟩ (.allocateTarget pkt whenReady order) ⟨m', .normal⟩
  | markInService {m m' : Mshr} {p : Phase} {pkt : Option Packet} {b : Bool}
      (h : m.markInService pkt = .ok (m', b)) : FreeStep ⟨m, p⟩ (.markInService pkt) ⟨m', .normal⟩
  | handleSnoop {m : Mshr} {p : Phase} {pkt : Packet} {order : Nat} {curTick : Tick} :
      FreeStep ⟨m, p⟩ (.handleSnoop pkt order curTick) ⟨(m.handleSnoop pkt order curTick).1, .normal⟩
  | handleFill {m m' : Mshr} {p : Phase} {pkt : Packet} (h : m.handleFill pkt = .ok m') :
      FreeStep ⟨m, p⟩ (.handleFill pkt) ⟨m', .normal⟩
  | popTarget {m : Mshr} {p : Phase} (h : m.hasTargets = true) :
      FreeStep ⟨m, p⟩ .popTarget ⟨m.popTarget, .normal⟩
  | promoteDeferredTargets {m m' : Mshr} {p : Phase} {curTick : Tick} {b : Bool}
      (h : m.promoteDeferredTargets curTick = .ok (m', b)) :
      FreeStep ⟨m, p⟩ (.promoteDeferredTargets curTick) ⟨m', if b then .promoted else .normal⟩
  | markPending {m : Mshr} :
      FreeStep ⟨m, .promoted⟩ .markPending ⟨{ m with inService := false }, .normal⟩
  | deallocate {m m' : Mshr} {p : Phase} (hd : m.deferredTargets.list = []) (h : m.deallocate = .ok m') :
      FreeStep ⟨m, p⟩ .deallocate ⟨m', .normal⟩
  | setDownstreamPending {m m' : Mshr} {p : Phase} (h : m.setDownstreamPending = .ok m') :
      FreeStep ⟨m, p⟩ .setDownstreamPending ⟨m', p⟩
  | clearDownstreamPending {m m' : Mshr} {p : Phase} (h : m.clearDownstreamPending = .ok m') :
      FreeStep ⟨m, p⟩ .clearDownstreamPending ⟨m', p⟩
  | setForward {m : Mshr} {p : Phase} {b : Bool} :
      FreeStep ⟨m, p⟩ (.setForward b) ⟨{ m with isForward := b }, p⟩

namespace MshrCall

/-- The order number a call is given. -/
def order : MshrCall → Option Nat
  | .allocate _ _ _ _ order => some order
  | .allocateTarget _ _ order => some order
  | .handleSnoop _ order _ => some order
  | _ => none

/-- The packet from above that a call brings. -/
def accepts : MshrCall → List Ident
  | .allocate _ _ pkt _ order => [identOf order pkt .fromCPU]
  | .allocateTarget pkt _ order => [identOf order pkt .fromCPU]
  | _ => []

/-- The target a call removes. A request that is forwarded without a response leaves when it is sent. -/
def pops (c : MshrCall) (m m' : Mshr) : List Ident :=
  match c with
  | .popTarget => m.targets.idents.take 1
  | .markInService _ => if m'.inService then [] else m.targets.idents.take 1
  | _ => []

end MshrCall

structure History where
  register : Register
  accepted : List Ident
  popped : List Ident
  next : Nat

def History.initial : History := ⟨Register.initial, [], [], 0⟩

/-- A call whose order number is larger than all before it. -/
inductive HistoryStep : History → MshrCall → History → Prop where
  | mk {s : History} {c : MshrCall} {r : Register} (hs : FreeStep s.register c r)
      (hfresh : ∀ n, c.order = some n → s.next ≤ n) :
      HistoryStep s c
        { register := r
          accepted := s.accepted ++ c.accepts
          popped := s.popped ++ (c.pops s.register.mshr r.mshr).filter (!·.snoop)
          next := (c.order.map (· + 1)).getD s.next }

/-! ## Two lists in line -/

/-- What arrived from above has left or waits, in the order of arrival, in `ts` and then in `ds`; the snoops are in
  `ts`. -/
structure Lined (accepted popped : List Ident) (next : Nat) (ts ds : List Ident) : Prop where
  complete : accepted = popped ++ (ts ++ ds).filter (!·.snoop)
  increasing : accepted.Pairwise (·.order < ·.order)
  bound : ∀ x ∈ accepted ++ ts, x.order < next
  targets : ts.Pairwise (·.order < ·.order)
  source : ∀ x ∈ ds, x.snoop = false

namespace Lined
variable {acc pop ts ds : List Ident} {n k : Nat} {x : Ident}

section
variable (h : Lined acc pop n ts ds)
include h

theorem deferred : ds.Pairwise (·.order < ·.order) := by
  have hds : ds.filter (!·.snoop) = ds := filter_eq_self.mpr fun x hx => by simp [h.source x hx]
  have hsub : ds.Sublist acc := by
    rw [h.complete, filter_append, hds]
    simp
  exact h.increasing.sublist hsub

theorem deferred_bound : ∀ x ∈ ds, x.order < n := by
  intro x hx
  apply h.bound
  rw [h.complete]
  simp [hx, h.source x hx]

theorem mono (hk : n ≤ k) : Lined acc pop k ts ds :=
  ⟨h.complete, h.increasing, fun x hx => Nat.lt_of_lt_of_le (h.bound x hx) hk, h.targets, h.source⟩

theorem lt_new (hn : n ≤ x.order) : ∀ y ∈ acc ++ ts, y.order < x.order :=
  fun y hy => Nat.lt_of_lt_of_le (h.bound y hy) hn

theorem bound_new (hn : n ≤ x.order) {l : List Ident}
    (hl : ∀ y ∈ l, y ∈ acc ++ ts ∨ y = x) : ∀ y ∈ l, y.order < x.order + 1 := by
  intro y hy
  rcases hl y hy with hy | rfl
  · exact Nat.lt_succ_of_lt (h.lt_new hn y hy)
  · exact Nat.lt_succ_self _

end

theorem pairwise_snoc {l : List Ident} (hl : l.Pairwise (·.order < ·.order))
    (hx : ∀ y ∈ l, y.order < x.order) : (l ++ [x]).Pairwise (·.order < ·.order) := by
  rw [pairwise_append]
  exact ⟨hl, pairwise_singleton _ _, by simpa using hx⟩

theorem quiet (h : Lined acc pop n ts ds) : Lined (acc ++ []) (pop ++ [].filter (!·.snoop)) n ts ds := by
  simpa using h

theorem push (h : Lined acc pop n ts []) (hx : x.snoop = false) (hn : n ≤ x.order) :
    Lined (acc ++ [x]) pop (x.order + 1) (ts ++ [x]) [] := by
  have hlt := h.lt_new hn
  refine ⟨?_, ?_, ?_, ?_, h.source⟩
  · rw [h.complete]
    simp [hx]
  · exact pairwise_snoc h.increasing fun y hy => hlt y (by simp [hy])
  · apply h.bound_new hn
    intro y hy
    simp only [mem_append, mem_singleton] at hy ⊢
    tauto
  · exact pairwise_snoc h.targets fun y hy => hlt y (by simp [hy])

theorem defer (h : Lined acc pop n ts ds) (hx : x.snoop = false) (hn : n ≤ x.order) :
    Lined (acc ++ [x]) pop (x.order + 1) ts (ds ++ [x]) := by
  have hlt := h.lt_new hn
  refine ⟨?_, ?_, ?_, h.targets, ?_⟩
  · rw [h.complete]
    simp [hx]
  · exact pairwise_snoc h.increasing fun y hy => hlt y (by simp [hy])
  · apply h.bound_new hn
    intro y hy
    simp only [mem_append, mem_singleton] at hy ⊢
    tauto
  · intro y hy
    rcases mem_append.mp hy with hy | hy
    · exact h.source y hy
    · rw [mem_singleton.mp hy]
      exact hx

theorem pushSnoop (h : Lined acc pop n ts ds) (hx : x.snoop = true) (hn : n ≤ x.order) :
    Lined acc pop (x.order + 1) (ts ++ [x]) ds := by
  have hlt := h.lt_new hn
  refine ⟨?_, h.increasing, ?_, ?_, h.source⟩
  · rw [h.complete]
    simp [hx]
  · apply h.bound_new hn
    intro y hy
    simp only [mem_append, mem_singleton] at hy ⊢
    tauto
  · exact pairwise_snoc h.targets fun y hy => hlt y (by simp [hy])

theorem popFront (h : Lined acc pop n ts ds) : Lined acc (pop ++ (ts.take 1).filter (!·.snoop)) n ts.tail ds := by
  refine ⟨?_, h.increasing, ?_, ?_, h.source⟩
  · rw [h.complete, append_assoc, ← filter_append, ← append_assoc]
    cases ts <;> rfl
  · intro y hy
    apply h.bound
    rcases mem_append.mp hy with hy | hy
    · exact mem_append_left _ hy
    · exact mem_append_right _ (mem_of_mem_tail hy)
  · exact h.targets.sublist (tail_sublist ts)

theorem promote (h : Lined acc pop n [] ds) : Lined acc pop n ds [] := by
  refine ⟨?_, h.increasing, ?_, h.deferred, ?_⟩
  · rw [append_nil]
    exact h.complete
  · intro y hy
    rcases mem_append.mp hy with hy | hy
    · exact h.bound y (by simp [hy])
    · exact h.deferred_bound y hy
  · intro y hy
    cases hy

/-- `ds` moves up behind `ts`, in which there is no snoop. -/
theorem splice (h : Lined acc pop n ts ds) (hts : ∀ x ∈ ts, x.snoop = false) : Lined acc pop n (ts ++ ds) [] := by
  have hall : (ts ++ ds).filter (!·.snoop) = ts ++ ds := by
    apply filter_eq_self.mpr
    intro x hx
    rcases mem_append.mp hx with hx | hx
    · simp [hts x hx]
    · simp [h.source x hx]
  have hsub : (ts ++ ds).Sublist acc := by
    rw [h.complete, hall]
    simp
  refine ⟨?_, h.increasing, ?_, h.increasing.sublist hsub, ?_⟩
  · rw [append_nil]
    exact h.complete
  · intro y hy
    apply h.bound
    rcases mem_append.mp hy with hy | hy
    · exact mem_append_left _ hy
    · exact mem_append_left _ (hsub.subset hy)
  · intro y hy
    cases hy

end Lined

/-! ## The invariant -/

@[simp] theorem TargetList.idents_add (l : TargetList) (pkt : Packet) (time : Tick) (order : Nat)
    (source : Source) (mark : Bool) :
    (l.add pkt time order source mark).idents = l.idents ++ [identOf order pkt source] := by
  simp [add, idents, Target.ident]

@[simp] theorem TargetList.idents_replaceUpgrades (l : TargetList) : l.replaceUpgrades.idents = l.idents := by
  unfold replaceUpgrades
  split
  · simp [idents, Target.replaceUpgrade, Target.ident, identOf]
  · rfl

theorem TargetList.idents_eq_nil {l : TargetList} : l.idents = [] ↔ l.list = [] := by
  simp [idents]

/-- A saved snoop leaves a mark in the MSHR. -/
def Mshr.Marked (m : Mshr) : Prop := m.inService = true ∧ (m.postInvalidate || m.postDowngrade) = true

def Mshr.NoSnoop (m : Mshr) : Prop := ∀ x ∈ m.targets.idents, x.snoop = false

structure OrderInv (s : History) : Prop where
  lined : Lined s.accepted s.popped s.next s.register.mshr.targets.idents s.register.mshr.deferredTargets.idents
  idle : s.register.mshr.inService = false → s.register.mshr.deferredTargets.list = []
  snooped : s.register.mshr.NoSnoop ∨ s.register.mshr.Marked
  promoted : s.register.phase = .promoted →
    s.register.mshr.NoSnoop ∧ s.register.mshr.deferredTargets.list = []

theorem initial_orderInv : OrderInv History.initial := by
  refine ⟨⟨rfl, List.Pairwise.nil, ?_, List.Pairwise.nil, ?_⟩, fun _ => rfl, .inl ?_, ?_⟩
  · intro x hx
    cases hx
  · intro x hx
    cases hx
  · intro x hx
    cases hx
  · intro h
    cases h

/-! ## What each call does to the lists -/

section Calls
variable {m m' : Mshr} {pkt : Packet} {order : Nat} {curTick whenReady : Tick} {acc pop : List Ident} {n : Nat}

theorem handleSnoop_marked (h : m.NoSnoop ∨ m.Marked) :
    (m.handleSnoop pkt order curTick).1.NoSnoop ∨ (m.handleSnoop pkt order curTick).1.Marked := by
  unfold handleSnoop
  by_cases hpre : m.snoopPrecedes pkt = true
  · rw [if_pos hpre]
    split
    · simpa [Mshr.NoSnoop, Mshr.Marked] using h
    · exact h
  · rw [if_neg hpre]
    have hserv : m.inService = true := by
      simp only [snoopPrecedes, Bool.or_eq_true, Bool.not_eq_true', not_or, Bool.not_eq_false] at hpre
      exact hpre.1
    simp only
    split
    · exact h
    · rename_i hpost
      cases hex : pkt.needsExclusive with
      | false =>
        -- a read leaves the downgrade mark
        refine .inr ⟨hserv, ?_⟩
        simp
      | true =>
        cases hsave : m.savesSnoop pkt with
        | true =>
          refine .inr ⟨hserv, ?_⟩
          simp
        | false =>
          -- nothing is saved: the old mark, if there is one, stays
          rcases h with h | ⟨-, hmark⟩
          · refine .inl ?_
            simpa [Mshr.NoSnoop] using h
          · refine .inr ⟨hserv, ?_⟩
            simpa [hpost] using hmark

theorem handleSnoop_lined (h : Lined acc pop n m.targets.idents m.deferredTargets.idents) (hn : n ≤ order) :
    Lined acc pop (order + 1) (m.handleSnoop pkt order curTick).1.targets.idents
      (m.handleSnoop pkt order curTick).1.deferredTargets.idents := by
  have hmono : n ≤ order + 1 := by omega
  rcases m.handleSnoop_cases pkt order curTick with ⟨-, -, heq⟩ | ⟨-, -, l, pi, pd, hl, heq⟩
  · rw [heq]
    split
    · simpa using h.mono hmono
    · exact h.mono hmono
  · rw [heq]
    have hds : (if pkt.needsExclusive then m.deferredTargets.replaceUpgrades else m.deferredTargets).idents =
        m.deferredTargets.idents := by
      split <;> simp
    simp only [hds]
    rcases hl with rfl | ⟨mark, rfl⟩
    · exact h.mono hmono
    · rw [idents_add]
      exact h.pushSnoop (x := identOf order pkt.copyClearFlags .fromSnoop) rfl hn

theorem handleSnoop_idle (h : m.inService = false → m.deferredTargets.list = [])
    (hserv : (m.handleSnoop pkt order curTick).1.inService = false) :
    (m.handleSnoop pkt order curTick).1.deferredTargets.list = [] := by
  rcases m.handleSnoop_cases pkt order curTick with ⟨-, -, heq⟩ | ⟨hin, -, l, pi, pd, -, heq⟩
  · rw [heq] at hserv ⊢
    split at hserv
    · rename_i hex
      rw [if_pos hex, ← idents_eq_nil, idents_replaceUpgrades, idents_eq_nil]
      exact h hserv
    · rename_i hex
      rw [if_neg hex]
      exact h hserv
  · rw [heq] at hserv
    rw [show m.inService = false from hserv] at hin
    cases hin

theorem fill_noSnoop (h : m.NoSnoop ∨ m.Marked) (hfill : m.fillsDeferred pkt = true) : m.NoSnoop := by
  rcases h with hno | ⟨-, hmark⟩
  · exact hno
  · rw [fillsDeferred, hmark] at hfill
    simp at hfill

theorem handleFill_cases (h : m.handleFill pkt = .ok m') : m' = m ∨ (m.fillsDeferred pkt = true ∧ m' = { m with
      targets :=
        { m.targets with list := m.targets.list ++ m.deferredTargets.list, needsExclusive := true }
      deferredTargets := {} }) := by
  obtain ⟨_, -, h⟩ := of_bind h
  split at h
  · rename_i hfill
    obtain ⟨_, -, h⟩ := of_bind h
    obtain ⟨_, -, h⟩ := of_bind h
    cases h
    exact .inr ⟨hfill, rfl⟩
  · cases h
    exact .inl rfl

theorem popTarget_noSnoop (h : m.NoSnoop) : m.popTarget.NoSnoop := by
  intro x hx
  apply h
  rw [idents, popTarget, map_tail] at hx
  exact mem_of_mem_tail hx

theorem deferred_nil_of_joins (h : m.inService = false → m.deferredTargets.list = [])
    (hjoin : m.mustDefer pkt = false) : m.deferredTargets.list = [] := by
  cases hserv : m.inService with
  | false => exact h hserv
  | true =>
    simp only [mustDefer, hserv, Bool.true_and, Bool.or_eq_false_iff] at hjoin
    simpa using hjoin.1.1

theorem markInService_lined {b : Bool} {p : Option Packet}
    (h : Lined acc pop n m.targets.idents m.deferredTargets.idents) (hm : m.markInService p = .ok (m', b)) :
    Lined acc (pop ++ ((MshrCall.markInService p).pops m m').filter (!·.snoop)) n m'.targets.idents
      m'.deferredTargets.idents := by
  obtain ⟨hserv, ⟨-, -, rfl⟩ | ⟨-, -, dirty, rfl⟩⟩ := markInService_eq_ok hm
  · have hpop := h.popFront
    simpa [MshrCall.pops, hserv, popTarget, idents] using hpop
  · simpa [MshrCall.pops] using h

end Calls

theorem step_orderInv {s s' : History} {c : MshrCall} (hi : OrderInv s) (hs : HistoryStep s c s') : OrderInv s' := by
  obtain ⟨hs, hfresh⟩ := hs
  obtain ⟨⟨m, p⟩, acc, pop, n⟩ := s
  obtain ⟨hl, hidle, hsnoop, hprom⟩ := hi
  simp only at hs hl hidle hsnoop hprom hfresh
  cases hs with
  | @allocate _ m' _ addr size pkt whenReady order hfree h =>
    have hempty : m.targets.list = [] ∧ m.deferredTargets.list = [] := by
      simpa [getNumTargets] using hfree
    obtain ⟨source, hsource, rfl⟩ := allocate_eq_ok h
    have hds : m.deferredTargets.idents = [] := idents_eq_nil.mpr hempty.2
    have hident : identOf order pkt source = identOf order pkt .fromCPU := by
      simp [identOf, hsource]
    rw [hds] at hl
    refine ⟨?_, fun _ => hempty.2, .inl ?_, nofun⟩
    · simp only [idents_add, hds, hident]
      exact (append_nil pop).symm ▸ hl.push rfl (hfresh order rfl)
    · intro x hx
      simp only [idents_add, idents_eq_nil.mpr hempty.1, nil_append,
        mem_singleton] at hx
      rw [hx, hident]
      rfl
  | @allocateTarget _ m' _ pkt whenReady order h =>
    rcases allocateTarget_eq_ok h with ⟨hdefer, cmd, -, rfl⟩ | ⟨hjoin, rfl⟩
    · refine ⟨?_, fun hserv => ?_, hsnoop, nofun⟩
      · simp only [idents_add]
        exact (append_nil pop).symm ▸ hl.defer rfl (hfresh order rfl)
      · simp [mustDefer, show m.inService = false from hserv] at hdefer
    · have hnil := deferred_nil_of_joins hidle hjoin
      have hds : m.deferredTargets.idents = [] := idents_eq_nil.mpr hnil
      rw [hds] at hl
      refine ⟨?_, fun _ => hnil, ?_, nofun⟩
      · simp only [idents_add, hds]
        exact (append_nil pop).symm ▸ hl.push rfl (hfresh order rfl)
      · refine hsnoop.imp (fun hno => ?_) id
        intro x hx
        simp only [idents_add, mem_append, mem_singleton] at hx
        rcases hx with hx | rfl
        · exact hno x hx
        · rfl
  | @markInService _ m' _ pkt b h =>
    have hline := markInService_lined hl h
    obtain ⟨hserv, ⟨-, -, rfl⟩ | ⟨-, -, dirty, rfl⟩⟩ := markInService_eq_ok h
    · -- not in service, so no snoop was saved
      refine ⟨by simpa [MshrCall.accepts, MshrCall.order] using hline, hidle, .inl ?_, nofun⟩
      rcases hsnoop with hno | ⟨hin, -⟩
      · exact popTarget_noSnoop hno
      · rw [hserv] at hin
        cases hin
    · refine ⟨by simpa [MshrCall.accepts, MshrCall.order] using hline, nofun, .inl ?_, nofun⟩
      rcases hsnoop with hno | ⟨hin, -⟩
      · exact hno
      · rw [hserv] at hin
        cases hin
  | @handleSnoop _ _ pkt order curTick =>
    refine ⟨?_, handleSnoop_idle hidle, handleSnoop_marked hsnoop, nofun⟩
    exact (handleSnoop_lined hl (hfresh order rfl)).quiet
  | @handleFill _ m' _ pkt h =>
    rcases handleFill_cases h with rfl | ⟨hfill, rfl⟩
    · exact ⟨hl.quiet, hidle, hsnoop, nofun⟩
    · have hno : m.NoSnoop := fill_noSnoop hsnoop hfill
      have hline := (hl.splice hno).quiet
      rw [idents, idents, ← map_append] at hline
      refine ⟨hline, fun _ => rfl, .inl ?_,
        nofun⟩
      intro x hx
      simp only [idents, map_append, mem_append] at hx
      rcases hx with hx | hx
      · exact hno x hx
      · exact hl.source x hx
  | popTarget h =>
    have hline := hl.popFront
    refine ⟨?_, hidle, hsnoop.imp popTarget_noSnoop id, nofun⟩
    simpa [MshrCall.pops, MshrCall.accepts, MshrCall.order, popTarget, idents] using hline
  | @promoteDeferredTargets _ m' _ curTick b h =>
    obtain ⟨hempty, ⟨rfl, hnil, rfl⟩ | ⟨rfl, t, l, hlist, rfl⟩⟩ := promoteDeferredTargets_eq_ok h
    · exact ⟨hl.quiet, hidle, hsnoop, nofun⟩
    · rw [idents_eq_nil.mpr hempty] at hl
      have hline := hl.promote
      rw [show [] = m.targets.resetFlags.idents from (idents_eq_nil.mpr hempty).symm] at hline
      refine ⟨hline.quiet, fun _ => hempty, .inl hl.source,
        fun _ => ⟨hl.source, hempty⟩⟩
  | markPending =>
    obtain ⟨hno, hnil⟩ := hprom rfl
    exact ⟨hl.quiet, fun _ => hnil, .inl hno, nofun⟩
  | deallocate hd h =>
    obtain ⟨hempty, rfl⟩ := deallocate_eq_ok h
    refine ⟨hl.quiet, fun _ => hd, .inl ?_, nofun⟩
    intro x hx
    rw [show (m.targets.resetFlags).idents = [] from idents_eq_nil.mpr hempty] at hx
    cases hx
  | setDownstreamPending h =>
    rw [setDownstreamPending_eq_ok h]
    exact ⟨hl.quiet, hidle, hsnoop, hprom⟩
  | clearDownstreamPending h =>
    rw [clearDownstreamPending_eq_ok h]
    exact ⟨hl.quiet, hidle, hsnoop, hprom⟩
  | setForward => exact ⟨hl.quiet, hidle, hsnoop, hprom⟩

theorem run_orderInv {s : History} {h : List MshrCall} (hr : Exec HistoryStep History.initial h s) : OrderInv s :=
  hr.invariant initial_orderInv fun _ _ _ hi hs => step_orderInv hi hs

/-! ## The result -/

/-- What arrived from above has been popped or waits, once, in the order of arrival; both lists are in order; and no
  snoop is passed by deferred targets. -/
structure TargetsKept (s : History) : Prop where
  conserved : s.accepted = s.popped ++ s.register.mshr.waiting
  once : ∀ x ∈ s.accepted, x ∉ s.popped → s.register.mshr.waiting.count x = 1
  waiting : s.register.mshr.waiting.Pairwise (·.order < ·.order)
  targets : s.register.mshr.targets.list.Pairwise (·.order < ·.order)
  deferred : s.register.mshr.deferredTargets.list.Pairwise (·.order < ·.order)
  fills : ∀ pkt, s.register.mshr.fillsDeferred pkt = true → ∀ t ∈ s.register.mshr.targets.list, t.source ≠ .fromSnoop

theorem pairwise_idents {l : TargetList} (h : l.idents.Pairwise (·.order < ·.order)) :
    l.list.Pairwise (·.order < ·.order) := by
  rw [idents, pairwise_map] at h
  exact h

/-- In every history of calls with increasing order numbers. -/
theorem targets_kept {s : History} {h : List MshrCall} (hr : Exec HistoryStep History.initial h s) :
    TargetsKept s := by
  have hi := run_orderInv hr
  have hcons : s.accepted = s.popped ++ s.register.mshr.waiting := hi.lined.complete
  have hnodup : s.accepted.Nodup := by
    refine hi.lined.increasing.imp ?_
    rintro x y hlt rfl
    exact Nat.lt_irrefl _ hlt
  refine ⟨hcons, ?_, ?_, pairwise_idents hi.lined.targets, pairwise_idents hi.lined.deferred, ?_⟩
  · intro x hx hnot
    rw [hcons] at hx hnodup
    apply count_eq_one_of_mem
    · exact (nodup_append.mp hnodup).2.1
    · exact (mem_append.mp hx).resolve_left hnot
  · have hinc := hi.lined.increasing
    rw [hcons] at hinc
    exact (pairwise_append.mp hinc).2.1
  · intro pkt hfill t ht hsnoop
    have hno := fill_noSnoop hi.snooped hfill t.ident (mem_map_of_mem ht)
    simp [Target.ident, identOf, hsnoop] at hno

/-- A write is deferred behind a read in service and moves up when the response is exclusive. -/
def splicedCalls : List MshrCall :=
  [.allocate 0 64 (blockPacket .readReq false) 0 0, .markInService (some (blockPacket .readReq false)),
    .allocateTarget (blockPacket .writeReq false) 0 1, .handleFill (blockPacket .readResp false)]

theorem targets_kept_spliced : ∃ s, Exec HistoryStep History.initial splicedCalls s ∧ TargetsKept s ∧
      s.register.mshr.targets.list.map (·.order) = [0, 1] := by
  have hfresh : ∀ {c : MshrCall} {k n : Nat}, c.order = some n → k ≤ n → ∀ o, c.order = some o → k ≤ o := by
    intro c k n hn hk o ho
    rw [hn] at ho
    cases ho
    exact hk
  have hr := Exec.snoc (.snoc (.snoc (Exec.one (R := HistoryStep) (s := History.initial)
    (.mk (c := .allocate 0 64 (blockPacket .readReq false) 0 0) (.allocate rfl rfl) (hfresh rfl (by decide))))
    (.mk (c := .markInService (some (blockPacket .readReq false))) (.markInService rfl) nofun))
    (.mk (c := .allocateTarget (blockPacket .writeReq false) 0 1) (.allocateTarget rfl) (hfresh rfl (by decide))))
    (.mk (c := .handleFill (blockPacket .readResp false)) (.handleFill rfl) nofun)
  exact ⟨_, hr, targets_kept hr, by decide⟩

end Gem5.Cache
