import Gem5Nvmain.Cache.Mshr

/- Upgrades in an MSHR.

  An upgrade that waits in an MSHR asks for permission only, not for data. Once a snooped request has taken the block
  away it has to become a request for data; `replaceUpgrades` does that and trusts `hasUpgrade`. `UpgradeInv` says
  that the flag is set whenever a target from above is an upgrade, in every state reached by the calls of the cache
  (`MshrStep`). Between `handleFill` and the last `popTarget` the flag of `targets` may be stale, and nothing reads
  it.

  `replaceUpgrades` rewrites every target of a list. A snoop-sourced target is among them only while the MSHR is in
  service and its request is pending downstream (`RewritesInService`). -/
namespace Gem5.Cache
open Lib Gem5.Mem List TargetList Mshr

/-- Where the cache is in handling one MSHR: nothing going on, between `handleFill` and `promoteDeferredTargets`, or
  right after deferred targets were promoted. -/
inductive Phase where
  | normal
  | filling
  | promoted
  deriving DecidableEq, Repr

structure Register where
  mshr : Mshr
  phase : Phase
  deriving DecidableEq, Repr

inductive MshrCall where
  | allocate (addr size : Nat) (pkt : Packet) (whenReady : Tick) (order : Nat)
  | allocateTarget (pkt : Packet) (whenReady : Tick) (order : Nat)
  | markInService (pkt : Option Packet)
  | handleSnoop (pkt : Packet) (order : Nat) (curTick : Tick)
  | handleFill (pkt : Packet)
  | popTarget
  | promoteDeferredTargets (curTick : Tick)
  | markPending
  | resume
  | deallocate
  | setDownstreamPending
  | clearDownstreamPending
  | setForward (isForward : Bool)

/-- The calls the cache makes on one MSHR, in the orders it makes them. After `promoteDeferredTargets` the MSHR is
  marked pending by `recvTimingResp`, and left in service by `forceDeallocateTarget` (`resume`). -/
inductive MshrStep : Register → MshrCall → Register → Prop where
  | allocate {m m' : Mshr} {addr size : Nat} {pkt : Packet} {whenReady : Tick} {order : Nat}
      (hfree : m.getNumTargets = 0) (h : m.allocate addr size pkt whenReady order = .ok m') :
      MshrStep ⟨m, .normal⟩ (.allocate addr size pkt whenReady order) ⟨m', .normal⟩
  | allocateTarget {m m' : Mshr} {pkt : Packet} {whenReady : Tick} {order : Nat}
      (h : m.allocateTarget pkt whenReady order = .ok m') :
      MshrStep ⟨m, .normal⟩ (.allocateTarget pkt whenReady order) ⟨m', .normal⟩
  | markInService {m m' : Mshr} {pkt : Option Packet} {b : Bool}
      (h : m.markInService pkt = .ok (m', b)) :
      MshrStep ⟨m, .normal⟩ (.markInService pkt) ⟨m', .normal⟩
  | handleSnoop {m : Mshr} {pkt : Packet} {order : Nat} {curTick : Tick} :
      MshrStep ⟨m, .normal⟩ (.handleSnoop pkt order curTick)
        ⟨(m.handleSnoop pkt order curTick).1, .normal⟩
  | handleFill {m m' : Mshr} {pkt : Packet} (h : m.handleFill pkt = .ok m') :
      MshrStep ⟨m, .normal⟩ (.handleFill pkt) ⟨m', .filling⟩
  | popTarget {m : Mshr} {phase : Phase} (h : phase ≠ .promoted) :
      MshrStep ⟨m, phase⟩ .popTarget ⟨m.popTarget, phase⟩
  | promoteDeferredTargets {m m' : Mshr} {phase : Phase} {curTick : Tick} {b : Bool}
      (hp : phase ≠ .promoted) (h : m.promoteDeferredTargets curTick = .ok (m', b)) :
      MshrStep ⟨m, phase⟩ (.promoteDeferredTargets curTick) ⟨m', if b then .promoted else .normal⟩
  | markPending {m : Mshr} :
      MshrStep ⟨m, .promoted⟩ .markPending ⟨{ m with inService := false }, .normal⟩
  | resume {m : Mshr} : MshrStep ⟨m, .promoted⟩ .resume ⟨m, .normal⟩
  | deallocate {m m' : Mshr} (hd : m.deferredTargets.list = []) (h : m.deallocate = .ok m') :
      MshrStep ⟨m, .normal⟩ .deallocate ⟨m', .normal⟩
  | setDownstreamPending {m m' : Mshr} {phase : Phase} (h : m.setDownstreamPending = .ok m') :
      MshrStep ⟨m, phase⟩ .setDownstreamPending ⟨m', phase⟩
  | clearDownstreamPending {m m' : Mshr} {phase : Phase} (h : m.clearDownstreamPending = .ok m') :
      MshrStep ⟨m, phase⟩ .clearDownstreamPending ⟨m', phase⟩
  | setForward {m : Mshr} {b : Bool} :
      MshrStep ⟨m, .normal⟩ (.setForward b) ⟨{ m with isForward := b }, .normal⟩

/-- An MSHR as its constructor leaves it. -/
def Register.initial : Register := ⟨{}, .normal⟩

/-- UpgradeReq, SCUpgradeReq or StoreCondReq. -/
def IsUpgradeCmd (c : MemCmd) : Prop := c = .upgradeReq ∨ c = .scUpgradeReq ∨ c = .storeCondReq

instance (c : MemCmd) : Decidable (IsUpgradeCmd c) := inferInstanceAs (Decidable (_ ∨ _))

namespace TargetList
variable {l : TargetList}

/-- `hasUpgrade` is set if a target from above is an upgrade. -/
def FlagsUpgrades (l : TargetList) : Prop :=
  ∀ t ∈ l.list, t.source ≠ .fromSnoop → IsUpgradeCmd t.pkt.cmd → l.hasUpgrade = true

/-- No target from above is an upgrade. -/
def NoUpgrade (l : TargetList) : Prop :=
  ∀ t ∈ l.list, t.source ≠ .fromSnoop → ¬IsUpgradeCmd t.pkt.cmd

def NoSnoop (l : TargetList) : Prop := ∀ t ∈ l.list, t.source ≠ .fromSnoop

def snoopTargets (l : TargetList) : List Target := l.list.filter (·.source == .fromSnoop)

/-! ## The operations of a target list -/

theorem flagsUpgrades_of_nil (h : l.list = []) : l.FlagsUpgrades := by
  intro t ht
  rw [h] at ht
  cases ht

theorem noSnoop_of_nil (h : l.list = []) : l.NoSnoop := by
  intro t ht
  rw [h] at ht
  cases ht

theorem NoUpgrade.flagsUpgrades (h : l.NoUpgrade) : l.FlagsUpgrades :=
  fun t ht hs hu => absurd hu (h t ht hs)

theorem isUpgradeCmd_flag {c : MemCmd} (h : IsUpgradeCmd c) :
    (c.testCmdAttrib .isUpgrade || c == .storeCondReq) = true := by
  rcases h with rfl | rfl | rfl <;> decide

variable {pkt : Packet} {time : Tick} {order : Nat} {source : Source} {mark : Bool}

theorem FlagsUpgrades.add (h : l.FlagsUpgrades) : (l.add pkt time order source mark).FlagsUpgrades := by
  intro t ht hs hu
  simp only [TargetList.add, mem_append, mem_singleton] at ht ⊢
  rcases ht with hold | rfl
  · rw [h t hold hs hu, Bool.true_or]
  · simp only [Packet.isUpgrade, isUpgradeCmd_flag hu, Bool.and_true, Bool.or_eq_true, decide_eq_true_eq]
    exact .inr hs

theorem NoSnoop.add (h : l.NoSnoop) (hs : source ≠ .fromSnoop) : (l.add pkt time order source mark).NoSnoop := by
  intro t ht
  simp only [TargetList.add, mem_append, mem_singleton] at ht
  rcases ht with hold | rfl
  · exact h t hold
  · exact hs

theorem replaceUpgrade_not_upgrade (c : MemCmd) : ¬IsUpgradeCmd (replaceUpgrade c) := by
  cases c <;> decide

theorem FlagsUpgrades.replaceUpgrades (h : l.FlagsUpgrades) : l.replaceUpgrades.NoUpgrade := by
  intro t ht hs
  unfold TargetList.replaceUpgrades at ht
  split at ht
  · obtain ⟨t₀, -, rfl⟩ := mem_map.mp ht
    exact replaceUpgrade_not_upgrade _
  · -- the flag is clear, so there was nothing to replace
    rename_i hflag
    exact fun hu => hflag (h t ht hs hu)

theorem NoSnoop.replaceUpgrades (h : l.NoSnoop) : l.replaceUpgrades.NoSnoop := by
  intro t ht
  unfold TargetList.replaceUpgrades at ht
  split at ht
  · obtain ⟨t₀, ht₀, rfl⟩ := mem_map.mp ht
    exact h t₀ ht₀
  · exact h t ht

theorem snoopTargets_of_noSnoop (h : l.NoSnoop) : l.snoopTargets = [] := by
  refine filter_eq_nil_iff.mpr fun t ht => ?_
  have := h t ht
  simpa using this

theorem snoopTargets_add : l.snoopTargets <+: (l.add pkt time order source mark).snoopTargets := by
  rw [snoopTargets, snoopTargets, add, filter_append]
  exact prefix_append _ _

end TargetList

/-! ## The invariant -/

structure UpgradeInv (r : Register) : Prop where
  deferred : r.mshr.deferredTargets.FlagsUpgrades
  deferredSource : r.mshr.deferredTargets.NoSnoop
  targets : r.phase ≠ .filling → r.mshr.targets.FlagsUpgrades
  waiting : r.mshr.inService = false → r.mshr.targets.NoSnoop
  promoted : r.phase = .promoted → r.mshr.targets.NoSnoop

theorem initial_upgradeInv : UpgradeInv Register.initial :=
  ⟨flagsUpgrades_of_nil rfl, noSnoop_of_nil rfl,
    fun _ => flagsUpgrades_of_nil rfl, fun _ => noSnoop_of_nil rfl,
    nofun⟩

variable {m : Mshr}

theorem UpgradeInv.popTarget {phase : Phase} (hi : UpgradeInv ⟨m, phase⟩) : UpgradeInv ⟨m.popTarget, phase⟩ := by
  have hsub : ∀ t ∈ m.popTarget.targets.list, t ∈ m.targets.list := fun t ht => mem_of_mem_tail ht
  exact ⟨hi.deferred, hi.deferredSource, fun hp t ht => hi.targets hp t (hsub t ht),
    fun hs t ht => hi.waiting hs t (hsub t ht), fun hp t ht => hi.promoted hp t (hsub t ht)⟩

variable {pkt : Packet} {order : Nat} {curTick : Tick}

theorem UpgradeInv.handleSnoop
    (hi : UpgradeInv ⟨m, .normal⟩) : UpgradeInv ⟨(m.handleSnoop pkt order curTick).1, .normal⟩ := by
  have htargets := hi.targets nofun
  rcases m.handleSnoop_cases pkt order curTick with ⟨-, -, heq⟩ | ⟨hserv, -, l, pi, pd, hl, heq⟩
  · rw [heq]
    split
    · exact ⟨hi.deferred.replaceUpgrades.flagsUpgrades, hi.deferredSource.replaceUpgrades,
        fun _ => htargets.replaceUpgrades.flagsUpgrades, fun hs => (hi.waiting hs).replaceUpgrades,
        nofun⟩
    · exact hi
  · rw [heq]
    refine ⟨?_, ?_, fun _ => ?_, fun hs => ?_, nofun⟩
    · simp only
      split
      · exact hi.deferred.replaceUpgrades.flagsUpgrades
      · exact hi.deferred
    · simp only
      split
      · exact hi.deferredSource.replaceUpgrades
      · exact hi.deferredSource
    · rcases hl with rfl | ⟨mark, rfl⟩
      · exact htargets
      · exact htargets.add
    · rw [show m.inService = false from hs] at hserv
      cases hserv

variable {r r' : Register} {c : MshrCall}

theorem step_upgradeInv (hi : UpgradeInv r) (hs : MshrStep r c r') : UpgradeInv r' := by
  cases hs with
  | @allocate m m' addr size pkt whenReady order hfree h =>
    obtain ⟨source, hsource, rfl⟩ := allocate_eq_ok h
    have hnil : m.targets.list = [] := by
      unfold getNumTargets at hfree
      exact eq_nil_of_length_eq_zero (by omega)
    exact ⟨hi.deferred, hi.deferredSource, fun _ => (flagsUpgrades_of_nil hnil).add,
      fun _ => (noSnoop_of_nil hnil).add hsource, nofun⟩
  | allocateTarget h =>
    rcases allocateTarget_eq_ok h with ⟨-, cmd, -, rfl⟩ | ⟨-, rfl⟩
    · exact ⟨hi.deferred.add, hi.deferredSource.add (by decide), hi.targets, hi.waiting,
        nofun⟩
    · exact ⟨hi.deferred, hi.deferredSource, fun hp => (hi.targets hp).add,
        fun hs => (hi.waiting hs).add (by decide), nofun⟩
  | markInService h =>
    obtain ⟨-, ⟨-, -, rfl⟩ | ⟨-, -, dirty, rfl⟩⟩ := markInService_eq_ok h
    · exact hi.popTarget
    · exact ⟨hi.deferred, hi.deferredSource, hi.targets, nofun, nofun⟩
  | handleSnoop => exact hi.handleSnoop
  | handleFill h =>
    rcases handleFill_eq_ok h with rfl | ⟨hserv, rfl⟩
    · exact ⟨hi.deferred, hi.deferredSource, absurd rfl, hi.waiting, nofun⟩
    · -- the deferred targets move up; their flag does not
      refine ⟨flagsUpgrades_of_nil rfl, noSnoop_of_nil rfl,
        absurd rfl, fun hs => ?_, nofun⟩
      rw [show _ = false from hs] at hserv
      cases hserv
  | popTarget _ => exact hi.popTarget
  | promoteDeferredTargets _ h =>
    obtain ⟨hnil, ⟨rfl, -, rfl⟩ | ⟨rfl, t, l, -, rfl⟩⟩ := promoteDeferredTargets_eq_ok h
    · exact ⟨hi.deferred, hi.deferredSource, fun _ => flagsUpgrades_of_nil hnil,
        fun _ => noSnoop_of_nil hnil, nofun⟩
    · exact ⟨flagsUpgrades_of_nil hnil, noSnoop_of_nil hnil, fun _ => hi.deferred,
        fun _ => hi.deferredSource, fun _ => hi.deferredSource⟩
  | markPending =>
    exact ⟨hi.deferred, hi.deferredSource, fun _ => hi.targets nofun,
      fun _ => hi.promoted rfl, nofun⟩
  | resume =>
    exact ⟨hi.deferred, hi.deferredSource, fun _ => hi.targets nofun, hi.waiting,
      nofun⟩
  | deallocate hd h =>
    obtain ⟨hnil, rfl⟩ := deallocate_eq_ok h
    exact ⟨hi.deferred, hi.deferredSource, fun _ => flagsUpgrades_of_nil hnil,
      fun _ => noSnoop_of_nil hnil, nofun⟩
  | setDownstreamPending h =>
    rw [setDownstreamPending_eq_ok h]
    exact ⟨hi.deferred, hi.deferredSource, hi.targets, hi.waiting, hi.promoted⟩
  | clearDownstreamPending h =>
    rw [clearDownstreamPending_eq_ok h]
    exact ⟨hi.deferred, hi.deferredSource, hi.targets, hi.waiting, hi.promoted⟩
  | setForward => exact ⟨hi.deferred, hi.deferredSource, hi.targets, hi.waiting, hi.promoted⟩

theorem run_upgradeInv {h : List MshrCall} (hr : Exec MshrStep Register.initial h r) : UpgradeInv r :=
  hr.invariant initial_upgradeInv fun _ _ _ hi hs => step_upgradeInv hi hs

/-! ## Upgrade safety -/

theorem handleSnoop_noUpgrade (hi : UpgradeInv ⟨m, .normal⟩) (hex : pkt.needsExclusive = true) :
    ((m.handleSnoop pkt order curTick).2.2 = false →
      (m.handleSnoop pkt order curTick).1.targets.NoUpgrade) ∧
    (m.handleSnoop pkt order curTick).1.deferredTargets.NoUpgrade := by
  rcases m.handleSnoop_cases pkt order curTick with ⟨-, -, heq⟩ | ⟨-, htrue, l, pi, pd, -, heq⟩
  · rw [heq, if_pos hex]
    exact ⟨fun _ => (hi.targets nofun).replaceUpgrades, hi.deferred.replaceUpgrades⟩
  · rw [heq, htrue, if_pos hex]
    exact ⟨nofun, hi.deferred.replaceUpgrades⟩

theorem mem_replaceUpgrades {l : TargetList} {t : Target} (ht : t ∈ l.replaceUpgrades.list)
    (hu : IsUpgradeCmd t.pkt.cmd) : t ∈ l.list := by
  unfold replaceUpgrades at ht
  split at ht
  · obtain ⟨t₀, -, rfl⟩ := mem_map.mp ht
    exact absurd hu (replaceUpgrade_not_upgrade _)
  · exact ht

/-- With `postInvalidate` set no call adds an upgrade to `deferredTargets`. -/
theorem deferred_adds_no_upgrade (hs : MshrStep r c r')
    (hserv : r.mshr.inService = true) (hpost : r.mshr.postInvalidate = true) :
    ∀ t ∈ r'.mshr.deferredTargets.list, IsUpgradeCmd t.pkt.cmd → t ∈ r.mshr.deferredTargets.list := by
  intro t ht hu
  cases hs with
  | allocate _ h =>
    obtain ⟨source, -, rfl⟩ := allocate_eq_ok h
    exact ht
  | allocateTarget h =>
    rcases allocateTarget_eq_ok h with ⟨-, cmd, hcmd, rfl⟩ | ⟨-, rfl⟩
    · simp only [add, mem_append, mem_singleton] at ht
      rcases ht with ht | rfl
      · exact ht
      · -- the new target was rewritten before it was added
        rw [hcmd hpost] at hu
        exact absurd hu (replaceUpgrade_not_upgrade _)
    · exact ht
  | markInService h =>
    have hnot := (markInService_eq_ok h).1
    rw [show _ = true from hserv] at hnot
    cases hnot
  | @handleSnoop m pkt order curTick =>
    rcases m.handleSnoop_cases pkt order curTick with ⟨-, -, heq⟩ | ⟨-, -, l, pi, pd, -, heq⟩
    · rw [heq] at ht
      split at ht
      · exact mem_replaceUpgrades ht hu
      · exact ht
    · simp only [heq] at ht
      split at ht
      · exact mem_replaceUpgrades ht hu
      · exact ht
  | handleFill h =>
    rcases handleFill_eq_ok h with rfl | ⟨-, rfl⟩
    · exact ht
    · cases ht
  | popTarget _ => exact ht
  | promoteDeferredTargets _ h =>
    obtain ⟨hnil, ⟨-, -, rfl⟩ | ⟨-, _, _, -, rfl⟩⟩ := promoteDeferredTargets_eq_ok h
    · exact ht
    · simp only [resetFlags, hnil] at ht
      cases ht
  | markPending => exact ht
  | resume => exact ht
  | deallocate _ h =>
    obtain ⟨-, rfl⟩ := deallocate_eq_ok h
    exact ht
  | setDownstreamPending h =>
    rw [setDownstreamPending_eq_ok h] at ht
    exact ht
  | clearDownstreamPending h =>
    rw [clearDownstreamPending_eq_ok h] at ht
    exact ht
  | setForward => exact ht

/-- `handleSnoop` rewrites the targets of an MSHR that is in service. -/
def RewritesInService (m : Mshr) (pkt : Packet) : Prop :=
  m.inService = true ∧ pkt.isExpressSnoop = true ∧ m.downstreamPending = true ∧
  pkt.needsExclusive = true ∧ m.targets.hasUpgrade = true

theorem handleSnoop_keeps_snoopTargets (hi : UpgradeInv ⟨m, .normal⟩) (hnot : ¬RewritesInService m pkt) :
    m.targets.snoopTargets <+: (m.handleSnoop pkt order curTick).1.targets.snoopTargets := by
  rcases m.handleSnoop_cases pkt order curTick with ⟨hpre, -, heq⟩ | ⟨-, -, l, pi, pd, hl, heq⟩
  · rw [heq]
    split
    · rename_i hex
      cases hserv : m.inService with
      | false =>
        rw [snoopTargets_of_noSnoop (hi.waiting hserv)]
        exact nil_prefix
      | true =>
        -- in service, so the snoop is express and the request pending downstream
        have hflag : ¬m.targets.hasUpgrade = true := by
          intro hflag
          simp only [snoopPrecedes, hserv, Bool.not_true, Bool.false_or, Bool.and_eq_true] at hpre
          exact hnot ⟨hserv, hpre.1, hpre.2, hex, hflag⟩
        simp [replaceUpgrades, hflag]
    · exact prefix_refl _
  · rw [heq]
    rcases hl with rfl | ⟨mark, rfl⟩
    · exact prefix_refl _
    · exact snoopTargets_add

theorem allocateTarget_keeps_snoopTargets {m' : Mshr} {whenReady : Tick}
    (h : m.allocateTarget pkt whenReady order = .ok m') : m.targets.snoopTargets <+: m'.targets.snoopTargets := by
  rcases allocateTarget_eq_ok h with ⟨-, cmd, -, rfl⟩ | ⟨-, rfl⟩
  · exact prefix_refl _
  · exact snoopTargets_add

/-- In every state the cache can reach: an exclusive snoop leaves no upgrade that still counts on the block; with
  `postInvalidate` set none is deferred; and the calls that rewrite commands keep those of snoop-sourced targets,
  except when an express snoop rewrites an MSHR in service. -/
theorem upgrades_are_replaced {r : Register} {h : List MshrCall} (hr : Exec MshrStep Register.initial h r) :
    (∀ pkt order curTick, r.phase = .normal → pkt.needsExclusive = true →
      ((r.mshr.handleSnoop pkt order curTick).2.2 = false →
        (r.mshr.handleSnoop pkt order curTick).1.targets.NoUpgrade) ∧
      (r.mshr.handleSnoop pkt order curTick).1.deferredTargets.NoUpgrade) ∧
    (∀ c r', MshrStep r c r' → r.mshr.inService = true → r.mshr.postInvalidate = true →
      ∀ t ∈ r'.mshr.deferredTargets.list, IsUpgradeCmd t.pkt.cmd → t ∈ r.mshr.deferredTargets.list) ∧
    r.mshr.deferredTargets.NoSnoop ∧
    (∀ pkt order curTick, r.phase = .normal → ¬RewritesInService r.mshr pkt →
      r.mshr.targets.snoopTargets <+: (r.mshr.handleSnoop pkt order curTick).1.targets.snoopTargets) ∧
    (∀ pkt whenReady order m', r.mshr.allocateTarget pkt whenReady order = .ok m' →
      r.mshr.targets.snoopTargets <+: m'.targets.snoopTargets) := by
  have hi := run_upgradeInv hr
  obtain ⟨m, phase⟩ := r
  refine ⟨?_, fun c r' hs hserv hpost => deferred_adds_no_upgrade hs hserv hpost, hi.deferredSource,
    ?_, fun pkt whenReady order m' h => allocateTarget_keeps_snoopTargets h⟩
  · rintro pkt order curTick rfl hex
    exact handleSnoop_noUpgrade hi hex
  · rintro pkt order curTick rfl hnot
    exact handleSnoop_keeps_snoopTargets hi hnot

/-- A request for the block at 0. -/
def blockPacket (cmd : MemCmd) (express : Bool) : Packet :=
  { cmd := cmd
    req := { paddr := 0, size := 64, masterId := 0 }
    addr := 0
    size := 64
    isExpressSnoop := express }

/-- A StoreCondReq that was not sent yet fails once the block is snooped away. -/
theorem upgrades_are_replaced_storeCond : ∃ r, Exec MshrStep Register.initial
        [.allocate 0 64 (blockPacket .storeCondReq false) 0 0] r ∧
      r.mshr.targets.list.map (·.pkt.cmd) = [.storeCondReq] ∧
      (r.mshr.handleSnoop (blockPacket .readExReq false) 1 0).1.targets.NoUpgrade := by
  refine ⟨_, .one (.allocate rfl rfl), by decide, ?_⟩
  have hrun := (upgrades_are_replaced (h := [.allocate 0 64 (blockPacket .storeCondReq false) 0 0])
    (.one (.allocate rfl rfl))).1
  exact (hrun (blockPacket .readExReq false) 1 0 rfl (by decide)).1 (by decide)

/-- An upgrade of another cache is snooped and saved while a StoreCondReq is in service; an express ReadExReq from
  below then turns the saved snoop into a ReadExReq. -/
theorem snoop_target_is_rewritten : ∃ r, Exec MshrStep Register.initial
        [.allocate 0 64 (blockPacket .storeCondReq false) 0 0, .setDownstreamPending,
          .markInService (some (blockPacket .scUpgradeReq false)),
          .handleSnoop (blockPacket .upgradeReq false) 1 0] r ∧
      r.phase = .normal ∧
      r.mshr.targets.snoopTargets.map (·.pkt.cmd) = [.upgradeReq] ∧
      (r.mshr.handleSnoop (blockPacket .readExReq true) 2 0).1.targets.snoopTargets.map (·.pkt.cmd) =
        [.readExReq] := by
  refine ⟨_, .snoc (.snoc (.snoc (.one (.allocate rfl rfl)) (.setDownstreamPending rfl))
    (.markInService rfl)) .handleSnoop, rfl, by decide, by decide⟩

end Gem5.Cache
