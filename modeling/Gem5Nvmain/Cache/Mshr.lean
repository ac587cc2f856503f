import Gem5Nvmain.Mem.Packet

/- Miss status holding registers (mem/cache/mshr.hh, mem/cache/mshr.cc).

  An MSHR holds the targets that wait for one block, and the targets that are deferred until its next request.
  `hasUpgrade` of a target list says whether `replaceUpgrades` has to look through it.

  `add` and `clearDownstreamPending` also set and clear `downstreamPending` in the MSHR of an upper-level cache, found
  through the packet's sender state. Those are other MSHRs; what a lower-level cache does to this one in the same way
  is `setDownstreamPending` and `clearDownstreamPending`.

  Correspondence (C++ ↔ Lean):
    `MSHR::TargetList` ↔ `TargetList` (a list and its two flags)
    `isPendingDirty()` and the like ↔ the fields, read where `inService` holds
  `recvTime` (statistics), `data` (never used) and `threadNum` are left out. -/
namespace Gem5.Cache
open Lib Gem5.Mem

abbrev Tick := Nat

/-- `MSHR::Target::Source`. -/
inductive Source where
  | fromCPU
  | fromSnoop
  | fromPrefetcher
  deriving DecidableEq, Repr

structure Target where
  readyTime : Tick
  order : Nat
  pkt : Packet
  source : Source
  markedPending : Bool
  deriving DecidableEq, Repr

structure TargetList where
  list : List Target := []
  needsExclusive : Bool := false
  hasUpgrade : Bool := false
  deriving DecidableEq, Repr

namespace TargetList

def resetFlags (l : TargetList) : TargetList := { l with needsExclusive := false, hasUpgrade := false }

def isReset (l : TargetList) : Bool := !l.needsExclusive && !l.hasUpgrade

/-- StoreCondReq counts as an upgrade. -/
def add (l : TargetList) (pkt : Packet) (readyTime : Tick) (order : Nat) (source : Source)
    (markPending : Bool) : TargetList :=
  let fromAbove := decide (source ≠ .fromSnoop)
  { list := l.list ++ [⟨readyTime, order, pkt, source, markPending⟩]
    needsExclusive := l.needsExclusive || (fromAbove && pkt.needsExclusive)
    hasUpgrade := l.hasUpgrade || (fromAbove && (pkt.isUpgrade || pkt.cmd == .storeCondReq)) }

end TargetList

/-- The command `replaceUpgrade` leaves in a packet. -/
def replaceUpgrade : MemCmd → MemCmd
  | .upgradeReq => .readExReq
  | .scUpgradeReq => .scUpgradeFailReq
  | .storeCondReq => .storeCondFailReq
  | cmd => cmd

def Target.replaceUpgrade (t : Target) : Target :=
  { t with pkt := { t.pkt with cmd := Gem5.Cache.replaceUpgrade t.pkt.cmd } }

/-- Every target of the list is rewritten, whatever its source. -/
def TargetList.replaceUpgrades (l : TargetList) : TargetList :=
  if l.hasUpgrade then { l with list := l.list.map Target.replaceUpgrade, hasUpgrade := false } else l

structure Mshr where
  readyTime : Tick := 0
  isUncacheable : Bool := false
  downstreamPending : Bool := false
  pendingDirty : Bool := false
  postInvalidate : Bool := false
  postDowngrade : Bool := false
  order : Nat := 0
  addr : Nat := 0
  size : Nat := 0
  isSecure : Bool := false
  inService : Bool := false
  isForward : Bool := false
  targets : TargetList := {}
  deferredTargets : TargetList := {}
  deriving DecidableEq, Repr

namespace Mshr

def needsExclusive (m : Mshr) : Bool := m.targets.needsExclusive

def getNumTargets (m : Mshr) : Nat := m.targets.list.length + m.deferredTargets.list.length

def hasTargets (m : Mshr) : Bool := !m.targets.list.isEmpty

def getTarget (m : Mshr) : Except Stop Target := index m.targets.list 0

def popTarget (m : Mshr) : Mshr := { m with targets := { m.targets with list := m.targets.list.tail } }

def allocate (m : Mshr) (addr size : Nat) (target : Packet) (whenReady : Tick) (order : Nat) :
    Except Stop Mshr := do
  require m.targets.isReset
  let source := if target.cmd == .hardPFReq then Source.fromPrefetcher else .fromCPU
  let targets := m.targets.add target whenReady order source true
  require m.deferredTargets.isReset
  pure { m with
    addr := addr
    size := size
    isSecure := target.isSecure
    readyTime := whenReady
    order := order
    isForward := false
    isUncacheable := target.req.isUncacheable
    inService := false
    downstreamPending := false
    targets := targets }

/-- A lower-level cache buffers this MSHR's request. -/
def setDownstreamPending (m : Mshr) : Except Stop Mshr := do
  require (!m.downstreamPending)
  pure { m with downstreamPending := true }

def clearDownstreamPending (m : Mshr) : Except Stop Mshr := do
  require m.downstreamPending
  pure { m with downstreamPending := false }

def isForwardNoResponse (m : Mshr) : Bool :=
  if m.getNumTargets != 1 then false
  else match m.targets.list with
    | t :: _ => t.source == .fromCPU && !t.pkt.needsResponse
    | [] => false

/-- `markInService`: with `true`, the request was forwarded and no response is expected. `pkt` is absent where a
  writeback is dropped. -/
def markInService (m : Mshr) (pkt : Option Packet) : Except Stop (Mshr × Bool) := do
  require (!m.inService)
  if m.isForwardNoResponse then
    require (m.getNumTargets == 1)
    pure (m.popTarget, true)
  else
    match pkt with
    | none => .error .assertFailed
    | some pkt =>
      pure ({ m with
        inService := true
        pendingDirty := m.targets.needsExclusive || (!pkt.sharedAsserted && pkt.memInhibitAsserted)
        postInvalidate := false
        postDowngrade := false }, false)

def deallocate (m : Mshr) : Except Stop Mshr := do
  require m.targets.list.isEmpty
  require m.deferredTargets.isReset
  pure { m with targets := m.targets.resetFlags, inService := false }

/-- A new target has to wait for the request after the one in service. -/
def mustDefer (m : Mshr) (pkt : Packet) : Bool :=
  m.inService &&
    (!m.deferredTargets.list.isEmpty || m.postInvalidate ||
      (pkt.needsExclusive && (!m.pendingDirty || m.postDowngrade || m.isForward)))

def allocateTarget (m : Mshr) (pkt : Packet) (whenReady : Tick) (order : Nat) : Except Stop Mshr := do
  require (pkt.cmd != .hardPFReq)
  if m.mustDefer pkt then
    let cmd := if m.postInvalidate then replaceUpgrade pkt.cmd else pkt.cmd
    pure { m with
      deferredTargets := m.deferredTargets.add { pkt with cmd := cmd } whenReady order .fromCPU true }
  else
    pure { m with targets := m.targets.add pkt whenReady order .fromCPU (!m.inService) }

/-- The snooped packet comes before this MSHR's request. -/
def snoopPrecedes (m : Mshr) (pkt : Packet) : Bool :=
  !m.inService || (pkt.isExpressSnoop && m.downstreamPending)

/-- A copy of the snooped packet is kept and replayed after the response. -/
def savesSnoop (m : Mshr) (pkt : Packet) : Bool := m.pendingDirty || pkt.isInvalidate

/-- `handleSnoop`: the MSHR and the packet afterwards, and whether the MSHR took care of the snoop. -/
def handleSnoop (m : Mshr) (pkt : Packet) (order : Nat) (curTick : Tick) : Mshr × Packet × Bool :=
  if m.snoopPrecedes pkt then
    if pkt.needsExclusive then
      ({ m with
        targets := m.targets.replaceUpgrades
        deferredTargets := m.deferredTargets.replaceUpgrades }, pkt, false)
    else (m, pkt, false)
  else
    let deferred := if pkt.needsExclusive then m.deferredTargets.replaceUpgrades else m.deferredTargets
    if m.postInvalidate then ({ m with deferredTargets := deferred }, pkt, true)
    else
      let saves := m.savesSnoop pkt
      let owns := saves && m.pendingDirty
      ({ m with
        targets :=
          if saves then m.targets.add pkt.copyClearFlags curTick order .fromSnoop
            (m.downstreamPending && m.targets.needsExclusive)
          else m.targets
        deferredTargets := deferred
        postInvalidate := saves && pkt.needsExclusive
        postDowngrade := m.postDowngrade || !pkt.needsExclusive },
       { pkt with
        memInhibitAsserted := pkt.memInhibitAsserted || owns
        isSupplyExclusive := pkt.isSupplyExclusive || owns
        sharedAsserted := pkt.sharedAsserted || !pkt.needsExclusive }, true)

def promoteDeferredTargets (m : Mshr) (curTick : Tick) : Except Stop (Mshr × Bool) := do
  require m.targets.list.isEmpty
  match m.deferredTargets.list with
  | [] => pure (m, false)
  | t :: _ =>
    pure ({ m with
      targets := m.deferredTargets
      deferredTargets := m.targets.resetFlags
      order := t.order
      readyTime := max curTick t.readyTime }, true)

/-- The deferred targets wait for an exclusive copy and the response brings one. -/
def fillsDeferred (m : Mshr) (pkt : Packet) : Bool :=
  !pkt.sharedAsserted && !(m.postInvalidate || m.postDowngrade) && m.deferredTargets.needsExclusive

def handleFill (m : Mshr) (pkt : Packet) : Except Stop Mshr := do
  require (pkt.sharedAsserted || m.inService)
  if m.fillsDeferred pkt then
    require (!m.targets.needsExclusive)
    require (!m.downstreamPending)
    pure { m with
      targets :=
        { m.targets with list := m.targets.list ++ m.deferredTargets.list, needsExclusive := true }
      deferredTargets := {} }
  else pure m

/-! ## What each operation does -/

variable {m m' : Mshr} {pkt : Packet} {curTick whenReady : Tick} {addr size order : Nat}

theorem allocate_eq_ok (h : m.allocate addr size pkt whenReady order = .ok m') :
    ∃ source, source ≠ .fromSnoop ∧ m' = { m with
      addr := addr
      size := size
      isSecure := pkt.isSecure
      readyTime := whenReady
      order := order
      isForward := false
      isUncacheable := pkt.req.isUncacheable
      inService := false
      downstreamPending := false
      targets := m.targets.add pkt whenReady order source true } := by
  obtain ⟨_, _, h⟩ := of_bind h
  obtain ⟨_, _, h⟩ := of_bind h
  cases h
  refine ⟨_, ?_, rfl⟩
  split <;> decide

theorem allocateTarget_eq_ok (h : m.allocateTarget pkt whenReady order = .ok m') :
    (m.mustDefer pkt = true ∧ ∃ cmd, (m.postInvalidate = true → cmd = replaceUpgrade pkt.cmd) ∧
      m' = { m with deferredTargets :=
        m.deferredTargets.add { pkt with cmd := cmd } whenReady order .fromCPU true }) ∨
    (m.mustDefer pkt = false ∧
      m' = { m with targets := m.targets.add pkt whenReady order .fromCPU (!m.inService) }) := by
  obtain ⟨_, _, h⟩ := of_bind h
  split at h
  · rename_i hd
    cases h
    exact .inl ⟨hd, _, fun hp => if_pos hp, rfl⟩
  · rename_i hd
    cases h
    exact .inr ⟨by simpa using hd, rfl⟩

theorem markInService_eq_ok {p : Option Packet} {b : Bool} (h : m.markInService p = .ok (m', b)) :
    m.inService = false ∧ ((b = true ∧ m.isForwardNoResponse = true ∧ m' = m.popTarget) ∨
     (b = false ∧ m.isForwardNoResponse = false ∧ ∃ dirty, m' = { m with
        inService := true
        pendingDirty := dirty
        postInvalidate := false
        postDowngrade := false })) := by
  obtain ⟨_, hnot, h⟩ := of_bind h
  refine ⟨by simpa using hnot, ?_⟩
  split at h
  · rename_i hf
    obtain ⟨_, _, h⟩ := of_bind h
    cases h
    exact .inl ⟨rfl, hf, rfl⟩
  · rename_i hf
    split at h
    · cases h
    · cases h
      exact .inr ⟨rfl, by simpa using hf, _, rfl⟩

theorem deallocate_eq_ok (h : m.deallocate = .ok m') :
    m.targets.list = [] ∧ m' = { m with targets := m.targets.resetFlags, inService := false } := by
  obtain ⟨_, hempty, h⟩ := of_bind h
  obtain ⟨_, _, h⟩ := of_bind h
  cases h
  exact ⟨by simpa using hempty, rfl⟩

theorem promoteDeferredTargets_eq_ok {b : Bool} (h : m.promoteDeferredTargets curTick = .ok (m', b)) :
    m.targets.list = [] ∧ ((b = false ∧ m.deferredTargets.list = [] ∧ m' = m) ∨
     (b = true ∧ ∃ t l, m.deferredTargets.list = t :: l ∧ m' = { m with
        targets := m.deferredTargets
        deferredTargets := m.targets.resetFlags
        order := t.order
        readyTime := max curTick t.readyTime })) := by
  obtain ⟨_, hempty, h⟩ := of_bind h
  refine ⟨by simpa using hempty, ?_⟩
  split at h
  · rename_i hd
    cases h
    exact .inl ⟨rfl, hd, rfl⟩
  · rename_i t l hd
    cases h
    exact .inr ⟨rfl, t, l, hd, rfl⟩

theorem handleFill_eq_ok (h : m.handleFill pkt = .ok m') : m' = m ∨ (m.inService = true ∧ m' = { m with
      targets :=
        { m.targets with list := m.targets.list ++ m.deferredTargets.list, needsExclusive := true }
      deferredTargets := {} }) := by
  obtain ⟨_, hserv, h⟩ := of_bind h
  split at h
  · rename_i hfill
    obtain ⟨_, _, h⟩ := of_bind h
    obtain ⟨_, _, h⟩ := of_bind h
    cases h
    simp only [fillsDeferred, Bool.and_eq_true, Bool.not_eq_true'] at hfill
    simp only [require_eq_ok, hfill.1.1] at hserv
    exact .inr ⟨hserv, rfl⟩
  · cases h
    exact .inl rfl

theorem setDownstreamPending_eq_ok (h : m.setDownstreamPending = .ok m') :
    m' = { m with downstreamPending := true } := by
  obtain ⟨_, _, h⟩ := of_bind h
  cases h
  rfl

theorem clearDownstreamPending_eq_ok (h : m.clearDownstreamPending = .ok m') :
    m' = { m with downstreamPending := false } := by
  obtain ⟨_, _, h⟩ := of_bind h
  cases h
  rfl

/-- What `handleSnoop` leaves: nothing changes but the two lists and the `post` flags, and `targets` changes by a
  rewrite or by the saved snoop. -/
theorem handleSnoop_cases (m : Mshr) (pkt : Packet) (order : Nat) (curTick : Tick) :
    (m.snoopPrecedes pkt = true ∧ (m.handleSnoop pkt order curTick).2.2 = false ∧
      (m.handleSnoop pkt order curTick).1 =
        if pkt.needsExclusive then { m with
          targets := m.targets.replaceUpgrades
          deferredTargets := m.deferredTargets.replaceUpgrades }
        else m) ∨
    (m.inService = true ∧ (m.handleSnoop pkt order curTick).2.2 = true ∧
      ∃ targets postInvalidate postDowngrade,
        (targets = m.targets ∨ ∃ mark,
          targets = m.targets.add pkt.copyClearFlags curTick order .fromSnoop mark) ∧
        (m.handleSnoop pkt order curTick).1 = { m with
          targets := targets
          deferredTargets :=
            if pkt.needsExclusive then m.deferredTargets.replaceUpgrades else m.deferredTargets
          postInvalidate := postInvalidate
          postDowngrade := postDowngrade }) := by
  unfold handleSnoop
  by_cases hpre : m.snoopPrecedes pkt = true
  · rw [if_pos hpre]
    refine .inl ⟨hpre, ?_, ?_⟩
    · split <;> rfl
    · split <;> rfl
  · rw [if_neg hpre]
    have hserv : m.inService = true := by
      simp only [snoopPrecedes, Bool.or_eq_true, Bool.not_eq_true', not_or, Bool.not_eq_false] at hpre
      exact hpre.1
    refine .inr ⟨hserv, ?_⟩
    simp only
    split
    · exact ⟨rfl, m.targets, m.postInvalidate, m.postDowngrade, .inl rfl, rfl⟩
    · refine ⟨rfl, _, _, _, ?_, rfl⟩
      split
      · exact .inr ⟨_, rfl⟩
      · exact .inl rfl

end Mshr

end Gem5.Cache
