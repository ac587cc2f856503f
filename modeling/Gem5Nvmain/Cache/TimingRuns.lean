import Gem5Nvmain.Cache.TimingInv
import Gem5Nvmain.Cache.Visitors

/- Runs of a cache in timing mode.

  An `Event` is what happens to the cache at one time: a request from above, a response or a snoop from below, the
  memory side port asking for a packet, or a maintenance operation. Events come in any order and with any arguments; a
  response is for an entry that is in service. `wait` lets time pass.

  Between two events the cache has `CacheInv` with both queues, and `tempBlock` is not in use (`timedReachable_inv`).
  A packet that `writebackBlk` builds has a registered master unless it was built from `tempBlock`, which never has
  one. `getNextMSHR` issues no miss ahead of a writeback of its block, except where it does not look: when no write is
  ready yet, and when it allocates a prefetch. -/
namespace Gem5.Cache
open Lib Gem5.Mem CacheState

/-- A cache at a time. -/
structure Timed (σ : Type) where
  cache : CacheState σ
  now : Tick

inductive Event where
  | wait (ticks : Nat)
  | request (pkt : Packet) (rand : Nat)
  | response (e : Entry) (pkt : Packet) (rand : Nat) (ups : Nat → SnoopReply)
  | snoop (pkt : Packet) (up : SnoopReply)
  | send (prefetch : Option Packet) (up : SnoopReply) (down : Option SnoopReply)
  | downstream (e : Entry) (pending : Bool)
  | memWriteback
  | memInvalidate
  | pageInvalidate (pageStart : Nat)
  | adapt (a : Adapt)

section Step
variable {σ : Type} (P : CacheParams) (T : TagStore σ)

/-- The entry is allocated. -/
def holds (c : CacheState σ) (e : Entry) : Bool := (c.queue e.queue).allocatedList.contains e.index

/-- What a cache below does to an MSHR whose request it buffers. -/
def setDownstream (c : CacheState σ) (e : Entry) (pending : Bool) : Except Stop (CacheState σ) := do
  require (holds c e)
  let m ← (if pending then (c.mshr e).setDownstreamPending else (c.mshr e).clearDownstreamPending)
  pure (c.setMshr e m)

/-- One event at time `now`. -/
def cacheStep (c : CacheState σ) (now : Tick) : Event → Except Stop (CacheState σ)
  | .wait _ => .ok c
  | .request pkt rand => do
    let r ← c.recvTimingReq P T now pkt rand
    pure r.cache
  | .response e pkt rand ups => do
    require (holds c e && (c.mshr e).inService)
    let (c, _) ← c.recvTimingResp P T now e pkt rand ups
    pure c
  | .snoop pkt up => do
    let (c, _) ← c.recvTimingSnoopReq P T now pkt up
    pure c
  | .send prefetch up down => c.sendDeferredPacket P now prefetch up down
  | .downstream e pending => setDownstream c e pending
  | .memWriteback => do
    let (c, _) ← c.memWriteback P
    pure c
  | .memInvalidate => c.memInvalidate P T
  | .pageInvalidate pageStart => do
    let (c, _) ← c.pageInvalidate P T pageStart
    pure c
  | .adapt a => do
    let tags ← adaptTags T c.tags a
    pure { c with tags := tags }

def Event.ticks : Event → Nat
  | .wait n => n
  | _ => 0

def timedStep (s : Timed σ) (ev : Event) : Except Stop (Timed σ) := do
  let c ← cacheStep P T s.cache s.now ev
  pure ⟨c, s.now + ev.ticks⟩

/-- The cache after some sequence of events. -/
def TimedReachable (h : List Event) (s : Timed σ) : Prop :=
  Exec (StepOf (timedStep P T)) ⟨new P T, 0⟩ h s

end Step

/-! ## The invariant of every run -/

section Invariant
variable {σ : Type} {P : CacheParams} {arr : BlkArray} {T : TagStore σ} {c c' : CacheState σ} {s s' : Timed σ}

theorem holds_iff {e : Entry} : holds c e = true ↔ e.index ∈ (c.queue e.queue).allocatedList := by
  rw [holds, List.contains_iff_mem]

theorem CacheInv.setDownstream {e : Entry} {pending live : Bool} (hi : CacheInv P arr QueuesInv live c)
    (h : setDownstream c e pending = .ok c') : CacheInv P arr QueuesInv live c' := by
  obtain ⟨_, hheld, h⟩ := of_bind h
  obtain ⟨m, hm, h⟩ := of_bind h
  cases h
  rw [require_eq_ok, holds_iff] at hheld
  split at hm
  · exact hi.entry hheld (.setDownstreamPending hm)
  · exact hi.entry hheld (.clearDownstreamPending hm)

theorem cacheStep_inv (hT : Lawful P.toTagParams T) {now : Tick} {ev : Event}
    (hi : CacheInv P arr QueuesInv false c) (h : cacheStep P T c now ev = .ok c') :
    CacheInv P arr QueuesInv false c' := by
  cases ev with
  | wait ticks =>
    cases h
    exact hi
  | request pkt rand =>
    obtain ⟨r, hr, h⟩ := of_bind h
    cases h
    exact hi.recvTimingReq hT hr
  | response e pkt rand ups =>
    obtain ⟨_, hheld, h⟩ := of_bind h
    obtain ⟨⟨c₁, _⟩, h₁, h⟩ := of_bind h
    cases h
    rw [require_eq_ok, Bool.and_eq_true, holds_iff, mshr, c.queue_eq] at hheld
    have hserv : InService e c.mshrQueue c.writeBuffer := ⟨hi.queues, hheld.1, hheld.2⟩
    exact (hi.of_eq rfl rfl rfl hserv).recvTimingResp hT h₁
  | snoop pkt up =>
    obtain ⟨⟨c₁, _⟩, h₁, h⟩ := of_bind h
    cases h
    exact hi.recvTimingSnoopReq hT h₁
  | send prefetch up down => exact hi.sendDeferredPacket h
  | downstream e pending => exact hi.setDownstream h
  | memWriteback =>
    obtain ⟨⟨c₁, _⟩, h₁, h⟩ := of_bind h
    cases h
    exact hi.memWriteback h₁
  | memInvalidate => exact hi.memInvalidate hT h
  | pageInvalidate pageStart =>
    obtain ⟨⟨c₁, _⟩, h₁, h⟩ := of_bind h
    cases h
    exact hi.pageInvalidate hT h₁
  | adapt a =>
    obtain ⟨tags, ht, h⟩ := of_bind h
    cases h
    exact hi.reordered (adaptTags_reordered hT ht)

theorem timedReachable_inv (hT : Lawful P.toTagParams T) {h : List Event} (hr : TimedReachable P T h s) :
    CacheInv P T.new.blks QueuesInv false s.cache := by
  refine hr.invariant (P := fun s => CacheInv P T.new.blks QueuesInv false s.cache) ?_ ?_
  · exact CacheInv.new hT ⟨QueueInv.new _ _, QueueInv.new _ _⟩
  · intro s ev s' hi hs
    obtain ⟨c, hc, hs⟩ := of_bind hs
    cases hs
    exact cacheStep_inv hT hi hc

end Invariant

/-! ## The masters of writebacks -/

/-- In every run in timing mode, for every tag store: a packet built by `writebackBlk` has a registered master exactly
  when it was not built from `tempBlock`. -/
theorem writeback_has_master_iff (P : CacheParams) (x : Policy) {h : List Event} {s : Timed x.State}
    (hr : TimedReachable P (x.store P.toTagParams) h s) {ptr : BlkPtr} {pkt : Packet}
    (hb : (ptr, pkt) ∈ s.cache.built) : pkt.req.masterId < P.maxMasters ↔ ptr ≠ .temp :=
  (timedReachable_inv (x.lawful _) hr).built (ptr, pkt) hb

/-- A first-level data cache of one block. -/
def topLevel : CacheParams := { oneWay with isTopLevel := true, isLastLevel := false }

def topStore : TagStore Unit := Policy.lru.store topLevel.toTagParams

/-- A request of the CPU for the first byte of block `n`. -/
def cpuPacket (cmd : MemCmd) (n : Nat) : Packet :=
  { cmd := cmd
    req := { paddr := 4 * n, size := 1, masterId := 7, contextId := some 0 }
    addr := 4 * n
    size := 1
    data := if cmd = .writeReq then [9] else [] }

/-- The response of memory for block `n`. -/
def memPacket (cmd : MemCmd) (n : Nat) (shared : Bool) : Packet :=
  { cmd := cmd
    req := { paddr := 4 * n, size := 1, masterId := 7, contextId := some 0 }
    addr := 4 * n
    size := 4
    data := [1, 2, 3, 4]
    sharedAsserted := shared }

def cpuRead (n : Nat) : Event := .request (cpuPacket .readReq n) 0

def cpuWrite (n : Nat) : Event := .request (cpuPacket .writeReq n) 0

/-- The port sends what comes next, and it is taken. -/
def sendNext : Event := .send none {} (some {})

def answer (i : Nat) (cmd : MemCmd) (n : Nat) (shared : Bool) : Event :=
  .response ⟨.mshrs, i⟩ (memPacket cmd n shared) 0 fun _ => {}

/-- A block is written, and evicted by a read of another one. -/
def evictRun : List Event :=
  [cpuWrite 0, .wait 2, sendNext, answer 0 .readExResp 0 false,
    cpuRead 1, .wait 2, sendNext, answer 0 .readResp 1 true]

theorem evicted_writeback_has_master :
    ∃ s pkt, TimedReachable topLevel topStore evictRun s ∧ (BlkPtr.blk 0, pkt) ∈ s.cache.built ∧
      pkt.req.masterId < topLevel.maxMasters := by
  refine Exec.ends_with_two (p := fun s => s.cache.built.any fun x => x.1 == .blk 0) (by decide +kernel) fun s hr hp => ?_
  obtain ⟨⟨ptr, pkt⟩, hmem, hptr⟩ := List.any_eq_true.mp hp
  have hptr : ptr = .blk 0 := by simpa using hptr
  rw [hptr] at hmem
  exact ⟨pkt, hmem, (writeback_has_master_iff topLevel .lru hr hmem).mpr (by simp)⟩

/-- The only block waits for an upgrade when a write miss of another one is answered: the fill goes to `tempBlock`. -/
def tempRun : List Event :=
  [cpuRead 0, .wait 2, sendNext, answer 0 .readResp 0 true,
    cpuWrite 0, cpuWrite 1, .wait 2, sendNext, sendNext, answer 1 .readExResp 1 false]

/-- The next level is given a writeback without a master, and its `insertBlock` stops. -/
theorem temp_writeback_has_no_master :
    ∃ s pkt, TimedReachable topLevel topStore tempRun s ∧ (BlkPtr.temp, pkt) ∈ s.cache.built ∧
      ¬pkt.req.masterId < topLevel.maxMasters ∧
      (new oneWay (lru oneWay.toTagParams)).access oneWay (lru oneWay.toTagParams) pkt 0 =
        .error .assertFailed := by
  refine Exec.ends_with_two (p := fun s =>
      s.cache.built.any fun x => x.1 == .temp && decide (¬x.2.req.masterId < topLevel.maxMasters) &&
      match (new oneWay (lru oneWay.toTagParams)).access oneWay (lru oneWay.toTagParams) x.2 0 with
      | .error .assertFailed => true
      | _ => false) (by decide +kernel) fun s hr hp => ?_
  obtain ⟨⟨ptr, pkt⟩, hmem, hx⟩ := List.any_eq_true.mp hp
  simp only [Bool.and_eq_true, beq_iff_eq, decide_eq_true_eq] at hx
  obtain ⟨⟨rfl, hmaster⟩, hstop⟩ := hx
  refine ⟨pkt, hmem, hmaster, ?_⟩
  split at hstop
  · assumption
  · cases hstop

/-! ## Misses and writebacks -/

section Order
variable {σ : Type} {P : CacheParams} {arr : BlkArray} {c c' : CacheState σ} {now : Tick}
  {prefetch : Option Packet}

/-- No entry of the write buffer that has not been sent overlaps the range. -/
def NoUnsentWrite (c : CacheState σ) (addr size : Nat) (isSecure : Bool) : Prop :=
  ∀ j ∈ c.writeBuffer.allocatedList, c.writeBuffer.inService j = false →
    (c.writeBuffer.mshr j).isSecure = isSecure → MshrQueue.overlaps (c.writeBuffer.mshr j) addr size = false

/-- A miss that is issued comes after every write of its block. -/
def Ordered (c : CacheState σ) (e? : Option Entry) : Prop :=
  ∀ i, e? = some ⟨.mshrs, i⟩ →
    NoUnsentWrite c (c.mshrQueue.mshr i).addr (c.mshrQueue.mshr i).size (c.mshrQueue.mshr i).isSecure

/-- The prefetch is tried: a slot is free and its block is nowhere in the cache. -/
def triesPrefetch (P : CacheParams) (c : CacheState σ) (pkt : Packet) : Bool :=
  P.hasPrefetcher && !c.mshrQueue.isFull &&
    ((c.tags.findBlock P.toTagParams (P.blkAlign pkt.addr) pkt.isSecure).isNone &&
      (c.mshrQueue.findMatch (P.blkAlign pkt.addr) pkt.isSecure).isNone &&
      (c.writeBuffer.findMatch (P.blkAlign pkt.addr) pkt.isSecure).isNone)

/-- Where `getNextMSHR` issues a miss without a look at the write buffer, `findPending` would have found nothing
  there. -/
def Unchallenged (P : CacheParams) (c : CacheState σ) (now : Tick) (prefetch : Option Packet) : Prop :=
  match c.mshrQueue.getNextMSHR now, c.writeBuffer.getNextMSHR now with
  | some i, none => c.writeBuffer.findPending (c.mshrQueue.mshr i).addr (c.mshrQueue.mshr i).size
      (c.mshrQueue.mshr i).isSecure = none
  | none, none => ∀ pkt, prefetch = some pkt → triesPrefetch P c pkt = true →
      c.writeBuffer.findPending (P.blkAlign pkt.addr) P.blkSize pkt.isSecure = none
  | _, _ => True

theorem findPending_eq_none (hi : QueueInv c.writeBuffer) {addr size : Nat} {isSecure : Bool} :
    c.writeBuffer.findPending addr size isSecure = none ↔ NoUnsentWrite c addr size isSecure := by
  rw [MshrQueue.findPending, List.find?_eq_none]
  constructor
  · intro h j hj hserv hsec
    have hno := h j (hi.mem_ready.mpr ⟨hj, hserv⟩)
    rw [hsec, beq_self_eq_true, Bool.true_and, Bool.not_eq_true] at hno
    exact hno
  · intro h j hready
    obtain ⟨hj, hserv⟩ := hi.mem_ready.mp hready
    rw [Bool.and_eq_true, beq_iff_eq]
    rintro ⟨hsec, hover⟩
    rw [h j hj hserv hsec] at hover
    cases hover

theorem addToReadyList_mshr (q : MshrQueue) (i j : Nat) : (q.addToReadyList i).mshr j = q.mshr j := by
  unfold MshrQueue.addToReadyList
  split
  · rfl
  · split <;> rfl

theorem allocate_range {q q' : MshrQueue} {addr size order i : Nat} {pkt : Packet} {time : Tick}
    (hi : QueueInv q) (h : q.allocate addr size pkt time order = .ok (q', i)) :
    (q'.mshr i).addr = addr ∧ (q'.mshr i).size = size ∧ (q'.mshr i).isSecure = pkt.isSecure := by
  obtain ⟨k, hk, h⟩ := of_bind h
  obtain ⟨_, -, h⟩ := of_bind h
  obtain ⟨m, hm, h⟩ := of_bind h
  cases h
  have hfree : i ∈ q.freeList := List.mem_of_getElem? (index_eq_ok.mp hk)
  have hlt : i < q.registers.length :=
    List.mem_range.mp (hi.partition.mem_iff.mp (List.mem_append_left _ hfree))
  rw [addToReadyList_mshr, MshrQueue.mshr_setMshr_self (by exact hlt)]
  obtain ⟨_, -, rfl⟩ := Mshr.allocate_eq_ok hm
  exact ⟨rfl, rfl, rfl⟩

theorem allocateMissBuffer_spec {pkt : Packet} {e : Entry} (h : c.allocateMissBuffer P pkt now = .ok (c', e)) :
    ∃ q i, e = ⟨.mshrs, i⟩ ∧ c.mshrQueue.allocate (P.blkAlign pkt.addr) P.blkSize pkt now c.order = .ok (q, i) ∧
      c' = { c with mshrQueue := q, order := c.order + 1 } := by
  obtain ⟨_, -, h⟩ := of_bind h
  obtain ⟨⟨q, i⟩, hq, h⟩ := of_bind h
  cases h
  exact ⟨q, i, rfl, hq, rfl⟩

theorem ordered_none (c : CacheState σ) : Ordered c none := nofun

theorem ordered_write (c : CacheState σ) (j : Nat) : Ordered c (some ⟨.writeBuffer, j⟩) := nofun

theorem ordered_miss {i : Nat} : Ordered c (some ⟨.mshrs, i⟩) ↔
    NoUnsentWrite c (c.mshrQueue.mshr i).addr (c.mshrQueue.mshr i).size (c.mshrQueue.mshr i).isSecure := by
  constructor
  · intro h
    exact h i rfl
  · rintro h _ ⟨⟩
    exact h

/-- A prefetch that is tried is issued without a look at the write buffer. -/
theorem nextPrefetch_ordered_iff (hq : QueuesInv c.mshrQueue c.writeBuffer) {e? : Option Entry}
    (h : c.nextPrefetch P now prefetch = .ok (c', e?)) :
    Ordered c' e? ↔ ∀ pkt, prefetch = some pkt → triesPrefetch P c pkt = true →
      c.writeBuffer.findPending (P.blkAlign pkt.addr) P.blkSize pkt.isSecure = none := by
  unfold nextPrefetch at h
  split at h
  · rename_i hslot
    split at h
    · cases h
      exact iff_of_true (ordered_none _) fun pkt hpkt => by cases hpkt
    · rename_i pkt
      simp only at h
      split at h
      · rename_i hnew
        obtain ⟨_, -, h⟩ := of_bind h
        obtain ⟨⟨c₁, e⟩, h₁, h⟩ := of_bind h
        cases h
        obtain ⟨q, i, rfl, hq', rfl⟩ := allocateMissBuffer_spec h₁
        obtain ⟨haddr, hsize, hsec⟩ := allocate_range hq.1 hq'
        have htries : triesPrefetch P c pkt = true := by
          rw [triesPrefetch, hslot, Bool.true_and]
          exact hnew
        rw [ordered_miss]
        change NoUnsentWrite c (q.mshr i).addr (q.mshr i).size (q.mshr i).isSecure ↔ _
        rw [haddr, hsize, hsec, ← findPending_eq_none hq.2]
        constructor
        · rintro hnone _ ⟨⟩ -
          exact hnone
        · intro hall
          exact hall pkt rfl htries
      · rename_i hnew
        cases h
        refine iff_of_true (ordered_none _) ?_
        rintro _ ⟨⟩ htries
        rw [triesPrefetch, hslot, Bool.true_and] at htries
        exact absurd htries hnew
  · rename_i hslot
    cases h
    refine iff_of_true (ordered_none _) fun pkt _ htries => ?_
    rw [triesPrefetch, Bool.and_eq_true] at htries
    exact absurd htries.1 hslot

/-- With a write ready, `getNextMSHR` looks at the write buffer; otherwise it does not. -/
theorem getNextMSHR_ordered_iff (hq : QueuesInv c.mshrQueue c.writeBuffer) (hfull : c.writeBuffer.isFull = false)
    {e? : Option Entry} (h : c.getNextMSHR P now prefetch = .ok (c', e?)) :
    Ordered c' e? ↔ Unchallenged P c now prefetch := by
  unfold getNextMSHR at h
  unfold Unchallenged
  split at h
  · rename_i i hmiss hwrite
    cases h
    rw [hmiss, hwrite, ordered_miss]
    exact (findPending_eq_none hq.2).symm
  · rename_i j hmiss hwrite
    cases h
    rw [hmiss, hwrite]
    exact iff_of_true (ordered_write _ _) trivial
  · rename_i i j hmiss hwrite
    rw [hmiss, hwrite]
    simp only [hfull, Bool.false_and, Bool.false_eq_true, if_false] at h
    refine iff_of_true ?_ trivial
    split at h
    · cases h
      exact ordered_write _ _
    · rename_i hnone
      cases h
      exact ordered_miss.mpr ((findPending_eq_none hq.2).mp hnone)
  · rename_i hmiss hwrite
    rw [hmiss, hwrite]
    exact nextPrefetch_ordered_iff hq h

end Order

/-- In every state of every run in timing mode, for every tag store, as long as the write buffer is not full. -/
theorem miss_ordered_iff (P : CacheParams) (x : Policy) {h : List Event} {s : Timed x.State}
    (hr : TimedReachable P (x.store P.toTagParams) h s) (hfull : s.cache.writeBuffer.isFull = false)
    {prefetch : Option Packet} {c' : CacheState x.State} {e? : Option Entry}
    (hn : s.cache.getNextMSHR P s.now prefetch = .ok (c', e?)) :
    Ordered c' e? ↔ Unchallenged P s.cache s.now prefetch :=
  getNextMSHR_ordered_iff (timedReachable_inv (x.lawful _) hr).queues hfull hn

/-- What `getNextMSHR` returns when there is no prefetch and something is ready. -/
def nextEntry (s : Timed Unit) : Option Entry :=
  match s.cache.getNextMSHR topLevel s.now none with
  | .ok (_, e?) => e?
  | .error _ => none

theorem nextEntry_eq {s : Timed Unit} {e : Entry} (h : nextEntry s = some e) :
    ∃ c', s.cache.getNextMSHR topLevel s.now none = .ok (c', some e) := by
  unfold nextEntry at h
  split at h
  · rename_i c' e? hok
    rw [h] at hok
    exact ⟨c', hok⟩
  · cases h

/-- A single miss. -/
theorem single_miss_ordered : ∃ s c', TimedReachable topLevel topStore [cpuRead 0, .wait 2] s ∧
      s.cache.getNextMSHR topLevel s.now none = .ok (c', some ⟨.mshrs, 0⟩) ∧ Ordered c' (some ⟨.mshrs, 0⟩) := by
  refine Exec.ends_with_two (p := fun s => !s.cache.writeBuffer.isFull && decide (nextEntry s = some ⟨.mshrs, 0⟩) &&
      s.cache.writeBuffer.readyList.isEmpty) (by decide) fun s hr hp => ?_
  simp only [Bool.and_eq_true, Bool.not_eq_true', decide_eq_true_eq, List.isEmpty_iff] at hp
  obtain ⟨⟨hfull, hnext⟩, hempty⟩ := hp
  obtain ⟨c', hok⟩ := nextEntry_eq hnext
  have hnone : ∀ addr size isSecure, s.cache.writeBuffer.findPending addr size isSecure = none := by
    intro addr size isSecure
    rw [MshrQueue.findPending, hempty, List.find?_nil]
  refine ⟨c', hok, (miss_ordered_iff topLevel .lru hr hfull hok).mpr ?_⟩
  unfold Unchallenged
  split
  · exact hnone _ _ _
  · exact fun _ _ _ => hnone _ _ _
  · trivial

/-- As in `tempRun`, with the block snooped and written again before the response. -/
def deferredRun : List Event :=
  [cpuRead 0, .wait 2, sendNext, answer 0 .readResp 0 true,
    cpuWrite 0, cpuWrite 1, .wait 2, sendNext, sendNext,
    .snoop { cmd := .readReq, req := { paddr := 4, size := 4, masterId := 6 }, addr := 4, size := 4 } {},
    cpuWrite 1, .wait 10, answer 1 .readExResp 1 false]

/-- The second write miss is ready at once, the writeback of `tempBlock` only after the hit latency: the miss is
  issued first. -/
theorem miss_issued_ahead_of_writeback :
    ∃ s c', TimedReachable topLevel topStore deferredRun s ∧ s.cache.writeBuffer.isFull = false ∧
      s.cache.getNextMSHR topLevel s.now none = .ok (c', some ⟨.mshrs, 1⟩) ∧
      ¬Ordered c' (some ⟨.mshrs, 1⟩) := by
  refine Exec.ends_with_two (p := fun s => !s.cache.writeBuffer.isFull && decide (nextEntry s = some ⟨.mshrs, 1⟩) &&
      decide (s.cache.mshrQueue.getNextMSHR s.now = some 1) &&
      decide (s.cache.writeBuffer.getNextMSHR s.now = none) &&
      (s.cache.writeBuffer.findPending (s.cache.mshrQueue.mshr 1).addr (s.cache.mshrQueue.mshr 1).size
        (s.cache.mshrQueue.mshr 1).isSecure).isSome) (by decide +kernel) fun s hr hp => ?_
  simp only [Bool.and_eq_true, Bool.not_eq_true', decide_eq_true_eq] at hp
  obtain ⟨⟨⟨⟨hfull, hnext⟩, hmiss⟩, hwrite⟩, hsome⟩ := hp
  obtain ⟨c', hok⟩ := nextEntry_eq hnext
  have hq := (timedReachable_inv (Policy.lawful topLevel.toTagParams .lru) hr).queues
  refine ⟨c', hfull, hok, fun hord => ?_⟩
  have hun := (getNextMSHR_ordered_iff hq hfull hok).mp hord
  unfold Unchallenged at hun
  rw [hmiss, hwrite] at hun
  rw [hun] at hsome
  cases hsome

end Gem5.Cache
