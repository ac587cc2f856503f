import Gem5Nvmain.Cache.CacheRuns
import Gem5Nvmain.Cache.MshrQueueRuns

/- The invariant of the cache in timing mode.

  `QueuesInv` says that the MSHR queue and the write buffer have the representation invariant of a queue. Each
  function of the timing mode keeps it together with `CacheInv`: the operations on blocks do not touch the queues, and
  the operations on the queues do not touch the blocks (`CacheInv.setQueue`).

  While a response is handled, its entry is allocated and in service until it is released (`InService`); `tempBlock`
  is live if the response was filled into it. -/
namespace Gem5.Cache
open Lib Gem5.Mem List CacheState

/-! ## The queues -/

def QueuesInv (mshrs writeBuffer : MshrQueue) : Prop := QueueInv mshrs ∧ QueueInv writeBuffer

def QueueIndex.select (q : QueueIndex) (mshrs writeBuffer : MshrQueue) : MshrQueue :=
  match q with
  | .mshrs => mshrs
  | .writeBuffer => writeBuffer

/-- The entry of the response that is being handled. -/
structure InService (e : Entry) (mshrs writeBuffer : MshrQueue) : Prop where
  queues : QueuesInv mshrs writeBuffer
  held : e.index ∈ (e.queue.select mshrs writeBuffer).allocatedList
  inService : (e.queue.select mshrs writeBuffer).inService e.index = true

section Queues
variable {σ : Type} {P : CacheParams} {arr : BlkArray} {Q Q' : MshrQueue → MshrQueue → Prop}
  {T : TagStore σ} {live : Bool} {c c' : CacheState σ} {q : QueueIndex} {x : MshrQueue} {e : Entry}
  {m : Mshr} {pkt : Packet} {time : Tick}

theorem CacheState.queue_eq (c : CacheState σ) (q : QueueIndex) : c.queue q = q.select c.mshrQueue c.writeBuffer := by
  cases q <;> rfl

theorem QueuesInv.queue (h : QueuesInv c.mshrQueue c.writeBuffer) (q : QueueIndex) : QueueInv (c.queue q) := by
  cases q with
  | mshrs => exact h.1
  | writeBuffer => exact h.2

theorem QueuesInv.setQueue (h : QueuesInv c.mshrQueue c.writeBuffer) (hx : QueueInv x) :
    QueuesInv (c.setQueue q x).mshrQueue (c.setQueue q x).writeBuffer := by
  cases q with
  | mshrs => exact ⟨hx, h.2⟩
  | writeBuffer => exact ⟨h.1, hx⟩

theorem CacheState.queue_setQueue (c : CacheState σ) (q : QueueIndex) (x : MshrQueue) :
    (c.setQueue q x).queue q = x := by
  cases q <;> rfl

theorem CacheInv.setQueue (hi : CacheInv P arr Q live c)
    (hq : Q' (c.setQueue q x).mshrQueue (c.setQueue q x).writeBuffer) : CacheInv P arr Q' live (c.setQueue q x) := by
  cases q with
  | mshrs => exact hi.of_eq rfl rfl rfl hq
  | writeBuffer => exact hi.of_eq rfl rfl rfl hq

theorem CacheInv.queueInv (hi : CacheInv P arr QueuesInv live c) (q : QueueIndex) : QueueInv (c.queue q) :=
  hi.queues.queue q

theorem CacheInv.setQueueInv (hi : CacheInv P arr QueuesInv live c) (hx : QueueInv x) :
    CacheInv P arr QueuesInv live (c.setQueue q x) :=
  hi.setQueue (hi.queues.setQueue hx)

theorem CacheInv.entry (hi : CacheInv P arr QueuesInv live c) (hmem : e.index ∈ (c.queue e.queue).allocatedList)
    (hs : EntryStep (c.mshr e) m) : CacheInv P arr QueuesInv live (c.setMshr e m) :=
  hi.setQueueInv ((hi.queueInv e.queue).entry hmem hs)

/-- The entry of a response may change in any way that leaves it in service. -/
theorem CacheInv.setInService (hi : CacheInv P arr (InService e) live c) (hm : m.inService = true) :
    CacheInv P arr (InService e) live (c.setMshr e m) := by
  obtain ⟨hq, hheld, hserv⟩ := hi.queues
  rw [← c.queue_eq] at hheld hserv
  have hx : QueueInv ((c.queue e.queue).setMshr e.index m) :=
    (hq.queue e.queue).set_same hheld (hm.trans hserv.symm) (fun h => by rw [hm] at h; cases h)
      (fun h => by rw [hm] at h; cases h)
  refine hi.setQueue ⟨hq.setQueue hx, ?_, ?_⟩
  · rw [← queue_eq, queue_setQueue]
    exact hheld
  · rw [← queue_eq, queue_setQueue]
    exact (QueueInv.inService_set_self ((hq.queue e.queue).lt_length hheld)).trans hm

/-! ## Buffers -/

theorem MshrQueue.allocate_mem {w w' : MshrQueue} {addr size order i : Nat}
    (h : w.allocate addr size pkt time order = .ok (w', i)) : i ∈ w'.allocatedList := by
  obtain ⟨_, -, h⟩ := of_bind h
  obtain ⟨_, -, h⟩ := of_bind h
  obtain ⟨_, -, h⟩ := of_bind h
  cases h
  unfold MshrQueue.addToReadyList
  split
  · exact mem_append_right _ (mem_singleton_self _)
  · split
    · exact mem_append_right _ (mem_singleton_self _)
    · exact mem_append_right _ (mem_singleton_self _)

section
variable (hi : CacheInv P arr QueuesInv live c)
include hi

theorem CacheInv.allocateBuffer {addr size : Nat} (h : c.allocateBuffer q addr size pkt time = .ok (c', e)) :
    CacheInv P arr QueuesInv live c' ∧ e.index ∈ (c'.queue e.queue).allocatedList := by
  obtain ⟨⟨x, i⟩, hx, h⟩ := of_bind h
  cases h
  have hi' := hi.setQueueInv (q := q) ((hi.queueInv q).allocate hx)
  refine ⟨hi'.of_eq rfl rfl rfl hi'.queues, ?_⟩
  have hmem := MshrQueue.allocate_mem hx
  cases q with
  | mshrs => exact hmem
  | writeBuffer => exact hmem

theorem CacheInv.allocateMissBuffer (h : c.allocateMissBuffer P pkt time = .ok (c', e)) :
    CacheInv P arr QueuesInv live c' ∧ e.index ∈ (c'.queue e.queue).allocatedList := by
  obtain ⟨_, -, h⟩ := of_bind h
  exact hi.allocateBuffer h

theorem CacheInv.allocateWriteBuffer
    (h : c.allocateWriteBuffer pkt time = .ok (c', e)) : CacheInv P arr QueuesInv live c' := by
  obtain ⟨_, -, h⟩ := of_bind h
  exact (hi.allocateBuffer h).1

theorem CacheInv.allocateUncachedReadBuffer
    (h : c.allocateUncachedReadBuffer pkt time = .ok (c', e)) : CacheInv P arr QueuesInv live c' := by
  obtain ⟨_, -, h⟩ := of_bind h
  obtain ⟨_, -, h⟩ := of_bind h
  exact (hi.allocateBuffer h).1

theorem CacheInv.allocateWritebacks {pkts : List Packet}
    (h : c.allocateWritebacks time pkts = .ok c') : CacheInv P arr QueuesInv live c' := by
  induction pkts generalizing c with
  | nil =>
    cases h
    exact hi
  | cons pkt pkts ih =>
    obtain ⟨⟨c₁, _⟩, h₁, h⟩ := of_bind h
    exact ih (hi.allocateWriteBuffer h₁) h

end

end Queues

/-! ## Requests -/

section Requests
variable {σ : Type} {P : CacheParams} {arr : BlkArray} {Q : MshrQueue → MshrQueue → Prop} {T : TagStore σ}
  {live : Bool} {c c' : CacheState σ} {pkt : Packet} {blk : Option Nat} {time now : Tick} {rand i : Nat}
  {r : CacheState.ReqResult σ}

theorem CacheInv.recvUncacheable (hT : Lawful P.toTagParams T) (hi : CacheInv P arr QueuesInv live c)
    (h : c.recvUncacheable P T pkt time = .ok r) : CacheInv P arr QueuesInv live r.cache := by
  obtain ⟨⟨c₁, _⟩, h₁, h⟩ := of_bind h
  have hi₁ := hi.uncacheableFlush hT h₁
  simp only at h
  split at h
  · obtain ⟨_, -, h⟩ := of_bind h
    cases h
    exact hi₁
  · obtain ⟨⟨c₂, _⟩, h₂, h⟩ := of_bind h
    obtain ⟨_, -, h⟩ := of_bind h
    cases h
    split at h₂
    · exact hi₁.allocateWriteBuffer h₂
    · exact hi₁.allocateUncachedReadBuffer h₂

theorem CacheInv.hitBlk (hi : CacheInv P arr Q live c) (hblk : ∀ i, blk = some i → i < P.numBlocks) :
    CacheInv P arr Q live (c.hitBlk P blk) := by
  unfold CacheState.hitBlk
  split
  · exact hi
  · rename_i i
    have hlt := hblk i rfl
    split
    · exact hi.put_same (BlkPtr.inBounds_blk hlt) ⟨rfl, rfl, rfl, rfl, rfl, rfl, rfl⟩ (hi.tags.blk i hlt).dirty
    · exact hi

theorem CacheInv.markUnreadable (hi : CacheInv P arr Q live c) (hblk : ∀ i, blk = some i → i < P.numBlocks)
    (h : c.markUnreadable pkt blk = .ok c') : CacheInv P arr Q live c' := by
  unfold CacheState.markUnreadable at h
  split at h
  · cases h
    exact hi
  · rename_i i
    have hlt := hblk i rfl
    simp only at h
    split at h
    · obtain ⟨_, -, h⟩ := of_bind h
      obtain ⟨_, -, h⟩ := of_bind h
      cases h
      exact hi.put_same (BlkPtr.inBounds_blk hlt) ⟨rfl, rfl, rfl, rfl, rfl, rfl, rfl⟩ (hi.tags.blk i hlt).dirty
    · cases h
      exact hi

theorem CacheInv.allocateMiss (hi : CacheInv P arr QueuesInv live c)
    (hblk : ∀ i, blk = some i → i < P.numBlocks) (h : c.allocateMiss P pkt blk time = .ok c') :
    CacheInv P arr QueuesInv live c' := by
  obtain ⟨_, -, h⟩ := of_bind h
  split at h
  · obtain ⟨⟨c₁, _⟩, h₁, h⟩ := of_bind h
    cases h
    exact hi.allocateWriteBuffer h₁
  · obtain ⟨c₁, h₁, h⟩ := of_bind h
    obtain ⟨⟨c₂, _⟩, h₂, h⟩ := of_bind h
    cases h
    exact ((hi.markUnreadable hblk h₁).allocateMissBuffer h₂).1

theorem CacheInv.missEntry {m : Mshr} (hi : CacheInv P arr QueuesInv live c) {addr : Nat} {isSecure : Bool}
    (hf : c.mshrQueue.findMatch addr isSecure = some i) (hs : EntryStep (c.mshrQueue.mshr i) m) (order : Nat) :
    CacheInv P arr QueuesInv live { c.setMshr ⟨.mshrs, i⟩ m with order := order } := by
  have hi' : CacheInv P arr QueuesInv live (c.setMshr ⟨.mshrs, i⟩ m) := hi.entry (mem_of_find?_eq_some hf) hs
  exact hi'.of_eq rfl rfl rfl hi'.queues

theorem CacheInv.missRequest (hi : CacheInv P arr QueuesInv live c)
    (hblk : ∀ i, blk = some i → i < P.numBlocks) (h : c.missRequest P pkt blk time = .ok c') :
    CacheInv P arr QueuesInv live c' := by
  unfold CacheState.missRequest at h
  simp only at h
  split at h
  · cases h
    exact hi
  · split at h
    · rename_i i hf
      obtain ⟨_, -, h⟩ := of_bind h
      obtain ⟨m, hm, h⟩ := of_bind h
      cases h
      exact hi.missEntry hf (.allocateTarget hm) _
    · exact hi.allocateMiss hblk h

theorem CacheInv.finishReq {a : CacheState.Access σ} (hi : CacheInv P arr QueuesInv live a.cache)
    (hblk : ∀ i, a.blk = some i → i < P.numBlocks) (h : finishReq P a time = .ok r) :
    CacheInv P arr QueuesInv live r.cache := by
  unfold CacheState.finishReq at h
  simp only at h
  split at h
  · cases h
    exact hi
  · split at h
    · obtain ⟨_, -, h⟩ := of_bind h
      obtain ⟨c₁, h₁, h⟩ := of_bind h
      cases h
      exact (hi.hitBlk hblk).allocateWritebacks h₁
    · split at h
      · cases h
        exact hi
      · obtain ⟨_, -, h⟩ := of_bind h
        obtain ⟨c₁, h₁, h⟩ := of_bind h
        obtain ⟨c₂, h₂, h⟩ := of_bind h
        cases h
        exact (hi.missRequest hblk h₁).allocateWritebacks h₂

theorem CacheInv.recvTimingReq (hT : Lawful P.toTagParams T) (hi : CacheInv P arr QueuesInv live c)
    (h : c.recvTimingReq P T now pkt rand = .ok r) : CacheInv P arr QueuesInv live r.cache := by
  obtain ⟨_, -, h⟩ := of_bind h
  obtain ⟨pkt, -, h⟩ := of_bind h
  simp only at h
  split at h
  · obtain ⟨_, -, h⟩ := of_bind h
    cases h
    exact hi
  · split at h
    · exact hi.recvUncacheable hT h
    · obtain ⟨a, ha, h⟩ := of_bind h
      obtain ⟨hia, hblk⟩ := hi.access hT ha
      exact hia.finishReq hblk h

end Requests

/-! ## Responses -/

section Responses
variable {σ : Type} {P : CacheParams} {arr : BlkArray} {Q : MshrQueue → MshrQueue → Prop} {T : TagStore σ}
  {live : Bool} {c c' : CacheState σ} {e : Entry} {m : Mshr} {pkt target target' : Packet}
  {blk : Option BlkPtr} {isFill : Bool} {up : SnoopReply} {ups : Nat → SnoopReply} {time now : Tick}
  {resps snoopResps : List Packet}

/-- The block of a response: one of the cache, or `tempBlock`. -/
def InCache (P : CacheParams) (blk : Option BlkPtr) : Prop :=
  ∀ ptr, blk = some ptr → ptr.InBounds P ∧ ∀ k, ptr ≠ .record k

theorem CacheInv.putStatus {ptr : BlkPtr} {b : CacheBlk} (hi : CacheInv P arr Q live c)
    (hblk : InCache P (some ptr)) (hs : CacheBlk.SameLine (c.get ptr) b)
    (hd : b.dirty = true → (c.get ptr).dirty = true) : CacheInv P arr Q live (c.put ptr b) := by
  obtain ⟨hin, hrec⟩ := hblk ptr rfl
  exact hi.put_same hin hs fun h => hs.valid.trans (hi.dirty_valid hin hrec (hd h))

theorem CacheInv.answerTarget (hT : Lawful P.toTagParams T) (hi : CacheInv P arr Q live c) (hblk : InCache P blk)
    (h : c.answerTarget P T m pkt isFill blk target = .ok (c', target')) : CacheInv P arr Q live c' := by
  unfold CacheState.answerTarget at h
  split at h
  · split at h
    · cases h
    · rename_i ptr
      obtain ⟨⟨c₁, _⟩, h₁, h⟩ := of_bind h
      obtain ⟨_, -, h⟩ := of_bind h
      obtain ⟨_, -, h⟩ := of_bind h
      cases h
      exact hi.satisfyCpuSideRequest hT (hblk ptr rfl).1 h₁
  · split at h
    · obtain ⟨_, -, h⟩ := of_bind h
      cases h
      exact hi
    · split at h
      · obtain ⟨c₁, h₁, h⟩ := of_bind h
        cases h
        split at h₁
        · cases h₁
          exact hi
        · obtain ⟨_, -, h₁⟩ := of_bind h₁
          cases h₁
          exact hi.putStatus hblk ⟨rfl, rfl, rfl, rfl, rfl, rfl, rfl⟩ fun hd => by cases hd
      · split at h
        · cases h
          exact hi
        · cases h
          exact hi

theorem CacheInv.respTarget (hT : Lawful P.toTagParams T) (hi : CacheInv P arr Q live c) (hblk : InCache P blk)
    {t : Target} (h : c.respTarget P T m pkt isFill blk up t = .ok (c', resps, snoopResps)) :
    CacheInv P arr Q live c' := by
  unfold CacheState.respTarget at h
  split at h
  · split at h
    · cases h
      exact hi
    · obtain ⟨⟨c₁, _⟩, h₁, h⟩ := of_bind h
      obtain ⟨_, -, h⟩ := of_bind h
      cases h
      exact hi.answerTarget hT hblk h₁
  · obtain ⟨_, -, h⟩ := of_bind h
    cases h
    split
    · exact hi
    · exact hi.putStatus hblk ⟨rfl, rfl, rfl, rfl, rfl, rfl, rfl⟩ id
  · obtain ⟨_, -, h⟩ := of_bind h
    obtain ⟨_, -, h⟩ := of_bind h
    obtain ⟨⟨c₁, _⟩, h₁, h⟩ := of_bind h
    cases h
    exact hi.handleSnoop hT (fun ptr hptr => (hblk ptr hptr).1) h₁

theorem CacheInv.respTargets (hT : Lawful P.toTagParams T) (hi : CacheInv P arr Q live c) (hblk : InCache P blk)
    {ts : List Target} (h : c.respTargets P T m pkt isFill blk ups ts = .ok (c', resps, snoopResps)) :
    CacheInv P arr Q live c' := by
  induction ts generalizing c resps snoopResps with
  | nil =>
    cases h
    exact hi
  | cons t ts ih =>
    obtain ⟨⟨c₁, _⟩, h₁, h⟩ := of_bind h
    obtain ⟨⟨c₂, _⟩, h₂, h⟩ := of_bind h
    cases h
    exact ih (hi.respTarget hT hblk h₁) h₂

theorem CacheInv.respSnooped (hT : Lawful P.toTagParams T) (hi : CacheInv P arr Q live c) (hblk : InCache P blk)
    (h : c.respSnooped T m pkt blk = .ok c') : CacheInv P arr Q live c' := by
  unfold CacheState.respSnooped at h
  split at h
  · cases h
    exact hi
  · rename_i ptr
    simp only at h
    split at h
    · cases h
      exact hi
    · split at h
      · obtain ⟨_, -, h⟩ := of_bind h
        exact hi.invalidateBlk hT (hblk ptr rfl).1 h
      · split at h
        · cases h
          exact hi.putStatus hblk ⟨rfl, rfl, rfl, rfl, rfl, rfl, rfl⟩ id
        · cases h
          exact hi

theorem promoteDeferredTargets_nil {m' : Mshr} {promoted : Bool}
    (h : m.promoteDeferredTargets now = .ok (m', promoted)) :
    m'.deferredTargets.list = [] ∧ m'.inService = m.inService := by
  obtain ⟨htargets, ⟨-, hnil, rfl⟩ | ⟨-, t, l, -, rfl⟩⟩ := Mshr.promoteDeferredTargets_eq_ok h
  · exact ⟨hnil, rfl⟩
  · exact ⟨htargets, rfl⟩

/-- The entry can be sent again or given back. -/
def Released (e : Entry) (mshrs writeBuffer : MshrQueue) : Prop :=
  QueuesInv mshrs writeBuffer ∧ e.index ∈ (e.queue.select mshrs writeBuffer).allocatedList ∧
    ((e.queue.select mshrs writeBuffer).mshr e.index).deferredTargets.list = []

theorem CacheInv.released (hi : CacheInv P arr (InService e) live c) (hserv : m.inService = true)
    (hnil : m.deferredTargets.list = []) : CacheInv P arr (Released e) live (c.setMshr e m) := by
  have hi' := hi.setInService hserv
  refine hi'.of_eq rfl rfl rfl ⟨hi'.queues.queues, hi'.queues.held, ?_⟩
  obtain ⟨hq, hheld, -⟩ := hi.queues
  have hlt := (hq.queue e.queue).lt_length hheld
  rw [← queue_eq, setMshr, queue_setQueue, MshrQueue.mshr_setMshr_self hlt]
  exact hnil

theorem CacheInv.release {x : MshrQueue} (hi : CacheInv P arr (Released e) live c)
    (h : (c.queue e.queue).markPending e.index = .ok x ∨ (c.queue e.queue).deallocate e.index = .ok x) :
    CacheInv P arr QueuesInv live (c.setQueue e.queue x) := by
  obtain ⟨hq, hheld, hnil⟩ := hi.queues
  rw [← c.queue_eq] at hheld hnil
  have hi' : CacheInv P arr QueuesInv live c := hi.of_eq rfl rfl rfl hq
  rcases h with h | h
  · exact hi'.setQueueInv ((hq.queue e.queue).markPending hheld hnil h)
  · exact hi'.setQueueInv ((hq.queue e.queue).deallocate hheld hnil h)

theorem CacheInv.respRelease (hi : CacheInv P arr (InService e) live c) (hblk : InCache P blk)
    (h : c.respRelease e now blk = .ok c') : CacheInv P arr QueuesInv live c' := by
  obtain ⟨⟨m, promoted⟩, hm, h⟩ := of_bind h
  obtain ⟨hnil, hkeep⟩ := promoteDeferredTargets_nil hm
  have hserv : m.inService = true := by
    rw [hkeep, mshr, c.queue_eq]
    exact hi.queues.inService
  have hi₁ := hi.released hserv hnil
  simp only at h
  split at h
  · obtain ⟨x, hx, h⟩ := of_bind h
    cases h
    refine CacheInv.release ?_ (.inl hx)
    split
    · exact hi₁
    · exact hi₁.putStatus hblk ⟨rfl, rfl, rfl, rfl, rfl, rfl, rfl⟩ id
  · obtain ⟨x, hx, h⟩ := of_bind h
    cases h
    exact hi₁.release (.inr hx)

/-- A response is filled into the block that was found, or into a new one. -/
theorem CacheInv.respFill (hT : Lawful P.toTagParams T) (hi : CacheInv P arr (InService e) false c)
    {ptr : BlkPtr} {rand : Nat}
    (h : c.respFill P T e pkt (c.tags.findBlock P.toTagParams pkt.addr pkt.isSecure) rand =
      .ok (c', ptr, resps)) :
    CacheInv P arr (InService e) (decide (ptr = .temp)) c' ∧ InCache P (some ptr) := by
  obtain ⟨m, hm, h⟩ := of_bind h
  have hserv : m.inService = true := by
    have hold : (c.mshr e).inService = true := by
      exact hi.queues.inService
    rcases Mshr.handleFill_eq_ok hm with rfl | ⟨-, rfl⟩
    · exact hold
    · exact hold
  have htags : (c.setMshr e m).tags = c.tags := by
    cases e with
    | mk q i => cases q <;> rfl
  rw [← htags] at h
  obtain ⟨hi', hin, hrec⟩ := CacheInv.handleFill hT (hi.setInService hserv) h
  refine ⟨hi', ?_⟩
  rintro _ ⟨⟩
  exact ⟨hin, hrec⟩

theorem queuesInv_accepts : Accepts QueuesInv := fun hq h => ⟨hq.1, hq.2.allocate h⟩

/-- `tempBlock` is in use only while a response is handled. -/
theorem CacheInv.recvTimingResp (hT : Lawful P.toTagParams T) (hi : CacheInv P arr (InService e) false c)
    {rand : Nat} (h : c.recvTimingResp P T now e pkt rand ups = .ok (c', resps, snoopResps)) :
    CacheInv P arr QueuesInv false c' := by
  obtain ⟨_, -, h⟩ := of_bind h
  obtain ⟨_, -, h⟩ := of_bind h
  obtain ⟨_, -, h⟩ := of_bind h
  obtain ⟨⟨c₁, blk, writebacks⟩, h₁, h⟩ := of_bind h
  obtain ⟨⟨c₂, _, _⟩, h₂, h⟩ := of_bind h
  obtain ⟨c₃, h₃, h⟩ := of_bind h
  obtain ⟨c₄, h₄, h⟩ := of_bind h
  obtain ⟨c₅, h₅, h⟩ := of_bind h
  obtain ⟨c₆, h₆, h⟩ := of_bind h
  cases h
  have hfill : CacheInv P arr (InService e) (decide (blk = some .temp)) c₁ ∧ InCache P blk := by
    split at h₁
    · obtain ⟨⟨c₀, ptr, _⟩, h₀, h₁⟩ := of_bind h₁
      cases h₁
      simpa using hi.respFill hT h₀
    · cases h₁
      have hne : ∀ ptr, (c.tags.findBlock P.toTagParams pkt.addr pkt.isSecure).map BlkPtr.blk = some ptr →
          ptr ≠ .temp ∧ ptr.InBounds P ∧ ∀ k, ptr ≠ .record k := by
        intro ptr hptr
        obtain ⟨i, hf, rfl⟩ := Option.map_eq_some_iff.mp hptr
        exact ⟨by simp, hi.found_lt hf, fun k => by simp⟩
      refine ⟨?_, fun ptr hptr => (hne ptr hptr).2⟩
      rw [decide_eq_false fun htemp => (hne _ htemp).1 rfl]
      exact hi
  obtain ⟨hi₁, hblk⟩ := hfill
  have hi₂ := hi₁.respTargets hT hblk h₂
  have hserv : (popTargets (c₂.mshr e)).inService = true := by
    change (c₂.mshr e).inService = true
    exact hi₂.queues.inService
  have hi₅ := (((hi₂.setInService hserv).respSnooped hT hblk h₃).respRelease hblk h₄).allocateWritebacks h₅
  split at h₆
  · rename_i htemp
    rw [htemp, decide_eq_true rfl] at hi₅
    exact hi₅.clearTempBlock queuesInv_accepts h₆
  · rename_i htemp
    cases h₆
    rw [decide_eq_false htemp] at hi₅
    exact hi₅

end Responses

/-! ## Snoops -/

section Snoops
variable {σ : Type} {P : CacheParams} {arr : BlkArray} {T : TagStore σ} {live : Bool} {c c' : CacheState σ}
  {pkt pkt' : Packet} {blk : Option Nat} {up : SnoopReply} {now : Tick} {resps : List Packet}

theorem QueueInv.setTargets {q : MshrQueue} {i : Nat} (hi : QueueInv q) (hm : i ∈ q.allocatedList)
    (targets : TargetList) : QueueInv (q.setMshr i { q.mshr i with targets := targets }) :=
  hi.set_same hm rfl (fun _ => rfl) (hi.deferred_nil hm)

theorem CacheInv.snoopWriteback (hi : CacheInv P arr QueuesInv live c)
    (h : c.snoopWriteback P pkt = .ok (c', pkt', resps)) : CacheInv P arr QueuesInv live c' := by
  unfold CacheState.snoopWriteback at h
  split at h
  · cases h
    exact hi
  · rename_i i rest hmatch
    have hmem : i ∈ c.writeBuffer.allocatedList := by
      have hin : i ∈ c.writeBuffer.findMatches (P.blkAlign pkt.addr) pkt.isSecure := by
        rw [hmatch]
        exact mem_cons_self ..
      exact (mem_filter.mp hin).1
    obtain ⟨_, -, h⟩ := of_bind h
    obtain ⟨_, -, h⟩ := of_bind h
    obtain ⟨_, -, h⟩ := of_bind h
    obtain ⟨t, -, h⟩ := of_bind h
    obtain ⟨_, -, h⟩ := of_bind h
    obtain ⟨_, -, h⟩ := of_bind h
    obtain ⟨_, -, h⟩ := of_bind h
    obtain ⟨resp, -, h⟩ := of_bind h
    generalize hc : (if pkt.needsExclusive then c else _) = c₁ at h
    have hshared : CacheInv P arr QueuesInv live c₁ ∧ i ∈ c₁.writeBuffer.allocatedList := by
      rw [← hc]
      split
      · exact ⟨hi, hmem⟩
      · exact ⟨hi.setQueueInv (hi.queues.2.setTargets hmem _), hmem⟩
    obtain ⟨hi₁, hmem₁⟩ := hshared
    split at h
    · obtain ⟨q, hq, h⟩ := of_bind h
      cases h
      exact hi₁.of_eq rfl rfl rfl ⟨hi₁.queues.1, hi₁.queues.2.markInService hmem₁ hq⟩
    · cases h
      exact hi₁

theorem CacheInv.snoopThrough (hT : Lawful P.toTagParams T) (hi : CacheInv P arr QueuesInv live c)
    (hblk : ∀ i, blk = some i → i < P.numBlocks)
    (h : c.snoopThrough P T pkt blk up = .ok (c', pkt', resps)) : CacheInv P arr QueuesInv live c' := by
  obtain ⟨⟨c₁, _, _⟩, h₁, h⟩ := of_bind h
  obtain ⟨⟨c₂, _, _⟩, h₂, h⟩ := of_bind h
  cases h
  refine (hi.snoopWriteback h₁).handleSnoop hT (fun ptr hptr => ?_) h₂
  obtain ⟨i, hf, rfl⟩ := Option.map_eq_some_iff.mp hptr
  exact hblk i hf

theorem CacheInv.recvTimingSnoopReq (hT : Lawful P.toTagParams T) (hi : CacheInv P arr QueuesInv live c)
    (h : c.recvTimingSnoopReq P T now pkt up = .ok (c', pkt', resps)) : CacheInv P arr QueuesInv live c' := by
  unfold CacheState.recvTimingSnoopReq at h
  split at h
  · cases h
    exact hi
  · have hblk : ∀ i, c.tags.findBlock P.toTagParams pkt.addr pkt.isSecure = some i → i < P.numBlocks :=
      fun i hf => hi.found_lt hf
    simp only at h
    split at h
    · exact hi.snoopThrough hT hblk h
    · rename_i i hf
      split at h
      · cases h
        exact hi
      · have hs : EntryStep (c.mshrQueue.mshr i) ((c.mshrQueue.mshr i).handleSnoop pkt c.order now).1 :=
          .handleSnoop
        have hi₁ := hi.missEntry hf hs (c.order + 1)
        split at h
        · cases h
          exact hi₁
        · exact hi₁.snoopThrough hT hblk h

end Snoops

/-! ## Sending -/

section Sending
variable {σ : Type} {P : CacheParams} {arr : BlkArray} {live : Bool} {c c' : CacheState σ} {e : Entry}
  {pkt pkt' : Packet} {prefetch : Option Packet} {up : SnoopReply} {down : Option SnoopReply} {now : Tick}

theorem MshrQueue.getNextMSHR_mem {q : MshrQueue} {i : Nat} (h : q.getNextMSHR now = some i) : i ∈ q.readyList := by
  unfold MshrQueue.getNextMSHR at h
  split at h
  · cases h
  · rename_i j l hready
    split at h
    · cases h
    · cases h
      rw [hready]
      exact mem_cons_self ..

theorem QueueInv.allocated_of_ready {q : MshrQueue} {i : Nat} (hi : QueueInv q) (h : i ∈ q.readyList) :
    i ∈ q.allocatedList :=
  (hi.mem_ready.mp h).1

section
variable (hi : CacheInv P arr QueuesInv live c)
include hi

theorem CacheInv.nextPrefetch {e? : Option Entry} (h : c.nextPrefetch P now prefetch = .ok (c', e?)) :
    CacheInv P arr QueuesInv live c' ∧ ∀ e, e? = some e → e.index ∈ (c'.queue e.queue).allocatedList := by
  have hnone : ∀ e : Entry, none = some e → e.index ∈ (c.queue e.queue).allocatedList := fun e he => by cases he
  unfold CacheState.nextPrefetch at h
  split at h
  · split at h
    · cases h
      exact ⟨hi, hnone⟩
    · simp only at h
      split at h
      · obtain ⟨_, -, h⟩ := of_bind h
        obtain ⟨⟨c₁, e⟩, h₁, h⟩ := of_bind h
        cases h
        obtain ⟨hi₁, hmem⟩ := hi.allocateMissBuffer h₁
        refine ⟨hi₁, ?_⟩
        rintro _ ⟨⟩
        exact hmem
      · cases h
        exact ⟨hi, hnone⟩
  · cases h
    exact ⟨hi, hnone⟩

/-- The entry that is sent next is allocated. -/
theorem CacheInv.getNextMSHR {e? : Option Entry} (h : c.getNextMSHR P now prefetch = .ok (c', e?)) :
    CacheInv P arr QueuesInv live c' ∧ ∀ e, e? = some e → e.index ∈ (c'.queue e.queue).allocatedList := by
  have hsome : ∀ (q : QueueIndex) (i : Nat), i ∈ (c.queue q).readyList →
      ∀ e, some (Entry.mk q i) = some e → e.index ∈ (c.queue e.queue).allocatedList := by
    rintro q i hready _ ⟨⟩
    exact (hi.queueInv q).allocated_of_ready hready
  unfold CacheState.getNextMSHR at h
  split at h
  · rename_i i hmiss _
    cases h
    exact ⟨hi, hsome .mshrs i (MshrQueue.getNextMSHR_mem hmiss)⟩
  · rename_i j _ hwrite
    cases h
    exact ⟨hi, hsome .writeBuffer j (MshrQueue.getNextMSHR_mem hwrite)⟩
  · rename_i i j hmiss hwrite
    simp only at h
    split at h
    · split at h
      · rename_i k hk
        split at h
        · cases h
          exact ⟨hi, hsome .mshrs k (mem_of_find?_eq_some hk)⟩
        · cases h
          exact ⟨hi, hsome .writeBuffer j (MshrQueue.getNextMSHR_mem hwrite)⟩
      · cases h
        exact ⟨hi, hsome .writeBuffer j (MshrQueue.getNextMSHR_mem hwrite)⟩
    · split at h
      · rename_i k hk
        cases h
        exact ⟨hi, hsome .writeBuffer k (mem_of_find?_eq_some hk)⟩
      · cases h
        exact ⟨hi, hsome .mshrs i (MshrQueue.getNextMSHR_mem hmiss)⟩
  · exact hi.nextPrefetch h

theorem CacheInv.missBusPacket
    (hmem : e.index ∈ (c.queue e.queue).allocatedList) (h : c.missBusPacket P e pkt = .ok (c', pkt')) :
    CacheInv P arr QueuesInv live c' ∧ e.index ∈ (c'.queue e.queue).allocatedList := by
  obtain ⟨bus, -, h⟩ := of_bind h
  cases h
  refine ⟨hi.entry hmem .setForward, ?_⟩
  rw [setMshr, queue_setQueue]
  exact hmem

theorem CacheInv.getTimingPacket {next : Option (Entry × Packet)}
    (h : c.getTimingPacket P now prefetch up = .ok (c', next)) : CacheInv P arr QueuesInv live c' ∧
      ∀ x, next = some x → x.1.index ∈ (c'.queue x.1.queue).allocatedList := by
  obtain ⟨⟨c₁, e?⟩, h₁, h⟩ := of_bind h
  obtain ⟨hi₁, hmem⟩ := hi.getNextMSHR h₁
  cases e? with
  | none =>
    cases h
    exact ⟨hi₁, fun x hx => by cases hx⟩
  | some e =>
    have hmem := hmem e rfl
    obtain ⟨t, -, h⟩ := of_bind h
    split at h
    · obtain ⟨_, -, h⟩ := of_bind h
      cases h
      refine ⟨hi₁, ?_⟩
      rintro _ ⟨⟩
      exact hmem
    · obtain ⟨_, -, h⟩ := of_bind h
      split at h
      · obtain ⟨⟨q, _⟩, hq, h⟩ := of_bind h
        cases h
        exact ⟨hi₁.setQueueInv ((hi₁.queueInv e.queue).forceDeallocateTarget hmem hq), fun x hx => by cases hx⟩
      · obtain ⟨q, hq, h⟩ := of_bind h
        cases h
        exact ⟨hi₁.setQueueInv ((hi₁.queueInv e.queue).markInService hmem hq), fun x hx => by cases hx⟩
      · obtain ⟨⟨c₂, _⟩, h₂, h⟩ := of_bind h
        cases h
        obtain ⟨hi₂, hmem₂⟩ := hi₁.missBusPacket hmem h₂
        refine ⟨hi₂, ?_⟩
        rintro _ ⟨⟩
        exact hmem₂

theorem CacheInv.sendDeferredPacket
    (h : c.sendDeferredPacket P now prefetch up down = .ok c') : CacheInv P arr QueuesInv live c' := by
  obtain ⟨⟨c₁, next⟩, h₁, h⟩ := of_bind h
  obtain ⟨hi₁, hmem⟩ := hi.getTimingPacket h₁
  simp only at h
  split at h
  · rename_i e pkt r _
    obtain ⟨q, hq, h⟩ := of_bind h
    cases h
    exact hi₁.setQueueInv ((hi₁.queueInv e.queue).markInService (hmem (e, pkt) rfl) hq)
  · cases h
    exact hi₁

end

end Sending

end Gem5.Cache
