import Gem5Nvmain.Mem.Packet

/- A cache block (mem/cache/blk.hh, mem/cache/blk.cc).

  `status` is one Boolean per bit of `CacheBlkStatusBits`. `asid` and `asid_dirty` are what the BRP tag store counts
  in its shadow blocks.

  Left out: what is only reported (`task_id`, `tickInserted`, `refCount`), the bit `BlkReferenced` and `size`, which
  nothing reads, and `whenReady`, which only delays a hit. `rrpv` belongs to one replacement policy and is kept there.
  The set of a block that is in no set (-1 in the source) is never used. -/
namespace Gem5.Cache
open Lib Gem5.Mem

/-- `CacheBlk::Lock`. -/
structure Lock where
  contextId : Nat
  lowAddr : Nat
  highAddr : Nat
  deriving DecidableEq, Repr

namespace Lock

/-- `req->contextId()`, which asserts that there is one. -/
def reqContext (req : Request) : Except Stop Nat :=
  match req.contextId with
  | some c => .ok c
  | none => .error .assertFailed

def ofRequest (req : Request) : Except Stop Lock := do
  let c ← reqContext req
  pure ⟨c, req.paddr, req.paddr + req.size - 1⟩

def matchesContext (l : Lock) (req : Request) (context : Nat) : Bool :=
  l.contextId == context && decide (l.lowAddr ≤ req.paddr) &&
    decide (req.paddr + req.size - 1 ≤ l.highAddr)

def overlapping (l : Lock) (req : Request) : Bool :=
  decide (req.paddr ≤ l.highAddr) && decide (l.lowAddr ≤ req.paddr + req.size - 1)

end Lock

structure CacheBlk where
  tag : Nat := 0
  data : List Byte := []
  valid : Bool := false
  writable : Bool := false
  readable : Bool := false
  dirty : Bool := false
  hwPrefetched : Bool := false
  secure : Bool := false
  canGoExclusive : Bool := false
  set : Nat := 0
  isTouched : Bool := false
  isPcm : Bool := true
  srcMasterId : Nat := invldMasterId
  lockList : List Lock := []
  asid : Int := 0
  asidDirty : Int := 0
  deriving DecidableEq, Repr

namespace CacheBlk

def isWritable (b : CacheBlk) : Bool := b.writable && b.valid

def isReadable (b : CacheBlk) : Bool := b.readable && b.valid

/-- `invalidate`: `status = 0`, and the load locks go. -/
def invalidate (b : CacheBlk) : CacheBlk :=
  { b with
    valid := false
    writable := false
    readable := false
    dirty := false
    hwPrefetched := false
    secure := false
    canGoExclusive := false
    isTouched := false
    lockList := [] }

def trackLoadLocked (b : CacheBlk) (pkt : Packet) : Except Stop CacheBlk := do
  require pkt.isLLSC
  let l ← Lock.ofRequest pkt.req
  pure { b with lockList := l :: b.lockList }

/-- `clearLoadLocks(req)`. -/
def clearLoadLocks (b : CacheBlk) (req : Request) : CacheBlk :=
  { b with lockList := b.lockList.filter fun l => !l.overlapping req }

/-- `checkWrite`: the block and the packet afterwards, and whether the write proceeds. A store conditional asks for
  the context only when there is a lock. -/
def checkWrite (b : CacheBlk) (pkt : Packet) : Except Stop (CacheBlk × Packet × Bool) :=
  if pkt.isLLSC then
    if b.lockList.isEmpty then
      .ok (b, { pkt with req := { pkt.req with extraData := 0 } }, false)
    else do
      let c ← Lock.reqContext pkt.req
      let success := b.lockList.any fun l => l.matchesContext pkt.req c
      pure (b.clearLoadLocks pkt.req,
        { pkt with req := { pkt.req with extraData := if success then 1 else 0 } }, success)
  else .ok (b.clearLoadLocks pkt.req, pkt, true)

/-- Two states of a block that the tag store counts alike. -/
structure SameLine (b b' : CacheBlk) : Prop where
  tag : b'.tag = b.tag
  valid : b'.valid = b.valid
  secure : b'.secure = b.secure
  set : b'.set = b.set
  isTouched : b'.isTouched = b.isTouched
  isPcm : b'.isPcm = b.isPcm
  srcMasterId : b'.srcMasterId = b.srcMasterId

theorem SameLine.refl (b : CacheBlk) : SameLine b b := ⟨rfl, rfl, rfl, rfl, rfl, rfl, rfl⟩

theorem SameLine.trans {b b' b'' : CacheBlk} (h₁ : SameLine b b') (h₂ : SameLine b' b'') : SameLine b b'' :=
  ⟨h₂.tag.trans h₁.tag, h₂.valid.trans h₁.valid, h₂.secure.trans h₁.secure, h₂.set.trans h₁.set,
    h₂.isTouched.trans h₁.isTouched, h₂.isPcm.trans h₁.isPcm, h₂.srcMasterId.trans h₁.srcMasterId⟩

theorem clearLoadLocks_same (b : CacheBlk) (req : Request) :
    SameLine b (b.clearLoadLocks req) ∧ (b.clearLoadLocks req).dirty = b.dirty :=
  ⟨⟨rfl, rfl, rfl, rfl, rfl, rfl, rfl⟩, rfl⟩

theorem checkWrite_same {b b' : CacheBlk} {pkt pkt' : Packet} {ok : Bool}
    (h : b.checkWrite pkt = .ok (b', pkt', ok)) : SameLine b b' := by
  unfold checkWrite at h
  split at h
  · split at h
    · cases h
      exact .refl b
    · obtain ⟨_, _, h⟩ := of_bind h
      cases h
      exact (clearLoadLocks_same b pkt.req).1
  · cases h
    exact (clearLoadLocks_same b pkt.req).1

theorem trackLoadLocked_same {b b' : CacheBlk} {pkt : Packet} (h : b.trackLoadLocked pkt = .ok b') :
    SameLine b b' ∧ b'.dirty = b.dirty := by
  obtain ⟨_, _, h⟩ := of_bind h
  obtain ⟨_, _, h⟩ := of_bind h
  cases h
  exact ⟨⟨rfl, rfl, rfl, rfl, rfl, rfl, rfl⟩, rfl⟩

end CacheBlk

end Gem5.Cache
