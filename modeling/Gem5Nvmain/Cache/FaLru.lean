import Gem5Nvmain.Lib.LinkedList
import Gem5Nvmain.Lib.Exec
import Mathlib.Logic.Function.Basic

/- The fully associative LRU tag store (mem/cache/tags/fa_lru.hh, mem/cache/tags/fa_lru.cc).

  All blocks are on one doubly linked list, most recently used first. Besides the cache itself the store tracks every
  smaller cache of a power of two from 128 KiB up: `cacheBoundaries[i]` is the last block on the list that a cache of
  2^(17+i) bytes would hold, and bit `i` of `inCache` says that the block is not behind it.

  `size` is an `unsigned`, and a power of two, as is the block size: both are given by their logarithms. Below 128 KiB
  `numCaches` wraps around, and with blocks of 128 KiB or more the constructor's assertions fail.

  Correspondence (C++ ↔ Lean):
    pointers to blocks, NULL ↔ indices into `blks`, `none`
    `int` masks ↔ `BitVec 32`
    `hash_t tagHash` ↔ a function, `none` where there is no entry
    `tot_size` and `boundary` in check ↔ `Nat`: they reach 2^31 with the tail at most
  Left out: statistics other than `tagsInUse`, and latencies. -/
namespace Gem5.Cache
open Lib Function

structure FalruParams where
  sizeBits : Nat
  blkBits : Nat
  size_ge : 17 ≤ sizeBits
  size_lt : sizeBits < 32
  blk_le : blkBits ≤ 16

namespace FalruParams
variable (p : FalruParams)

def size : Nat := 2 ^ p.sizeBits
def blkSize : Nat := 2 ^ p.blkBits
def numBlocks : Nat := p.size / p.blkSize
def numCaches : Nat := p.sizeBits - 17
def cacheMask : BitVec 32 := ((1 : BitVec 32) <<< p.numCaches) - 1
def blkAlign (addr : Nat) : Nat := addr / p.blkSize * p.blkSize

end FalruParams

structure FalruBlk where
  tag : Nat := 0
  valid : Bool := false
  prev : Option Nat := none
  next : Option Nat := none
  isTouched : Bool := false
  inCache : BitVec 32 := 0
  deriving DecidableEq, Repr

structure Falru where
  blks : Nat → FalruBlk
  head : Nat
  tail : Nat
  cacheBoundaries : Nat → Option Nat
  tagHash : Nat → Option Nat := fun _ => none
  tagsInUse : Int := 0
  warmedUp : Bool := false

/-- The block a pointer points at. -/
def deref : Option Nat → Except Stop Nat
  | some i => .ok i
  | none => .error .outOfRange

/-- `mask & ~(1<<i)`. -/
def clearBit (mask : BitVec 32) (i : Nat) : BitVec 32 := mask &&& ~~~((1 : BitVec 32) <<< i)

namespace Falru

def modifyBlk (s : Falru) (i : Nat) (f : FalruBlk → FalruBlk) : Falru :=
  { s with blks := update s.blks i (f (s.blks i)) }

/-! ## Construction -/

/-- The variables of the constructor's loop. -/
structure Build where
  blks : Nat → FalruBlk
  cacheBoundaries : Nat → Option Nat
  flags : BitVec 32
  index : Nat
  j : Nat

def buildStep (b : Build) (i : Nat) : Build :=
  let blks := update b.blks i { b.blks i with
    inCache := b.flags, prev := some (i - 1), next := some (i + 1), isTouched := false }
  if i = b.index - 1 then
    { blks := blks
      cacheBoundaries := update b.cacheBoundaries b.j (some i)
      flags := clearBit b.flags b.j
      index := 2 * b.index
      j := b.j + 1 }
  else { b with blks := blks }

/-- The ends of the list, before the loop. -/
def ends (p : FalruParams) : Nat → FalruBlk :=
  update (update (fun _ => {}) 0 { next := some 1, inCache := p.cacheMask }) (p.numBlocks - 1)
    { prev := some (p.numBlocks - 2) }

def build (p : FalruParams) : Build :=
  (List.range' 1 (p.numBlocks - 2)).foldl buildStep
    ⟨ends p, fun _ => none, p.cacheMask, 2 ^ 17 / p.blkSize, 0⟩

/-- `FALRU(p)`. -/
def new (p : FalruParams) : Except Stop Falru := do
  let b := build p
  require (b.j == p.numCaches)
  require (b.index == p.numBlocks)
  pure { blks := b.blks, head := 0, tail := p.numBlocks - 1, cacheBoundaries := b.cacheBoundaries }

/-! ## The list -/

/-- One round of the loop of `moveToHead`. -/
def moveBoundary (blk : Nat) (updateMask : BitVec 32) (s : Falru) (i : Nat) : Except Stop Falru := do
  if updateMask.getLsbD i then
    let b ← deref (s.cacheBoundaries i)
    let s := s.modifyBlk b fun x => { x with inCache := clearBit x.inCache i }
    pure { s with cacheBoundaries := update s.cacheBoundaries i (s.blks b).prev }
  else if s.cacheBoundaries i = some blk then
    pure { s with cacheBoundaries := update s.cacheBoundaries i (s.blks blk).prev }
  else pure s

/-- The part of `moveToHead` that takes the block out of the list. -/
def unlink (s : Falru) (blk : Nat) : Except Stop Falru := do
  if blk = s.tail then
    require ((s.blks blk).next == none)
    let tail ← deref (s.blks blk).prev
    pure ({ s with tail := tail }.modifyBlk tail fun x => { x with next := none })
  else
    let prev ← deref (s.blks blk).prev
    let next ← deref (s.blks blk).next
    let s' := s.modifyBlk prev fun x => { x with next := some next }
    pure (s'.modifyBlk next fun x => { x with prev := some prev })

/-- The part of `moveToHead` that changes the list. -/
def relink (s : Falru) (blk : Nat) : Except Stop Falru := do
  let s ← s.unlink blk
  let s := s.modifyBlk blk fun x => { x with next := some s.head, prev := none }
  let s := s.modifyBlk s.head fun x => { x with prev := some blk }
  pure { s with head := blk }

def moveToHead (p : FalruParams) (s : Falru) (blk : Nat) : Except Stop Falru := do
  let updateMask := (s.blks blk).inCache ^^^ p.cacheMask
  let s ← (List.range p.numCaches).foldlM (moveBoundary blk updateMask) s
  let s := s.modifyBlk blk fun x => { x with inCache := p.cacheMask }
  if blk ≠ s.head then s.relink blk else pure s

/-- The loop of `check`. -/
def checkLoop (p : FalruParams) (s : Falru) : Nat → Option Nat → Nat → Nat → Nat → BitVec 32 → Except Stop Bool
  | 0, _, _, _, _, _ => .error .outOfFuel
  | _ + 1, none, _, _, _, _ => .ok true
  | fuel + 1, some blk, totSize, boundary, j, flags =>
    let totSize := totSize + p.blkSize
    if (s.blks blk).inCache ≠ flags then .ok false
    else if totSize = boundary ∧ blk ≠ s.tail then do
      let b ← deref (s.cacheBoundaries j)
      if b ≠ blk then .ok false
      else checkLoop p s fuel (s.blks blk).next totSize (2 * boundary) (j + 1) (clearBit flags j)
    else checkLoop p s fuel (s.blks blk).next totSize boundary j flags

/-- `check`: the list has at most `numBlocks` blocks. -/
def check (p : FalruParams) (s : Falru) : Except Stop Bool :=
  checkLoop p s (p.numBlocks + 1) (some s.head) 0 (2 ^ 17) 0 p.cacheMask

/-! ## Looking up and replacing -/

def hashLookup (s : Falru) (addr : Nat) : Option Nat := s.tagHash addr

def findBlock (p : FalruParams) (s : Falru) (addr : Nat) : Except Stop (Option Nat) :=
  match s.hashLookup (p.blkAlign addr) with
  | none => .ok none
  | some blk =>
    if (s.blks blk).valid then do
      require ((s.blks blk).tag == p.blkAlign addr)
      pure (some blk)
    else .ok none

/-- `accessBlock`: the block that is found, and the sizes it was in. -/
def accessBlock (p : FalruParams) (s : Falru) (addr : Nat) : Except Stop (Falru × Option Nat × BitVec 32) := do
  match ← s.findBlock p addr with
  | none => pure (s, none, 0)
  | some blk =>
    let inCache := (s.blks blk).inCache
    let s ← if blk ≠ s.head then s.moveToHead p blk else pure s
    pure (s, some blk, inCache)

def findVictim (p : FalruParams) (s : Falru) (addr : Nat) : Except Stop (Falru × Nat) := do
  let blk := s.tail
  require ((s.blks blk).inCache == 0)
  let s ← s.moveToHead p blk
  let tagHash := update (update s.tagHash (s.blks blk).tag none) (p.blkAlign addr) (some blk)
  let s := { s with tagHash := tagHash }
  if (s.blks blk).valid then pure (s, blk)
  else
    let tagsInUse := s.tagsInUse + 1
    let s := s.modifyBlk blk fun x => { x with isTouched := true }
    pure ({ s with
      tagsInUse := tagsInUse
      warmedUp := s.warmedUp || decide (tagsInUse ≥ (p.numBlocks : Int)) }, blk)

/-- `insertBlock` does nothing. -/
def insertBlock (s : Falru) (_ : Nat) : Falru := s

def invalidate (s : Falru) (_ : Nat) : Falru := { s with tagsInUse := s.tagsInUse - 1 }

end Falru

end Gem5.Cache
