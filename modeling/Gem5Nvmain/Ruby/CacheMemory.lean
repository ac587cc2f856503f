import Gem5Nvmain.Lib.Exec
import Mathlib.Logic.Function.Basic

/- The cache memory of Ruby (src/mem/ruby/structures/CacheMemory.cc).

  The entries are in an array of sets and ways; `m_tag_index` is one hash for all sets, from an address to the way of
  its entry. Nothing takes a key out of the hash when the permission of the entry becomes NotPresent, and `allocate`
  may use the slot of such an entry for another address.

  An entry stands for the object that the caller makes with `new Entry`, so each allocation has a number. The address
  operations are those of src/mem/ruby/common/Address.hh. Left out: the replacement policy, with `cacheProbe` that
  asks it for a victim, the data of the entries, and the access counters. -/
namespace Gem5.Ruby
open Lib Function

/-- `physical_address_t`. -/
abbrev PhysAddress := BitVec 64

inductive AccessPermission where
  | readOnly | readWrite | maybeStale | backingStore | invalid | notPresent | busy
  deriving DecidableEq, Repr

structure CacheMemoryEntry where
  /-- The number of the object. -/
  object : Nat
  address : PhysAddress
  permission : AccessPermission
  locked : Int
  deriving DecidableEq, Repr

/-- The bits of a block offset, of a set index and of what is below it, and the ways of a set. -/
structure CacheGeometry where
  blockSizeBits : Nat
  numSetBits : Nat
  startIndexBit : Nat
  assoc : Nat
  deriving DecidableEq, Repr

namespace CacheGeometry

/-- `address == line_address(address)`. -/
def isLine (g : CacheGeometry) (a : PhysAddress) : Bool := a.toNat % 2 ^ g.blockSizeBits == 0

/-- `addressToCacheSet`, the bits from `startIndexBit` on. -/
def cacheSet (g : CacheGeometry) (a : PhysAddress) : Nat := a.toNat / 2 ^ g.startIndexBit % 2 ^ g.numSetBits

end CacheGeometry

structure CacheMemory where
  cache : Nat × Nat → Option CacheMemoryEntry
  tagIndex : PhysAddress → Option Nat
  /-- The number of entries that were made so far. -/
  objects : Nat

namespace CacheMemory

def init : CacheMemory := ⟨fun _ => none, fun _ => none, 0⟩

/-- A null pointer is followed. -/
def nullEntry : Stop := .outOfRange

variable (g : CacheGeometry)

def findTagInSet (s : CacheMemory) (cacheSet : Nat) (tag : PhysAddress) : Except Stop (Option Nat) := do
  require (g.isLine tag)
  match s.tagIndex tag with
  | none => return none
  | some loc =>
    match s.cache (cacheSet, loc) with
    | none => .error nullEntry
    | some entry => return if entry.permission ≠ .notPresent then some loc else none

def isTagPresent (s : CacheMemory) (address : PhysAddress) : Except Stop Bool := do
  let loc ← s.findTagInSet g (g.cacheSet address) address
  return loc.isSome

def cacheAvail (s : CacheMemory) (address : PhysAddress) : Bool :=
  (List.range g.assoc).any fun i =>
    match s.cache (g.cacheSet address, i) with
    | some entry => entry.address = address || entry.permission = .notPresent
    | none => true

/-- `!set[i] || set[i]->m_Permission == AccessPermission_NotPresent`. -/
def isOpen (s : CacheMemory) (cacheSet i : Nat) : Bool :=
  match s.cache (cacheSet, i) with
  | some entry => entry.permission = .notPresent
  | none => true

/-- The first open slot. -/
def openSlot (s : CacheMemory) (address : PhysAddress) : Option Nat :=
  (List.range g.assoc).find? fun i => s.isOpen (g.cacheSet address) i

/-- The entry in its slot, and the key. -/
def fill (s : CacheMemory) (address : PhysAddress) (i : Nat) : CacheMemory where
  cache := update s.cache (g.cacheSet address, i) (some ⟨s.objects, address, .invalid, -1⟩)
  tagIndex := update s.tagIndex address (some i)
  objects := s.objects + 1

def allocate (s : CacheMemory) (address : PhysAddress) : Except Stop CacheMemory := do
  require (g.isLine address)
  let present ← s.isTagPresent g address
  require (!present)
  require (s.cacheAvail g address)
  match s.openSlot g address with
  | some i => return s.fill g address i
  | none => .error (.fatal "Allocate didn't find an available entry")

def deallocate (s : CacheMemory) (address : PhysAddress) : Except Stop CacheMemory := do
  require (g.isLine address)
  let present ← s.isTagPresent g address
  require present
  let loc ← s.findTagInSet g (g.cacheSet address) address
  match loc with
  | some i => return { s with
      cache := update s.cache (g.cacheSet address, i) none
      tagIndex := update s.tagIndex address none }
  | none => return s

def lookup (s : CacheMemory) (address : PhysAddress) : Except Stop (Option CacheMemoryEntry) := do
  require (g.isLine address)
  let loc ← s.findTagInSet g (g.cacheSet address) address
  match loc with
  | some i => return s.cache (g.cacheSet address, i)
  | none => return none

end CacheMemory

/-- `AbstractCacheEntry::changePermission`. -/
def CacheMemoryEntry.changePermission (e : CacheMemoryEntry) (newPerm : AccessPermission) : CacheMemoryEntry :=
  { e with permission := newPerm, locked := if newPerm = .invalid ∨ newPerm = .notPresent then -1 else e.locked }

/-- A call that the controller makes; `slot` is where the entry is whose permission changes. -/
inductive CacheMemoryOp where
  | allocate (address : PhysAddress)
  | deallocate (address : PhysAddress)
  | changePermission (slot : Nat × Nat) (newPerm : AccessPermission)
  deriving DecidableEq, Repr

/-- The cache memory, and the entry that was last allocated for each address and not deallocated. -/
structure CacheMemoryRun where
  mem : CacheMemory
  last : PhysAddress → Option Nat

namespace CacheMemoryRun

def init : CacheMemoryRun := ⟨CacheMemory.init, fun _ => none⟩

def step (g : CacheGeometry) (s : CacheMemoryRun) : CacheMemoryOp → Except Stop CacheMemoryRun
  | .allocate a => do
    let mem ← s.mem.allocate g a
    return ⟨mem, update s.last a (some s.mem.objects)⟩
  | .deallocate a => do
    let mem ← s.mem.deallocate g a
    return ⟨mem, update s.last a none⟩
  | .changePermission slot newPerm =>
    .ok { s with mem := { s.mem with
      cache := update s.mem.cache slot ((s.mem.cache slot).map fun e => e.changePermission newPerm) } }

end CacheMemoryRun

end Gem5.Ruby
