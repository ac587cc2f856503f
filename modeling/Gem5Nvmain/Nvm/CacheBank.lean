import Gem5Nvmain.Nvm.DataBlock
import Mathlib.Logic.Function.Basic

/- The cache bank (`CacheBank`).

  A set is an array of entries, the most recently used one first. `read` and `write` go through the whole set and move
  an entry that hits to the front: the entries before it are copied one place back, by a loop that ends at place 0 in
  `read` and at place 1 in `write`. An address is its physical address, and `decode` is the function that gives its
  set. All data blocks of a bank are of one size, so to assign one copies it.

  A command takes its time: the bank is busy until a response is delivered. The responses to the commands and those
  for the lines that writes evict are in `responses`, in the order of their events; the first `delivered` of them have
  been delivered. -/
namespace Nvm
open Lib Function

structure CacheConfig where
  numAssoc : Nat
  decode : Nat → Nat

structure CacheEntry where
  address : Nat := 0
  data : NVMDataBlock := {}
  valid : Bool := false
  dirty : Bool := false
  deriving DecidableEq, Repr

namespace CacheEntry

/-- The test of the loops: the address is the entry's, and the entry is valid. -/
def hits (addr : Nat) (e : CacheEntry) : Bool := decide (e.address = addr) && e.valid

end CacheEntry

/-! ## The loops over a set -/

section Loops
variable (addr : Nat) (data : NVMDataBlock)

/-- `Present`. -/
def presentIn (set : List CacheEntry) : Bool := set.any (·.hits addr)

/-- `SetFull`. -/
def fullSet (set : List CacheEntry) : Bool := set.all (·.valid)

/-- `Install`, which returns false if there is no place. -/
def installIn : List CacheEntry → List CacheEntry × Bool
  | [] => ([], false)
  | e :: set =>
    if !e.valid then ({ e with address := addr, data, valid := true } :: set, true)
    else
      let r := installIn set
      (e :: r.1, r.2)

/-- `for( j = i; j > stop; j-- ) set[j] = set[j-1]`. -/
def copyBack (stop : Nat) : Nat → List CacheEntry → List CacheEntry
  | 0, set => set
  | j + 1, set =>
    if j + 1 > stop then
      match set[j]? with
      | some e => copyBack stop j (set.set (j + 1) e)
      | none => set
    else set

/-- The entry at `i` moves to the front; it is `tmp` there. -/
def toFront (stop i : Nat) (tmp : CacheEntry) (set : List CacheEntry) : List CacheEntry := (copyBack stop i set).set 0 tmp

/-- The loop of `Read`, with the data. -/
def readAt (t : List CacheEntry × Option NVMDataBlock) (i : Nat) : List CacheEntry × Option NVMDataBlock :=
  match t.1[i]? with
  | some e => if e.hits addr then (toFront 0 i e t.1, some e.data) else t
  | none => t

def readIn (set : List CacheEntry) : List CacheEntry × Option NVMDataBlock :=
  (List.range set.length).foldl (readAt addr) (set, none)

/-- The loop of `Write`. -/
def writeAt (set : List CacheEntry) (i : Nat) : List CacheEntry :=
  match set[i]? with
  | some e =>
    if e.hits addr then
      let tmp : CacheEntry := { e with data, dirty := true }
      toFront 1 i tmp (set.set i tmp)
    else set
  | none => set

def writeIn (set : List CacheEntry) : List CacheEntry := (List.range set.length).foldl (writeAt addr data) set

def updateEntry (e : CacheEntry) : CacheEntry := if e.hits addr then { e with data } else e

/-- `UpdateData`. -/
def updateIn (set : List CacheEntry) : List CacheEntry := set.map (updateEntry addr data)

/-- `Evict`, with the data and whether it is dirty. -/
def evictIn : List CacheEntry → List CacheEntry × Option (NVMDataBlock × Bool)
  | [] => ([], none)
  | e :: set =>
    if e.hits addr then ({ e with valid := false, dirty := false } :: set, some (e.data, e.dirty))
    else
      let r := evictIn set
      (e :: r.1, r.2)

end Loops

/-! ## The bank -/

structure CacheBank where
  cacheEntry : Nat → List CacheEntry

namespace CacheBank
variable (c : CacheConfig) (s : CacheBank)

/-- The constructor: no entry is valid. -/
def init : CacheBank := { cacheEntry := fun _ => List.replicate c.numAssoc {} }

/-- `FindSet`. -/
def findSet (addr : Nat) : List CacheEntry := s.cacheEntry (c.decode addr)

def putSet (addr : Nat) (set : List CacheEntry) : CacheBank := { cacheEntry := update s.cacheEntry (c.decode addr) set }

def present (addr : Nat) : Bool := presentIn addr (s.findSet c addr)

def setFull (addr : Nat) : Bool := fullSet (s.findSet c addr)

def install (addr : Nat) (data : NVMDataBlock) : CacheBank := s.putSet c addr (installIn addr data (s.findSet c addr)).1

def read (addr : Nat) : Except Stop (CacheBank × Option NVMDataBlock) := do
  require (s.present c addr)
  let r := readIn addr (s.findSet c addr)
  pure (s.putSet c addr r.1, r.2)

def write (addr : Nat) (data : NVMDataBlock) : Except Stop CacheBank := do
  require (s.present c addr)
  pure (s.putSet c addr (writeIn addr data (s.findSet c addr)))

def updateData (addr : Nat) (data : NVMDataBlock) : Except Stop CacheBank := do
  require (s.present c addr)
  pure (s.putSet c addr (updateIn addr data (s.findSet c addr)))

/-- `ChooseVictim`: the last entry, and whether it is dirty. -/
def chooseVictim (addr : Nat) : Except Stop (Nat × Bool) := do
  require (s.setFull c addr)
  let e ← index (s.findSet c addr) (c.numAssoc - 1)
  require e.valid
  pure (e.address, e.dirty)

def evict (addr : Nat) : Except Stop (CacheBank × Option (NVMDataBlock × Bool)) := do
  require (s.present c addr)
  let r := evictIn addr (s.findSet c addr)
  pure (s.putSet c addr r.1, r.2)

inductive Op where
  | install (addr : Nat) (data : NVMDataBlock)
  | read (addr : Nat)
  | write (addr : Nat) (data : NVMDataBlock)
  | updateData (addr : Nat) (data : NVMDataBlock)
  | evict (addr : Nat)
  | chooseVictim (addr : Nat)
  deriving DecidableEq, Repr

def step : Op → Except Stop CacheBank
  | .install addr data => .ok (s.install c addr data)
  | .read addr => do
    let r ← s.read c addr
    pure r.1
  | .write addr data => s.write c addr data
  | .updateData addr data => s.updateData c addr data
  | .evict addr => do
    let r ← s.evict c addr
    pure r.1
  | .chooseVictim addr => do
    let _ ← s.chooseVictim c addr
    pure s

end CacheBank

/-! ## Commands -/

/-- `CacheOperation`, as far as it comes in a request. -/
inductive CacheOperation where
  | read
  | write
  | evict
  deriving DecidableEq, Repr

structure CacheRequest where
  optype : CacheOperation
  address : Nat
  data : NVMDataBlock := {}
  hit : Bool := false
  deriving DecidableEq, Repr

structure CacheController where
  bank : CacheBank
  busy : Bool := false
  responses : List CacheRequest := []
  delivered : Nat := 0

namespace CacheController
variable (c : CacheConfig) (s : CacheController)

def init : CacheController := { bank := CacheBank.init c }

/-- A full set makes room for a write: the line that is evicted goes out in a request of its own. -/
def makeRoom (bank : CacheBank) (addr : Nat) : Except Stop (CacheBank × Option CacheRequest) :=
  if bank.setFull c addr then do
    let victim ← bank.chooseVictim c addr
    let r ← bank.evict c victim.1
    pure (r.1, some { optype := .evict, address := victim.1, data := (r.2.map (·.1)).getD {} })
  else .ok (bank, none)

def issueRead (addr : Nat) : Except Stop CacheController := do
  require (!s.busy)
  if s.bank.present c addr then
    let r ← s.bank.read c addr
    pure { s with
      bank := r.1
      busy := true
      responses := s.responses ++ [{ optype := .read, address := addr, data := r.2.getD {}, hit := true }] }
  else
    pure { s with
      busy := true
      responses := s.responses ++ [{ optype := .read, address := addr, hit := false }] }

/-- A write that misses installs the line. -/
def writeOrInstall (bank : CacheBank) (hit : Bool) (addr : Nat) (data : NVMDataBlock) : Except Stop CacheBank :=
  if hit then bank.write c addr data else .ok (bank.install c addr data)

def issueWrite (addr : Nat) (data : NVMDataBlock) : Except Stop CacheController := do
  require (!s.busy)
  let r ← makeRoom c s.bank addr
  let hit := r.1.present c addr
  let bank ← writeOrInstall c r.1 hit addr data
  pure { s with
    bank
    busy := true
    responses := s.responses ++ r.2.toList ++ [{ optype := .write, address := addr, data, hit }] }

/-- `RequestComplete`, of the next response. -/
def requestComplete : Except Stop CacheController :=
  if s.delivered < s.responses.length then .ok { s with busy := false, delivered := s.delivered + 1 }
  else .error .outOfRange

/-- A command is issued, or a response is delivered. -/
inductive Command where
  | read (addr : Nat)
  | write (addr : Nat) (data : NVMDataBlock)
  | complete
  deriving DecidableEq, Repr

def step : Command → Except Stop CacheController
  | .read addr => s.issueRead c addr
  | .write addr data => s.issueWrite c addr data
  | .complete => s.requestComplete

end CacheController

end Nvm
