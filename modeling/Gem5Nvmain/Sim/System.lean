import Gem5Nvmain.Lib.Exec

/- The physical page allocator of `System` (sim/system.cc).

  Physical memory is PCM from address 0 and DRAM behind it. Each has an array of pages with a `valid` bit and a cursor
  from which the next search starts. `allocPhysPages` looks for a run of free DRAM pages and falls back to PCM;
  `allocTextPhysPages` looks in PCM only and stops the simulation when there is no run.

  Correspondence (C++ ↔ Lean):
    `dramPagePtr[i]->valid`, `dramLocation` ↔ `dram.valid`, `dram.location`
    `pcmPagePtr[i]->valid`, `pcmLocation` ↔ `pcm.valid`, `pcm.location`
    `while(npages_copy > 0)` ↔ `lookAhead`
    `while(dramLocation < numDramPages ...)` ↔ `search`
    `for(j = dramLocation; ...)` ↔ `markRun`
  `numDramPages` and `numPcmPages` are the lengths of the two arrays. The other fields of `page_info` are not read by
  the allocator.

  Pages are numbered by `Nat`: both counts fit an `int` and a request is at least 1, so no sum of a cursor and a
  request reaches 2^64. -/
namespace Gem5.Sim
open Lib

/-- `physmem.pcmSize()`, `physmem.dramSize()` and `TheISA::PageShift`. -/
structure MemConfig where
  pcmSize : Nat
  dramSize : Nat
  pageShift : Nat
  deriving DecidableEq, Repr

/-- Bytes in a page. -/
def MemConfig.pageBytes (mem : MemConfig) : Nat := 2 ^ mem.pageShift

/-- `size >> PageShift`, narrowed to `int`. -/
def MemConfig.numPages (mem : MemConfig) (size : Nat) : Int :=
  (BitVec.ofNat 32 (size >>> mem.pageShift)).toInt

/-- A page array and its cursor. -/
structure PageArea where
  valid : List Bool
  location : Nat
  deriving DecidableEq, Repr

/-- Look at the pages after `loc`: `is_found` and the last offset `i` looked at, or `none` when an index leaves the
  array. -/
def lookAhead (valid : List Bool) (loc : Nat) : Nat → Nat → Option (Bool × Nat)
  | 0, i => some (true, i)
  | left + 1, i =>
    match valid[loc + (i + 1)]? with
    | none => none
    | some true => some (false, i + 1)
    | some false => lookAhead valid loc left (i + 1)

/-- How the search loop ended: with a run of pages `loc .. loc + i`, without one (and where the cursor was left), or
  with an index outside the array. -/
inductive Search where
  | found (loc i : Nat)
  | full (loc : Nat)
  | outOfRange
  | outOfFuel
  deriving DecidableEq, Repr

/-- The search loop. A busy page is stepped over by one, a run that is too short by the offset of the busy page in it;
  when the request no longer fits behind the cursor the search restarts at 0, once. -/
def search (valid : List Bool) (npages : Nat) : Nat → Nat → Bool → Search
  | 0, _, _ => .outOfFuel
  | fuel + 1, loc, isFirstAround =>
    if loc < valid.length then
      match valid[loc]? with
      | none => .outOfRange
      | some busy =>
        match if busy then some (false, 0) else lookAhead valid loc (npages - 1) 0 with
        | none => .outOfRange
        | some (true, i) => .found loc i
        | some (false, i) =>
          if loc + (i + 1) + npages > valid.length then
            if isFirstAround then search valid npages fuel 0 false else .full 0
          else search valid npages fuel (loc + (i + 1)) isFirstAround
    else .full loc

/-- Set `valid` on `n` pages from `loc` on. -/
def markRun (valid : List Bool) (loc : Nat) : Nat → List Bool
  | 0 => valid
  | n + 1 => markRun (valid.set loc true) (loc + 1) n

/-- The part `allocPhysPages` and `allocTextPhysPages` share: reset the cursor if the request does not fit behind it,
  search, and take the run found. -/
def PageArea.alloc (a : PageArea) (npages : Nat) : Search × PageArea :=
  let wraps := decide (a.location + npages > a.valid.length)
  let start := if wraps then 0 else a.location
  let res := search a.valid npages (2 * a.valid.length + 2) start (!wraps)
  match res with
  | .found loc i => (res, { valid := markRun a.valid loc (i + 1), location := loc + (i + 1) })
  | .full loc => (res, { a with location := loc })
  | _ => (res, a)

structure System where
  mem : MemConfig
  dram : PageArea
  pcm : PageArea
  dramPages : Int
  pcmPages : Int
  deriving DecidableEq, Repr

/-- `System::init`, in a process whose static counters still hold 0. It reads page 0 of both arrays, so both counts
  have to be positive. -/
def System.init (mem : MemConfig) : Except Stop System :=
  if 0 < mem.numPages mem.dramSize ∧ 0 < mem.numPages mem.pcmSize then
    .ok {
      mem := mem
      dram := { valid := List.replicate (mem.numPages mem.dramSize).toNat false, location := 0 }
      pcm := { valid := List.replicate (mem.numPages mem.pcmSize).toNat false, location := 0 }
      dramPages := 0
      pcmPages := 0 }
  else .error .outOfRange

def System.allocTextPhysPages (s : System) (npages : Nat) : Except Stop (System × Nat) :=
  match s.pcm.alloc npages with
  | (.found _ _, a) =>
    .ok ({ s with pcm := a, pcmPages := s.pcmPages + npages },
      (a.location - npages) <<< s.mem.pageShift)
  | (.full _, _) =>
    .error (.fatal "Out of pcm memory, please increase size of pcm memory.")
  | (.outOfRange, _) => .error .outOfRange
  | (.outOfFuel, _) => .error .outOfFuel

def System.allocPhysPages (s : System) (npages : Nat) : Except Stop (System × Nat) :=
  match s.dram.alloc npages with
  | (.found _ _, a) =>
    .ok ({ s with dram := a, dramPages := s.dramPages + npages },
      s.mem.pcmSize + (a.location - npages) <<< s.mem.pageShift)
  | (.full _, a) => { s with dram := a }.allocTextPhysPages npages
  | (.outOfRange, _) => .error .outOfRange
  | (.outOfFuel, _) => .error .outOfFuel

/-- `clearPhysPages`: it asserts `isPcm`, so its DRAM branch is for builds without assertions only. -/
def System.clearPhysPages (s : System) (isPcm : Bool) (idx : Nat) : Except Stop System := do
  require isPcm
  if isPcm then
    let _ ← index s.pcm.valid idx
    pure { s with pcmPages := s.pcmPages - 1, pcm := { s.pcm with valid := s.pcm.valid.set idx false } }
  else
    let _ ← index s.dram.valid idx
    pure { s with dramPages := s.dramPages - 1, dram := { s.dram with valid := s.dram.valid.set idx false } }

end Gem5.Sim
