import Gem5Nvmain.Cpu.LSQQueues

/- Sequential memory, and what ties the load/store queue to it.

  The stores of the thread in program order say what a load must get: of each byte the value of the youngest older
  store that covers it, or that of the memory at the start (`Run.expected`).

  `Book` ties the queues to the stores of the program: those that have left the queue (`old`) come first, then those
  in the queue, and the first `wb` of these have been sent to the cache. `Delivers` ties the memory to the stores that
  were sent. A load is `excused` when itself or an older one has been named as violator since it executed. -/
namespace Gem5.Cpu.LSQ
open Lib Function List

/-- A store of the program, with the value that it wrote to each byte. -/
structure Stored where
  seqNum : Nat
  byteAt : Nat → Option UInt8 := fun _ => none

/-- The value of the youngest of the stores that cover a byte; the oldest store comes first. -/
def youngest (stores : List Stored) (a : Nat) : Option UInt8 := stores.reverse.findSome? fun s => s.byteAt a

def Write.byteAt (w : Write) (a : Nat) : Option UInt8 :=
  if w.vaddr ≤ a ∧ a < w.vaddr + w.size then some (if w.zero then 0 else w.data (a - w.vaddr)) else none

/-! ## Runs -/

structure Run where
  unit : LSQUnit
  nextSeqNum : Nat := 1
  /-- The youngest instruction that has committed. -/
  doneSeqNum : Nat := 0
  /-- The stores that were inserted and not squashed. -/
  program : List Stored := []
  excused : Nat → Bool := fun _ => false

inductive Op where
  | insertLoad (seqNum : Nat)
  | insertStore (seqNum : Nat)
  | executeLoad (loadIdx : Nat) (a : Access) (answers : List Bool)
  | executeStore (storeIdx : Nat) (w : Option Write)
  | commit (youngestInst : Nat)
  | squash (squashedNum : Nat)
  | writebackStores (answers : List Bool)
  | recvRetry (answers : List Bool)
  | storeResponse (storeIdx : Nat)

namespace Run
variable (p : Params) (phys : Nat → Nat)

def init (memory : Nat → UInt8) : Run := { unit := { dcache := { memory := memory } } }

/-- The cache is about to give these answers. -/
def asks (x : Run) (answers : List Bool) : LSQUnit :=
  { x.unit with dcache := { x.unit.dcache with answers := answers } }

/-- All accesses up to the instruction have executed, as the reorder buffer commits in order. -/
def committable (u : LSQUnit) (youngestInst : Nat) : Bool :=
  ((range p.lqEntries).all fun i => (u.loadQueue i).all fun ld => decide (youngestInst < ld.seqNum) || ld.executed) &&
  ((range p.sqEntries).all fun i => (u.storeQueue i).all fun e =>
    decide (youngestInst < e.inst.seqNum) || e.inst.executed)

/-- The load has its data from now on. -/
def loaded (x : Run) (loadIdx : Nat) (u : LSQUnit) : Run :=
  { x with
    unit := u
    excused := match u.loadQueue loadIdx with
      | some ld => if ld.executed then update x.excused ld.seqNum false else x.excused
      | none => x.excused }

/-- Execution takes the violator from the queue at once, to squash from it on. -/
def named (x : Run) (u : LSQUnit) : Run :=
  { x with
    unit := { u with memDepViolator := none }
    excused := fun s => x.excused s || u.memDepViolator.any fun v => decide (v ≤ s) }

/-- The store writes. -/
def wrote (x : Run) (seqNum : Nat) (w : Option Write) : Run :=
  { x with program := x.program.map fun s =>
      if s.seqNum = seqNum then { s with byteAt := fun a => w.bind fun w => w.byteAt a } else s }

def step (x : Run) : Op → Except Stop Run
  | .insertLoad seqNum => do
    require (decide (x.nextSeqNum ≤ seqNum))
    let u ← x.unit.insertLoad p seqNum
    pure { x with unit := u, nextSeqNum := seqNum + 1 }
  | .insertStore seqNum => do
    require (decide (x.nextSeqNum ≤ seqNum))
    let u ← x.unit.insertStore p seqNum
    pure { x with unit := u, nextSeqNum := seqNum + 1, program := x.program ++ [{ seqNum := seqNum }] }
  | .executeLoad loadIdx a answers => do
    let u ← (x.asks answers).executeLoad p phys loadIdx a
    pure (x.loaded loadIdx u)
  | .executeStore storeIdx w => do
    let e ← deref (x.unit.storeQueue storeIdx)
    let u ← x.unit.executeStore p storeIdx w
    pure ((x.wrote e.inst.seqNum w).named u)
  | .commit youngestInst => do
    require (decide (youngestInst < x.nextSeqNum) && committable p x.unit youngestInst)
    let u ← LSQUnit.commitStores p youngestInst (p.sqEntries + 1) x.unit.storeHead x.unit
    let u ← LSQUnit.commitLoads p youngestInst u.loads u
    pure { x with unit := u, doneSeqNum := max x.doneSeqNum youngestInst }
  | .squash squashedNum => do
    -- what has committed is not squashed
    require (decide (x.doneSeqNum ≤ squashedNum))
    let u ← x.unit.squash p squashedNum
    pure { x with unit := u, program := x.program.filter fun s => s.seqNum ≤ squashedNum }
  | .writebackStores answers => do
    let u ← (x.asks answers).writebackStores p phys
    pure { x with unit := u }
  | .recvRetry answers => do
    let u ← (x.asks answers).recvRetry p phys
    pure { x with unit := u }
  | .storeResponse storeIdx => do
    let u ← x.unit.storeResponse p storeIdx
    pure { x with unit := u }

end Run

/-- The size is kept in a byte. -/
def Access.small (a : Access) : Bool := decide (a.size < 256)

/-- The sums that are compared tell how a request and a store lie. The sum is zero at the end of the address space. -/
def comparable (a : Access) (e : SQEntry) : Bool :=
  if a.vaddr + a.size < 2 ^ 64 then decide (e.inst.effAddr + e.size < 2 ^ 64 ∨ a.vaddr + a.size ≤ e.inst.effAddr)
  else decide (e.inst.effAddr + e.size = 2 ^ 64 ∧ e.inst.effAddr ≤ a.vaddr)

namespace LSQUnit

/-- An older store with data that was not sent. -/
def looksAt (u : LSQUnit) (load : DynInst) (storeIdx : Nat) (e : SQEntry) : Bool :=
  decide (e.inst.seqNum < load.seqNum) && e.size != 0 && !e.completed && (!e.committed || storeIdx == u.storeWBIdx)

def comparable (p : Params) (u : LSQUnit) (loadIdx : Nat) (a : Access) : Bool :=
  (u.loadQueue loadIdx).all fun load => (range p.sqEntries).all fun i => (u.storeQueue i).all fun e =>
    !u.looksAt load i e || LSQ.comparable a e

end LSQUnit

/-- The request of a load that is executed is comparable with the stores that it looks at, and sizes fit in a byte. -/
def plain (p : Params) (x : Run) : Op → Bool
  | .executeLoad loadIdx a _ => a.small && x.unit.comparable p loadIdx a
  | .executeStore _ (some w) => w.small
  | _ => true

section Sequential
variable (phys : Nat → Nat) (memory : Nat → UInt8)

/-- A byte after some stores. -/
def content (stores : List Stored) (a : Nat) : UInt8 := (youngest stores a).getD (memory (phys a))

/-- What a load with this number must get. -/
def Run.expected (x : Run) (seqNum a : Nat) : UInt8 := content phys memory (x.program.filter fun s => s.seqNum < seqNum) a

end Sequential

/-! ## The queues and the program -/

/-- The value that an entry of the store queue writes to a byte. -/
def SQEntry.byteAt (e : SQEntry) (a : Nat) : Option UInt8 :=
  if e.size ≠ 0 ∧ e.inst.effAddr ≤ a ∧ a < e.inst.effAddr + e.size then
    some (LSQUnit.storeData e (a - e.inst.effAddr))
  else none

def SQEntry.stored (e : SQEntry) : Stored := ⟨e.inst.seqNum, e.byteAt⟩

def seqNums (S : List SQEntry) : List Nat := S.map fun e => e.inst.seqNum

/-- An entry at place `k` of the store queue, of which the first `wb` were sent. -/
structure EntryOk (p : Params) (x : Run) (L : List DynInst) (wb k : Nat) (e : SQEntry) : Prop where
  canWB : e.canWB = true → e.inst.seqNum ≤ x.doneSeqNum ∧ e.inst.executed = true
  sent : k < wb → e.canWB = true
  waits : wb ≤ k → e.completed = false
  unsent : wb < k → e.committed = false
  blank : e.inst.executed = false → e.size = 0
  fits : e.size ≠ 0 → e.inst.effAddr + e.size ≤ 2 ^ 64
  split : ∀ low, e.sreqLow = some low → low ≤ e.size
  /-- The first load that is younger. -/
  place : e.inst.executed = false →
    e.inst.lqIdx = ringSlot p.lqEntries x.unit.loadHead (below (L.map DynInst.seqNum) e.inst.seqNum)

/-- A load looks at the stores that are older. -/
structure LoadOk (p : Params) (x : Run) (S : List SQEntry) (wb : Nat) (ld : DynInst) : Prop where
  waits : x.doneSeqNum < ld.seqNum
  fresh : ld.seqNum < x.nextSeqNum
  none : ld.sqIdx = none → below (seqNums S) ld.seqNum ≤ wb
  some : ∀ i, ld.sqIdx = some i → i = ringSlot p.sqEntries x.unit.storeHead (below (seqNums S) ld.seqNum)
  valid : ld.executed = true → ld.effAddrValid = true ∧ ld.effAddr + ld.effSize ≤ 2 ^ 64

theorem EntryOk.congr {p : Params} {x y : Run} {L : List DynInst} {wb k : Nat} {e : SQEntry} (h : EntryOk p x L wb k e)
    (hdone : y.doneSeqNum = x.doneSeqNum) (hhead : y.unit.loadHead = x.unit.loadHead) : EntryOk p y L wb k e :=
  ⟨by rw [hdone]; exact h.canWB, h.sent, h.waits, h.unsent, h.blank, h.fits, h.split, by rw [hhead]; exact h.place⟩

theorem LoadOk.congr {p : Params} {x y : Run} {S : List SQEntry} {wb : Nat} {ld : DynInst} (h : LoadOk p x S wb ld)
    (hdone : y.doneSeqNum = x.doneSeqNum) (hnext : y.nextSeqNum = x.nextSeqNum)
    (hhead : y.unit.storeHead = x.unit.storeHead) : LoadOk p y S wb ld :=
  ⟨by rw [hdone]; exact h.waits, by rw [hnext]; exact h.fresh, h.none, by rw [hhead]; exact h.some, h.valid⟩

structure Book (p : Params) (x : Run) (L : List DynInst) (S : List SQEntry) (wb : Nat) (old : List Stored) : Prop where
  queues : Queues p x.unit L S
  wbIdx : x.unit.storeWBIdx = ringSlot p.sqEntries x.unit.storeHead wb
  wb_le : wb ≤ S.length
  violator : x.unit.memDepViolator = none
  program : x.program = old ++ S.map SQEntry.stored
  sorted : (x.program.map Stored.seqNum).Pairwise (· < ·)
  fresh : ∀ s ∈ x.program, s.seqNum < x.nextSeqNum
  done_lt : x.doneSeqNum < x.nextSeqNum
  settled : ∀ s ∈ old, s.seqNum ≤ x.doneSeqNum
  loads_sorted : (L.map DynInst.seqNum).Pairwise (· < ·)
  entries : ∀ k e, S[k]? = some e → EntryOk p x L wb k e
  loads : ∀ ld ∈ L, LoadOk p x S wb ld

/-- The loads that have executed and are not excused have got what they must. -/
def Values (phys : Nat → Nat) (memory : Nat → UInt8) (x : Run) (L : List DynInst) : Prop :=
  ∀ ld ∈ L, ld.executed = true → x.excused ld.seqNum = false →
    ∀ i < ld.effSize, ld.memData i = x.expected phys memory ld.seqNum (ld.effAddr + i)

namespace Book
variable {p : Params} {x : Run} {u : LSQUnit} {L : List DynInst} {S : List SQEntry} {wb k : Nat} {old : List Stored}
  {e : SQEntry} {ld : DynInst}

theorem of_core (hb : Book p x L S wb old) (h : u.core = x.unit.core) : Book p { x with unit := u } L S wb old := by
  have hcore : Book p { x with unit := x.unit.core } L S wb old :=
    ⟨hb.queues.of_core rfl, hb.wbIdx, hb.wb_le, hb.violator, hb.program, hb.sorted, hb.fresh, hb.done_lt, hb.settled,
      hb.loads_sorted, fun k e he => (hb.entries k e he).congr rfl rfl, fun ld hld => (hb.loads ld hld).congr rfl rfl rfl⟩
  rw [← h] at hcore
  exact ⟨hcore.queues.of_core rfl, hcore.wbIdx, hcore.wb_le, hcore.violator, hcore.program, hcore.sorted, hcore.fresh,
    hcore.done_lt, hcore.settled, hcore.loads_sorted, fun k e he => (hcore.entries k e he).congr rfl rfl,
    fun ld hld => (hcore.loads ld hld).congr rfl rfl rfl⟩

theorem stores_sorted (hb : Book p x L S wb old) : (seqNums S).Pairwise (· < ·) := by
  have hs := hb.sorted
  rw [hb.program, map_append, map_map] at hs
  exact (pairwise_append.mp hs).2.1

theorem seqNum_mem (hk : S[k]? = some e) : (seqNums S)[k]? = some e.inst.seqNum := by
  rw [seqNums, getElem?_map, hk]
  rfl

theorem wb_le_below (hb : Book p x L S wb old) (hld : ld ∈ L) : wb ≤ below (seqNums S) ld.seqNum := by
  by_contra hlt
  have hk : below (seqNums S) ld.seqNum < S.length := by
    have := hb.wb_le
    omega
  have hS := getElem?_eq_getElem hk
  have hent := hb.entries _ _ hS
  have hdone := (hent.canWB (hent.sent (by omega))).1
  have hlt := (hb.loads ld hld).waits
  have := (lt_iff_lt_below hb.stores_sorted (seqNum_mem hS)).mp (Nat.lt_of_le_of_lt hdone hlt)
  exact Nat.lt_irrefl _ this

theorem below_le (S : List SQEntry) (b : Nat) : below (seqNums S) b ≤ S.length := by
  have h : below (seqNums S) b ≤ (seqNums S).length := countP_le_length
  rwa [seqNums, length_map] at h

theorem older_eq (hb : Book p x L S wb old) (hld : ld ∈ L) : x.program.filter (fun s => s.seqNum < ld.seqNum) =
    old ++ (S.map SQEntry.stored).take (below (seqNums S) ld.seqNum) := by
  have hlt := (hb.loads ld hld).waits
  have hold : old.filter (fun s => s.seqNum < ld.seqNum) = old := by
    apply filter_eq_self.mpr
    intro s hs
    exact decide_eq_true (Nat.lt_of_le_of_lt (hb.settled s hs) hlt)
  have hkeys : (S.map SQEntry.stored).map Stored.seqNum = seqNums S := by
    rw [map_map]
    rfl
  rw [hb.program, filter_append, hold]
  congr 1
  rw [← hkeys]
  exact filter_lt_eq_take (hkeys ▸ hb.stores_sorted) ld.seqNum

end Book

/-! ## The youngest store -/

section Youngest
variable {l l' : List Stored} {s : Stored} {a : Nat}

theorem youngest_append (l l' : List Stored) (a : Nat) : youngest (l ++ l') a = (youngest l' a).or (youngest l a) := by
  unfold youngest
  rw [reverse_append, findSome?_append]

theorem youngest_concat (l : List Stored) (s : Stored) (a : Nat) :
    youngest (l ++ [s]) a = (s.byteAt a).or (youngest l a) := by
  rw [youngest_append]
  simp [youngest]

theorem youngest_eq_none (h : ∀ s ∈ l, s.byteAt a = none) : youngest l a = none := by
  apply findSome?_eq_none_iff.mpr
  intro s hs
  exact h s (mem_reverse.mp hs)

theorem youngest_append_of_none (h : ∀ s ∈ l', s.byteAt a = none) : youngest (l ++ l') a = youngest l a := by
  rw [youngest_append, youngest_eq_none h]
  rfl

end Youngest

end Gem5.Cpu.LSQ
