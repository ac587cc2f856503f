import Mathlib.Logic.Function.Basic
import Gem5Nvmain.Lib.Exec

/- The page lists of the migrating crossbar (mem/xbar_control.cc, sim/system.cc).

  Every physical page has a record (`page_info`), PCM pages in front of DRAM pages, and a pointer to a record is the
  number of its page. A record is linked into one of the fifteen queues of accessed pages, the list of PCM pages that
  are not ranked, or the list of DRAM victims.

  The record's `page_number` has 20 bits. `PhysicalMemory::watershed`, where DRAM begins, is the size of the PCM. Left
  out: the record's `valid` bit, which these functions do not read; and of the migration engine everything but the
  calls that take the next page to migrate and end a migration (its flags, the page bitmaps, the locked pages). The
  time an unaccessed record was accessed last is not initialized in the source, and not read. -/
namespace Gem5.Mem
open Lib

/-- `page_info`. -/
structure PageInfo where
  page_number : Nat
  queue_number : Nat
  flag : Nat
  access_counter : Nat
  last_access_time : Nat
  pre : Option Nat
  next : Option Nat
  deriving DecidableEq, Repr

/-- The lists a record can be on: `MQ_head[q]`, `DRAM_victim_list` and `PCM_unranked_list`. -/
inductive PageList where
  | MQ (q : Nat)
  | DRAM_victim
  | PCM_unranked
  deriving DecidableEq, Repr

structure XBarControl where
  numPcmPages : Nat
  numDramPages : Nat
  page : Nat → PageInfo
  head : PageList → Option Nat
  tail : PageList → Option Nat
  /-- pairs of a thread and a PCM page -/
  migratingPage : List (Int × Nat)

namespace XBarControl

/-! ## Records and ends -/

/-- Number of queues. -/
def numQueues : Nat := 15

def setPage (s : XBarControl) (x : Nat) (f : PageInfo → PageInfo) : XBarControl :=
  { s with page := Function.update s.page x (f (s.page x)) }

def setNext (s : XBarControl) (x : Nat) (v : Option Nat) : XBarControl := s.setPage x fun i => { i with next := v }

def setPre (s : XBarControl) (x : Nat) (v : Option Nat) : XBarControl := s.setPage x fun i => { i with pre := v }

def setHead (s : XBarControl) (id : PageList) (v : Option Nat) : XBarControl :=
  { s with head := Function.update s.head id v }

def setTail (s : XBarControl) (id : PageList) (v : Option Nat) : XBarControl :=
  { s with tail := Function.update s.tail id v }

/-- The record behind a pointer. -/
def deref : Option Nat → Except Stop Nat
  | some x => .ok x
  | none => .error (.fatal "null page")

/-! ## System::init -/

def newPage (number : Nat) (pre : Option Nat) : PageInfo :=
  { page_number := number % 2 ^ 20, queue_number := 0, flag := 0, access_counter := 0, last_access_time := 0,
    pre := pre, next := none }

/-- One pass of a loop: page `x` is linked behind `page_info_pre`. -/
def initPage (s : XBarControl) (page_info_pre : Option Nat) (x : Nat) : XBarControl :=
  let s := s.setPage x fun _ => newPage x page_info_pre
  match page_info_pre with
  | some y => s.setNext y (some x)
  | none => s

/-- The loop over `count` pages from `first` on. -/
def initPages (s : XBarControl) (first : Nat) : Nat → XBarControl
  | 0 => s
  | count + 1 =>
    (s.initPages first count).initPage (if count = 0 then none else some (first + count - 1)) (first + count)

/-- The records of one kind of page, and the list of all of them. -/
def initList (s : XBarControl) (id : PageList) (first count : Nat) : Except Stop XBarControl :=
  if count = 0 then .error .outOfRange
  else
    let s := (s.initPages first count).setPre first none
    .ok ((s.setHead id (some first)).setTail id (some (first + count - 1)))

def init (numPcmPages numDramPages : Nat) : Except Stop XBarControl := do
  let s : XBarControl :=
    { numPcmPages := numPcmPages, numDramPages := numDramPages, page := fun x => newPage x none,
      head := fun _ => none, tail := fun _ => none, migratingPage := [] }
  let s ← s.initList .DRAM_victim numPcmPages numDramPages
  s.initList .PCM_unranked 0 numPcmPages

/-! ## Putting a page on a list -/

def insert_into_MQ (s : XBarControl) (page_temp MQ_number : Nat) : Except Stop XBarControl := do
  require (decide (MQ_number < numQueues))
  let s := s.setPage page_temp fun i => { i with queue_number := MQ_number }
  match s.tail (.MQ MQ_number) with
  | none =>
    let s := (s.setHead (.MQ MQ_number) (some page_temp)).setTail (.MQ MQ_number) (some page_temp)
    pure ((s.setPre page_temp none).setNext page_temp none)
  | some _ => do
    let y ← deref (s.head (.MQ MQ_number))
    let s := s.setPre y (some page_temp)
    let s := s.setNext page_temp (s.head (.MQ MQ_number))
    let s := s.setPre page_temp none
    pure (s.setHead (.MQ MQ_number) (some page_temp))

/-- Put a page at the end of a list. -/
def insertLast (s : XBarControl) (id : PageList) (page_temp : Nat) : XBarControl :=
  match s.tail id with
  | some tail =>
    let s := (s.setNext tail (some page_temp)).setPre page_temp (some tail)
    (s.setNext page_temp none).setTail id (some page_temp)
  | none =>
    let s := (s.setPre page_temp none).setNext page_temp none
    (s.setTail id (some page_temp)).setHead id (some page_temp)

def insert_into_victim (s : XBarControl) (page_temp : Nat) : XBarControl := s.insertLast .DRAM_victim page_temp

def insert_into_unranked (s : XBarControl) (page_temp : Nat) : XBarControl := s.insertLast .PCM_unranked page_temp

/-! ## Moving a page -/

/-- An accessed page moves to the front of its queue. -/
def change_queue (s : XBarControl) (page_change : Nat) : Except Stop XBarControl := do
  let Queue_number := (s.page page_change).queue_number
  require (decide (Queue_number < numQueues))
  let current_MQ := s.head (.MQ Queue_number)
  if some page_change = current_MQ then pure s
  else
    let s := match (s.page page_change).pre with
      | some p => s.setNext p (s.page page_change).next
      | none => s
    let s := match (s.page page_change).next with
      | some n => s.setPre n (s.page page_change).pre
      | none => s.setTail (.MQ Queue_number) (s.page page_change).pre
    let s := (s.setPre page_change none).setNext page_change current_MQ
    let y ← deref current_MQ
    let s := s.setPre y (some page_change)
    pure (s.setHead (.MQ Queue_number) (some page_change))

def isPcm (s : XBarControl) (x : Nat) : Bool := !decide ((s.page x).page_number ≥ s.numPcmPages)

/-- The first lines of `move_to_low`: the last page of a queue is cut off. -/
def cutLast (s : XBarControl) (id : PageList) (page_temp : Nat) : Except Stop XBarControl :=
  if some page_temp = s.head id then pure ((s.setHead id none).setTail id none)
  else do
    let p ← deref (s.page page_temp).pre
    let s := s.setNext p none
    pure (s.setTail id (s.page page_temp).pre)

/-- The first lines of `move_to_up`: the first page of a queue is cut off. -/
def cutFirst (s : XBarControl) (id : PageList) (page_temp : Nat) : Except Stop XBarControl :=
  if some page_temp = s.tail id then pure ((s.setHead id none).setTail id none)
  else do
    let n ← deref (s.page page_temp).next
    let s := s.setPre n none
    pure (s.setHead id (s.page page_temp).next)

/-- A page, the last of its queue, goes one queue down or leaves the queues. -/
def move_to_low (s : XBarControl) (page_temp : Nat) : Except Stop XBarControl := do
  let MQ_number := (s.page page_temp).queue_number
  require (decide (MQ_number < numQueues))
  let isPcm := s.isPcm page_temp
  let s ← s.cutLast (.MQ MQ_number) page_temp
  if MQ_number == 0 || (!isPcm && (s.page page_temp).flag == 1) then
    let s := if !isPcm then s.insert_into_victim page_temp else s.insert_into_unranked page_temp
    pure (s.setPage page_temp fun i => { i with flag := 0, access_counter := 0 })
  else do
    let s ← s.insert_into_MQ page_temp (MQ_number - 1)
    pure (s.setPage page_temp fun i => { i with flag := 1 })

/-- A page, the first of its queue, goes one queue up. -/
def move_to_up (s : XBarControl) (page_temp : Nat) : Except Stop XBarControl := do
  let MQ_number := (s.page page_temp).queue_number
  require (decide (MQ_number < numQueues))
  let s ← s.cutFirst (.MQ MQ_number) page_temp
  s.insert_into_MQ page_temp (MQ_number + 1)

/-- Queue `i` of `MQ_expiration`: a last page that was not accessed for long moves down. -/
def expire (current_time : Nat) (s : XBarControl) (i : Nat) : Except Stop XBarControl :=
  match s.tail (.MQ i) with
  | none => pure s
  | some x =>
    if (current_time + 2 ^ 64 - (s.page x).last_access_time) % 2 ^ 64 > 100000000 then
      let s := if (s.page x).access_counter > 2 ^ i then s.setPage x fun p => { p with access_counter := 2 ^ i - 1 }
        else s
      let s := s.setPage x fun p => { p with last_access_time := current_time }
      s.move_to_low x
    else pure s

def MQ_expiration (s : XBarControl) (current_time : Nat) : Except Stop XBarControl :=
  (List.range 15).foldlM (expire current_time) s

/-- The lines of `MQ_upgrade` that put a page at the end of the unranked pages. -/
def appendUnranked (s : XBarControl) (x : Nat) : XBarControl :=
  match s.tail .PCM_unranked with
  | none => (s.setTail .PCM_unranked (some x)).setHead .PCM_unranked (some x)
  | some t =>
    let s := s.setNext t (some x)
    let s := s.setPre x (s.tail .PCM_unranked)
    (s.setNext x none).setTail .PCM_unranked (some x)

/-- The head of queue 4, a PCM page, becomes a page to migrate. -/
def toMigrating (s : XBarControl) (masterId x : Nat) : XBarControl :=
  let s := if some x = s.tail (.MQ 4) then (s.setHead (.MQ 4) none).setTail (.MQ 4) none
    else s.setHead (.MQ 4) (s.page x).next
  let s := s.setPage x fun p => { p with access_counter := 0 }
  let s := s.appendUnranked x
  { s with migratingPage := s.migratingPage ++ [(Int.tdiv ((masterId : Int) - 7) 6, (s.page x).page_number)] }

/-- The head `x` of queue `i` was accessed often enough to leave the queue. -/
def isHot (s : XBarControl) (i x : Nat) : Bool := decide ((s.page x).access_counter ≥ 2 ^ (i + 1))

/-- The head `x` of queue `i` is to be migrated rather than to move up. -/
def migrates (s : XBarControl) (i x : Nat) : Bool := i == 4 && decide ((s.page x).page_number < s.numPcmPages)

/-- Queue `i` of `MQ_upgrade`. -/
def upgrade (masterId : Nat) (s : XBarControl) (i : Nat) : Except Stop XBarControl :=
  match s.head (.MQ i) with
  | none => pure s
  | some x =>
    if s.isHot i x then
      if s.migrates i x then pure (s.toMigrating masterId x) else s.move_to_up x
    else pure s

/-- `masterId` is that of the packet received last. -/
def MQ_upgrade (s : XBarControl) (masterId : Nat) : Except Stop XBarControl :=
  (List.range 14).foldlM (upgrade masterId) s

/-! ## Accesses and migrations -/

/-- A page that was not accessed before leaves the list it waits on. -/
def takeUnaccessed (s : XBarControl) (id : PageList) (x : Nat) : XBarControl :=
  let s := match (s.page x).next with
    | some n => s.setPre n (s.page x).pre
    | none => s.setTail id (s.page x).pre
  match (s.page x).pre with
  | some p => s.setNext p (s.page x).next
  | none => s.setHead id (s.page x).next

/-- The page of an access goes to the front of a queue. -/
def toFront (s : XBarControl) (isPcm : Bool) (x : Nat) : Except Stop XBarControl :=
  if (s.page x).access_counter == 0 then
    (s.takeUnaccessed (if isPcm then .PCM_unranked else .DRAM_victim) x).insert_into_MQ x 0
  else s.change_queue x

/-- `access_page` up to the calls of `MQ_upgrade` and `MQ_expiration`. -/
def touch (s : XBarControl) (isPcm : Bool) (x now : Nat) : Except Stop XBarControl := do
  let s := s.setPage x fun p => { p with last_access_time := now }
  let s ← s.toFront isPcm x
  pure (s.setPage x fun p => { p with access_counter := (p.access_counter + 1) % 2 ^ 16 })

/-- The page of the address is waiting to be migrated. -/
def isMigrating (s : XBarControl) (addr : Nat) : Bool :=
  decide (addr < s.numPcmPages <<< 12) && s.migratingPage.any fun m => m.2 == addr >>> 12

def access_page (s : XBarControl) (addr now masterId : Nat) : Except Stop XBarControl := do
  let x := addr >>> 12
  require (decide (x < s.numPcmPages + s.numDramPages))
  if s.isMigrating addr then pure s
  else
    let s ← s.touch (decide (addr < s.numPcmPages <<< 12)) x now
    let s ← s.MQ_upgrade masterId
    s.MQ_expiration now

/-- `migratingFunc`: the next page to migrate is taken when there is a victim. -/
def migratingFunc (s : XBarControl) : Except Stop XBarControl :=
  match s.migratingPage, s.head .DRAM_victim with
  | _ :: rest, some x => do
    require ((s.page x).access_counter == 0)
    pure { s with migratingPage := rest }
  | _, _ => pure s

/-- `doSomeEndThing`: the victim goes to queue 5. -/
def doSomeEndThing (s : XBarControl) (now : Nat) : Except Stop XBarControl := do
  let x ← deref (s.head .DRAM_victim)
  let s := s.setHead .DRAM_victim (s.page x).next
  let n ← deref (s.page x).next
  let s := s.setPre n none
  let s := if s.head .DRAM_victim = none then s.setTail .DRAM_victim none else s
  let s := s.setPage x fun p => { p with access_counter := 32, last_access_time := now }
  s.insert_into_MQ x 5

end XBarControl

/-- The operations on the lists. -/
inductive ListOp where
  | access_page (addr now masterId : Nat)
  | MQ_upgrade (masterId : Nat)
  | MQ_expiration (now : Nat)
  | migratingFunc
  | doSomeEndThing (now : Nat)
  deriving Repr

namespace XBarControl

def step (s : XBarControl) : ListOp → Except Stop XBarControl
  | .access_page addr now masterId => s.access_page addr now masterId
  | .MQ_upgrade masterId => s.MQ_upgrade masterId
  | .MQ_expiration now => s.MQ_expiration now
  | .migratingFunc => s.migratingFunc
  | .doSomeEndThing now => s.doSomeEndThing now

/-! ## When the lists stay in order -/

/-- `MQ_upgrade` finds no page to migrate in queue 4 that shares the queue. -/
def upgradesAlone (s : XBarControl) (masterId : Nat) : Bool :=
  match (List.range 4).foldlM (upgrade masterId) s with
  | .ok s =>
    match s.head (.MQ 4) with
    | some x => !(s.isHot 4 x && s.migrates 4 x) || s.tail (.MQ 4) == some x
    | none => true
  | .error _ => false

/-- The accessed address belongs to a page. -/
def inMemory (s : XBarControl) : ListOp → Bool
  | .access_page addr _ _ => decide (addr >>> 12 < s.numPcmPages + s.numDramPages)
  | _ => true

/-- An access does not overflow its page's counter; a page to migrate does not share queue 4; and when a migration
  ends there is another victim. -/
def keepsLists (s : XBarControl) : ListOp → Bool
  | .access_page addr now masterId =>
    s.inMemory (.access_page addr now masterId) && (s.isMigrating addr ||
      ((s.page (addr >>> 12)).access_counter != 2 ^ 16 - 1 &&
        match s.touch (decide (addr < s.numPcmPages <<< 12)) (addr >>> 12) now with
        | .ok s => s.upgradesAlone masterId
        | .error _ => false))
  | .MQ_upgrade masterId => s.upgradesAlone masterId
  | .MQ_expiration _ => true
  | .migratingFunc => true
  | .doSomeEndThing _ => s.head .DRAM_victim != s.tail .DRAM_victim

end XBarControl

end Gem5.Mem
