import Gem5Nvmain.Mem.Packet
import Mathlib.Logic.Function.Basic

/- The migration of a page through the crossbar (mem/xbar_control.cc), against the two memories behind it
  (Simulators/gem5 of NVMain).

  The variables that the source has twice, for the PCM and for the DRAM, are indexed by a `Side`. A memory performs a
  write when it accepts it and reads when the access ends; besides the response of a packet it sends a `Writeback` by
  address for every write that ended. Which packets it accepts is up to it. `own` tells the packets that the migration
  made: the crossbar cannot see it.

  A block is 64 bytes, of any type `α`; a write changes the block its address is in. Left out: the layers and ports (a
  packet that they refuse comes again, and findPort stops on an address outside the memories), the retries, the
  message that a queue is empty, the time, and what the start and the end of a migration do to the page lists, the
  page tables and the bitmaps. -/
namespace Gem5.Mem.PageMigration
open Lib

inductive Side where
  | pcm
  | dram
  deriving DecidableEq, Repr

def Side.other : Side → Side
  | .pcm => .dram
  | .dram => .pcm

/-! ## Packets -/

structure Request (α : Type) where
  cmd : MemCmd
  addr : Nat
  size : Nat := 64
  /-- what it does to the block, if it writes -/
  write : α → α

/-- A packet that a memory is going to send. -/
structure Reply (α : Type) where
  own : Bool
  cmd : MemCmd
  addr : Nat
  size : Nat
  data : Option α
  /-- what a swap does to the block when it is read -/
  swap : Option (α → α) := none

/-- An entry of `invalidWbPacket`, and the address it had. -/
structure Redirected (α : Type) where
  request : Request α
  origin : Nat

/-! ## State -/

structure Half (α : Type) where
  /-- `pcmReadMigLocation`, `dramReadMigLocation` -/
  readMigLocation : Nat := 0
  /-- the blocks of this buffer that were written, to the page of the other side -/
  writeMigLocation : Nat := 0
  migrationLeft : BitVec 8 := 64
  buffer : Nat → α
  dataValid : Nat → Bool := fun _ => false

/-- What happened since the pages were locked; the crossbar does not have it. -/
structure History (α : Type) where
  /-- the memory when the migration began -/
  held : Nat → α
  redirected : List (Redirected α) := []
  /-- the blocks that the memories took from the migration -/
  taken : List (MemCmd × Nat) := []
  /-- a counter was decremented at 0 -/
  below : Bool := false

structure State (α : Type) where
  /-- by number of the block -/
  mem : Nat → α
  pending : List (Reply α) := []
  migrating : Bool := false
  both : Bool := false
  /-- `lockedPcmNumber`, `lockedDramNumber` -/
  locked : Side → Nat := fun _ => 0
  numCpu : BitVec 8 := 1
  MigratingEvent : Bool := false
  readDone : Bool := true
  writeDone : Bool := true
  haveRefuse : Bool := false
  half : Side → Half α
  invalidWbPacket : List (Redirected α) := []
  readMigEvent : Bool := false
  writeMigEvent : Bool := false
  invalidWbMigEvent : Bool := false
  history : History α

variable {α : Type}

/-- Both memories and the buffers can hold anything at first. -/
def start (mem : Nat → α) (buffer : Side → Nat → α) : State α where
  mem := mem
  half d := { buffer := buffer d }
  history := { held := mem }

def State.setHalf (s : State α) (d : Side) (h : Half α) : State α := { s with half := Function.update s.half d h }

/-! ## Addresses -/

/-- The address of a page: `n << 12` is a shift of an `int`. -/
def pageAddr (n : Nat) : Nat := ((BitVec.ofNat 32 n <<< 12).signExtend 64).toNat

/-- The address of a block of a page. -/
def blockAddr (n i : Nat) : Nat := (pageAddr n + i * 64) % 2 ^ 64

def PcmOrDram (watershed addr : Nat) : Side := if addr ≥ watershed then .dram else .pcm

/-- The address is in one of the locked pages. -/
def State.isLocked (s : State α) (addr : Nat) : Bool := addr / 4096 == s.locked .pcm || addr / 4096 == s.locked .dram

/-! ## The memories -/

/-- `sendTimingReq` of a packet that the memory accepts. -/
def State.accept (s : State α) (own : Bool) (r : Request α) : State α :=
  let s := if own then { s with history := { s.history with taken := s.history.taken ++ [(r.cmd, r.addr / 64)] } } else s
  if r.cmd.testCmdAttrib .isRead then
    let swap := if r.cmd.testCmdAttrib .isWrite then some r.write else none
    let reply := { own := own, cmd := r.cmd.responseCommand, addr := r.addr, size := r.size, data := none, swap := swap }
    { s with pending := s.pending ++ [reply] }
  else if r.cmd.testCmdAttrib .isWrite then
    let block := r.write (s.mem (r.addr / 64))
    let reply := { own := own, cmd := r.cmd.responseCommand, addr := r.addr, size := r.size, data := some block }
    let ended := { own := own, cmd := .writeback, addr := r.addr, size := 64, data := none }
    { s with
      mem := Function.update s.mem (r.addr / 64) block
      pending := s.pending ++ (if r.cmd.testCmdAttrib .needsResponse then [reply, ended] else [ended]) }
  else
    let reply := { own := own, cmd := r.cmd.responseCommand, addr := r.addr, size := r.size, data := none }
    { s with pending := s.pending ++ (if r.cmd.testCmdAttrib .needsResponse then [reply] else []) }

/-- The access of a read ends. -/
def State.access (s : State α) (k : Nat) : State α :=
  match s.pending[k]? with
  | some p =>
    if p.cmd.testCmdAttrib .isRead && p.data.isNone then
      let block := s.mem (p.addr / 64)
      { s with
        mem := match p.swap with
          | some f => Function.update s.mem (p.addr / 64) (f block)
          | none => s.mem
        pending := s.pending.set k { p with data := some block } }
    else s
  | none => s

/-! ## Reading the pages -/

def State.sendRead (s : State α) (d : Side) (i : Nat) : State α :=
  let s := s.accept true { cmd := .readReq, addr := blockAddr (s.locked d) i, write := id }
  s.setHalf d { s.half d with readMigLocation := i + 1 }

/-- The reads of the blocks from `i` on, until one is refused. -/
def readLoop (accepts : Nat → Bool) (d : Side) : Nat → Nat → State α → State α
  | 0, _, s => s
  | n + 1, i, s => if accepts i then readLoop accepts d n (i + 1) (s.sendRead d i) else s

def readAll (accepts : Nat → Bool) (d : Side) (s : State α) : State α :=
  readLoop accepts d (64 - (s.half d).readMigLocation) (s.half d).readMigLocation s

def State.scheduleRead (s : State α) : Except Stop (State α) :=
  if (s.half .pcm).readMigLocation < 64 ∨ (s.both ∧ (s.half .dram).readMigLocation < 64) then do
    require (!s.readMigEvent)
    pure { s with readMigEvent := true }
  else pure s

def readFromMemory (accepts : Side → Nat → Bool) (s : State α) : Except Stop (State α) :=
  let s := { s with readDone := false }
  let s := s.setHalf .dram { s.half .dram with migrationLeft := 0 }
  let s := s.setHalf .pcm { s.half .pcm with migrationLeft := 64, readMigLocation := 0, dataValid := fun _ => false }
  let s := readAll (accepts .pcm) .pcm s
  if s.both then
    let s := s.setHalf .dram { s.half .dram with migrationLeft := 64, readMigLocation := 0, dataValid := fun _ => false }
    (readAll (accepts .dram) .dram s).scheduleRead
  else s.scheduleRead

def processReadFromMemory (accepts : Side → Nat → Bool) (s : State α) : Except Stop (State α) := do
  require (!s.readDone && s.migrating)
  let s := readAll (accepts .pcm) .pcm s
  if s.both then (readAll (accepts .dram) .dram s).scheduleRead else s.scheduleRead

/-! ## Writing the pages -/

/-- The block `i` of the buffer of this side is written to the page of the other side. -/
def State.sendWrite (s : State α) (d : Side) (i : Nat) : State α :=
  let data := (s.half d).buffer i
  let s := s.accept true { cmd := .writeback, addr := blockAddr (s.locked d.other) i, write := fun _ => data }
  s.setHalf d { s.half d with writeMigLocation := i + 1 }

def writeLoop (accepts : Nat → Bool) (d : Side) : Nat → Nat → State α → Except Stop (State α)
  | 0, _, s => pure s
  | n + 1, i, s => do
    require (d == .pcm || (s.half d).dataValid i)
    if accepts i then writeLoop accepts d n (i + 1) (s.sendWrite d i) else pure s

def writeAll (accepts : Nat → Bool) (d : Side) (s : State α) : Except Stop (State α) :=
  writeLoop accepts d (64 - (s.half d).writeMigLocation) (s.half d).writeMigLocation s

def State.scheduleWrite (s : State α) : Except Stop (State α) :=
  if (s.half .pcm).writeMigLocation < 64 ∨ (s.both ∧ (s.half .dram).writeMigLocation < 64) then do
    require (!s.writeMigEvent)
    pure { s with writeMigEvent := true }
  else pure s

def writeToMemory (accepts : Side → Nat → Bool) (s : State α) : Except Stop (State α) := do
  let s := { s with writeDone := false }
  let s := s.setHalf .dram { s.half .dram with migrationLeft := 64 }
  let s := s.setHalf .pcm { s.half .pcm with migrationLeft := 0, writeMigLocation := 0 }
  require s.migrating
  let s ← writeAll (accepts .pcm) .pcm s
  if s.both then
    let s := s.setHalf .pcm { s.half .pcm with migrationLeft := 64 }
    let s := s.setHalf .dram { s.half .dram with writeMigLocation := 0 }
    let s ← writeAll (accepts .dram) .dram s
    s.scheduleWrite
  else s.scheduleWrite

def processWriteToMemory (accepts : Side → Nat → Bool) (s : State α) : Except Stop (State α) := do
  require (!s.writeDone && s.migrating)
  let s ← writeAll (accepts .pcm) .pcm s
  if s.both then
    let s ← writeAll (accepts .dram) .dram s
    s.scheduleWrite
  else s.scheduleWrite

/-! ## The redirected write-backs -/

/-- `doSomeEndThing`; a requestor that was refused is told to come again. -/
def doSomeEndThing (s : State α) : Except Stop (State α) := do
  require (s.migrating && s.readDone && s.writeDone)
  require s.invalidWbPacket.isEmpty
  pure { s with migrating := false }

/-- The write-backs, until one is refused. -/
def sendInvalidWb (accepts : Nat → Bool) : Nat → List (Redirected α) → State α → State α
  | _, [], s => { s with invalidWbPacket := [] }
  | n, w :: l, s =>
    if accepts n then sendInvalidWb accepts (n + 1) l (s.accept false w.request) else { s with invalidWbPacket := w :: l }

def processInvalidWb (accepts : Nat → Bool) (s : State α) : Except Stop (State α) :=
  let s := sendInvalidWb accepts 0 s.invalidWbPacket s
  if s.invalidWbPacket.isEmpty then doSomeEndThing s
  else do
    require (!s.invalidWbMigEvent)
    pure { s with invalidWbMigEvent := true }

/-! ## Responses -/

/-- The counter of a side is decremented. -/
def State.credit (s : State α) (d : Side) : State α :=
  let h := s.half d
  { s with
    half := Function.update s.half d { h with migrationLeft := h.migrationLeft - 1 }
    history := { s.history with below := s.history.below || h.migrationLeft == 0 } }

/-- The number of a block of the locked page, in a byte. -/
def blockIndex (n addr : Nat) : Nat := (addr + 2 ^ 64 - pageAddr n) % 2 ^ 64 / 64 % 256

/-- The data of a read is buffered. -/
def State.store (s : State α) (d : Side) (i : Nat) (data : α) : State α :=
  let h := s.half d
  s.setHalf d { h with buffer := Function.update h.buffer i data, dataValid := Function.update h.dataValid i true }

/-- `processMigrationRespond`; of two bytes `>= 0` is always true. -/
def processMigrationRespond (watershed : Nat) (accepts : Side → Nat → Bool) (wb : Nat → Bool) (s : State α)
    (p : Reply α) : Except Stop (State α) :=
  let d := PcmOrDram watershed p.addr
  if p.cmd ≠ .writeback then do
    require (p.size == 64)
    let i := blockIndex (s.locked d) p.addr
    match p.data with
    | none => .error .assertFailed
    | some data => do
      if i ≥ 64 then .error .outOfRange
      else
        let s := (s.store d i data).credit d
        if (s.half .pcm).migrationLeft = 0 ∧ (s.half .dram).migrationLeft = 0 then
          writeToMemory accepts { s with readDone := true }
        else pure s
  else do
    require (!s.writeDone)
    let s := s.credit d
    if (s.half .pcm).migrationLeft = 0 ∧ (s.half .dram).migrationLeft = 0 then
      processInvalidWb wb { s with writeDone := true }
    else pure s

/-- `recvTimingResp`; a response of the migration itself is not outstanding. -/
def recvTimingResp (watershed : Nat) (accepts : Side → Nat → Bool) (wb : Nat → Bool) (s : State α) (p : Reply α) :
    Except Stop (State α) :=
  if s.migrating ∧ s.isLocked p.addr then processMigrationRespond watershed accepts wb s p
  else if p.cmd = .writeback then pure s
  else do
    require (!p.own)
    pure s

/-! ## Requests -/

/-- `recvTimingReq` from the slave port 0. -/
def redirect (watershed : Nat) (s : State α) (r : Request α) : Except Stop (State α) := do
  require (!r.cmd.testCmdAttrib .isRead)
  let addr := (pageAddr (s.locked (PcmOrDram watershed r.addr).other) + r.addr % 4096) % 2 ^ 64
  let w : Redirected α := { request := { r with addr := addr }, origin := r.addr }
  pure { s with
    invalidWbPacket := s.invalidWbPacket ++ [w]
    history := { s.history with redirected := s.history.redirected ++ [w] } }

/-- `recvTimingReq` from another slave port. -/
def recvTimingReq (s : State α) (r : Request α) (accepts : Bool) : State α :=
  if s.migrating ∧ s.isLocked r.addr then { s with haveRefuse := true }
  else if accepts then s.accept false r
  else s

/-! ## Start -/

/-- `migratingFunc` takes these pages, unless a migration is under way. -/
def migratingFunc (s : State α) (pcm dram : Nat) (both acrossTwoCpu : Bool) : Except Stop (State α) :=
  if s.migrating then pure s
  else do
    require s.invalidWbPacket.isEmpty
    pure { s with
      locked := fun d => match d with
        | .pcm => pcm
        | .dram => dram
      both := both
      numCpu := if both && acrossTwoCpu then 2 else 1
      haveRefuse := false }

/-- `recvFunctional` of the packet with which a processor reports that it let go of the pages. -/
def recvPrintReq (s : State α) : Except Stop (State α) :=
  let s := { s with numCpu := s.numCpu - 1 }
  if s.numCpu = 0 then do
    require (!s.MigratingEvent)
    pure { s with MigratingEvent := true }
  else pure s

def doMigrating (accepts : Side → Nat → Bool) (s : State α) : Except Stop (State α) :=
  readFromMemory accepts
    { s with migrating := true, history := { s.history with held := s.mem, redirected := s.invalidWbPacket, taken := [] } }

/-! ## Steps -/

/-- What happens at the crossbar. The events come when they are scheduled. -/
inductive Op (α : Type) where
  | lock (pcm dram : Nat) (both acrossTwoCpu : Bool)
  | printReq
  | migratingEvent (accepts : Side → Nat → Bool)
  | readEvent (accepts : Side → Nat → Bool)
  | writeEvent (accepts : Side → Nat → Bool)
  | invalidWbEvent (wb : Nat → Bool)
  | access (k : Nat)
  | response (k : Nat) (accepts : Side → Nat → Bool) (wb : Nat → Bool)
  | request (r : Request α) (accepts : Bool)
  | writeBack (r : Request α)

/-- The reply can be sent. -/
def Reply.ready (p : Reply α) : Bool := !p.cmd.testCmdAttrib .isRead || p.data.isSome

def step (watershed : Nat) (s : State α) : Op α → Except Stop (State α)
  | .lock pcm dram both acrossTwoCpu => migratingFunc s pcm dram both acrossTwoCpu
  | .printReq => recvPrintReq s
  | .migratingEvent accepts => if s.MigratingEvent then doMigrating accepts { s with MigratingEvent := false } else pure s
  | .readEvent accepts => if s.readMigEvent then processReadFromMemory accepts { s with readMigEvent := false } else pure s
  | .writeEvent accepts => if s.writeMigEvent then processWriteToMemory accepts { s with writeMigEvent := false } else pure s
  | .invalidWbEvent wb => if s.invalidWbMigEvent then processInvalidWb wb { s with invalidWbMigEvent := false } else pure s
  | .access k => pure (s.access k)
  | .response k accepts wb =>
    match s.pending[k]? with
    | some p =>
      if p.ready then recvTimingResp watershed accepts wb { s with pending := s.pending.eraseIdx k } p else pure s
    | none => pure s
  | .request r accepts => pure (recvTimingReq s r accepts)
  | .writeBack r => redirect watershed s r

end Gem5.Mem.PageMigration
