import Gem5Nvmain.Sim.System
import Mathlib.Data.List.AList

/- `FuncPageTable` (mem/page_table.cc) and the part of `Process` it calls.

  `pTable` is a hash map from addresses to `TheISA::TlbEntry` (arch/arm). Its `operator[]` inserts a default entry
  when the key is absent (`subscript`). `lookup` may move a page from PCM to DRAM at its first write
  (`transFromPtoD`): it frees the PCM page, marks the entry not valid and lets `Process::allocateMem` take a new page
  and map it.

  Correspondence (C++ ↔ Lean):
    `pTable[k]` as a value ↔ `subscript`, `entryAt`
    `pTable[k] = e`, `pTable[k].x = v` ↔ `setEntry`
    file-scope `int flag` ↔ `flag`
    `PhysicalMemory::watershed` ↔ `system.mem.pcmSize`
  `watershed` and `pcmsize` are set together from the memory at address 0. Of `TlbEntry` only the fields that these
  functions read are kept. -/
namespace Gem5.Mem
open Lib

abbrev Addr := BitVec 64

/-- `TheISA::PageShift` and `TheISA::PageBytes` of arch/arm. -/
def PageShift : Nat := 12

def PageBytes : Addr := 4096

/-- `mask(floorLog2(pageSize))`. -/
def offsetMask : Addr := 4095

def pageAlign (a : Addr) : Addr := a &&& ~~~offsetMask

def pageOffset (a : Addr) : Addr := a &&& offsetMask

structure TlbEntry where
  pfn : Addr := 0
  vpn : Addr := 0
  valid : Bool := true
  isFirstAccess : Bool := true
  deriving DecidableEq, Repr

/-- `TlbEntry(_asn, _vaddr, _paddr)`. -/
def TlbEntry.mk3 (vaddr paddr : Addr) : TlbEntry :=
  { pfn := paddr >>> PageShift, vpn := vaddr >>> PageShift }

def TlbEntry.pageStart (e : TlbEntry) : Addr := e.pfn <<< PageShift

def TlbEntry.updateVaddr (e : TlbEntry) (newVaddr : Addr) : TlbEntry :=
  { e with vpn := newVaddr >>> PageShift }

abbrev PTable := AList (fun _ : Addr => TlbEntry)

/-- The address-space bounds of `Process` that `transFromPtoD` reads. -/
structure Process where
  brkPoint : Addr
  brkPointEnd : Addr
  mmapStart : Addr
  mmapEnd : Addr
  stackMin : Addr
  stackBase : Addr
  deriving DecidableEq, Repr

structure PageTable where
  pTable : PTable
  process : Process
  system : Sim.System
  flag : Nat

namespace PageTable

/-- The entry `operator[]` refers to. -/
def entryAt (s : PageTable) (k : Addr) : TlbEntry := (s.pTable.lookup k).getD {}

def setEntry (s : PageTable) (k : Addr) (e : TlbEntry) : PageTable :=
  { s with pTable := s.pTable.insert k e }

/-- `pTable[k]`: a missing key is inserted with a default entry. -/
def subscript (s : PageTable) (k : Addr) : PageTable :=
  if k ∈ s.pTable then s else s.setEntry k {}

/-- `divCeil(size, PageBytes)`; also the number of iterations of `for (; size > 0; size -= pageSize)`. -/
def pageCount (size : Int) : Nat := ((size + 4096 - 1).tdiv 4096).toNat

def mapLoop (s : PageTable) (clobber : Bool) : Nat → Addr → Addr → Except Stop PageTable
  | 0, _, _ => .ok s
  | n + 1, vaddr, paddr =>
    if !clobber && decide (vaddr ∈ s.pTable) && (s.entryAt vaddr).valid then
      .error (.fatal ("FuncPageTable::allocate: address 0x" ++
        String.ofList (Nat.toDigits 16 vaddr.toNat) ++ " already mapped"))
    else
      (s.setEntry vaddr (.mk3 vaddr paddr)).mapLoop clobber n (vaddr + PageBytes) (paddr + PageBytes)

def map (s : PageTable) (vaddr paddr : Addr) (size : Int) (clobber : Bool) : Except Stop PageTable := do
  require (pageOffset vaddr == 0)
  s.mapLoop clobber (pageCount size) vaddr paddr

def remapLoop (s : PageTable) : Nat → Addr → Addr → Except Stop PageTable
  | 0, _, _ => .ok s
  | n + 1, vaddr, newVaddr => do
    require (decide (vaddr ∈ s.pTable))
    let s := s.setEntry newVaddr (s.entryAt vaddr)
    let s := { s with pTable := s.pTable.erase vaddr }
    let s := s.subscript newVaddr
    let s := s.setEntry newVaddr ((s.entryAt newVaddr).updateVaddr newVaddr)
    s.remapLoop n (vaddr + PageBytes) (newVaddr + PageBytes)

def remap (s : PageTable) (vaddr : Addr) (size : Int) (newVaddr : Addr) : Except Stop PageTable := do
  require (pageOffset vaddr == 0)
  require (pageOffset newVaddr == 0)
  s.remapLoop (pageCount size) vaddr newVaddr

def unmapLoop (s : PageTable) : Nat → Addr → Except Stop PageTable
  | 0, _ => .ok s
  | n + 1, vaddr => do
    require (decide (vaddr ∈ s.pTable))
    { s with pTable := s.pTable.erase vaddr }.unmapLoop n (vaddr + PageBytes)

def unmap (s : PageTable) (vaddr : Addr) (size : Int) : Except Stop PageTable := do
  require (pageOffset vaddr == 0)
  s.unmapLoop (pageCount size) vaddr

/-- `Process::allocateMem(vaddr, size, clobber = false)`. -/
def allocateMem (s : PageTable) (vaddr : Addr) (size : Int) : Except Stop PageTable := do
  let (system, paddr) ← s.system.allocPhysPages (pageCount size)
  { s with system := system }.map vaddr (BitVec.ofNat 64 paddr) size false

/-- `System::clearPhysPages(isPcm, index)` with `index` narrowed to `int`. -/
def clearPhysPages (s : PageTable) (isPcm : Bool) (index : Addr) : Except Stop PageTable := do
  let i := (index.truncate 32).toInt
  require isPcm
  if i < 0 then .error .outOfRange
  else
    let system ← s.system.clearPhysPages isPcm i.toNat
    pure { s with system := system }

/-- The page lies in a region whose pages are moved: heap, mappings or stack. -/
def Process.moves (p : Process) (vaddr : Addr) : Bool :=
  (p.brkPoint ≤ vaddr && vaddr ≤ p.brkPointEnd) || (p.mmapStart ≤ vaddr && vaddr ≤ p.mmapEnd) ||
  (vaddr ≤ p.mmapStart && p.mmapEnd ≤ vaddr) || (p.stackMin ≤ vaddr && vaddr ≤ p.stackBase)

/-- Free the physical page that starts at `start`. -/
def freePage (s : PageTable) (start : Addr) : Except Stop PageTable :=
  let watershed := BitVec.ofNat 64 s.system.mem.pcmSize
  if watershed ≤ start then s.clearPhysPages false ((start - watershed) >>> PageShift)
  else s.clearPhysPages true (start >>> PageShift)

/-- The body of `transFromPtoD`: of 27 calls the first 12 move the page. -/
def movePage (s : PageTable) (vaddr : Addr) : Except Stop PageTable :=
  if s.flag > 11 then
    .ok { s with flag := if s.flag + 1 > 26 then 0 else s.flag + 1 }
  else do
    let s := { s with flag := s.flag + 1 }.subscript vaddr
    let s ← s.freePage (s.entryAt vaddr).pageStart
    let s := s.setEntry vaddr { s.entryAt vaddr with valid := false }
    s.allocateMem vaddr 4096

def transFromPtoD (s : PageTable) (vaddr : Addr) : Except Stop PageTable :=
  if Process.moves s.process vaddr then do
    let s ← s.movePage vaddr
    let s := s.subscript vaddr
    pure (s.setEntry vaddr { s.entryAt vaddr with isFirstAccess := false })
  else pure s

/-- The part of `lookup` that runs when `!is_check`. -/
def firstAccess (s : PageTable) (vaddr : Addr) (isWrite : Bool) : Except Stop PageTable :=
  let page := pageAlign vaddr
  let s := s.subscript page
  if (s.entryAt page).isFirstAccess then
    let s := s.setEntry page { s.entryAt page with isFirstAccess := false }
    if isWrite then
      -- the key is `vaddr`, not the address of its page
      let s := s.subscript vaddr
      if (s.entryAt vaddr).pageStart < BitVec.ofNat 64 s.system.mem.pcmSize then s.transFromPtoD page
      else pure s
    else pure s
  else pure s

def lookup (s : PageTable) (vaddr : Addr) (isCheck isWrite : Bool) :
    Except Stop (PageTable × Option TlbEntry) :=
  let page := pageAlign vaddr
  if page ∈ s.pTable then do
    let s ← (if isCheck then .ok s else s.firstAccess vaddr isWrite)
    let s := s.subscript page
    pure (s, some (s.entryAt page))
  else pure (s, none)

/-- The translated address, if there is one. -/
def translate (s : PageTable) (vaddr : Addr) (isCheck isWrite : Bool) :
    Except Stop (PageTable × Option Addr) := do
  let (s, entry) ← s.lookup vaddr isCheck isWrite
  pure (s, entry.map fun e => pageOffset vaddr + e.pageStart)

end PageTable

end Gem5.Mem
