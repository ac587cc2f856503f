import Gem5Nvmain.Mem.AddrRangeMap

/- The address ranges of a crossbar and the routing of packets (mem/xbar.hh, mem/xbar.cc).

  Ports are numbered; `InvalidPortID` is `none`. What a neighbour answers to `getAddrRanges` comes with the range
  change. The neighbours that are told of a change read the ranges of the crossbar and do not route packets through
  it. -/
namespace Gem5.Mem
open Lib

/-- The range that a collection of interleaved ranges makes. -/
def AddrRange.merged (ranges : List AddrRange) : Except Stop AddrRange :=
  match ranges with
  | [] => pure { _start := 1, _end := 0, intlvHighBit := 0, intlvBits := 0, intlvMatch := 0 }
  | first :: _ =>
    if ranges.length ≠ 2 ^ first.intlvBits then
      .error (.fatal ("Got " ++ toString ranges.length ++ " ranges spanning " ++ toString first.intlvBits ++
        " interleaving bits\n"))
    else do
      let _ ← ranges.foldlM (fun m r =>
        if !first.mergesWith r then
          .error (.fatal "Can only merge ranges with the same start, end and interleaving bits\n")
        else if r.intlvMatch ≠ m then
          .error (.fatal ("Expected interleave match " ++ toString m ++ " but got " ++ toString r.intlvMatch ++
            " when merging\n"))
        else pure ((m + 1) % 2 ^ 8)) 0
      pure { first with intlvHighBit := 0, intlvBits := 0, intlvMatch := 0 }

def AddrRange.isSubset (s r : AddrRange) : Except Stop Bool :=
  if s.interleaved then .error (.fatal ("Cannot test subset of interleaved range " ++ s.toText ++ "\n"))
  else .ok (decide (s._start ≥ r._start) && decide (s._end ≤ r._end))

structure PortCache where
  valid : Bool
  id : Nat
  range : AddrRange
  deriving DecidableEq, Repr

structure BaseXBar where
  name : String
  slavePortName : Nat → String
  gotAddrRanges : List Bool
  gotAllAddrRanges : Bool := false
  defaultPortID : Option Nat
  useDefaultRange : Bool
  defaultRange : AddrRange := { _start := 1, _end := 0, intlvHighBit := 0, intlvBits := 0, intlvMatch := 0 }
  portMap : AddrRangeMap Nat := AddrRangeMap.init
  xbarRanges : List AddrRange := []
  /-- three entries, the newest first -/
  portCache : List PortCache :=
    List.replicate 3
      { valid := false, id := 0, range := { _start := 1, _end := 0, intlvHighBit := 0, intlvBits := 0, intlvMatch := 0 } }

namespace BaseXBar

/-- A crossbar with this many master ports and this default port. -/
def init (name : String) (slavePortName : Nat → String) (ports : Nat) (defaultPortID : Option Nat) (useDefaultRange : Bool) :
    BaseXBar where
  name := name
  slavePortName := slavePortName
  gotAddrRanges := List.replicate ports false
  defaultPortID := defaultPortID
  useDefaultRange := useDefaultRange

/-! ## Routing -/

def checkPortCache (s : BaseXBar) (addr : Nat) : Option Nat :=
  (s.portCache.find? fun c => c.valid && c.range.contains addr).map PortCache.id

/-- The oldest entry goes. -/
def updatePortCache (s : BaseXBar) (id : Nat) (range : AddrRange) : BaseXBar :=
  { s with portCache := { valid := true, id := id, range := range } :: s.portCache.take 2 }

def clearPortCache (s : BaseXBar) : BaseXBar :=
  { s with portCache := s.portCache.map fun c => { c with valid := false } }

/-- The rule for the default port. -/
def defaultPort (s : BaseXBar) (addr : Nat) : Except Stop Nat :=
  let unable : Except Stop Nat := .error (.fatal ("Unable to find destination for addr " ++ hex addr ++ " on " ++ s.name ++ "\n"))
  if s.useDefaultRange then
    if s.defaultRange.contains addr then
      match s.defaultPortID with
      | some id => .ok id
      | none => unable
    else unable
  else
    match s.defaultPortID with
    | some id => .ok id
    | none => unable

def findPort (s : BaseXBar) (addr : Nat) : Except Stop (Nat × BaseXBar) := do
  require s.gotAllAddrRanges
  match s.checkPortCache addr with
  | some id => pure (id, s)
  | none =>
    match ← s.portMap.findAddr addr with
    | some i => do
      let e ← index s.portMap.tree i
      pure (e.2, s.updatePortCache e.2 e.1)
    | none => do
      let id ← s.defaultPort addr
      pure (id, s)

/-! ## Range changes -/

/-- The insertion of the ranges of a port. -/
def addRanges (s : BaseXBar) (id : Nat) (ranges : List AddrRange) : Except Stop (AddrRangeMap Nat) :=
  ranges.foldlM (fun m r => do
    match ← m.insert r id with
    | (m, some _) => pure m
    | (m, none) =>
      match ← m.find r with
      | none => .error .outOfRange
      | some i => do
        let conflict ← index m.tree i
        .error (.fatal (s.name ++ " has two ports responding within range " ++ r.toText ++ ":\n\t" ++ s.slavePortName id ++
          "\n\t" ++ s.slavePortName conflict.2 ++ "\n"))) s.portMap

/-- The range is kept unless it is in the default range. -/
def keepRange (s : BaseXBar) (xbarRanges : List AddrRange) (r : AddrRange) : Except Stop (List AddrRange) :=
  if s.useDefaultRange then do
    if ← r.isSubset s.defaultRange then pure xbarRanges else pure (xbarRanges ++ [r])
  else pure (xbarRanges ++ [r])

/-- The ranges of the crossbar: the default range, and the ranges of the map with the interleaved ones merged. -/
def aggregate (s : BaseXBar) : Except Stop (List AddrRange) := do
  let start : List AddrRange := if s.useDefaultRange then [s.defaultRange] else []
  let (xbarRanges, intlv_ranges) ← s.portMap.tree.foldlM (fun (acc : List AddrRange × List AddrRange) e =>
    if e.1.interleaved then
      match acc.2.getLast? with
      | some last =>
        if !last.mergesWith e.1 then do
          let m ← AddrRange.merged acc.2
          let kept ← s.keepRange acc.1 m
          pure (kept, [e.1])
        else pure (acc.1, acc.2 ++ [e.1])
      | none => pure (acc.1, acc.2 ++ [e.1])
    else do
      let kept ← s.keepRange acc.1 e.1
      pure (kept, acc.2)) (start, [])
  let xbarRanges ← if intlv_ranges.isEmpty then pure xbarRanges else do
    let m ← AddrRange.merged intlv_ranges
    s.keepRange xbarRanges m
  if s.useDefaultRange then do
    let _ ← xbarRanges.foldlM (fun (_ : Unit) r => do
      let meets ← r.intersects s.defaultRange
      let inside ← if meets then r.isSubset s.defaultRange else pure true
      if inside then pure ()
      else .error (.fatal ("Range " ++ r.toText ++ " intersects the default range of " ++ s.name ++ " but is not a subset\n"))) ()
    pure xbarRanges
  else pure xbarRanges

/-- The ranges of the port: the default range, or entries of the map. -/
def takeRanges (s : BaseXBar) (master_port_id : Nat) (ranges : List AddrRange) : Except Stop BaseXBar :=
  if some master_port_id = s.defaultPortID then
    if s.useDefaultRange then
      match ranges with
      | [r] => pure { s with defaultRange := r }
      | _ => .error (.fatal ("Crossbar " ++ s.name ++ " may only have a single default range"))
    else pure s
  else do
    let s := { s with portMap := { tree := s.portMap.tree.filter fun e => e.2 != master_port_id } }
    let portMap ← s.addRanges master_port_id ranges
    pure { s with portMap := portMap }

def recvRangeChange (s : BaseXBar) (master_port_id : Nat) (ranges : List AddrRange) : Except Stop BaseXBar := do
  let _ ← index s.gotAddrRanges master_port_id
  let s := { s with gotAddrRanges := s.gotAddrRanges.set master_port_id true }
  let s := { s with gotAllAddrRanges := s.gotAllAddrRanges || s.gotAddrRanges.all fun got => got }
  let s ← s.takeRanges master_port_id ranges
  if s.gotAllAddrRanges then do
    if s.useDefaultRange && !(s.defaultPortID.any fun id => s.gotAddrRanges[id]?.getD false) then
      .error (.fatal ("Crossbar " ++ s.name ++ " uses default range, but none provided"))
    else do
      let xbarRanges ← s.aggregate
      pure { s with xbarRanges := xbarRanges }.clearPortCache
  else pure s.clearPortCache

end BaseXBar

/-- The calls of a crossbar. -/
inductive XBarOp where
  | recvRangeChange (master_port_id : Nat) (ranges : List AddrRange)
  | findPort (addr : Nat)

namespace BaseXBar

def step (s : BaseXBar) : XBarOp → Except Stop BaseXBar
  | .recvRangeChange id ranges => s.recvRangeChange id ranges
  | .findPort addr => do
    let (_, s) ← s.findPort addr
    pure s

/-- What `findPort` answers. -/
def answer (s : BaseXBar) (addr : Nat) : Except Stop Nat := (s.findPort addr).map Prod.fst

/-- The port that the map, or else the default rule, assigns to an address. -/
def portOf (s : BaseXBar) (addr : Nat) : Except Stop Nat := do
  require s.gotAllAddrRanges
  match ← s.portMap.findAddr addr with
  | some i => do
    let e ← index s.portMap.tree i
    pure e.2
  | none => s.defaultPort addr

end BaseXBar

end Gem5.Mem
