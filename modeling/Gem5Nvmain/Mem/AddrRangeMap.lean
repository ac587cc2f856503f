import Gem5Nvmain.Lib.Exec

/- Address ranges and the map from ranges to values (base/addr_range.hh, base/addr_range_map.hh, base/bitfield.hh).

  An address is a number below 2^64. The red-black tree of the map is modelled by the list of its entries in key
  order; an iterator is the place of an entry in that order, and `none` is `end()`. An iterator outside the tree has
  no defined meaning, and using it stops the computation.

  An interleaved range has at most as many interleaving bits as there are bits up to its high bit (`intlvBits ≤
  intlvHighBit + 1`); otherwise `bits` shifts by a negative amount. -/
namespace Gem5.Mem
open Lib

/-- `bits(val, first, last)`. -/
def bits (val first last : Nat) : Nat := (val >>> last) % 2 ^ (first - last + 1)

/-- `%#llx`. -/
def hex (n : Nat) : String := if n = 0 then "0" else "0x" ++ String.ofList (Nat.toDigits 16 n)

structure AddrRange where
  _start : Nat
  _end : Nat
  intlvHighBit : Nat
  intlvBits : Nat
  intlvMatch : Nat
  deriving DecidableEq, Repr

namespace AddrRange

/-- The range of all addresses from `start` to `last`. -/
def RangeIn (start last : Nat) : AddrRange :=
  { _start := start, _end := last, intlvHighBit := 0, intlvBits := 0, intlvMatch := 0 }

def RangeSize (start size : Nat) : AddrRange := RangeIn start ((start + size + (2 ^ 64 - 1)) % 2 ^ 64)

def interleaved (r : AddrRange) : Bool := r.intlvBits != 0

def size (r : AddrRange) : Nat := ((r._end + 2 ^ 64 - r._start + 1) % 2 ^ 64) >>> r.intlvBits

def valid (r : AddrRange) : Bool := decide (r._start ≤ r._end)

/-- `to_string`. -/
def toText (r : AddrRange) : String :=
  if r.interleaved then
    "[" ++ hex r._start ++ " : " ++ hex r._end ++ "], [" ++ toString r.intlvHighBit ++ " : " ++
      toString ((r.intlvHighBit : Int) - r.intlvBits + 1) ++ "] = " ++ toString r.intlvMatch
  else "[" ++ hex r._start ++ " : " ++ hex r._end ++ "]"

/-- The two are parts of one chunk with the same interleaving bits. -/
def mergesWith (s r : AddrRange) : Bool :=
  r._start == s._start && r._end == s._end && r.intlvHighBit == s.intlvHighBit && r.intlvBits == s.intlvBits

def contains (s : AddrRange) (a : Nat) : Bool :=
  decide (s._start ≤ a) && decide (a ≤ s._end) &&
    (!s.interleaved || bits a s.intlvHighBit (s.intlvHighBit + 1 - s.intlvBits) == s.intlvMatch)

def intersects (s r : AddrRange) : Except Stop Bool :=
  let overlap := decide (s._start ≤ r._end) && decide (r._start ≤ s._end)
  if !s.interleaved then .ok overlap
  else if r.size == 1 then .ok (s.contains r._start)
  else if !r.interleaved then .ok overlap -- conservative: the interleaving of `s` is ignored
  else if s.mergesWith r then .ok (s.intlvMatch == r.intlvMatch)
  else .error (.fatal ("Cannot test intersection of interleaved range " ++ s.toText ++ "\n"))

/-- `operator<`: the start decides, and the interleaving match between equal starts. -/
def lt (s r : AddrRange) : Bool :=
  if s._start != r._start then decide (s._start < r._start) else decide (s.intlvMatch < r.intlvMatch)

end AddrRange

open AddrRange

structure AddrRangeMap (V : Type) where
  tree : List (AddrRange × V)
  deriving Repr

namespace AddrRangeMap
variable {V : Type}

def init : AddrRangeMap V := { tree := [] }

/-- `std::map::upper_bound`: the first entry that `r` is less than. -/
def upper_bound (m : AddrRangeMap V) (r : AddrRange) : Nat := m.tree.findIdx fun e => r.lt e.1

/-- `std::map::lower_bound`: the first entry that is not less than `r`. -/
def lower_bound (m : AddrRangeMap V) (r : AddrRange) : Nat := m.tree.findIdx fun e => !e.1.lt r

/-- The entry at `i`, if it intersects `r`. -/
def check (m : AddrRangeMap V) (r : AddrRange) (i : Nat) : Except Stop (Option Nat) := do
  let e ← index m.tree i
  if ← e.1.intersects r then pure (some i) else pure none

/-- Step backwards from `i` through the parts of the same interleaved chunk. -/
def stepBack (m : AddrRangeMap V) (orig_range r : AddrRange) : Nat → Except Stop (Option Nat)
  | 0 => m.check r 0
  | i + 1 => do
    let e ← index m.tree (i + 1)
    if e.1.mergesWith orig_range then
      match ← m.check r i with
      | some j => pure (some j)
      | none => m.stepBack orig_range r i
    else m.check r (i + 1)

def find (m : AddrRangeMap V) (r : AddrRange) : Except Stop (Option Nat) :=
  if m.tree.isEmpty then pure none
  else
    match m.upper_bound r with
    | 0 => m.check r 0
    | i + 1 => do
      match ← m.check r i with
      | some j => pure (some j)
      | none =>
        let e ← index m.tree i
        if e.1.interleaved then m.stepBack e.1 r i else pure none

/-- `find(const Addr &r)`. -/
def findAddr (m : AddrRangeMap V) (a : Nat) : Except Stop (Option Nat) := m.find (RangeSize a 1)

def intersect (m : AddrRangeMap V) (r : AddrRange) : Except Stop Bool := do
  let i ← m.find r
  pure i.isSome

/-- `std::map::insert`: an entry with an equivalent key stays as it is. -/
def treeInsert (m : AddrRangeMap V) (r : AddrRange) (d : V) : AddrRangeMap V × Nat :=
  let i := m.lower_bound r
  match m.tree[i]? with
  | some e => if !r.lt e.1 then (m, i) else ({ tree := m.tree.insertIdx i (r, d) }, i)
  | none => ({ tree := m.tree.insertIdx i (r, d) }, i)

def insert (m : AddrRangeMap V) (r : AddrRange) (d : V) : Except Stop (AddrRangeMap V × Option Nat) := do
  if ← m.intersect r then pure (m, none)
  else
    let (m, i) := m.treeInsert r d
    pure (m, some i)

/-- `erase(p)`. -/
def erase (m : AddrRangeMap V) (p : Nat) : Except Stop (AddrRangeMap V) := do
  let _ ← index m.tree p
  pure { tree := m.tree.eraseIdx p }

/-- `erase(p, q)`. -/
def eraseRange (m : AddrRangeMap V) (p q : Nat) : Except Stop (AddrRangeMap V) :=
  if p ≤ q ∧ q ≤ m.tree.length then pure { tree := m.tree.take p ++ m.tree.drop q } else .error .outOfRange

def clear (_ : AddrRangeMap V) : AddrRangeMap V := { tree := [] }

end AddrRangeMap

/-- The calls that change a map. -/
inductive MapOp (V : Type) where
  | insert (r : AddrRange) (d : V)
  | erase (p : Nat)
  | eraseRange (p q : Nat)
  | clear
  deriving Repr

namespace AddrRangeMap
variable {V : Type}

def step (m : AddrRangeMap V) : MapOp V → Except Stop (AddrRangeMap V)
  | .insert r d => do
    let (m, _) ← m.insert r d
    pure m
  | .erase p => m.erase p
  | .eraseRange p q => m.eraseRange p q
  | .clear => pure m.clear

/-- The two ranges have an address in common. -/
def Share (s r : AddrRange) : Prop := ∃ a, s.contains a = true ∧ r.contains a = true

/-- Inserted ranges are valid and not interleaved. -/
def plain (_ : AddrRangeMap V) : MapOp V → Bool
  | .insert r _ => r.valid && !r.interleaved
  | _ => true

/-- `find` sees what `r` meets: `r` reaches back into the last stored range that starts no later than it does, if
  there is one, or it ends before the next stored range starts. -/
def seen (m : AddrRangeMap V) (r : AddrRange) : Bool :=
  match m.upper_bound r with
  | 0 => true
  | i + 1 =>
    (m.tree[i]?.any fun e => decide (r._start ≤ e.1._end)) ||
      m.tree[i + 1]?.all fun e => decide (r._end < e.1._start)

/-- An inserted range is valid and not interleaved, carries no interleaving match, and `find` sees what it meets. -/
def seenPlain (m : AddrRangeMap V) : MapOp V → Bool
  | .insert r d => m.plain (.insert r d) && r.intlvMatch == 0 && m.seen r
  | _ => true

end AddrRangeMap

end Gem5.Mem
