import Gem5Nvmain.Lib.Exec
import Gem5Nvmain.Lib.Prefixes

/- The trie of `base/trie.hh`.

  Every node stands for a prefix, the bits of its key that its mask selects, and its kids for longer ones. A handle is
  the address of a node; the head is the node 0, and the addresses from `fresh` on have not been used. Key words have
  `n` bits.

  The two walks of the source, to look a key up and to the place where one is inserted, differ in the kids they go
  down to. -/
namespace Gem5.Base
open Lib Function

/-- `Trie::Node`. -/
structure Node (n : Nat) (V : Type) where
  key : BitVec n
  mask : BitVec n
  value : Option V
  parent : Option Nat
  kids : Fin 2 → Option Nat

/-- `Trie`. -/
structure Trie (n : Nat) (V : Type) where
  nodes : Nat → Option (Node n V)
  fresh : Nat

namespace Node
variable {n : Nat} {V : Type}

theorem neZero_two : NeZero 2 := ⟨by decide⟩

/-- `Node::Node`. -/
def new (key mask : BitVec n) (value : Option V) : Node n V where
  key := key &&& mask
  mask := mask
  value := value
  parent := none
  kids := fun _ => none

/-- `Node::matches`. -/
def «matches» (x : Node n V) (test : BitVec n) : Bool := test &&& x.mask == x.key

/-- The node that `Trie::goesAfter` goes down to. -/
def goesAfter (x : Node n V) (key newMask : BitVec n) : Bool := x.matches key && x.mask &&& newMask == x.mask

def setKid (x : Node n V) (i : Fin 2) (kid : Option Nat) : Node n V := { x with kids := update x.kids i kid }

/-- The parent's pointer to the kid `h` becomes `kid`. -/
def replaceKid (x : Node n V) (h : Nat) (kid : Option Nat) : Except Stop (Node n V) :=
  if x.kids 0 = some h then .ok (x.setKid 0 kid)
  else if x.kids 1 = some h then .ok (x.setKid 1 kid)
  else .error (.fatal "Trie: Inconsistent parent/kid relationship.\n")

/-- If the parent only has one kid, it becomes the kid 0. -/
def shift (x : Node n V) : Node n V :=
  if (x.kids 1).isSome ∧ (x.kids 0).isNone then (x.setKid 0 (x.kids 1)).setKid 1 none else x

end Node

/-- `Trie::extendMask`. -/
def extendMask {n : Nat} (orig : BitVec n) : BitVec n := orig ||| (orig >>> 1) ||| (1#n <<< (n - 1))

/-- The loop of `Trie::insert` down one leg, until something does not match or there are no bits left. -/
def walkLeg {n : Nat} (key kidKey newMask : BitVec n) : Nat → BitVec n → Except Stop (BitVec n)
  | 0, _ => .error .outOfFuel
  | fuel + 1, lastMask =>
    let curMask := extendMask lastMask
    if key &&& curMask ≠ kidKey &&& curMask ∨ lastMask = newMask then .ok lastMask
    else walkLeg key kidKey newMask fuel curMask

namespace Trie
variable {n : Nat} {V : Type}

def head : Nat := 0

/-- `Trie::Trie`. -/
def empty : Trie n V where
  nodes h := if h = head then some (Node.new 0 0 none) else none
  fresh := 1

/-- `*h`. -/
def get (t : Trie n V) (h : Nat) : Except Stop (Node n V) :=
  match t.nodes h with
  | some x => .ok x
  | none => .error .outOfRange

def set (t : Trie n V) (h : Nat) (x : Node n V) : Trie n V := { t with nodes := update t.nodes h (some x) }

/-- `new Node(…)`: the address is `t.fresh`. -/
def alloc (t : Trie n V) (x : Node n V) : Trie n V where
  nodes := update t.nodes t.fresh (some x)
  fresh := t.fresh + 1

/-- `delete h`. -/
def free (t : Trie n V) (h : Nat) : Trie n V := { t with nodes := update t.nodes h none }

/-- `kid && p(kid)`. -/
def kidIf (t : Trie n V) (p : Node n V → Bool) : Option Nat → Except Stop (Option Nat)
  | none => .ok none
  | some kid => do
    let x ← t.get kid
    .ok (if p x then some kid else none)

/-- The first of the two kids that meets a condition. -/
def nextKid (t : Trie n V) (p : Node n V → Bool) (x : Node n V) : Except Stop (Option Nat) := do
  let kid ← t.kidIf p (x.kids 0)
  match kid with
  | some kid => .ok (some kid)
  | none => t.kidIf p (x.kids 1)

/-- The loop of `Trie::lookupHandle`. -/
def lookupFrom (t : Trie n V) (key : BitVec n) : Nat → Nat → Except Stop (Option Nat)
  | 0, _ => .error .outOfFuel
  | fuel + 1, h => do
    let x ← t.get h
    if x.value.isSome then .ok (some h)
    else
      let kid ← t.nextKid (fun y => y.matches key) x
      match kid with
      | some kid => t.lookupFrom key fuel kid
      | none => .ok none

/-- `Trie::lookupHandle`. -/
def lookupHandle (t : Trie n V) (key : BitVec n) : Except Stop (Option Nat) := t.lookupFrom key (n + 1) head

/-- `Trie::lookup`. -/
def lookup (t : Trie n V) (key : BitVec n) : Except Stop (Option V) := do
  let h ← t.lookupHandle key
  match h with
  | some h => do
    let x ← t.get h
    .ok x.value
  | none => .ok none

/-- The loop of `Trie::insert` past the nodes that the new one is inserted after. -/
def walk (t : Trie n V) (key newMask : BitVec n) : Nat → Nat → Except Stop Nat
  | 0, _ => .error .outOfFuel
  | fuel + 1, h => do
    let x ← t.get h
    let kid ← t.nextKid (fun y => y.goesAfter key newMask) x
    match kid with
    | some kid => t.walk key newMask fuel kid
    | none => .ok h

/-- The body of the second loop of `Trie::insert`, for the leg `i` of the node `h`. There is no result when it is not
  the right leg. -/
def insertLeg (t : Trie n V) (h : Nat) (x : Node n V) (i : Fin 2) (key newMask : BitVec n) (val : Option V) :
    Except Stop (Option (Nat × Trie n V)) :=
  match x.kids i with
  | none =>
    let newNode := t.fresh
    let t := t.alloc { Node.new key newMask val with parent := some h }
    .ok (some (newNode, t.set h (x.setKid i (some newNode))))
  | some kid => do
    let y ← t.get kid
    let curMask ← walkLeg key y.key newMask (n + 1) x.mask
    if curMask = x.mask then .ok none
    else
      -- a new node where the walk stopped, between `h` and its kid
      let newNode := t.fresh
      let z := { Node.new key curMask none with parent := some h }.setKid 0 (some kid)
      let t := t.alloc z
      let t := t.set kid { y with parent := some newNode }
      let t := t.set h (x.setKid i (some newNode))
      if curMask = newMask then .ok (some (newNode, t.set newNode { z with value := val }))
      else
        -- there are more bits: a new node for that path
        let leaf := t.fresh
        let t := t.alloc { Node.new key newMask val with parent := some newNode }
        .ok (some (leaf, t.set newNode (z.setKid 1 (some leaf))))

/-- `Trie::insert`. -/
def insert (t : Trie n V) (key : BitVec n) (width : Nat) (val : Option V) : Except Stop (Nat × Trie n V) := do
  let newMask := if width < n then BitVec.allOnes n <<< (n - width) else BitVec.allOnes n
  let key := key &&& newMask
  let h ← t.walk key newMask (n + 1) head
  let x ← t.get h
  if x.mask = newMask then do
    require x.value.isNone
    .ok (h, t.set h { x with value := val })
  else do
    let leg ← t.insertLeg h x 0 key newMask val
    match leg with
    | some r => .ok r
    | none => do
      let leg ← t.insertLeg h x 1 key newMask val
      match leg with
      | some r => .ok r
      | none => .error (.fatal "Reached the end of the Trie insert function!\n")

/-- If there is a kid, its parent pointer is fixed up. -/
def adopt (t : Trie n V) (parent : Nat) : Option Nat → Except Stop (Trie n V)
  | none => .ok t
  | some kid => do
    let y ← t.get kid
    .ok (t.set kid { y with parent := some parent })

/-- The part of `Trie::remove` that puts the kid of a node, if any, in its place. -/
def unlink (t : Trie n V) (h : Nat) (x : Node n V) (parent : Nat) : Except Stop (Trie n V) := do
  let t ← t.adopt parent (x.kids 0)
  let p ← t.get parent
  let p ← p.replaceKid h (x.kids 0)
  .ok (t.set parent p.shift)

/-- `Trie::remove` of a handle. -/
def removeFrom (t : Trie n V) : Nat → Nat → Except Stop (Option V × Trie n V)
  | 0, _ => .error .outOfFuel
  | fuel + 1, h => do
    let x ← t.get h
    if (x.kids 1).isSome then do
      require x.value.isSome
      .ok (x.value, t.set h { x with value := none })
    else
      match x.parent with
      | none => .error (.fatal "Trie: Can't remove root node.\n")
      | some parent => do
        let t ← t.unlink h x parent
        let p ← t.get parent
        -- a parent with less than two kids and no cargo that is not the root is deleted too
        let t ← if (p.kids 1).isNone ∧ p.value.isNone ∧ p.parent.isSome then do
            let r ← t.removeFrom fuel parent
            .ok r.2
          else .ok t
        .ok (x.value, t.free h)

def remove (t : Trie n V) (h : Nat) : Except Stop (Option V × Trie n V) := t.removeFrom (n + 1) h

/-- `Trie::remove` of a key. -/
def removeKey (t : Trie n V) (key : BitVec n) : Except Stop (Option V × Trie n V) := do
  let h ← t.lookupHandle key
  match h with
  | some h => t.remove h
  | none => .ok (none, t)

end Trie

end Gem5.Base
