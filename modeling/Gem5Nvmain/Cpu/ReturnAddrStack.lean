import Mathlib.Tactic.SplitIfs
import Gem5Nvmain.Lib.Exec
import Gem5Nvmain.Lib.Ring

/- The return address stack (src/cpu/pred/ras.hh, ras.cc).

  The stack is a ring of `numEntries` addresses with the index of its top. Nothing is cleared when an address is
  popped, and a push goes over what its cell held. How many cells below the top still hold something is not told by
  the ring itself:
  `live` of them are seen through `view`, which each operation changes as a stack's operation would (`view_push`,
  `view_pop`, `view_restore`). -/
namespace Gem5.Cpu
open Lib List

structure ReturnAddrStack (α : Type) where
  addrStack : List α
  numEntries : Nat
  usedEntries : Nat
  tos : Nat
  deriving DecidableEq, Repr

namespace ReturnAddrStack
variable {α : Type}

/-- `init`, with every address set to 0. -/
def init [Inhabited α] (numEntries : Nat) : ReturnAddrStack α := ⟨replicate numEntries default, numEntries, 0, 0⟩

def top (s : ReturnAddrStack α) : Except Stop α := index s.addrStack s.tos

def topIdx (s : ReturnAddrStack α) : Nat := s.tos

def incrTos (s : ReturnAddrStack α) : Nat := if s.tos + 1 = s.numEntries then 0 else s.tos + 1

/-- Indices are unsigned. -/
def decrTos (s : ReturnAddrStack α) : Nat :=
  if s.tos = 0 then (if s.numEntries = 0 then 2 ^ 32 - 1 else s.numEntries - 1) else s.tos - 1

/-- `addrStack[i] = a`. -/
def write (s : ReturnAddrStack α) (i : Nat) (a : α) : Except Stop (ReturnAddrStack α) := do
  let _ ← index s.addrStack i
  return { s with addrStack := s.addrStack.set i a }

def push (s : ReturnAddrStack α) (returnAddr : α) : Except Stop (ReturnAddrStack α) := do
  let s ← write { s with tos := s.incrTos } s.incrTos returnAddr
  return { s with usedEntries := if s.usedEntries ≠ s.numEntries then s.usedEntries + 1 else s.usedEntries }

def pop (s : ReturnAddrStack α) : ReturnAddrStack α :=
  { s with usedEntries := if s.usedEntries > 0 then s.usedEntries - 1 else s.usedEntries, tos := s.decrTos }

def restore (s : ReturnAddrStack α) (topEntryIdx : Nat) (restored : α) : Except Stop (ReturnAddrStack α) :=
  write { s with tos := topEntryIdx } topEntryIdx restored

/-- The address `i` cells below the top. -/
def entry (s : ReturnAddrStack α) (i : Nat) : Option α := s.addrStack[back s.numEntries s.tos i]?

end ReturnAddrStack

/-! Stacks seen through the ring. -/

/-- A top index and the addresses under it, the top one first. -/
structure Stack (α : Type) where
  tos : Nat
  entries : List (Option α)
  deriving DecidableEq

namespace Stack
variable {α : Type}

def push (n : Nat) (v : Stack α) (a : α) : Stack α := ⟨if v.tos + 1 = n then 0 else v.tos + 1, some a :: v.entries⟩

def pop (n : Nat) (v : Stack α) : Stack α :=
  ⟨if v.tos = 0 then (if n = 0 then 2 ^ 32 - 1 else n - 1) else v.tos - 1, v.entries.tail⟩

end Stack

namespace ReturnAddrStack
variable {α : Type} {s t : ReturnAddrStack α} {live i n : Nat} {a : α}

def view (s : ReturnAddrStack α) (live : Nat) : Stack α := ⟨s.tos, (range live).map s.entry⟩

/-- A ring of `n` cells with at most `n` live ones. -/
structure Sized (n : Nat) (s : ReturnAddrStack α) (live : Nat) : Prop where
  entries : s.numEntries = n
  length : s.addrStack.length = n
  live_le : live ≤ n
  tos_lt : 0 < n → s.tos < n

theorem sized_init [Inhabited α] (n : Nat) : Sized n (init n : ReturnAddrStack α) 0 where
  entries := rfl
  length := by simp [init]
  live_le := Nat.zero_le n
  tos_lt := id

@[simp] theorem length_view : (s.view live).entries.length = live := by
  simp [view]

theorem view_eq {live' : Nat} (h : s.view live = t.view live') :
    s.tos = t.tos ∧ live = live' ∧ ∀ i, i < live → s.entry i = t.entry i := by
  have htos := congrArg Stack.tos h
  have hentries := congrArg Stack.entries h
  have hlen := congrArg length hentries
  rw [length_view, length_view] at hlen
  subst hlen
  refine ⟨htos, rfl, fun i hi => ?_⟩
  have hat := congrArg (fun l => l[i]?) hentries
  simpa [view, hi] using hat

theorem view_ext {live' : Nat} {v : Stack α} (htos : s.tos = v.tos) (hlive : live' = v.entries.length)
    (hentry : ∀ i x, v.entries[i]? = some x → s.entry i = x) : s.view live' = v := by
  have hentries : (s.view live').entries = v.entries := by
    apply ext_getElem?
    intro i
    by_cases hi : i < live'
    · obtain ⟨x, hx⟩ : ∃ x, v.entries[i]? = some x := ⟨_, getElem?_eq_getElem (hlive ▸ hi)⟩
      rw [hx, ← hentry i x hx]
      simp [view, hi]
    · have hout : v.entries[i]? = none := getElem?_eq_none (by omega)
      rw [hout]
      simp [hi]
  exact congrArg₂ Stack.mk htos hentries

theorem write_spec (h : s.write i a = .ok t) : i < s.addrStack.length ∧ t = { s with addrStack := s.addrStack.set i a } := by
  obtain ⟨x, hx, h⟩ := of_bind h
  cases h
  obtain ⟨hlt, -⟩ := List.getElem?_eq_some_iff.mp (index_eq_ok.mp hx)
  exact ⟨hlt, rfl⟩

theorem write_returns (h : i < s.addrStack.length) : s.write i a = .ok { s with addrStack := s.addrStack.set i a } := by
  have hx : index s.addrStack i = .ok s.addrStack[i] := index_eq_ok.mpr (getElem?_eq_getElem h)
  unfold write
  rw [hx]
  rfl

theorem incrTos_lt (hs : Sized n s live) (h : 0 < n) : s.incrTos < n := by
  have htos := hs.tos_lt h
  unfold incrTos
  rw [hs.entries]
  split <;> omega

/-- A push that has a cell free adds its address to the live ones. -/
theorem view_push (hs : Sized n s live) (hfree : live < n) (h : s.push a = .ok t) :
    t.view (live + 1) = (s.view live).push n a ∧ Sized n t (live + 1) := by
  have hpos : 0 < n := by omega
  have hincr : s.incrTos < n := incrTos_lt hs hpos
  obtain ⟨u, hwrite, h⟩ := of_bind h
  obtain ⟨-, rfl⟩ := write_spec hwrite
  cases h
  constructor
  · apply view_ext
    · change s.incrTos = _
      unfold incrTos
      rw [hs.entries]
      rfl
    · simp [Stack.push]
    · intro i x hx
      unfold entry
      rw [hs.entries]
      cases i with
      | zero =>
        have hx : some a = x := by simpa [Stack.push] using hx
        have hback : back n s.incrTos 0 = s.incrTos := by simp [back]
        rw [hback, ← hx, getElem?_set_self (by rw [hs.length]; exact hincr)]
      | succ i =>
        have hi : i < live := by
          have hlt := (List.getElem?_eq_some_iff.mp hx).1
          simpa [Stack.push] using hlt
        have hx : s.entry i = x := by simpa [Stack.push, view, hi] using hx
        have hback : back n s.incrTos (i + 1) = back n s.tos i := by
          unfold back incrTos
          rw [hs.entries]
          split <;> split <;> split <;> omega
        have hne : s.incrTos ≠ back n s.tos i := by
          unfold back incrTos
          rw [hs.entries]
          split <;> split <;> omega
        rw [hback, getElem?_set_ne hne, ← hx, entry, hs.entries]
  · refine ⟨hs.entries, ?_, by omega, fun _ => hincr⟩
    rw [length_set, hs.length]

theorem decrTos_eq (hs : Sized n s live) (h : 0 < n) : s.decrTos = if s.tos = 0 then n - 1 else s.tos - 1 := by
  unfold decrTos
  rw [hs.entries, if_neg (Nat.ne_of_gt h)]

/-- A pop takes the top address off the live ones, if there is one. -/
theorem view_pop (hs : Sized n s live) : s.pop.view (live - 1) = (s.view live).pop n ∧ Sized n s.pop (live - 1) := by
  have hlive := hs.live_le
  constructor
  · apply view_ext
    · change s.decrTos = _
      unfold decrTos
      rw [hs.entries]
      rfl
    · simp [Stack.pop]
    · intro i x hx
      have hi : i < live - 1 := by
        have hlt := (List.getElem?_eq_some_iff.mp hx).1
        simpa [Stack.pop] using hlt
      have hx : s.entry (i + 1) = x := by
        have hi' : i + 1 < live := by omega
        simpa [Stack.pop, view, hi'] using hx
      have hback : back n s.decrTos i = back n s.tos (i + 1) := by
        rw [decrTos_eq hs (by omega)]
        unfold back
        split_ifs <;> omega
      rw [← hx, entry, entry]
      change s.addrStack[back s.numEntries s.decrTos i]? = s.addrStack[back s.numEntries s.tos (i + 1)]?
      rw [hs.entries, hback]
  · refine ⟨hs.entries, hs.length, by omega, fun hpos => ?_⟩
    have htos := hs.tos_lt hpos
    change s.decrTos < n
    rw [decrTos_eq hs hpos]
    split <;> omega

/-- Restoring the top that a pop consumed gives the stack before it. -/
theorem view_restore {v : Stack α} (hs : Sized n s live) (hlen : v.entries.length ≤ n) (hi : v.tos < n)
    (hpop : s.view live = v.pop n) (htop : ∀ x, v.entries[0]? = some x → x = some a) :
    ∃ t, s.restore v.tos a = .ok t ∧ t.view v.entries.length = v ∧ Sized n t v.entries.length := by
  have hlt : v.tos < s.addrStack.length := by
    rw [hs.length]
    exact hi
  have hlt' : v.tos < ({ s with tos := v.tos } : ReturnAddrStack α).addrStack.length := hlt
  refine ⟨_, write_returns hlt', ?_, ?_⟩
  · apply view_ext
    · rfl
    · rfl
    · intro i x hx
      have hxlt := (List.getElem?_eq_some_iff.mp hx).1
      unfold entry
      rw [hs.entries]
      cases i with
      | zero =>
        have hback : back n v.tos 0 = v.tos := by simp [back]
        rw [hback, getElem?_set_self hlt, htop x hx]
      | succ i =>
        have htos : s.tos = if v.tos = 0 then (if n = 0 then 2 ^ 32 - 1 else n - 1) else v.tos - 1 := congrArg Stack.tos hpop
        have hentries : (s.view live).entries = v.entries.tail := congrArg Stack.entries hpop
        have hlive : live = v.entries.length - 1 := by
          have hlens := congrArg length hentries
          simpa using hlens
        have hx : s.entry i = x := by
          have hat : (s.view live).entries[i]? = some x := by
            rw [hentries, getElem?_tail]
            exact hx
          have hi' : i < live := by omega
          simpa [view, hi'] using hat
        have hback : back n v.tos (i + 1) = back n s.tos i := by
          rw [htos, if_neg (show ¬ n = 0 by omega)]
          unfold back
          split_ifs <;> omega
        have hne : v.tos ≠ back n v.tos (i + 1) := by
          unfold back
          split <;> omega
        rw [getElem?_set_ne hne, hback, ← hx, entry, hs.entries]
  · refine ⟨hs.entries, ?_, hlen, fun _ => hi⟩
    rw [length_set, hs.length]

end ReturnAddrStack

end Gem5.Cpu
