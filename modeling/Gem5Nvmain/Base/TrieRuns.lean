import Gem5Nvmain.Base.TrieRemove

/- Runs of a trie, and the prefix map it implements.

  The map lists the stored prefixes with their handles. A trie `Holds` it when its nodes have exactly these entries,
  each at its handle. Every step keeps this (`prefix_map`). -/
namespace Gem5.Base
open Lib Function

variable {n : Nat} {V : Type}

namespace Entry
variable {e : Entry n V} {x : Node n V} {key : BitVec n}

def Matches (e : Entry n V) (key : BitVec n) : Prop := Agree e.width e.key key

instance : Decidable (e.Matches key) := inferInstanceAs (Decidable (Agree e.width e.key key))

theorem of_node (h : x.entry = some e) : x.value = some e.value ∧ x.width = e.width ∧ x.key = e.key := by
  obtain ⟨v, hv, rfl⟩ := Option.map_eq_some_iff.mp h
  exact ⟨hv, rfl, rfl⟩

theorem covers_iff (h : x.entry = some e) : x.Covers key ↔ e.Matches key := by
  obtain ⟨-, hwidth, hkey⟩ := of_node h
  unfold Node.Covers Matches
  rw [hwidth, hkey]

end Entry

/-- A prefix map: the stored entries with their handles. -/
abbrev Stored (n : Nat) (V : Type) := List (Nat × Entry n V)

/-- The entry is a shortest one that matches the key. -/
structure Shortest (stored : Stored n V) (key : BitVec n) (he : Nat × Entry n V) : Prop where
  mem : he ∈ stored
  «matches» : he.2.Matches key
  least : ∀ he' ∈ stored, he'.2.Matches key → he.2.width ≤ he'.2.width

namespace Trie
variable {t t' : Trie n V} {stored : Stored n V} {h w : Nat} {e : Entry n V} {key : BitVec n} {val : V}

/-- The nodes have the stored entries. -/
def Holds (t : Trie n V) (stored : Stored n V) : Prop := ∀ h e, (t.node h).entry = some e ↔ (h, e) ∈ stored

theorem node_empty (h : Nat) : (empty : Trie n V).node h = Node.new 0 0 none := by
  unfold node empty
  dsimp only
  split <;> rfl

theorem live_empty : (empty : Trie n V).live = {head} := by
  ext h
  by_cases hh : h = head <;> simp [live, empty]

theorem shape_empty : Shape (empty : Trie n V) := by
  have hmask : (0 : BitVec n) = leading n 0 := by
    exact (BitVec.shiftLeft_eq_zero (Nat.le_refl n)).symm
  have hok : (Node.new 0 0 none : Node n V).Ok := by
    have hnew := Node.ok_new (V := V) (Nat.zero_le n) 0 none
    rw [← hmask] at hnew
    exact hnew
  have hnone (p : Nat) (i : Fin 2) : ((empty : Trie n V).node p).kids i = none := by
    rw [node_empty]
    rfl
  have hno {p : Nat} {i : Fin 2} {c : Nat} (h : ((empty : Trie n V).node p).kids i = some c) : False := by
    rw [hnone] at h
    cases h
  refine ⟨⟨fun h => (hno h).elim, fun h => (hno h).elim, fun h => (hno h).elim, fun h => (hno h).elim, fun hc hr => ?_⟩, fun hh => ?_,
    fun _ => ?_, ?_, ?_, ?_, ?_, fun h => (hno h).elim, fun h => (hno h).elim, fun _ => hnone _ _⟩
  · rw [live_empty] at hc
    exact absurd hc hr
  · rw [live_empty] at hh
    rw [hh]
    exact Nat.one_pos
  · rw [node_empty]
    exact hok
  · rfl
  · rfl
  · show maskWidth (0 : BitVec n) = 0
    rw [hmask, maskWidth_leading (Nat.zero_le n)]
  · rfl

theorem Holds.live (hs : Holds t stored) (hmem : (h, e) ∈ stored) : h ∈ t.live := by
  by_contra hdead
  have hentry := (hs h e).mpr hmem
  rw [dead_entry hdead] at hentry
  cases hentry

/-- A lookup finds the node of a shortest entry that matches. -/
theorem lookupHandle_spec (s : Shape t) (hs : Holds t stored) (key : BitVec n) : ∃ r, t.lookupHandle key = .ok r ∧
    (∀ h, r = some h → h ∈ t.live ∧ ∃ e, Shortest stored key (h, e)) ∧ (r = none → ∀ he ∈ stored, ¬he.2.Matches key) := by
  have hhead : (t.node head).Covers key := by
    intro i hi
    rw [s.head_width] at hi
    cases hi
  obtain ⟨r, hr, hfound, hnothing⟩ := lookupFrom_spec s (n + 1) head s.head_live hhead (by omega)
  refine ⟨r, hr, ?_, ?_⟩
  · intro q hq
    obtain ⟨hlive, hcovers, hvalue, hleast⟩ := hfound q hq
    obtain ⟨v, hv⟩ := Option.ne_none_iff_exists'.mp hvalue
    have hentry : (t.node q).entry = some { width := (t.node q).width, key := (t.node q).key, value := v } := by
      unfold Node.entry
      rw [hv]
      rfl
    refine ⟨hlive, _, (hs q _).mp hentry, hcovers, ?_⟩
    rintro ⟨h', e'⟩ hmem hmatches
    have hentry' := (hs h' e').mpr hmem
    obtain ⟨hvalue', hwidth', -⟩ := Entry.of_node hentry'
    have hle := hleast h' (s.under_head (hs.live hmem)) ((Entry.covers_iff hentry').mpr hmatches) (by rw [hvalue']; exact Option.some_ne_none _)
    rw [hwidth'] at hle
    exact hle
  · rintro hrn ⟨h', e'⟩ hmem hmatches
    have hentry' := (hs h' e').mpr hmem
    have hnone := hnothing hrn h' (s.under_head (hs.live hmem)) ((Entry.covers_iff hentry').mpr hmatches)
    rw [(Entry.of_node hentry').1] at hnone
    cases hnone

theorem Inserted.holds (hs : Holds t stored) (i : Inserted t key w val h t') :
    Holds t' ((h, { width := w, key := key, value := val }) :: stored) := by
  intro c e
  rw [List.mem_cons, ← hs c e]
  by_cases hc : c = h
  · rw [hc, i.entry, i.vacant]
    simp [eq_comm]
  · rw [i.others c hc]
    simp [hc]

theorem Removed.holds (hs : Holds t stored) (r : Removed t h t') : Holds t' (stored.filter fun he => he.1 ≠ h) := by
  intro c e
  rw [List.mem_filter, ← hs c e]
  by_cases hc : c = h
  · rw [hc, r.gone]
    simp
  · rw [r.others c hc]
    simp [hc]

theorem remove_spec (s : Shape t) (f : t.Full) (hs : Holds t stored) (hmem : (h, e) ∈ stored) :
    ∃ t', t.remove h = .ok (some e.value, t') ∧ Removed t h t' := by
  obtain ⟨hvalue, -⟩ := Entry.of_node ((hs h e).mpr hmem)
  have hlive := hs.live hmem
  have hne : h ≠ head := by
    rintro rfl
    rw [s.head_value] at hvalue
    cases hvalue
  obtain ⟨p, i, hi, -⟩ := s.place hlive hne
  have hlt := (s.below hi).1
  have hle := (s.ok hlive).width_le
  have hfuel : n + 1 = n - 1 + 2 := by omega
  obtain ⟨t', ht', hremoved⟩ := removeFrom_spec s f (by rw [hvalue]; exact Option.some_ne_none _) (n - 1)
  refine ⟨t', ?_, hremoved⟩
  unfold remove
  rw [hfuel, ht', hvalue]

end Trie

/-! Runs. -/

inductive TrieOp (n : Nat) (V : Type) where
  | insert (key : BitVec n) (width : Nat) (val : V)
  | remove (h : Nat)
  | removeKey (key : BitVec n)
  | lookup (key : BitVec n)

/-- A trie, and the entries that were put in and not taken out. -/
structure TrieSystem (n : Nat) (V : Type) where
  trie : Trie n V := Trie.empty
  stored : Stored n V := []

namespace TrieSystem
variable {s u : TrieSystem n V} {op : TrieOp n V} {ops : List (TrieOp n V)}

/-- A prefix is not stored twice, and what is removed by its handle is stored. -/
def legal (s : TrieSystem n V) : TrieOp n V → Bool
  | .insert key width _ => decide (1 ≤ width ∧ width ≤ n ∧ ∀ he ∈ s.stored, he.2.width = width → ¬he.2.Matches key)
  | .remove h => s.stored.any fun he => he.1 = h
  | .removeKey _ => true
  | .lookup _ => true

def step (s : TrieSystem n V) : TrieOp n V → Except Stop (TrieSystem n V)
  | .insert key width val => do
    let r ← s.trie.insert key width (some val)
    .ok { trie := r.2, stored := (r.1, { width := width, key := key &&& leading n width, value := val }) :: s.stored }
  | .remove h => do
    let r ← s.trie.remove h
    .ok { trie := r.2, stored := s.stored.filter fun he => he.1 ≠ h }
  | .removeKey key => do
    let h ← s.trie.lookupHandle key
    let r ← s.trie.removeKey key
    .ok { trie := r.2, stored := s.stored.filter fun he => some he.1 ≠ h }
  | .lookup key => do
    let _ ← s.trie.lookup key
    .ok s

abbrev TrieStep : TrieSystem n V → TrieOp n V → TrieSystem n V → Prop := StepIf legal step

structure TrieInv (s : TrieSystem n V) : Prop where
  shape : s.trie.Shape
  full : s.trie.Full
  holds : s.trie.Holds s.stored

namespace TrieInv
variable (i : TrieInv s)
include i

theorem insert {key : BitVec n} {width : Nat} {val : V} (hl : s.legal (.insert key width val) = true) :
    ∃ h t', s.trie.insert key width (some val) = .ok (h, t') ∧ s.trie.Inserted (key &&& leading n width) width val h t' := by
  obtain ⟨hw, hwn, hnot⟩ := of_decide_eq_true hl
  refine Trie.insert_spec i.shape i.full hw hwn (fun c _ hwidth hcovers => ?_) val
  cases hv : (s.trie.node c).value with
  | none => rfl
  | some v =>
    have hentry : (s.trie.node c).entry = some { width := (s.trie.node c).width, key := (s.trie.node c).key, value := v } := by
      unfold Node.entry
      rw [hv]
      rfl
    exact absurd hcovers (hnot _ ((i.holds c _).mp hentry) hwidth)

/-- A removal by key removes a shortest entry that matches. -/
theorem removeKey (key : BitVec n) : (∃ h e t', Shortest s.stored key (h, e) ∧ s.trie.lookupHandle key = .ok (some h) ∧
      s.trie.removeKey key = .ok (some e.value, t') ∧ s.trie.Removed h t') ∨
    ((∀ he ∈ s.stored, ¬he.2.Matches key) ∧ s.trie.lookupHandle key = .ok none ∧ s.trie.removeKey key = .ok (none, s.trie)) := by
  obtain ⟨r, hr, hfound, hnothing⟩ := Trie.lookupHandle_spec i.shape i.holds key
  cases r with
  | some h =>
    obtain ⟨-, e, hshort⟩ := hfound h rfl
    obtain ⟨t', ht', hremoved⟩ := Trie.remove_spec i.shape i.full i.holds hshort.mem
    refine .inl ⟨h, e, t', hshort, hr, ?_, hremoved⟩
    unfold Trie.removeKey
    rw [hr, bind_ok]
    exact ht'
  | none =>
    refine .inr ⟨hnothing rfl, hr, ?_⟩
    unfold Trie.removeKey
    rw [hr]
    rfl

theorem lookup (key : BitVec n) : (∃ h e, Shortest s.stored key (h, e) ∧ s.trie.lookup key = .ok (some e.value)) ∨
    ((∀ he ∈ s.stored, ¬he.2.Matches key) ∧ s.trie.lookup key = .ok none) := by
  obtain ⟨r, hr, hfound, hnothing⟩ := Trie.lookupHandle_spec i.shape i.holds key
  unfold Trie.lookup
  rw [hr, bind_ok]
  cases r with
  | some h =>
    obtain ⟨hlive, e, hshort⟩ := hfound h rfl
    refine .inl ⟨h, e, hshort, ?_⟩
    dsimp only
    rw [Trie.get_eq hlive, bind_ok, (Entry.of_node ((i.holds h e).mpr hshort.mem)).1]
  | none => exact .inr ⟨hnothing rfl, rfl⟩

theorem step (hl : s.legal op = true) : ∃ u, s.step op = .ok u ∧ TrieInv u := by
  cases op with
  | insert key width val =>
    obtain ⟨h, t', hins, hinserted⟩ := i.insert hl
    refine ⟨{ trie := t', stored := (h, { width := width, key := key &&& leading n width, value := val }) :: s.stored }, ?_,
      hinserted.shape, hinserted.full, hinserted.holds i.holds⟩
    unfold TrieSystem.step
    dsimp only
    rw [hins, bind_ok]
  | remove h =>
    obtain ⟨⟨h', e⟩, hmem, heq⟩ := List.any_eq_true.mp hl
    obtain rfl : h' = h := of_decide_eq_true heq
    obtain ⟨t', ht', hremoved⟩ := Trie.remove_spec i.shape i.full i.holds hmem
    refine ⟨{ trie := t', stored := s.stored.filter fun he => he.1 ≠ h' }, ?_, hremoved.shape, hremoved.full, hremoved.holds i.holds⟩
    unfold TrieSystem.step
    dsimp only
    rw [ht', bind_ok]
  | removeKey key =>
    unfold TrieSystem.step
    dsimp only
    rcases i.removeKey key with ⟨h, e, t', -, hhandle, hrem, hremoved⟩ | ⟨-, hhandle, hrem⟩
    · refine ⟨{ trie := t', stored := s.stored.filter fun he => some he.1 ≠ some h }, ?_, hremoved.shape, hremoved.full, ?_⟩
      · rw [hhandle, bind_ok, hrem, bind_ok]
      · have hfilter : (s.stored.filter fun he => some he.1 ≠ some h) = s.stored.filter fun he => he.1 ≠ h := by
          simp
        rw [hfilter]
        exact hremoved.holds i.holds
    · refine ⟨{ trie := s.trie, stored := s.stored.filter fun he => some he.1 ≠ none }, ?_, i.shape, i.full, ?_⟩
      · rw [hhandle, bind_ok, hrem, bind_ok]
      · have hfilter : (s.stored.filter fun he => some he.1 ≠ none) = s.stored := by
          simp
        rw [hfilter]
        exact i.holds
  | lookup key =>
    refine ⟨s, ?_, i⟩
    unfold TrieSystem.step
    dsimp only
    rcases i.lookup key with ⟨h, e, -, hlook⟩ | ⟨-, hlook⟩
    · rw [hlook, bind_ok]
    · rw [hlook, bind_ok]

end TrieInv

theorem TrieInv.run (hr : Exec TrieStep ({} : TrieSystem n V) ops s) : TrieInv s := by
  refine hr.invariant ⟨Trie.shape_empty, ?_, ?_⟩ ?_
  · intro h hh hne
    rw [Trie.live_empty] at hh
    exact absurd hh hne
  · intro h e
    rw [Trie.node_empty]
    simp [Node.entry, Node.new]
  · rintro t op u i ⟨hl, hs⟩
    obtain ⟨u', hu', i'⟩ := i.step hl
    cases hu'.symm.trans hs
    exact i'

/-- The trie is a prefix map. A lookup finds the value of a shortest stored prefix that matches, an insertion of a
  prefix that is not stored gives it a handle that was not in use, and a removal takes out the one entry and returns
  its value; every other entry keeps its handle. None of the assertions fails, and no run ends before an operation
  that is allowed. -/
theorem prefix_map (hr : Exec TrieStep ({} : TrieSystem n V) ops s) : s.trie.Holds s.stored ∧
    (∀ key, (∃ h e, Shortest s.stored key (h, e) ∧ s.trie.lookup key = .ok (some e.value)) ∨
      ((∀ he ∈ s.stored, ¬he.2.Matches key) ∧ s.trie.lookup key = .ok none)) ∧
    (∀ key width val, s.legal (.insert key width val) = true → ∃ h t', s.trie.insert key width (some val) = .ok (h, t') ∧
      (∀ he ∈ s.stored, he.1 ≠ h) ∧ t'.Holds ((h, { width := width, key := key &&& leading n width, value := val }) :: s.stored)) ∧
    (∀ h e, (h, e) ∈ s.stored → ∃ t', s.trie.remove h = .ok (some e.value, t') ∧ t'.Holds (s.stored.filter fun he => he.1 ≠ h)) ∧
    (∀ key, (∃ h e t', Shortest s.stored key (h, e) ∧ s.trie.removeKey key = .ok (some e.value, t') ∧
        t'.Holds (s.stored.filter fun he => he.1 ≠ h)) ∨
      ((∀ he ∈ s.stored, ¬he.2.Matches key) ∧ s.trie.removeKey key = .ok (none, s.trie))) ∧
    ∀ op, s.legal op = true → ∃ u, Exec TrieStep ({} : TrieSystem n V) (ops ++ [op]) u := by
  have i := TrieInv.run hr
  refine ⟨i.holds, i.lookup, ?_, ?_, ?_, ?_⟩
  · intro key width val hl
    obtain ⟨h, t', ht', hinserted⟩ := i.insert hl
    refine ⟨h, t', ht', ?_, hinserted.holds i.holds⟩
    rintro ⟨h', e⟩ hmem rfl
    have hentry := (i.holds h' e).mpr hmem
    rw [hinserted.vacant] at hentry
    cases hentry
  · intro h e hmem
    obtain ⟨t', ht', hremoved⟩ := Trie.remove_spec i.shape i.full i.holds hmem
    exact ⟨t', ht', hremoved.holds i.holds⟩
  · intro key
    rcases i.removeKey key with ⟨h, e, t', hshort, -, hrem, hremoved⟩ | ⟨hnone, -, hrem⟩
    · exact .inl ⟨h, e, t', hshort, hrem, hremoved.holds i.holds⟩
    · exact .inr ⟨hnone, hrem⟩
  · intro op hl
    obtain ⟨u, hu, -⟩ := i.step hl
    exact ⟨u, .snoc hr ⟨hl, hu⟩⟩

/-- Of four prefixes one is removed by its handle from an inner node, and one by a key. -/
theorem prefix_map_four : ∃ s : TrieSystem 8 Nat, Exec TrieStep {}
      [.insert 0xAB 8 1, .insert 0xA0 4 2, .insert 0xF0 4 3, .insert 0xAC 7 4, .remove 2, .removeKey 0xAD, .lookup 0xAB] s ∧
    s.stored.map Prod.fst = [4, 1] ∧ s.trie.Holds s.stored ∧
    ∀ key, (∃ h e, Shortest s.stored key (h, e) ∧ s.trie.lookup key = .ok (some e.value)) ∨
      ((∀ he ∈ s.stored, ¬he.2.Matches key) ∧ s.trie.lookup key = .ok none) := by
  refine Exec.ends_withIf (p := fun s => decide (s.stored.map Prod.fst = [4, 1])) (by decide) fun s hr hend => ?_
  obtain ⟨hholds, hlookup, -⟩ := prefix_map hr
  exact ⟨of_decide_eq_true hend, hholds, hlookup⟩

end TrieSystem

end Gem5.Base
