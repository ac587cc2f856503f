import Gem5Nvmain.Base.Trie
import Gem5Nvmain.Lib.Forests
import Mathlib.Logic.Relation

/- The shape of a trie.

  `t.node h` is the node with the handle `h`; a handle that is not in use has a blank one. The pointers of a trie make
  a forest whose only root is the head, the prefix of a kid is longer than that of its parent and begins with it, and
  the two kids of a node differ in the first bit behind it (`Shape`). So only one kid can match a key
  (`Shape.kid_covers`), and a walk that goes down to the kid that matches meets every node that matches
  (`lookupFrom_spec`, `walk_spec`). A trie is `Full` when the nodes without a value have two kids. -/
namespace Gem5.Base
open Lib Function

/-- A prefix with its value. -/
structure Entry (n : Nat) (V : Type) where
  width : Nat
  key : BitVec n
  value : V

namespace Node
variable {n w : Nat} {V : Type} {x : Node n V} {i j : Fin 2} {kid : Option Nat}

/-- How many bits the prefix has. -/
def width (x : Node n V) : Nat := maskWidth x.mask

@[simp] theorem width_setKid : (x.setKid i kid).width = x.width := rfl

@[simp] theorem key_setKid : (x.setKid i kid).key = x.key := rfl

@[simp] theorem mask_setKid : (x.setKid i kid).mask = x.mask := rfl

@[simp] theorem value_setKid : (x.setKid i kid).value = x.value := rfl

@[simp] theorem parent_setKid : (x.setKid i kid).parent = x.parent := rfl

theorem kids_setKid : (x.setKid i kid).kids j = if j = i then kid else x.kids j := update_apply _ _ _ _

/-- The mask has leading bits only, and the key no other bits. -/
structure Ok (x : Node n V) : Prop where
  mask : x.mask = leading n x.width
  width_le : x.width ≤ n
  key : x.key &&& x.mask = x.key

theorem ok_new (hw : w ≤ n) (key : BitVec n) (value : Option V) : (new key (leading n w) value).Ok := by
  have hwidth : (new key (leading n w) value).width = w := maskWidth_leading hw
  refine ⟨?_, ?_, ?_⟩
  · rw [hwidth]
    rfl
  · rw [hwidth]
    exact hw
  · show key &&& leading n w &&& leading n w = key &&& leading n w
    rw [BitVec.and_assoc, BitVec.and_self]

/-- The entry that a node holds. -/
def entry (x : Node n V) : Option (Entry n V) := x.value.map fun v => { width := x.width, key := x.key, value := v }

/-- The key begins with the prefix of the node. -/
def Covers (x : Node n V) (key : BitVec n) : Prop := Agree x.width x.key key

instance {key : BitVec n} : Decidable (x.Covers key) := inferInstanceAs (Decidable (Agree x.width x.key key))

theorem Ok.matches_iff (o : x.Ok) (key : BitVec n) : x.matches key = true ↔ x.Covers key := by
  have hkey : x.key = x.key &&& leading n x.width := by
    rw [← o.mask]
    exact o.key.symm
  unfold «matches» Covers
  rw [beq_iff_eq, o.mask, hkey, and_leading_eq o.width_le, ← hkey]
  exact ⟨Agree.symm, Agree.symm⟩

theorem Ok.goesAfter_iff (o : x.Ok) (key : BitVec n) (hw : w ≤ n) : x.goesAfter key (leading n w) = true ↔ x.Covers key ∧ x.width ≤ w := by
  unfold goesAfter
  rw [Bool.and_eq_true, o.matches_iff, beq_iff_eq, o.mask, leading_and_leading o.width_le hw]

end Node

namespace Trie
variable {n : Nat} {V : Type} {t : Trie n V} {h p q c d : Nat} {x : Node n V} {i j : Fin 2} {key : BitVec n} {w : Nat}

/-- The node of a handle. -/
def node (t : Trie n V) (h : Nat) : Node n V := (t.nodes h).getD (Node.new 0 0 none)

def live (t : Trie n V) : Set Nat := {h | (t.nodes h).isSome}

def links (t : Trie n V) : Branches Nat (Fin 2) where
  kid p i := (t.node p).kids i
  up c := (t.node c).parent

theorem get_eq (hh : h ∈ t.live) : t.get h = .ok (t.node h) := by
  obtain ⟨x, hx⟩ := Option.isSome_iff_exists.mp hh
  unfold get node
  rw [hx]
  rfl

theorem node_dead (hh : h ∉ t.live) : t.node h = Node.new 0 0 none := by
  have hnone : t.nodes h = none := by simpa [live] using hh
  unfold node
  rw [hnone]
  rfl

theorem dead_entry (hh : h ∉ t.live) : (t.node h).entry = none := by
  rw [node_dead hh]
  rfl

theorem node_set (t : Trie n V) (h : Nat) (x : Node n V) (k : Nat) : (t.set h x).node k = if k = h then x else t.node k := by
  by_cases hk : k = h <;> simp [node, set, hk]

theorem node_alloc (t : Trie n V) (x : Node n V) (k : Nat) : (t.alloc x).node k = if k = t.fresh then x else t.node k := by
  by_cases hk : k = t.fresh <;> simp [node, alloc, hk]

theorem node_free (t : Trie n V) (h k : Nat) : (t.free h).node k = if k = h then Node.new 0 0 none else t.node k := by
  by_cases hk : k = h <;> simp [node, free, hk]

theorem live_set (hh : h ∈ t.live) (x : Node n V) : (t.set h x).live = t.live := by
  ext k
  by_cases hk : k = h
  · subst hk
    simpa [live, set] using hh
  · simp [live, set, hk]

theorem live_alloc (t : Trie n V) (x : Node n V) : (t.alloc x).live = Insert.insert t.fresh t.live := by
  ext k
  by_cases hk : k = t.fresh <;> simp [live, alloc, hk]

theorem live_free (t : Trie n V) (h : Nat) : (t.free h).live = t.live \ {h} := by
  ext k
  by_cases hk : k = h <;> simp [live, free, hk]

structure Shape (t : Trie n V) : Prop where
  forest : Forest t.links t.live {head}
  fresh : ∀ {h}, h ∈ t.live → h < t.fresh
  ok : ∀ {h}, h ∈ t.live → (t.node h).Ok
  head_live : head ∈ t.live
  head_up : (t.node head).parent = none
  head_width : (t.node head).width = 0
  head_value : (t.node head).value = none
  below : ∀ {p i c}, (t.node p).kids i = some c → (t.node p).width < (t.node c).width ∧ Agree (t.node p).width (t.node c).key (t.node p).key
  fork : ∀ {p a b}, (t.node p).kids 0 = some a → (t.node p).kids 1 = some b →
    (t.node a).key.getMsbD (t.node p).width ≠ (t.node b).key.getMsbD (t.node p).width
  left : ∀ {p}, (t.node p).kids 0 = none → (t.node p).kids 1 = none

/-- The nodes but for one are the same, up to their pointers. -/
structure Alters (t t' : Trie n V) (m : Nat) : Prop where
  live : ∀ c, c ≠ m → (c ∈ t'.live ↔ c ∈ t.live)
  key : ∀ c, c ≠ m → (t'.node c).key = (t.node c).key
  mask : ∀ c, c ≠ m → (t'.node c).mask = (t.node c).mask
  value : ∀ c, c ≠ m → (t'.node c).value = (t.node c).value

namespace Alters
variable {t' : Trie n V} {m : Nat} (g : Alters t t' m)
include g

theorem width (c : Nat) (hc : c ≠ m) : (t'.node c).width = (t.node c).width := congrArg maskWidth (g.mask c hc)

theorem entry (c : Nat) (hc : c ≠ m) : (t'.node c).entry = (t.node c).entry := by
  unfold Node.entry
  rw [g.value c hc, g.width c hc, g.key c hc]

theorem shape (s : Shape t) (hm : m ≠ head) (hfresh : ∀ {h}, h ∈ t'.live → h < t'.fresh) (hok : m ∈ t'.live → (t'.node m).Ok)
    (hforest : Forest t'.links t'.live {head}) (hup : (t'.node head).parent = none)
    (hbelow : ∀ {p i c}, (t'.node p).kids i = some c → (t'.node p).width < (t'.node c).width ∧ Agree (t'.node p).width (t'.node c).key (t'.node p).key)
    (hfork : ∀ {p a b}, (t'.node p).kids 0 = some a → (t'.node p).kids 1 = some b →
      (t'.node a).key.getMsbD (t'.node p).width ≠ (t'.node b).key.getMsbD (t'.node p).width)
    (hleft : ∀ {p}, (t'.node p).kids 0 = none → (t'.node p).kids 1 = none) : Shape t' := by
  refine ⟨hforest, hfresh, @fun h hh => ?_, ?_, hup, ?_, ?_, hbelow, hfork, hleft⟩
  · by_cases hne : h = m
    · subst hne
      exact hok hh
    · have hold := s.ok ((g.live h hne).mp hh)
      refine ⟨?_, ?_, ?_⟩
      · rw [g.mask h hne, g.width h hne]
        exact hold.mask
      · rw [g.width h hne]
        exact hold.width_le
      · rw [g.mask h hne, g.key h hne]
        exact hold.key
  · exact (g.live head hm.symm).mpr s.head_live
  · rw [g.width head hm.symm]
    exact s.head_width
  · rw [g.value head hm.symm]
    exact s.head_value

end Alters

attribute [local instance] Node.neZero_two in
/-- Only the head may have less than two kids and no value. -/
def Full (t : Trie n V) : Prop := ∀ h ∈ t.live, h ≠ head → (t.node h).value = none → (t.node h).kids 1 ≠ none

namespace Shape
variable (s : Shape t)
include s

theorem kid_live (hc : (t.node p).kids i = some c) : c ∈ t.live := (s.forest.kid_live hc).2

theorem kid_ne_head (hc : (t.node p).kids i = some c) : c ≠ head := s.forest.kid_root hc

theorem kid_parent (hc : (t.node p).kids i = some c) : (t.node c).parent = some p := s.forest.kid_up hc

theorem fresh_not_live : t.fresh ∉ t.live := fun h => Nat.lt_irrefl _ (s.fresh h)

theorem ne_fresh (hp : p ∈ t.live) : p ≠ t.fresh := fun h => s.fresh_not_live (h ▸ hp)

theorem covers_of_kid (hc : (t.node p).kids i = some c) (hk : (t.node c).Covers key) : (t.node p).Covers key := by
  obtain ⟨hlt, hagree⟩ := s.below hc
  exact hagree.symm.trans (Agree.mono hk hlt.le)

theorem kid_covers (hc : (t.node p).kids i = some c) (hd : (t.node p).kids j = some d) (hkc : (t.node c).Covers key)
    (hkd : (t.node d).Covers key) : c = d := by
  have hbit {i : Fin 2} {c : Nat} (h : (t.node p).kids i = some c) (hk : (t.node c).Covers key) :
      (t.node c).key.getMsbD (t.node p).width = key.getMsbD (t.node p).width := hk _ (s.below h).1
  match i, j with
  | 0, 0 => exact Option.some.inj (hc.symm.trans hd)
  | 1, 1 => exact Option.some.inj (hc.symm.trans hd)
  | 0, 1 => exact absurd ((hbit hc hkc).trans (hbit hd hkd).symm) (s.fork hc hd)
  | 1, 0 => exact absurd ((hbit hd hkd).trans (hbit hc hkc).symm) (s.fork hd hc)

end Shape

/-! Walks. -/

def Kid (t : Trie n V) (p c : Nat) : Prop := ∃ i, (t.node p).kids i = some c

/-- `c` is the node `p` or a node under it. -/
def Under (t : Trie n V) : Nat → Nat → Prop := Relation.ReflTransGen t.Kid

theorem Shape.under_head (s : Shape t) (hc : c ∈ t.live) : t.Under head c := by
  refine s.forest.induction (fun h => (t.node h).width) (fun h => (s.below h).1) ?_ ?_ hc
  · rintro r rfl
    exact Relation.ReflTransGen.refl
  · intro p i c hkid hp
    exact hp.tail ⟨i, hkid⟩

theorem Shape.under_covers (s : Shape t) (h : t.Under p c) (hk : (t.node c).Covers key) :
    (t.node p).Covers key ∧ (t.node p).width ≤ (t.node c).width := by
  induction h using Relation.ReflTransGen.head_induction_on with
  | refl => exact ⟨hk, Nat.le_refl _⟩
  | head hkid _ ih =>
    obtain ⟨i, hi⟩ := hkid
    exact ⟨s.covers_of_kid hi ih.1, (s.below hi).1.le.trans ih.2⟩

theorem kidIf_spec (s : Shape t) (f : Node n V → Bool) (p : Nat) (i : Fin 2) : ∃ r, t.kidIf f ((t.node p).kids i) = .ok r ∧
    (∀ c, r = some c → (t.node p).kids i = some c ∧ f (t.node c) = true) ∧
    (r = none → ∀ c, (t.node p).kids i = some c → f (t.node c) = false) := by
  cases hkid : (t.node p).kids i with
  | none =>
    refine ⟨none, rfl, ?_, ?_⟩
    · intro c hc
      cases hc
    · intro _ c hc
      cases hc
  | some kid =>
    refine ⟨if f (t.node kid) then some kid else none, ?_, ?_, ?_⟩
    · unfold kidIf
      dsimp only
      rw [get_eq (s.kid_live hkid)]
      rfl
    · intro c hc
      split at hc
      · rename_i hf
        cases hc
        exact ⟨rfl, hf⟩
      · cases hc
    · intro hr c hc
      cases hc
      split at hr
      · cases hr
      · rename_i hf
        exact Bool.eq_false_iff.mpr hf

/-- The next node of a walk is a kid that meets the condition, when there is one. -/
theorem nextKid_spec (s : Shape t) (f : Node n V → Bool) (p : Nat) : ∃ r, t.nextKid f (t.node p) = .ok r ∧
    (∀ c, r = some c → t.Kid p c ∧ f (t.node c) = true) ∧ (r = none → ∀ c, t.Kid p c → f (t.node c) = false) := by
  obtain ⟨r, hr, hsome, hnone⟩ := kidIf_spec s f p 0
  unfold nextKid
  rw [hr, bind_ok]
  cases r with
  | some kid =>
    refine ⟨some kid, rfl, ?_, ?_⟩
    · intro c hc
      obtain ⟨hkid, hf⟩ := hsome c hc
      exact ⟨⟨0, hkid⟩, hf⟩
    · intro h
      cases h
  | none =>
    obtain ⟨r, hr, hsome', hnone'⟩ := kidIf_spec s f p 1
    refine ⟨r, hr, ?_, ?_⟩
    · intro c hc
      obtain ⟨hkid, hf⟩ := hsome' c hc
      exact ⟨⟨1, hkid⟩, hf⟩
    · rintro hrn c ⟨i, hi⟩
      match i with
      | 0 => exact hnone rfl c hi
      | 1 => exact hnone' hrn c hi

/-- What a lookup from a node finds. -/
structure Found (t : Trie n V) (p : Nat) (key : BitVec n) (q : Nat) : Prop where
  live : q ∈ t.live
  covers : (t.node q).Covers key
  value : (t.node q).value ≠ none
  least : ∀ c, t.Under p c → (t.node c).Covers key → (t.node c).value ≠ none → (t.node q).width ≤ (t.node c).width

theorem lookupFrom_spec (s : Shape t) (fuel p : Nat) (hp : p ∈ t.live) (hk : (t.node p).Covers key) (hfuel : n < fuel + (t.node p).width) :
    ∃ r, t.lookupFrom key fuel p = .ok r ∧ (∀ q, r = some q → t.Found p key q) ∧
      (r = none → ∀ c, t.Under p c → (t.node c).Covers key → (t.node c).value = none) := by
  induction fuel generalizing p with
  | zero =>
    have hle := (s.ok hp).width_le
    omega
  | succ fuel ih =>
    unfold lookupFrom
    rw [get_eq hp, bind_ok]
    by_cases hv : (t.node p).value.isSome
    · rw [if_pos hv]
      refine ⟨some p, rfl, ?_, ?_⟩
      · intro q hq
        cases hq
        exact ⟨hp, hk, Option.isSome_iff_ne_none.mp hv, fun c hc hkc _ => (s.under_covers hc hkc).2⟩
      · intro h
        cases h
    · have hnov : (t.node p).value = none := by simpa using hv
      obtain ⟨r, hr, hsome, hnone⟩ := nextKid_spec s (fun y => y.matches key) p
      rw [if_neg hv, hr, bind_ok]
      -- a node under `p` with a value that matches is under a kid that matches
      have hunder : ∀ c, t.Under p c → (t.node c).Covers key → (t.node c).value ≠ none →
          ∃ d, t.Kid p d ∧ (t.node d).Covers key ∧ t.Under d c := by
        intro c hc hkc hvc
        rcases Relation.ReflTransGen.cases_head hc with rfl | ⟨d, hd, hdc⟩
        · exact absurd hnov hvc
        · exact ⟨d, hd, (s.under_covers hdc hkc).1, hdc⟩
      cases r with
      | some kid =>
        obtain ⟨⟨i, hi⟩, hf⟩ := hsome kid rfl
        have hlive := s.kid_live hi
        have hcovers := ((s.ok hlive).matches_iff key).mp hf
        have hlt := (s.below hi).1
        obtain ⟨r, hr, hfound, hnothing⟩ := ih kid hlive hcovers (by omega)
        have hkid : ∀ c, t.Under p c → (t.node c).Covers key → (t.node c).value ≠ none → t.Under kid c := by
          intro c hc hkc hvc
          obtain ⟨d, ⟨j, hj⟩, hkd, hdc⟩ := hunder c hc hkc hvc
          rw [s.kid_covers hi hj hcovers hkd]
          exact hdc
        refine ⟨r, hr, ?_, ?_⟩
        · intro q hq
          obtain ⟨hql, hqk, hqv, hleast⟩ := hfound q hq
          exact ⟨hql, hqk, hqv, fun c hc hkc hvc => hleast c (hkid c hc hkc hvc) hkc hvc⟩
        · intro hrn c hc hkc
          by_contra hvc
          exact hvc (hnothing hrn c (hkid c hc hkc hvc) hkc)
      | none =>
        refine ⟨none, rfl, ?_, ?_⟩
        · intro q hq
          cases hq
        · intro _ c hc hkc
          by_contra hvc
          obtain ⟨d, hd, hkd, -⟩ := hunder c hc hkc hvc
          have hlive : d ∈ t.live := hd.elim fun i hi => s.kid_live hi
          have hf := hnone rfl d hd
          rw [((s.ok hlive).matches_iff key).mpr hkd] at hf
          cases hf

/-- The walk of an insertion ends at a node with a part of the prefix, none of whose kids has a longer part. -/
theorem walk_spec (s : Shape t) (key : BitVec n) (hw : w ≤ n) (fuel p : Nat) (hp : p ∈ t.live) (hk : (t.node p).Covers key) (hpw : (t.node p).width ≤ w)
    (hfuel : n < fuel + (t.node p).width) : ∃ q, t.walk key (leading n w) fuel p = .ok q ∧ q ∈ t.live ∧ (t.node q).Covers key ∧
      (t.node q).width ≤ w ∧ ∀ i c, (t.node q).kids i = some c → (t.node c).Covers key → w < (t.node c).width := by
  induction fuel generalizing p with
  | zero =>
    omega
  | succ fuel ih =>
    obtain ⟨r, hr, hsome, hnone⟩ := nextKid_spec s (fun y => y.goesAfter key (leading n w)) p
    unfold walk
    rw [get_eq hp, bind_ok, hr, bind_ok]
    cases r with
    | some kid =>
      obtain ⟨⟨i, hi⟩, hf⟩ := hsome kid rfl
      have hlive := s.kid_live hi
      obtain ⟨hcovers, hle⟩ := ((s.ok hlive).goesAfter_iff key hw).mp hf
      have hlt := (s.below hi).1
      exact ih kid hlive hcovers hle (by omega)
    | none =>
      refine ⟨p, rfl, hp, hk, hpw, ?_⟩
      intro i c hc hkc
      by_contra hle
      have hf := hnone rfl c ⟨i, hc⟩
      rw [((s.ok (s.kid_live hc)).goesAfter_iff key hw).mpr ⟨hkc, Nat.le_of_not_lt hle⟩] at hf
      cases hf

end Trie

end Gem5.Base
