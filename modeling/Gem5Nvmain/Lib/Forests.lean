import Mathlib.Data.Set.Insert
import Mathlib.Logic.Function.Basic

/- Forests whose nodes point down to their kids and up to their parents.

  `Forest k live roots` says that the pointers of `k` agree: the kids of a node are live, point up to it and stand in
  one of its places only, and every live node that is not a root is a kid. A tree is taken apart and put together by
  `detach`, which makes a kid a root, and `attach`, which does the opposite; a root without kids can be dropped, and a
  new one added. A property that goes from every node to its kids holds for all live nodes (`Forest.induction`). -/
namespace Lib
open Function

@[ext]
structure Branches (α κ : Type) where
  kid : α → κ → Option α
  up : α → Option α

namespace Branches
variable {α κ : Type} [DecidableEq α] [DecidableEq κ] {k : Branches α κ} {p q c d : α} {i j : κ}

def detach (k : Branches α κ) (p : α) (i : κ) : Branches α κ := { k with kid := update k.kid p (update (k.kid p) i none) }

def attach (k : Branches α κ) (p : α) (i : κ) (c : α) : Branches α κ where
  kid := update k.kid p (update (k.kid p) i (some c))
  up := update k.up c (some p)

theorem kid_detach : (k.detach p i).kid q j = if q = p ∧ j = i then none else k.kid q j := by
  unfold detach
  by_cases hq : q = p
  · subst hq
    by_cases hj : j = i <;> simp [hj]
  · simp [hq]

theorem kid_attach : (k.attach p i c).kid q j = if q = p ∧ j = i then some c else k.kid q j := by
  unfold attach
  by_cases hq : q = p
  · subst hq
    by_cases hj : j = i <;> simp [hj]
  · simp [hq]

theorem up_attach : (k.attach p i c).up d = if d = c then some p else k.up d := update_apply _ _ _ _

end Branches

structure Forest {α κ : Type} (k : Branches α κ) (live roots : Set α) : Prop where
  kid_live : ∀ {p i c}, k.kid p i = some c → p ∈ live ∧ c ∈ live
  kid_root : ∀ {p i c}, k.kid p i = some c → c ∉ roots
  kid_up : ∀ {p i c}, k.kid p i = some c → k.up c = some p
  kid_slot : ∀ {p i j c}, k.kid p i = some c → k.kid p j = some c → i = j
  is_kid : ∀ {c}, c ∈ live → c ∉ roots → ∃ p i, k.kid p i = some c

namespace Forest
variable {α κ : Type} {k k' : Branches α κ} {live roots : Set α} {p q c d r : α} {i j : κ}

section
variable (f : Forest k live roots)
include f

theorem kid_unique (h : k.kid p i = some c) (h' : k.kid q j = some c) : q = p ∧ j = i := by
  have hq : q = p := Option.some.inj ((f.kid_up h').symm.trans (f.kid_up h))
  subst hq
  exact ⟨rfl, f.kid_slot h' h⟩

theorem dead_kid (hp : p ∉ live) (i : κ) : k.kid p i = none :=
  Option.eq_none_iff_forall_ne_some.mpr fun _ h => hp (f.kid_live h).1

theorem congr (hkid : ∀ p i, k'.kid p i = k.kid p i) (hup : ∀ c ∈ live, k'.up c = k.up c) : Forest k' live roots := by
  refine ⟨fun h => ?_, fun h => ?_, fun h => ?_, fun h h' => ?_, fun hc hroot => ?_⟩
  · rw [hkid] at h
    exact f.kid_live h
  · rw [hkid] at h
    exact f.kid_root h
  · rw [hkid] at h
    rw [hup _ (f.kid_live h).2]
    exact f.kid_up h
  · rw [hkid] at h h'
    exact f.kid_slot h h'
  · obtain ⟨p, i, h⟩ := f.is_kid hc hroot
    exact ⟨p, i, (hkid p i).trans h⟩

/-- What holds for the roots, and for every kid of a node it holds for, holds for all nodes, when the nodes have ranks
  that increase downwards. -/
theorem induction (rank : α → Nat) (hrank : ∀ {p i c}, k.kid p i = some c → rank p < rank c) {P : α → Prop}
    (hroots : ∀ r ∈ roots, P r) (hkids : ∀ p i c, k.kid p i = some c → P p → P c) (hc : c ∈ live) : P c := by
  have hbelow : ∀ m, ∀ c ∈ live, rank c < m → P c := by
    intro m
    induction m with
    | zero => exact fun _ _ h => absurd h (Nat.not_lt_zero _)
    | succ m ih =>
      intro c hc hm
      by_cases hroot : c ∈ roots
      · exact hroots c hroot
      · obtain ⟨p, i, hkid⟩ := f.is_kid hc hroot
        exact hkids p i c hkid (ih p (f.kid_live hkid).1 (lt_of_lt_of_le (hrank hkid) (Nat.lt_succ_iff.mp hm)))
  exact hbelow _ c hc (Nat.lt_succ_self _)

theorem add (hr : r ∉ live) : Forest k (insert r live) (insert r roots) := by
  refine ⟨fun h => ?_, fun h => ?_, f.kid_up, f.kid_slot, fun hc hroot => ?_⟩
  · exact ⟨Set.mem_insert_of_mem r (f.kid_live h).1, Set.mem_insert_of_mem r (f.kid_live h).2⟩
  · rintro (rfl | hmem)
    · exact hr (f.kid_live h).2
    · exact f.kid_root h hmem
  · rcases hc with rfl | hc
    · exact absurd (Set.mem_insert _ roots) hroot
    · exact f.is_kid hc fun hmem => hroot (Set.mem_insert_of_mem r hmem)

theorem drop (hr : r ∈ roots) (hnone : ∀ i, k.kid r i = none) : Forest k (live \ {r}) (roots \ {r}) := by
  have hne {p : α} {i : κ} {c : α} (h : k.kid p i = some c) : p ≠ r ∧ c ≠ r := by
    refine ⟨?_, ?_⟩
    · rintro rfl
      rw [hnone i] at h
      cases h
    · rintro rfl
      exact f.kid_root h hr
  refine ⟨fun h => ?_, fun h => ?_, f.kid_up, f.kid_slot, fun hc hroot => ?_⟩
  · exact ⟨⟨(f.kid_live h).1, (hne h).1⟩, ⟨(f.kid_live h).2, (hne h).2⟩⟩
  · exact fun hmem => f.kid_root h hmem.1
  · exact f.is_kid hc.1 fun hmem => hroot ⟨hmem, hc.2⟩

end

variable [DecidableEq α] [DecidableEq κ]

theorem detach (f : Forest k live roots) (h : k.kid p i = some c) : Forest (k.detach p i) live (insert c roots) := by
  have hold {q : α} {j : κ} {d : α} (hd : (k.detach p i).kid q j = some d) : k.kid q j = some d ∧ d ≠ c := by
    rw [Branches.kid_detach] at hd
    split at hd
    · cases hd
    · rename_i hne
      refine ⟨hd, ?_⟩
      rintro rfl
      exact hne (f.kid_unique h hd)
  refine ⟨fun hd => f.kid_live (hold hd).1, fun hd => ?_, fun hd => f.kid_up (hold hd).1, fun hd hd' => f.kid_slot (hold hd).1 (hold hd').1,
    fun hd hroot => ?_⟩
  · rintro (rfl | hmem)
    · exact (hold hd).2 rfl
    · exact f.kid_root (hold hd).1 hmem
  · obtain ⟨q, j, hkid⟩ := f.is_kid hd fun hmem => hroot (Set.mem_insert_of_mem c hmem)
    refine ⟨q, j, ?_⟩
    rw [Branches.kid_detach, if_neg]
    · exact hkid
    · rintro ⟨rfl, rfl⟩
      exact hroot (.inl (Option.some.inj (hkid.symm.trans h)))

theorem attach (f : Forest k live roots) (hp : p ∈ live) (hc : c ∈ live) (hroot : c ∈ roots) (h : k.kid p i = none) :
    Forest (k.attach p i c) live (roots \ {c}) := by
  have hcases {q : α} {j : κ} {d : α} (hd : (k.attach p i c).kid q j = some d) : (q = p ∧ j = i ∧ d = c) ∨ (k.kid q j = some d ∧ d ≠ c) := by
    rw [Branches.kid_attach] at hd
    split at hd
    · rename_i heq
      exact .inl ⟨heq.1, heq.2, (Option.some.inj hd).symm⟩
    · refine .inr ⟨hd, ?_⟩
      rintro rfl
      exact f.kid_root hd hroot
  refine ⟨fun hd => ?_, fun hd => ?_, fun hd => ?_, fun hd hd' => ?_, @fun d hd hne => ?_⟩
  · rcases hcases hd with ⟨rfl, -, rfl⟩ | ⟨hkid, -⟩
    · exact ⟨hp, hc⟩
    · exact f.kid_live hkid
  · rcases hcases hd with ⟨-, -, rfl⟩ | ⟨hkid, -⟩
    · exact fun hmem => hmem.2 rfl
    · exact fun hmem => f.kid_root hkid hmem.1
  · rw [Branches.up_attach]
    rcases hcases hd with ⟨rfl, -, rfl⟩ | ⟨hkid, hne⟩
    · exact if_pos rfl
    · rw [if_neg hne]
      exact f.kid_up hkid
  · rcases hcases hd with ⟨-, rfl, rfl⟩ | ⟨hkid, hne⟩ <;> rcases hcases hd' with ⟨-, rfl, heq⟩ | ⟨hkid', hne'⟩
    · rfl
    · exact absurd rfl hne'
    · exact absurd heq hne
    · exact f.kid_slot hkid hkid'
  · by_cases heq : d = c
    · subst heq
      refine ⟨p, i, ?_⟩
      rw [Branches.kid_attach, if_pos ⟨rfl, rfl⟩]
    · obtain ⟨q, j, hkid⟩ := f.is_kid hd fun hmem => hne ⟨hmem, heq⟩
      refine ⟨q, j, ?_⟩
      rw [Branches.kid_attach, if_neg]
      · exact hkid
      · rintro ⟨rfl, rfl⟩
        rw [h] at hkid
        cases hkid

end Forest

end Lib
