import Gem5Nvmain.Base.TrieInsert

/- Removal from a trie.

  A node with less than two kids is unlinked, and its kid, if any, takes its place (`Shape.splice`, `Shape.pluck`).
  The parent is left without a value and with one kid only when the node was a leaf; then it is unlinked too, and that
  leaves its own parent with as many kids as before, so the recursion ends there. A removal succeeds, and takes out
  the one entry (`remove_spec`). -/
namespace Gem5.Base
open Lib Function Option Branches

namespace Trie
variable {n : Nat} {V : Type} {t t' : Trie n V} {h p c k : Nat} {x y : Node n V} {i : Fin 2}

/-! A node whose kid takes its place. -/

/-- The pointers after `h`, the kid `i` of `p`, was replaced by its kid `c`. -/
def spliced (t : Trie n V) (p : Nat) (i : Fin 2) (c : Nat) : Trie n V :=
  (t.set c { t.node c with parent := some p }).set p ((t.node p).setKid i (some c))

theorem node_spliced (q : Nat) : ((t.spliced p i c).free h).node q = if q = h then Node.new 0 0 none
    else if q = p then (t.node p).setKid i (some c) else if q = c then { t.node c with parent := some p } else t.node q := by
  unfold spliced
  rw [node_free, node_set, node_set]

theorem kids_freed (j : Fin 2) : ((t.free h).node h).kids j = none := by
  rw [node_free, if_pos rfl]
  rfl

section Splice
variable (s : Shape t) (hi : (t.node p).kids i = some h) (hc : (t.node h).kids 0 = some c)
include s hi hc

theorem live_spliced : ((t.spliced p i c).free h).live = t.live \ {h} := by
  have h' : (t.set c { t.node c with parent := some p }).live = t.live := live_set (s.kid_live hc) _
  unfold spliced
  rw [live_free, live_set, h']
  rw [h']
  exact (s.forest.kid_live hi).1

theorem Shape.alters_splice : Alters t ((t.spliced p i c).free h) h := by
  refine ⟨fun q hq => ?_, fun q hq => ?_, fun q hq => ?_, fun q hq => ?_⟩
  · rw [live_spliced s hi hc]
    simp [hq]
  · rw [node_spliced, if_neg hq]
    split_ifs <;> simp [*]
  · rw [node_spliced, if_neg hq]
    split_ifs <;> simp [*]
  · rw [node_spliced, if_neg hq]
    split_ifs <;> simp [*]

theorem Shape.grandkid_ne : p ≠ c := by
  rintro rfl
  exact Nat.lt_irrefl _ ((s.below hi).1.trans (s.below hc).1)

theorem kids_spliced (hone : (t.node h).kids 1 = none) (q : Nat) (j : Fin 2) : (((t.spliced p i c).free h).node q).kids j =
    (((t.links.detach p i).detach h 0).attach p i c).kid q j := by
  have hph := s.kid_ne hi
  rw [kid_attach, kid_detach, kid_detach]
  show _ = if q = p ∧ j = i then some c else if q = h ∧ j = 0 then none else if q = p ∧ j = i then none else (t.node q).kids j
  by_cases hq : q = h
  · subst hq
    rw [kids_freed, if_neg fun heq => hph heq.1.symm]
    match j with
    | 0 => simp
    | 1 => simp [hone]
  · rw [node_spliced, if_neg hq]
    by_cases hqp : q = p
    · rw [if_pos hqp, Node.kids_setKid, hqp]
      by_cases hj : j = i <;> simp [hj, hph]
    · simp only [hq, hqp, false_and, if_false]
      split <;> simp [*]

theorem up_spliced (q : Nat) (hq : q ≠ h) : (((t.spliced p i c).free h).node q).parent =
    (((t.links.detach p i).detach h 0).attach p i c).up q := by
  have hpc := s.grandkid_ne hi hc
  rw [up_attach, node_spliced, if_neg hq]
  show _ = if q = c then some p else (t.node q).parent
  split_ifs <;> simp_all

theorem Shape.splice (hone : (t.node h).kids 1 = none) : Shape ((t.spliced p i c).free h) := by
  have g := s.alters_splice hi hc
  have hlive := live_spliced s hi hc
  have hkids := kids_spliced s hi hc hone
  have hup := up_spliced s hi hc
  obtain ⟨hp, hh⟩ := s.forest.kid_live hi
  have hph := s.kid_ne hi
  have hch := (s.kid_ne hc).symm
  obtain ⟨hlow, hpz⟩ := s.below hi
  obtain ⟨hhigh, hzc⟩ := s.below hc
  have hdetached := (s.forest.detach hi).detach (by
    rw [kid_detach, if_neg fun heq => hph heq.1.symm]
    exact hc)
  have hattached := hdetached.attach hp (s.kid_live hc) (.inl rfl) (by
    rw [kid_detach, if_neg fun heq => hph heq.1, kid_detach, if_pos ⟨rfl, rfl⟩])
  have hdropped := hattached.drop ⟨.inr (.inl rfl), hch.symm⟩ (fun j => by
    rw [← hkids, kids_freed])
  -- a kid is the one that was moved, or as before
  have hcases {q d : Nat} {j : Fin 2} (hd : (((t.spliced p i c).free h).node q).kids j = some d) : (q = p ∧ j = i ∧ d = c) ∨
      ((t.node q).kids j = some d ∧ q ≠ h ∧ d ≠ h) := by
    have hqh : q ≠ h := by
      rintro rfl
      rw [kids_freed] at hd
      cases hd
    rw [hkids, kid_attach, kid_detach, kid_detach] at hd
    split_ifs at hd with h₁ h₂
    · exact .inl ⟨h₁.1, h₁.2, (some.inj hd).symm⟩
    · refine .inr ⟨hd, hqh, ?_⟩
      rintro rfl
      exact h₁ (s.forest.kid_unique hi hd)
  refine g.shape s (s.kid_ne_head hi) ?_ ?_ ?_ ?_ ?_ ?_ ?_
  · intro q hq
    rw [hlive] at hq
    exact s.fresh hq.1
  · intro hmem
    rw [hlive] at hmem
    exact absurd rfl hmem.2
  · have hroots : ((Insert.insert c (Insert.insert h {head}) : Set Nat) \ {c}) \ {h} = {head} := by
      ext k
      have hhh := s.kid_ne_head hi
      have hch := s.kid_ne_head hc
      simp only [Set.mem_sdiff, Set.mem_insert_iff]
      constructor
      · tauto
      · rintro rfl
        exact ⟨⟨.inr (.inr rfl), hch.symm⟩, hhh.symm⟩
    rw [hroots] at hdropped
    rw [hlive]
    exact hdropped.congr hkids fun q hq => hup q hq.2
  · rw [hup head (s.kid_ne_head hi).symm, up_attach, if_neg (s.kid_ne_head hc).symm]
    exact s.head_up
  · intro q j d hd
    rcases hcases hd with ⟨rfl, -, rfl⟩ | ⟨hkid, hq, hd⟩
    · rw [g.width q hph, g.width d hch, g.key q hph, g.key d hch]
      exact ⟨hlow.trans hhigh, (hzc.mono hlow.le).trans hpz⟩
    · rw [g.width q hq, g.width d hd, g.key q hq, g.key d hd]
      exact s.below hkid
  · -- the kid that was moved has the next bit of the node it stood under
    have hbit : (t.node c).key.getMsbD (t.node p).width = (t.node h).key.getMsbD (t.node p).width := hzc _ hlow
    intro q a b ha hb
    rcases hcases ha with ⟨rfl, rfl, rfl⟩ | ⟨hkid, hq, hd⟩ <;> rcases hcases hb with ⟨heq, hi', rfl⟩ | ⟨hkid', hq', hd'⟩
    · cases hi'
    · rw [g.width q hph, g.key a hch, g.key b hd', hbit]
      exact s.fork hi hkid'
    · subst heq
      subst hi'
      rw [g.width q hph, g.key a hd, g.key b hch, hbit]
      exact s.fork hkid hi
    · rw [g.width q hq, g.key a hd, g.key b hd']
      exact s.fork hkid hkid'
  · intro q hq
    by_contra hne
    obtain ⟨b, hb⟩ := ne_none_iff_exists'.mp hne
    rw [hkids, kid_attach, kid_detach, kid_detach] at hq
    have hqh : q ≠ h := by
      rintro rfl
      rw [kids_freed] at hb
      cases hb
    split_ifs at hq with h₁ h₂
    · exact hqh h₂.1
    · rcases hcases hb with ⟨rfl, rfl, -⟩ | ⟨hkid, -, -⟩
      · rw [s.left hq] at hi
        cases hi
      · rw [s.left hq] at hkid
        cases hkid

end Splice

/-! A leaf that is taken off. -/

/-- The pointers after the leaf that was the kid `i` of `p` was taken off. -/
def plucked (t : Trie n V) (p : Nat) (i : Fin 2) : Trie n V := t.set p ((t.node p).setKid i none).shift

theorem shift_same (x : Node n V) : x.shift.key = x.key ∧ x.shift.mask = x.mask ∧ x.shift.value = x.value ∧ x.shift.parent = x.parent := by
  unfold Node.shift
  split <;> exact ⟨rfl, rfl, rfl, rfl⟩

theorem node_plucked (q : Nat) : ((t.plucked p i).free h).node q = if q = h then Node.new 0 0 none
    else if q = p then ((t.node p).setKid i none).shift else t.node q := by
  unfold plucked
  rw [node_free, node_set]

attribute [local instance] Node.neZero_two

/-- The other place. -/
def other (i : Fin 2) : Fin 2 := if i = 0 then 1 else 0

theorem kids_plucked (q : Nat) (j : Fin 2) : (((t.plucked p i).free h).node q).kids j =
    if q = h then none else if q = p then (if j = 0 then (t.node p).kids (other i) else none) else (t.node q).kids j := by
  by_cases hq : q = h
  · rw [if_pos hq, hq, kids_freed]
  · rw [if_neg hq, node_plucked, if_neg hq]
    by_cases hqp : q = p
    · rw [if_pos hqp, if_pos hqp]
      match i, j with
      | 0, 0 => cases hsib : (t.node p).kids 1 <;> simp [Node.shift, Node.kids_setKid, hsib, other]
      | 0, 1 => cases hsib : (t.node p).kids 1 <;> simp [Node.shift, Node.kids_setKid, hsib]
      | 1, 0 => simp [Node.shift, Node.kids_setKid, other]
      | 1, 1 => simp [Node.shift, Node.kids_setKid]
    · rw [if_neg hqp, if_neg hqp]

theorem up_plucked (q : Nat) (hq : q ≠ h) : (((t.plucked p i).free h).node q).parent = (t.node q).parent := by
  obtain ⟨-, -, -, hparent⟩ := shift_same ((t.node p).setKid i none)
  rw [node_plucked, if_neg hq]
  split <;> simp [*]

section Pluck
variable (s : Shape t) (hi : (t.node p).kids i = some h)
include s hi

theorem live_plucked : ((t.plucked p i).free h).live = t.live \ {h} := by
  unfold plucked
  rw [live_free, live_set (s.forest.kid_live hi).1]

theorem Shape.alters_pluck : Alters t ((t.plucked p i).free h) h := by
  obtain ⟨hkey, hmask, hvalue, -⟩ := shift_same ((t.node p).setKid i none)
  refine ⟨fun q hq => ?_, fun q hq => ?_, fun q hq => ?_, fun q hq => ?_⟩
  · rw [live_plucked s hi]
    simp [hq]
  · rw [node_plucked, if_neg hq]
    split <;> simp [*]
  · rw [node_plucked, if_neg hq]
    split <;> simp [*]
  · rw [node_plucked, if_neg hq]
    split <;> simp [*]

theorem forest_plucked (hleaf : ∀ j, (t.node h).kids j = none) : Forest ((t.plucked p i).free h).links (t.live \ {h}) {head} := by
  have hph := s.kid_ne hi
  have hp := (s.forest.kid_live hi).1
  have hnoleaf (j : Fin 2) : (t.links.detach p i).kid h j = none := by
    rw [kid_detach, if_neg fun heq => hph heq.1.symm]
    exact hleaf j
  have hup (q : Nat) (hq : q ∈ t.live \ {h}) : ((t.plucked p i).free h).links.up q = t.links.up q := up_plucked q hq.2
  have hdetached := s.forest.detach hi
  by_cases hsib : i = 0 ∧ (t.node p).kids 1 ≠ none
  · -- the other kid moves to the first place
    obtain ⟨rfl, hne⟩ := hsib
    obtain ⟨b, hb⟩ := ne_none_iff_exists'.mp hne
    have hbh : b ≠ h := fun heq => absurd (s.forest.kid_slot hi (heq ▸ hb)) (by decide)
    have hfree := hdetached.detach (i := 1) (by
      rw [kid_detach, if_neg (by simp)]
      exact hb)
    have hattached := hfree.attach (i := 0) hp (s.kid_live hb) (.inl rfl) (by
      rw [kid_detach, if_neg (by simp), kid_detach, if_pos ⟨rfl, rfl⟩])
    have hdropped := hattached.drop ⟨.inr (.inl rfl), hbh.symm⟩ (fun j => by
      rw [kid_attach, if_neg fun heq => hph heq.1.symm, kid_detach, if_neg fun heq => hph heq.1.symm]
      exact hnoleaf j)
    have hroots : ((Insert.insert b (Insert.insert h {head}) : Set Nat) \ {b}) \ {h} = {head} := by
      ext k
      have hhh := s.kid_ne_head hi
      have hbh := s.kid_ne_head hb
      simp only [Set.mem_sdiff, Set.mem_insert_iff]
      constructor
      · tauto
      · rintro rfl
        exact ⟨⟨.inr (.inr rfl), hbh.symm⟩, hhh.symm⟩
    rw [hroots] at hdropped
    refine hdropped.congr (fun q j => ?_) fun q hq => ?_
    · rw [kid_attach, kid_detach, kid_detach]
      refine (kids_plucked q j).trans ?_
      by_cases hq : q = h
      · rw [if_pos hq, if_neg fun heq => hph (heq.1.symm.trans hq), if_neg fun heq => hph (heq.1.symm.trans hq),
          if_neg fun heq => hph (heq.1.symm.trans hq), hq]
        exact (hleaf j).symm
      · rw [if_neg hq]
        by_cases hqp : q = p
        · match j with
          | 0 => simp [hqp, other, hb]
          | 1 => simp [hqp]
        · simp [hqp, links]
    · rw [hup q hq, up_attach]
      split
      · rename_i heq
        rw [heq]
        exact s.kid_parent hb
      · rfl
  · have hdropped := hdetached.drop (.inl rfl) hnoleaf
    rw [insert_diff (s.kid_ne_head hi).symm] at hdropped
    refine hdropped.congr (fun q j => ?_) hup
    rw [kid_detach]
    refine (kids_plucked q j).trans ?_
    by_cases hq : q = h
    · rw [if_pos hq, if_neg fun heq => hph (heq.1.symm.trans hq), hq]
      exact (hleaf j).symm
    · rw [if_neg hq]
      by_cases hqp : q = p
      · match i, j with
        | 0, 0 =>
          have hnone : (t.node p).kids 1 = none := by simpa using hsib
          simp [hqp, other, hnone]
        | 0, 1 =>
          have hnone : (t.node p).kids 1 = none := by simpa using hsib
          simp [hqp, hnone, links]
        | 1, 0 => simp [hqp, other, links]
        | 1, 1 => simp [hqp]
      · simp [hqp, links]

theorem Shape.pluck (hleaf : ∀ j, (t.node h).kids j = none) : Shape ((t.plucked p i).free h) := by
  have g := s.alters_pluck hi
  have hlive := live_plucked s hi
  -- the kids are as before, and those of `p` differ in their place only
  have hcases {q d : Nat} {j : Fin 2} (hd : (((t.plucked p i).free h).node q).kids j = some d) : q ≠ h ∧ d ≠ h ∧
      (∃ j, (t.node q).kids j = some d) ∧ (q ≠ p → (t.node q).kids j = some d) ∧ (q = p → j = 0) := by
    rw [kids_plucked] at hd
    split_ifs at hd with hq hqp hj
    · subst hqp
      refine ⟨hq, ?_, ⟨other i, hd⟩, absurd rfl, fun _ => hj⟩
      rintro rfl
      have hsame := s.forest.kid_slot hi hd
      match i with
      | 0 => cases hsame
      | 1 => cases hsame
    · refine ⟨hq, ?_, ⟨j, hd⟩, fun _ => hd, fun heq => absurd heq hqp⟩
      rintro rfl
      exact hqp (s.forest.kid_unique hi hd).1
  refine g.shape s (s.kid_ne_head hi) ?_ ?_ ?_ ?_ ?_ ?_ ?_
  · intro q hq
    rw [hlive] at hq
    exact s.fresh hq.1
  · intro hmem
    rw [hlive] at hmem
    exact absurd rfl hmem.2
  · rw [hlive]
    exact forest_plucked s hi hleaf
  · rw [up_plucked head (s.kid_ne_head hi).symm]
    exact s.head_up
  · intro q j d hd
    obtain ⟨hq, hdh, ⟨j', hkid⟩, -, -⟩ := hcases hd
    rw [g.width q hq, g.width d hdh, g.key q hq, g.key d hdh]
    exact s.below hkid
  · intro q a b ha hb
    obtain ⟨hq, hah, -, hold, -⟩ := hcases ha
    obtain ⟨-, hbh, -, hold', hzero⟩ := hcases hb
    have hqp : q ≠ p := fun heq => absurd (hzero heq) (by decide)
    rw [g.width q hq, g.key a hah, g.key b hbh]
    exact s.fork (hold hqp) (hold' hqp)
  · intro q hq
    rw [kids_plucked] at hq ⊢
    by_cases hqh : q = h
    · rw [if_pos hqh]
    · rw [if_neg hqh] at hq ⊢
      by_cases hqp : q = p
      · rw [if_pos hqp, if_neg (by decide)]
      · rw [if_neg hqp] at hq ⊢
        exact s.left hq

end Pluck

/-! The recursion. -/

theorem live_of_free (hq : k ∈ (t.free h).live) : k ∈ t.live ∧ k ≠ h := by
  rw [live_free] at hq
  exact hq

theorem node_free_ne (hk : k ≠ h) : (t.free h).node k = t.node k := by rw [node_free, if_neg hk]

/-- What unlinking a node without a second kid does. -/
structure Unlinked (t : Trie n V) (p : Nat) (i : Fin 2) (h : Nat) (t' : Trie n V) : Prop where
  shape : Shape t'
  alters : Alters t t' h
  live : t'.live = t.live \ {h}
  kids : ∀ q, q ≠ p → q ≠ h → ∀ j, (t'.node q).kids j = (t.node q).kids j
  one : (t.node h).kids 0 ≠ none → (t.node p).kids 1 ≠ none → (t'.node p).kids 1 ≠ none
  leaf : (t.node h).kids 0 = none → (t'.node p).kids 0 = (t.node p).kids (other i)

theorem Shape.replaceKid (s : Shape t) (hi : (t.node p).kids i = some h) (kid : Option Nat) :
    (t.node p).replaceKid h kid = .ok ((t.node p).setKid i kid) := by
  unfold Node.replaceKid
  match i with
  | 0 => rw [if_pos hi]
  | 1 =>
    have hne : (t.node p).kids 0 ≠ some h := fun h₀ => absurd (s.forest.kid_slot h₀ hi) (by decide)
    rw [if_neg hne, if_pos hi]

theorem shift_splice (s : Shape t) (hi : (t.node p).kids i = some h) :
    ((t.node p).setKid i (some c)).shift = (t.node p).setKid i (some c) := by
  unfold Node.shift
  rw [if_neg]
  rintro ⟨-, hnone⟩
  rw [Node.kids_setKid] at hnone
  split at hnone
  · cases hnone
  · rename_i hne
    match i with
    | 0 => exact hne rfl
    | 1 =>
      have hone := s.left (isNone_iff_eq_none.mp hnone)
      rw [hone] at hi
      cases hi

theorem unlink_splice (s : Shape t) (hi : (t.node p).kids i = some h) (hc : (t.node h).kids 0 = some c) :
    t.unlink h (t.node h) p = .ok (t.spliced p i c) := by
  have hp := (s.forest.kid_live hi).1
  have hlive : (t.set c { t.node c with parent := some p }).live = t.live := live_set (s.kid_live hc) _
  have hadopt : t.adopt p (some c) = .ok (t.set c { t.node c with parent := some p }) := by
    unfold adopt
    dsimp only
    rw [get_eq (s.kid_live hc)]
    rfl
  unfold unlink
  rw [hc, hadopt, bind_ok, get_eq (by rw [hlive]; exact hp), bind_ok, node_set, if_neg (s.grandkid_ne hi hc), s.replaceKid hi,
    bind_ok, shift_splice s hi]
  rfl

theorem unlink_pluck (s : Shape t) (hi : (t.node p).kids i = some h) (hc : (t.node h).kids 0 = none) :
    t.unlink h (t.node h) p = .ok (t.plucked p i) := by
  unfold unlink
  rw [hc]
  show (t.get p >>= _) = _
  rw [get_eq (s.forest.kid_live hi).1, bind_ok, s.replaceKid hi]
  rfl

theorem unlink_spec (s : Shape t) (hi : (t.node p).kids i = some h) (hone : (t.node h).kids 1 = none) :
    ∃ t', t.unlink h (t.node h) p = .ok t' ∧ Unlinked t p i h (t'.free h) := by
  have hph := s.kid_ne hi
  cases hc : (t.node h).kids 0 with
  | some c =>
    refine ⟨t.spliced p i c, unlink_splice s hi hc, s.splice hi hc hone, s.alters_splice hi hc, live_spliced s hi hc, ?_, ?_, ?_⟩
    · intro q hqp hqh j
      rw [node_spliced, if_neg hqh, if_neg hqp]
      split <;> simp [*]
    · intro _ hne
      rw [node_spliced, if_neg hph, if_pos rfl, Node.kids_setKid]
      split
      · exact some_ne_none c
      · exact hne
    · intro hnone
      rw [hc] at hnone
      cases hnone
  | none =>
    have hleaf (j : Fin 2) : (t.node h).kids j = none := match j with
      | 0 => hc
      | 1 => hone
    refine ⟨t.plucked p i, unlink_pluck s hi hc, s.pluck hi hleaf, s.alters_pluck hi, live_plucked s hi, ?_, ?_, ?_⟩
    · intro q hqp hqh j
      rw [kids_plucked, if_neg hqh, if_neg hqp]
    · intro hne
      exact absurd hc hne
    · intro _
      rw [kids_plucked, if_neg hph, if_pos rfl, if_pos rfl]

theorem get_free (hne : h ≠ k) : (t.free k).get h = t.get h := by
  simp [get, free, hne]

theorem get_freed : (t.free h).get h = .error .outOfRange := by
  simp [get, free]

theorem get_frame (hg : (t.free k).get h = .ok x) : t.get h = .ok x ∧ h ≠ k := by
  have hne : h ≠ k := by
    rintro rfl
    rw [get_freed] at hg
    cases hg
  rw [get_free hne] at hg
  exact ⟨hg, hne⟩

theorem set_free (hne : h ≠ k) : (t.free k).set h x = (t.set h x).free k := by
  unfold set free
  rw [update_comm hne]

theorem adopt_frame {kid : Option Nat} (hu : (t.free k).adopt p kid = .ok t') : ∃ t'', t.adopt p kid = .ok t'' ∧ t' = t''.free k := by
  cases kid with
  | none =>
    cases hu
    exact ⟨t, rfl, rfl⟩
  | some kid =>
    obtain ⟨y, hy, hu⟩ := of_bind hu
    obtain ⟨hy, hne⟩ := get_frame hy
    cases hu
    refine ⟨t.set kid { y with parent := some p }, ?_, set_free hne⟩
    unfold adopt
    dsimp only
    rw [hy]
    rfl

theorem unlink_frame (hu : (t.free k).unlink h x p = .ok t') : ∃ t'', t.unlink h x p = .ok t'' ∧ t''.free k = t' := by
  obtain ⟨t₁, ht₁, hu⟩ := of_bind hu
  obtain ⟨t₂, ht₂, rfl⟩ := adopt_frame ht₁
  obtain ⟨y, hy, hu⟩ := of_bind hu
  obtain ⟨hy, hne⟩ := get_frame hy
  obtain ⟨z, hz, hu⟩ := of_bind hu
  cases hu
  refine ⟨t₂.set p z.shift, ?_, (set_free hne).symm⟩
  unfold unlink
  rw [ht₂, bind_ok, hy, bind_ok, hz]
  rfl

theorem free_comm (t : Trie n V) (h k : Nat) : (t.free h).free k = (t.free k).free h := by
  by_cases hne : h = k
  · rw [hne]
  · unfold free
    rw [update_comm hne]

/-- One entry is gone, and the others are as before. -/
structure Removed (t : Trie n V) (h : Nat) (t' : Trie n V) : Prop where
  shape : Shape t'
  full : t'.Full
  gone : (t'.node h).entry = none
  others : ∀ c, c ≠ h → (t'.node c).entry = (t.node c).entry

/-- The parent is deleted too. -/
def Collapses (x : Node n V) : Prop := x.kids 1 = none ∧ x.value = none ∧ x.parent ≠ none

theorem collapses_iff (x : Node n V) : ((x.kids 1).isNone ∧ x.value.isNone ∧ x.parent.isSome) ↔ Collapses x := by
  unfold Collapses
  rw [isNone_iff_eq_none, isNone_iff_eq_none, isSome_iff_ne_none]

/-- A removal unlinks the node, then looks at its parent. -/
theorem removeFrom_eq (fuel : Nat) {t₁ : Trie n V} (hh : h ∈ t.live) (hone : (t.node h).kids 1 = none) (hpar : (t.node h).parent = some p)
    (hu : t.unlink h (t.node h) p = .ok t₁) (hp : p ∈ t₁.live) :
    (¬Collapses (t₁.node p) → t.removeFrom (fuel + 1) h = .ok ((t.node h).value, t₁.free h)) ∧
    ∀ v t₂, Collapses (t₁.node p) → t₁.removeFrom fuel p = .ok (v, t₂) → t.removeFrom (fuel + 1) h = .ok ((t.node h).value, t₂.free h) := by
  have hsome : ¬((t.node h).kids 1).isSome = true := by simp [hone]
  refine ⟨fun hnot => ?_, fun v t₂ hbare hrest => ?_⟩
  · unfold removeFrom
    rw [get_eq hh, bind_ok, if_neg hsome, hpar]
    dsimp only
    rw [hu, bind_ok, get_eq hp, bind_ok, if_neg (mt (collapses_iff _).mp hnot)]
    rfl
  · unfold removeFrom
    rw [get_eq hh, bind_ok, if_neg hsome, hpar]
    dsimp only
    rw [hu, bind_ok, get_eq hp, bind_ok, if_pos ((collapses_iff _).mpr hbare), hrest]
    rfl

theorem Shape.place (s : Shape t) (hh : h ∈ t.live) (hne : h ≠ head) : ∃ p i, (t.node p).kids i = some h ∧ (t.node h).parent = some p ∧ p ∈ t.live := by
  obtain ⟨p, i, hi⟩ := s.forest.is_kid hh hne
  exact ⟨p, i, hi, s.kid_parent hi, (s.forest.kid_live hi).1⟩

theorem removed_stays (s : Shape t) (f : t.Full) (hh : h ∈ t.live) (hne : h ≠ head) (htwo : (t.node h).kids 1 ≠ none) :
    Removed t h (t.setValue h none) := by
  refine ⟨s.setValue hh hne none, ?_, ?_, ?_⟩
  · intro q hq hqne hqv
    rw [(label_setValue none q).2.2.2]
    have hql : q ∈ t.live := by
      rw [← live_set hh]
      exact hq
    by_cases hqh : q = h
    · rw [hqh]
      exact htwo
    · rw [node_setValue, if_neg hqh] at hqv
      exact f q hql hqne hqv
  · rw [node_setValue, if_pos rfl]
    rfl
  · intro c hc
    rw [node_setValue, if_neg hc]

theorem removed_alone {t₁ : Trie n V} (f : t.Full) (u : Unlinked t p i h (t₁.free h)) (hph : p ≠ h) (hstop : ¬Collapses (t₁.node p)) :
    Removed t h (t₁.free h) := by
  refine ⟨u.shape, ?_, ?_, u.alters.entry⟩
  · intro q hq hqne hqv
    have hqh := (live_of_free hq).2
    by_cases hqp : q = p
    · intro hqone
      refine hstop ?_
      rw [← node_free_ne hph, ← hqp]
      refine ⟨hqone, hqv, ?_⟩
      obtain ⟨_, _, -, hup, -⟩ := u.shape.place hq hqne
      rw [hup]
      exact some_ne_none _
    · rw [u.kids q hqp hqh]
      refine f q ((u.alters.live q hqh).mp hq) hqne ?_
      rw [← u.alters.value q hqh]
      exact hqv
  · rw [node_free, if_pos rfl]
    rfl

theorem Unlinked.keeps {t' : Trie n V} (s : Shape t) (f : t.Full) (u : Unlinked t p i h t') (hp : p ∈ t.live) (hph : p ≠ h)
    (hne : p ≠ head) (hone : (t'.node p).kids 1 = none) (hv : (t'.node p).value = none) : (t'.node p).kids 0 ≠ none := by
  have hfull := f p hp hne (by rw [← u.alters.value p hph]; exact hv)
  have hleaf : (t.node h).kids 0 = none := by
    by_contra hkid
    exact u.one hkid hfull hone
  have hzero : (t.node p).kids 0 ≠ none := fun h₀ => hfull (s.left h₀)
  rw [u.leaf hleaf]
  match i with
  | 0 => exact hfull
  | 1 => exact hzero

/-- When the parent goes too, its own parent keeps as many kids as it had. -/
theorem removed_collapse {t₁ t₄ : Trie n V} {g : Nat} {j : Fin 2} (f : t.Full) (u : Unlinked t p i h (t₁.free h))
    (u' : Unlinked (t₁.free h) g j p ((t₄.free h).free p)) (hph : p ≠ h) (hgp : g ≠ p) (hg : g ∈ (t₁.free h).live)
    (hv : ((t₁.free h).node p).value = none) (hkeeps : ((t₁.free h).node p).kids 0 ≠ none) :
    ¬Collapses (t₄.node g) ∧ Removed t h ((t₄.free h).free p) := by
  have hgh := (live_of_free hg).2
  have hgnode : t₄.node g = ((t₄.free h).free p).node g := by rw [node_free_ne hgp, node_free_ne hgh]
  have hgkeeps (hne : g ≠ head) (hgv : (t₄.node g).value = none) : (((t₄.free h).free p).node g).kids 1 ≠ none := by
    refine u'.one hkeeps ?_
    rw [u.kids g hgp hgh]
    refine f g ((u.alters.live g hgh).mp hg) hne ?_
    rw [hgnode, u'.alters.value g hgp, u.alters.value g hgh] at hgv
    exact hgv
  refine ⟨?_, u'.shape, ?_, ?_, ?_⟩
  · rintro ⟨hgone, hgv, hgup⟩
    have hne : g ≠ head := by
      rintro rfl
      rw [hgnode, u'.shape.head_up] at hgup
      exact hgup rfl
    rw [hgnode] at hgone
    exact hgkeeps hne hgv hgone
  · intro q hq hqne hqv
    have hqp := (live_of_free hq).2
    have hqh := (live_of_free (live_of_free hq).1).2
    by_cases hqg : q = g
    · rw [hqg] at hqne hqv ⊢
      exact hgkeeps hqne (by rw [hgnode]; exact hqv)
    · rw [u'.kids q hqg hqp, u.kids q hqp hqh]
      refine f q ((u.alters.live q hqh).mp ((u'.alters.live q hqp).mp hq)) hqne ?_
      rw [← u.alters.value q hqh, ← u'.alters.value q hqp]
      exact hqv
  · rw [node_free_ne hph.symm, node_free, if_pos rfl]
    rfl
  · intro c hc
    by_cases hcp : c = p
    · rw [hcp, node_free, if_pos rfl, ← u.alters.entry p hph]
      unfold Node.entry
      rw [hv]
      rfl
    · rw [u'.alters.entry c hcp, u.alters.entry c hc]

/-- An entry can be removed. -/
theorem removeFrom_spec (s : Shape t) (f : t.Full) (hv : (t.node h).value ≠ none) (fuel : Nat) :
    ∃ t', t.removeFrom (fuel + 2) h = .ok ((t.node h).value, t') ∧ Removed t h t' := by
  have hh : h ∈ t.live := by
    by_contra hdead
    rw [node_dead hdead] at hv
    exact hv rfl
  have hne : h ≠ head := by
    rintro rfl
    exact hv s.head_value
  by_cases hone : (t.node h).kids 1 = none
  · obtain ⟨p, i, hi, hpar, hp⟩ := s.place hh hne
    have hph := s.kid_ne hi
    obtain ⟨t₁, hu, u⟩ := unlink_spec s hi hone
    have hp₂ : p ∈ (t₁.free h).live := (u.alters.live p hph).mpr hp
    have hp₁ := (live_of_free hp₂).1
    obtain ⟨hstop, hgo⟩ := removeFrom_eq (fuel + 1) hh hone hpar hu hp₁
    by_cases hbare : Collapses (t₁.node p)
    · have hbare' := hbare
      rw [← node_free_ne hph] at hbare'
      obtain ⟨hpone, hpv, hpp⟩ := hbare'
      have hpne : p ≠ head := by
        rintro rfl
        exact hpp u.shape.head_up
      have hkeeps := u.keeps s f hp hph hpne hpone hpv
      obtain ⟨g, j, hj, hgpar, hg⟩ := u.shape.place hp₂ hpne
      have hgp := u.shape.kid_ne hj
      obtain ⟨t₃, hu₃, u'⟩ := unlink_spec u.shape hj hpone
      obtain ⟨t₄, hu₄, rfl⟩ := unlink_frame hu₃
      obtain ⟨hgstop, hremoved⟩ := removed_collapse f u u' hph hgp hg hpv hkeeps
      have hg₄ : g ∈ t₄.live := (live_of_free (live_of_free ((u'.alters.live g hgp).mpr hg)).1).1
      rw [node_free_ne hph] at hu₄ hgpar hpone
      have hrest := (removeFrom_eq fuel hp₁ hpone hgpar hu₄ hg₄).1 hgstop
      refine ⟨(t₄.free p).free h, hgo _ _ hbare hrest, ?_⟩
      rw [free_comm]
      exact hremoved
    · exact ⟨t₁.free h, hstop hbare, removed_alone f u hph hbare⟩
  · refine ⟨t.setValue h none, ?_, removed_stays s f hh hne hone⟩
    have hassert : require (t.node h).value.isSome = .ok () := require_eq_ok.mpr (isSome_iff_ne_none.mpr hv)
    unfold removeFrom
    rw [get_eq hh, bind_ok, if_pos (isSome_iff_ne_none.mpr hone), hassert]
    rfl

end Trie

end Gem5.Base
