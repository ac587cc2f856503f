import Gem5Nvmain.Base.TrieShape

/- Insertion into a trie.

  The walk down a leg stops behind the longest common prefix of the key and of the kid (`walkLeg_spec`). A new node is
  either a leaf in an empty place of a node (`Shape.leaf`) or stands between a node and its kid (`Shape.split`), and
  both keep the shape. An insertion of a prefix that has no value succeeds: it gives the prefix a node with the value,
  and changes no other entry (`insert_spec`). -/
namespace Gem5.Base
open Lib Function Option Branches

variable {n : Nat} {V : Type}

/-- The walk down a leg ends behind the common prefix, or behind the new one. -/
theorem walkLeg_spec (key kidKey : BitVec n) {w : Nat} (hw : w ≤ n) (fuel v : Nat) (hv : v ≤ w) (hfuel : w < fuel + v)
    (hagree : Agree v key kidKey) : ∃ d, walkLeg key kidKey (leading n w) fuel (leading n v) = .ok (leading n d) ∧ v ≤ d ∧ d ≤ w ∧
      Agree d key kidKey ∧ (d < w → key.getMsbD d ≠ kidKey.getMsbD d) := by
  induction fuel generalizing v with
  | zero => omega
  | succ fuel ih =>
    unfold walkLeg
    rcases Nat.lt_or_ge v w with hlt | hge
    · have hextend : extendMask (leading n v) = leading n (v + 1) := extend_leading (by omega)
      have hdone : (key &&& extendMask (leading n v) ≠ kidKey &&& extendMask (leading n v) ∨ leading n v = leading n w) ↔
          key.getMsbD v ≠ kidKey.getMsbD v := by
        rw [hextend, ne_eq, and_leading_eq (by omega : v + 1 ≤ n), leading_inj (by omega) hw, agree_succ]
        constructor
        · rintro (h | h) hbit
          · exact h ⟨hagree, hbit⟩
          · omega
        · exact fun h => .inl fun h' => h h'.2
      by_cases hbit : key.getMsbD v = kidKey.getMsbD v
      · rw [if_neg (mt hdone.mp fun h => h hbit), hextend]
        obtain ⟨d, hd, hle, hrest⟩ := ih (v + 1) hlt (by omega) (agree_succ.mpr ⟨hagree, hbit⟩)
        exact ⟨d, hd, by omega, hrest⟩
      · rw [if_pos (hdone.mpr hbit)]
        exact ⟨v, rfl, Nat.le_refl v, hv, hagree, fun _ => hbit⟩
    · obtain rfl : v = w := by omega
      rw [if_pos (.inr rfl)]
      exact ⟨v, rfl, Nat.le_refl v, Nat.le_refl v, hagree, fun h => absurd h (Nat.lt_irrefl v)⟩

namespace Trie
variable {t : Trie n V} {h p c : Nat} {y z : Node n V} {i : Fin 2} {key : BitVec n} {w : Nat} {val : Option V}

theorem insert_diff {a b : Nat} (hne : b ≠ a) : (Insert.insert a {b} : Set Nat) \ {a} = {b} := by
  ext k
  constructor
  · rintro ⟨hk | hk, hnot⟩
    · exact absurd hk hnot
    · exact hk
  · rintro rfl
    exact ⟨.inr rfl, hne⟩

/-- One node is new, and the old ones have the same prefixes and values. -/
structure Grows (t t' : Trie n V) : Prop extends Alters t t' t.fresh where
  grown : t'.live = Insert.insert t.fresh t.live
  fresh : t'.fresh = t.fresh + 1
  ok : (t'.node t.fresh).Ok

theorem Grows.shape {t' : Trie n V} (g : Grows t t') (s : Shape t) (hforest : Forest t'.links t'.live {head})
    (hup : (t'.node head).parent = none)
    (hbelow : ∀ {p i c}, (t'.node p).kids i = some c → (t'.node p).width < (t'.node c).width ∧ Agree (t'.node p).width (t'.node c).key (t'.node p).key)
    (hfork : ∀ {p a b}, (t'.node p).kids 0 = some a → (t'.node p).kids 1 = some b →
      (t'.node a).key.getMsbD (t'.node p).width ≠ (t'.node b).key.getMsbD (t'.node p).width)
    (hleft : ∀ {p}, (t'.node p).kids 0 = none → (t'.node p).kids 1 = none) : Shape t' := by
  refine g.toAlters.shape s (s.ne_fresh s.head_live).symm ?_ (fun _ => g.ok) hforest hup hbelow hfork hleft
  intro h hh
  rw [g.grown] at hh
  rw [g.fresh]
  rcases hh with rfl | hh
  · exact Nat.lt_succ_self _
  · exact (s.fresh hh).trans (Nat.lt_succ_self _)

/-! A leaf in an empty place. -/

def leaf (t : Trie n V) (p : Nat) (i : Fin 2) (y : Node n V) : Trie n V := (t.alloc y).set p ((t.node p).setKid i (some t.fresh))

section Leaf

theorem node_leaf (k : Nat) : (t.leaf p i y).node k =
    if k = p then (t.node p).setKid i (some t.fresh) else if k = t.fresh then y else t.node k := by
  unfold leaf
  rw [node_set, node_alloc]

variable (s : Shape t) (hp : p ∈ t.live)
include s hp

theorem node_leaf_new : (t.leaf p i y).node t.fresh = y := by
  rw [node_leaf, if_neg (s.ne_fresh hp).symm, if_pos rfl]

theorem Shape.grows_leaf (hy : y.Ok) : Grows t (t.leaf p i y) := by
  have hlive : (t.leaf p i y).live = Insert.insert t.fresh t.live := by
    have h := live_alloc t y
    unfold leaf
    rw [live_set, h]
    rw [h]
    exact .inr hp
  refine ⟨⟨fun c hc => ?_, fun c hc => ?_, fun c hc => ?_, fun c hc => ?_⟩, hlive, rfl, ?_⟩
  · rw [hlive]
    simp [hc]
  · rw [node_leaf, if_neg hc]
    split <;> simp [*]
  · rw [node_leaf, if_neg hc]
    split <;> simp [*]
  · rw [node_leaf, if_neg hc]
    split <;> simp [*]
  · rw [node_leaf_new s hp]
    exact hy

theorem links_leaf (hpar : y.parent = some p) (hkids : ∀ j, y.kids j = none) : (t.leaf p i y).links = t.links.attach p i t.fresh := by
  refine Branches.ext (funext fun q => funext fun j => ?_) (funext fun c => ?_)
  · rw [Branches.kid_attach]
    show ((t.leaf p i y).node q).kids j = if q = p ∧ j = i then some t.fresh else (t.node q).kids j
    rw [node_leaf]
    by_cases hq : q = p
    · rw [if_pos hq, Node.kids_setKid, hq]
      simp
    · have hnot : ¬(q = p ∧ j = i) := fun h => hq h.1
      rw [if_neg hq, if_neg hnot]
      split
      · rename_i hfresh
        rw [hkids, hfresh]
        exact (s.forest.dead_kid s.fresh_not_live j).symm
      · rfl
  · rw [up_attach]
    show ((t.leaf p i y).node c).parent = if c = t.fresh then some p else (t.node c).parent
    split
    · rename_i hc
      rw [hc, node_leaf_new s hp, hpar]
    · rename_i hc
      rw [node_leaf, if_neg hc]
      split <;> simp [*]

theorem Shape.leaf (hi : (t.node p).kids i = none) (hleft : i = 1 → (t.node p).kids 0 ≠ none) (hy : y.Ok) (hpar : y.parent = some p)
    (hkids : ∀ j, y.kids j = none) (hwidth : (t.node p).width < y.width) (hagree : Agree (t.node p).width y.key (t.node p).key)
    (hfork : ∀ j c, (t.node p).kids j = some c → y.key.getMsbD (t.node p).width ≠ (t.node c).key.getMsbD (t.node p).width) :
    Shape (t.leaf p i y) := by
  have g := s.grows_leaf (i := i) hp hy
  have hlinks := links_leaf (i := i) s hp hpar hkids
  have hnew := node_leaf_new (i := i) (y := y) s hp
  have hpw := g.width p (s.ne_fresh hp)
  -- a kid is the leaf, or an old kid of an old node
  have hcases {q c : Nat} {j : Fin 2} (h : ((t.leaf p i y).node q).kids j = some c) : (q = p ∧ j = i ∧ c = t.fresh) ∨
      ((t.node q).kids j = some c ∧ q ≠ t.fresh ∧ c ≠ t.fresh) := by
    have hkid : (t.leaf p i y).links.kid q j = some c := h
    rw [hlinks, kid_attach] at hkid
    split at hkid
    · rename_i heq
      exact .inl ⟨heq.1, heq.2, (some.inj hkid).symm⟩
    · obtain ⟨hq, hc⟩ := s.forest.kid_live hkid
      exact .inr ⟨hkid, s.ne_fresh hq, s.ne_fresh hc⟩
  refine g.shape s ?_ ?_ ?_ ?_ ?_
  · rw [hlinks, g.grown]
    have hadd := s.forest.add s.fresh_not_live
    have hattach := hadd.attach (.inr hp) (.inl rfl) (.inl rfl) hi
    rw [insert_diff (s.ne_fresh s.head_live)] at hattach
    exact hattach
  · show (t.leaf p i y).links.up head = none
    rw [hlinks, up_attach, if_neg (s.ne_fresh s.head_live)]
    exact s.head_up
  · intro q j c h
    rcases hcases h with ⟨rfl, -, rfl⟩ | ⟨hkid, hq, hc⟩
    · rw [hnew, hpw, g.key q (s.ne_fresh hp)]
      exact ⟨hwidth, hagree⟩
    · rw [g.width q hq, g.width c hc, g.key q hq, g.key c hc]
      exact s.below hkid
  · intro q a b ha hb
    rcases hcases ha with ⟨rfl, rfl, rfl⟩ | ⟨hkid, hq, hc⟩ <;> rcases hcases hb with ⟨heq, hi', rfl⟩ | ⟨hkid', hq', hc'⟩
    · cases hi'
    · rw [hnew, hpw, g.key b hc']
      exact hfork 1 b hkid'
    · subst heq
      rw [hnew, hpw, g.key a hc]
      exact (hfork 0 a hkid).symm
    · rw [g.width q hq, g.key a hc, g.key b hc']
      exact s.fork hkid hkid'
  · intro q hq
    by_contra hne
    obtain ⟨b, hb⟩ := ne_none_iff_exists'.mp hne
    have hzero : (t.node q).kids 0 = none ∧ (q = p → i ≠ 0) := by
      have hkid : (t.leaf p i y).links.kid q 0 = none := hq
      rw [hlinks, kid_attach] at hkid
      split at hkid
      · cases hkid
      · rename_i hnot
        exact ⟨hkid, fun h h' => hnot ⟨h, h'.symm⟩⟩
    rcases hcases hb with ⟨rfl, rfl, -⟩ | ⟨hkid, -, -⟩
    · exact hleft rfl hzero.1
    · rw [s.left hzero.1] at hkid
      cases hkid

end Leaf

/-! A node between a node and its kid. -/

def split (t : Trie n V) (p : Nat) (i : Fin 2) (c : Nat) (z : Node n V) : Trie n V :=
  ((t.alloc z).set c { t.node c with parent := some t.fresh }).set p ((t.node p).setKid i (some t.fresh))

section Split

theorem node_split (k : Nat) : (t.split p i c z).node k = if k = p then (t.node p).setKid i (some t.fresh)
    else if k = c then { t.node c with parent := some t.fresh } else if k = t.fresh then z else t.node k := by
  unfold split
  rw [node_set, node_set, node_alloc]

variable (s : Shape t) (hi : (t.node p).kids i = some c)
include s hi

theorem Shape.kid_ne : p ≠ c := fun h => Nat.lt_irrefl _ (lt_of_lt_of_eq (s.below hi).1 (by rw [h]))

theorem node_split_new : (t.split p i c z).node t.fresh = z := by
  obtain ⟨hp, hc⟩ := s.forest.kid_live hi
  rw [node_split, if_neg (s.ne_fresh hp).symm, if_neg (s.ne_fresh hc).symm, if_pos rfl]

theorem Shape.grows_split (hz : z.Ok) : Grows t (t.split p i c z) := by
  obtain ⟨hp, hc⟩ := s.forest.kid_live hi
  have hlive : (t.split p i c z).live = Insert.insert t.fresh t.live := by
    have h := live_alloc t z
    have h' : ((t.alloc z).set c { t.node c with parent := some t.fresh }).live = Insert.insert t.fresh t.live := by
      rw [live_set, h]
      rw [h]
      exact .inr hc
    unfold split
    rw [live_set, h']
    rw [h']
    exact .inr hp
  refine ⟨⟨fun d hd => ?_, fun d hd => ?_, fun d hd => ?_, fun d hd => ?_⟩, hlive, rfl, ?_⟩
  · rw [hlive]
    simp [hd]
  · rw [node_split, if_neg hd]
    split_ifs <;> simp [*]
  · rw [node_split, if_neg hd]
    split_ifs <;> simp [*]
  · rw [node_split, if_neg hd]
    split_ifs <;> simp [*]
  · rw [node_split_new s hi]
    exact hz

theorem links_split (hpar : z.parent = some p) (hkids : ∀ j, z.kids j = if j = 0 then some c else none) :
    (t.split p i c z).links = ((t.links.detach p i).attach t.fresh 0 c).attach p i t.fresh := by
  obtain ⟨hp, hc⟩ := s.forest.kid_live hi
  have hpf := s.ne_fresh hp
  have hcf := s.ne_fresh hc
  refine Branches.ext (funext fun q => funext fun j => ?_) (funext fun d => ?_)
  · rw [Branches.kid_attach, Branches.kid_attach, Branches.kid_detach]
    show ((t.split p i c z).node q).kids j = if q = p ∧ j = i then some t.fresh else if q = t.fresh ∧ j = 0 then some c else
      if q = p ∧ j = i then none else (t.node q).kids j
    rw [node_split]
    by_cases hq : q = p
    · rw [if_pos hq, Node.kids_setKid, hq]
      by_cases hj : j = i <;> simp [hj, hpf]
    · simp only [hq, if_false]
      by_cases hf : q = t.fresh
      · rw [if_neg (hf ▸ hcf.symm), if_pos hf, hkids, hf, show (t.node t.fresh).kids j = none from s.forest.dead_kid s.fresh_not_live j]
        simp
      · simp only [hf, false_and, if_false]
        split <;> simp [*]
  · rw [up_attach, up_attach]
    show ((t.split p i c z).node d).parent = if d = t.fresh then some p else if d = c then some t.fresh else (t.node d).parent
    by_cases hf : d = t.fresh
    · rw [if_pos hf, hf, node_split_new s hi, hpar]
    · have hpc := s.kid_ne hi
      rw [if_neg hf, node_split]
      split_ifs <;> simp_all

theorem Shape.split (hz : z.Ok) (hpar : z.parent = some p) (hkids : ∀ j, z.kids j = if j = 0 then some c else none)
    (hlow : (t.node p).width < z.width) (hhigh : z.width < (t.node c).width) (hpz : Agree (t.node p).width z.key (t.node p).key)
    (hzc : Agree z.width (t.node c).key z.key) : Shape (t.split p i c z) := by
  have g := s.grows_split hi hz
  have hlinks := links_split s hi hpar hkids
  have hnew := node_split_new (z := z) s hi
  obtain ⟨hp, hc⟩ := s.forest.kid_live hi
  have hpf := s.ne_fresh hp
  have hcf := s.ne_fresh hc
  have hcases {q d : Nat} {j : Fin 2} (h : ((t.split p i c z).node q).kids j = some d) : (q = p ∧ j = i ∧ d = t.fresh) ∨
      (q = t.fresh ∧ j = 0 ∧ d = c) ∨ ((t.node q).kids j = some d ∧ q ≠ t.fresh ∧ d ≠ t.fresh ∧ ¬(q = p ∧ j = i)) := by
    have hkid : (t.split p i c z).links.kid q j = some d := h
    rw [hlinks, kid_attach, kid_attach, kid_detach] at hkid
    split_ifs at hkid with h₁ h₂
    · exact .inl ⟨h₁.1, h₁.2, (some.inj hkid).symm⟩
    · exact .inr (.inl ⟨h₂.1, h₂.2, (some.inj hkid).symm⟩)
    · obtain ⟨hq, hd⟩ := s.forest.kid_live hkid
      exact .inr (.inr ⟨hkid, s.ne_fresh hq, s.ne_fresh hd, h₁⟩)
  -- the new node has the next bit of the kid it stands above
  have hbit : z.key.getMsbD (t.node p).width = (t.node c).key.getMsbD (t.node p).width := (hzc _ hlow).symm
  refine g.shape s ?_ ?_ ?_ ?_ ?_
  · have hadd := s.forest.add s.fresh_not_live
    have hdetach := hadd.detach hi
    have hkid := hdetach.attach (i := 0) (.inl rfl) (.inr hc) (.inl rfl) ?_
    · have htop := hkid.attach (i := i) (.inr hp) (.inl rfl) ⟨.inr (.inl rfl), hcf.symm⟩ ?_
      · have hroots : ((Insert.insert c (Insert.insert t.fresh {head}) : Set Nat) \ {c}) \ {t.fresh} = {head} := by
          ext k
          have hhf := s.ne_fresh s.head_live
          have hch := s.kid_ne_head hi
          simp only [Set.mem_sdiff, Set.mem_insert_iff]
          constructor
          · tauto
          · rintro rfl
            exact ⟨⟨.inr (.inr rfl), hch.symm⟩, hhf⟩
        rw [hlinks, g.grown]
        rw [hroots] at htop
        exact htop
      · rw [kid_attach, if_neg fun h => hpf h.1, kid_detach, if_pos ⟨rfl, rfl⟩]
    · rw [kid_detach, if_neg fun h => hpf h.1.symm]
      exact s.forest.dead_kid s.fresh_not_live 0
  · show (t.split p i c z).links.up head = none
    rw [hlinks, up_attach, if_neg (s.ne_fresh s.head_live), up_attach, if_neg (s.kid_ne_head hi).symm]
    exact s.head_up
  · intro q j d h
    rcases hcases h with ⟨rfl, -, rfl⟩ | ⟨rfl, -, rfl⟩ | ⟨hkid, hq, hd, -⟩
    · rw [hnew, g.width q hpf, g.key q hpf]
      exact ⟨hlow, hpz⟩
    · rw [hnew, g.width d hcf, g.key d hcf]
      exact ⟨hhigh, hzc⟩
    · rw [g.width q hq, g.width d hd, g.key q hq, g.key d hd]
      exact s.below hkid
  · intro q a b ha hb
    rcases hcases ha with ⟨rfl, rfl, rfl⟩ | ⟨rfl, -, rfl⟩ | ⟨hkid, hq, hd, hne⟩ <;>
      rcases hcases hb with ⟨heq, hi', rfl⟩ | ⟨heq, hi', rfl⟩ | ⟨hkid', hq', hd', hne'⟩
    · cases hi'
    · exact absurd heq hpf
    · rw [hnew, g.width q hpf, g.key b hd', hbit]
      exact s.fork hi hkid'
    · exact absurd heq.symm hpf
    · cases hi'
    · exact absurd rfl hq'
    · subst heq
      subst hi'
      rw [hnew, g.width q hpf, g.key a hd, hbit]
      exact s.fork hkid hi
    · cases hi'
    · rw [g.width q hq, g.key a hd, g.key b hd']
      exact s.fork hkid hkid'
  · intro q hq
    have hzero : (t.split p i c z).links.kid q 0 = none := hq
    rw [hlinks, kid_attach, kid_attach, kid_detach] at hzero
    split_ifs at hzero with h₁ h₂
    by_contra hne
    obtain ⟨b, hb⟩ := ne_none_iff_exists'.mp hne
    rcases hcases hb with ⟨rfl, rfl, -⟩ | ⟨rfl, hj, -⟩ | ⟨hkid, -, -⟩
    · rw [s.left hzero] at hi
      cases hi
    · cases hj
    · rw [s.left hzero] at hkid
      cases hkid

end Split

/-! Values. -/

def setValue (t : Trie n V) (p : Nat) (v : Option V) : Trie n V := t.set p { t.node p with value := v }

theorem node_setValue (v : Option V) (c : Nat) : (t.setValue p v).node c = if c = p then { t.node p with value := v } else t.node c := by
  unfold setValue
  rw [node_set]

theorem links_setValue (v : Option V) : (t.setValue p v).links = t.links := by
  refine Branches.ext (funext fun q => funext fun j => ?_) (funext fun c => ?_)
  · show ((t.setValue p v).node q).kids j = (t.node q).kids j
    rw [node_setValue]
    split <;> simp [*]
  · show ((t.setValue p v).node c).parent = (t.node c).parent
    rw [node_setValue]
    split <;> simp [*]

theorem label_setValue (v : Option V) (c : Nat) : ((t.setValue p v).node c).key = (t.node c).key ∧
    ((t.setValue p v).node c).mask = (t.node c).mask ∧ ((t.setValue p v).node c).width = (t.node c).width ∧
    ∀ j, ((t.setValue p v).node c).kids j = (t.node c).kids j := by
  rw [node_setValue]
  split
  · rename_i heq
    rw [heq]
    exact ⟨rfl, rfl, rfl, fun _ => rfl⟩
  · exact ⟨rfl, rfl, rfl, fun _ => rfl⟩

theorem Shape.setValue (s : Shape t) (hp : p ∈ t.live) (hne : p ≠ head) (v : Option V) : Shape (t.setValue p v) := by
  have hlive : (t.setValue p v).live = t.live := live_set hp _
  have hlabel := label_setValue (t := t) (p := p) v
  refine ⟨?_, ?_, ?_, ?_, ?_, ?_, ?_, ?_, ?_, ?_⟩
  · rw [hlive, links_setValue]
    exact s.forest
  · rw [hlive]
    exact s.fresh
  · intro c hc
    rw [hlive] at hc
    obtain ⟨hkey, hmask, hwidth, -⟩ := hlabel c
    have hold := s.ok hc
    refine ⟨?_, ?_, ?_⟩
    · rw [hmask, hwidth]
      exact hold.mask
    · rw [hwidth]
      exact hold.width_le
    · rw [hmask, hkey]
      exact hold.key
  · rw [hlive]
    exact s.head_live
  · rw [node_setValue, if_neg hne.symm]
    exact s.head_up
  · rw [(hlabel head).2.2.1]
    exact s.head_width
  · rw [node_setValue, if_neg hne.symm]
    exact s.head_value
  · intro q j c h
    rw [(hlabel q).2.2.2] at h
    rw [(hlabel q).2.2.1, (hlabel c).2.2.1, (hlabel q).1, (hlabel c).1]
    exact s.below h
  · intro q a b ha hb
    rw [(hlabel q).2.2.2] at ha hb
    rw [(hlabel q).2.2.1, (hlabel a).1, (hlabel b).1]
    exact s.fork ha hb
  · intro q h
    rw [(hlabel q).2.2.2] at h ⊢
    exact s.left h

/-- The entry of one node is new, and the others are as before. -/
structure Inserted (t : Trie n V) (key : BitVec n) (w : Nat) (val : V) (h : Nat) (t' : Trie n V) : Prop where
  shape : Shape t'
  full : t'.Full
  vacant : (t.node h).entry = none
  entry : (t'.node h).entry = some { width := w, key := key, value := val }
  others : ∀ c, c ≠ h → (t'.node c).entry = (t.node c).entry

theorem Shape.fresh_entry (s : Shape t) : (t.node t.fresh).entry = none := dead_entry s.fresh_not_live

theorem full_leaf (s : Shape t) (hp : p ∈ t.live) (hval : y.value ≠ none)
    (hfull : ∀ c ∈ t.live, c ≠ head → (t.node c).value = none → (t.node c).kids 1 ≠ none ∨ (c = p ∧ i = 1)) (hy : y.Ok) :
    (t.leaf p i y).Full := by
  have g := s.grows_leaf (i := i) hp hy
  intro c hc hne hv
  rw [g.grown] at hc
  rcases hc with rfl | hc
  · rw [node_leaf_new s hp] at hv
    exact absurd hv hval
  · have hcf := s.ne_fresh hc
    rw [g.value c hcf] at hv
    rw [node_leaf, if_neg hcf]
    split
    · rename_i heq
      rw [Node.kids_setKid]
      split
      · exact some_ne_none _
      · rename_i hi
        rcases hfull c hc hne hv with h | ⟨-, h⟩
        · rw [← heq]
          exact h
        · exact absurd h.symm hi
    · rename_i hcp
      rcases hfull c hc hne hv with h | ⟨h, -⟩
      · exact h
      · exact absurd h hcp

/-- The new leaf holds the entry. -/
theorem inserted_leaf (s : Shape t) (hp : p ∈ t.live)
    (hfull : ∀ c ∈ t.live, c ≠ head → (t.node c).value = none → (t.node c).kids 1 ≠ none ∨ (c = p ∧ i = 1)) (hw : w ≤ n) (hkey : key &&& leading n w = key)
    (hi : (t.node p).kids i = none) (hleft : i = 1 → (t.node p).kids 0 ≠ none) (hlt : (t.node p).width < w) (hk : (t.node p).Covers key)
    (hfork : ∀ j c, (t.node p).kids j = some c → key.getMsbD (t.node p).width ≠ (t.node c).key.getMsbD (t.node p).width) (val : V) :
    Inserted t key w val t.fresh (t.leaf p i { Node.new key (leading n w) (some val) with parent := some p }) := by
  have hnew := Node.ok_new hw key (some val)
  have hy : ({ Node.new key (leading n w) (some val) with parent := some p } : Node n V).Ok := ⟨hnew.mask, hnew.width_le, hnew.key⟩
  have hwidth : (Node.new key (leading n w) (some val)).width = w := maskWidth_leading hw
  have g := s.grows_leaf (i := i) hp hy
  refine ⟨s.leaf hp hi hleft hy rfl (fun _ => rfl) ?_ ?_ ?_, ?_, s.fresh_entry, ?_, g.entry⟩
  · exact lt_of_lt_of_eq hlt hwidth.symm
  · show Agree _ (key &&& leading n w) _
    rw [hkey]
    exact hk.symm
  · show ∀ j c, _ → (key &&& leading n w).getMsbD _ ≠ _
    rw [hkey]
    exact hfork
  · exact full_leaf s hp (some_ne_none _) hfull hy
  · rw [node_leaf_new s hp]
    show some (Entry.mk (Node.new key (leading n w) (some val)).width (key &&& leading n w) val) = _
    rw [hwidth, hkey]

/-- What one leg does: it takes the new entry, or the key leaves the node on the other side. -/
theorem insertLeg_spec (s : Shape t) (f : t.Full) (hp : p ∈ t.live) (hw : w ≤ n) (hkey : key &&& leading n w = key)
    (hlt : (t.node p).width < w) (hk : (t.node p).Covers key)
    (hlong : ∀ c, (t.node p).kids i = some c → (t.node c).Covers key → w < (t.node c).width)
    (hskip : ∀ c, i = 1 → (t.node p).kids 0 = some c → key.getMsbD (t.node p).width ≠ (t.node c).key.getMsbD (t.node p).width)
    (hzero : i = 1 → (t.node p).kids 0 ≠ none) (val : V) :
    (∃ r, t.insertLeg p (t.node p) i key (leading n w) (some val) = .ok (some r) ∧ Inserted t key w val r.1 r.2) ∨
    (t.insertLeg p (t.node p) i key (leading n w) (some val) = .ok none ∧
      ∃ c, (t.node p).kids i = some c ∧ key.getMsbD (t.node p).width ≠ (t.node c).key.getMsbD (t.node p).width) := by
  unfold insertLeg
  cases hi : (t.node p).kids i with
  | none =>
    refine .inl ⟨(t.fresh, t.leaf p i { Node.new key (leading n w) (some val) with parent := some p }), rfl, ?_⟩
    refine inserted_leaf s hp (fun c hc hne hv => .inl (f c hc hne hv)) hw hkey hi hzero hlt hk ?_ val
    intro j c hc
    match i, j with
    | 0, 0 => cases hi.symm.trans hc
    | 0, 1 => cases (s.left hi).symm.trans hc
    | 1, 0 => exact hskip c rfl hc
    | 1, 1 => cases hi.symm.trans hc
  | some c =>
    have hc := s.kid_live hi
    obtain ⟨hwidth, hagree⟩ := s.below hi
    have hpok := s.ok hp
    obtain ⟨d, hd, hle, hdw, hcommon, hdiff⟩ := walkLeg_spec key (t.node c).key hw (n + 1) (t.node p).width hlt.le
      (by omega) (hk.symm.trans hagree.symm)
    dsimp only
    rw [get_eq hc, bind_ok, hpok.mask, hd, bind_ok]
    by_cases hskipped : d = (t.node p).width
    · rw [if_pos (by rw [hskipped])]
      refine .inr ⟨rfl, c, rfl, ?_⟩
      rw [← hskipped]
      exact hdiff (by omega)
    · rw [if_neg (mt (leading_inj (by omega) hpok.width_le).mp hskipped)]
      -- the common prefix is longer than that of the node and shorter than that of the kid
      have hlow : (t.node p).width < d := by omega
      have hhigh : d < (t.node c).width := by
        by_contra hge
        have hcovers : (t.node c).Covers key := (hcommon.mono (Nat.le_of_not_lt hge)).symm
        have := hlong c hi hcovers
        omega
      have hdn : d ≤ n := by omega
      have hnew := Node.ok_new hdn key (none : Option V)
      let z : Node n V := { Node.new key (leading n d) none with parent := some p }.setKid 0 (some c)
      have hz : z.Ok := ⟨hnew.mask, hnew.width_le, hnew.key⟩
      have hzwidth : z.width = d := maskWidth_leading hdn
      have hzkey : Agree d z.key key := agree_and_leading hdn key
      have hzkids : ∀ j, z.kids j = if j = 0 then some c else none := fun j => Node.kids_setKid
      have hshape := s.split hi hz rfl hzkids (by omega) (by omega) ((hzkey.mono hlow.le).trans hk.symm)
        (by rw [hzwidth]; exact hcommon.symm.trans hzkey.symm)
      have g := s.grows_split hi hz
      have hznew := node_split_new (z := z) s hi
      have hzlive : t.fresh ∈ (t.split p i c z).live := by
        rw [g.grown]
        exact .inl rfl
      have hzhead : t.fresh ≠ head := (s.ne_fresh s.head_live).symm
      have hfull : ∀ k ∈ (t.split p i c z).live, k ≠ head → k ≠ t.fresh → ((t.split p i c z).node k).value = none →
          ((t.split p i c z).node k).kids 1 ≠ none := by
        intro k hk hne hkf hv
        rw [g.grown] at hk
        rw [g.value k hkf] at hv
        have hold := f k (hk.resolve_left hkf) hne hv
        rw [node_split]
        split_ifs with h₁ h₂
        · rw [Node.kids_setKid]
          split
          · exact some_ne_none _
          · rw [← h₁]
            exact hold
        · rw [h₂] at hold
          exact hold
        · exact hold
      by_cases hend : d = w
      · have hresult : (t.split p i c z).setValue t.fresh (some val) = (t.split p i c z).set t.fresh { z with value := some val } := by
          unfold setValue
          rw [hznew]
        rw [if_pos (by rw [hend])]
        refine .inl ⟨(t.fresh, (t.split p i c z).setValue t.fresh (some val)), ?_, ?_⟩
        · rw [hresult]
          rfl
        · refine ⟨hshape.setValue hzlive hzhead (some val), ?_, s.fresh_entry, ?_, ?_⟩
          · intro k hk hne hv
            have hklive : k ∈ (t.split p i c z).live := by
              rw [← live_set hzlive]
              exact hk
            rw [(label_setValue (some val) k).2.2.2]
            rw [node_setValue] at hv
            split at hv
            · cases hv
            · rename_i hkf
              exact hfull k hklive hne hkf hv
          · rw [node_setValue, if_pos rfl, hznew]
            show some (Entry.mk z.width (key &&& leading n d) val) = _
            rw [hzwidth, hend, hkey]
          · intro k hk
            rw [node_setValue, if_neg hk]
            exact g.entry k hk
      · rw [if_neg (mt (leading_inj hdn hw).mp hend)]
        have hkidkey : ((t.split p i c z).node c).key = (t.node c).key := g.key c (s.ne_fresh hc)
        have hleaf := inserted_leaf (i := 1) hshape hzlive ?_ hw hkey ?_ ?_ ?_ ?_ ?_ val
        · refine .inl ⟨(t.fresh + 1, (t.split p i c z).leaf t.fresh 1
            { Node.new key (leading n w) (some val) with parent := some t.fresh }), ?_, hleaf.shape, hleaf.full, ?_, hleaf.entry, ?_⟩
          · unfold leaf
            rw [hznew]
            rfl
          · exact dead_entry fun h => absurd (s.fresh h) (by omega)
          · intro k hk
            refine (hleaf.others k hk).trans ?_
            by_cases hkf : k = t.fresh
            · rw [hkf, hznew, s.fresh_entry]
              rfl
            · exact g.entry k hkf
        · intro k hk hne hv
          by_cases hkf : k = t.fresh
          · exact .inr ⟨hkf, rfl⟩
          · exact .inl (hfull k hk hne hkf hv)
        · rw [hznew]
          rfl
        · intro _
          rw [hznew]
          exact some_ne_none c
        · rw [hznew]
          omega
        · rw [hznew]
          unfold Node.Covers
          rw [hzwidth]
          exact hzkey
        · rw [hznew, hzwidth]
          intro j k hk
          rw [hzkids] at hk
          split at hk
          · cases hk
            rw [hkidkey]
            exact hdiff (by omega)
          · cases hk

/-- The node of the prefix takes the value. -/
theorem inserted_here (s : Shape t) (f : t.Full) (hp : p ∈ t.live) (hw : 1 ≤ w) (hwn : w ≤ n) (hkey : key &&& leading n w = key)
    (hpw : (t.node p).width = w) (hk : (t.node p).Covers key) (hnone : (t.node p).value = none) (val : V) :
    Inserted t key w val p (t.setValue p (some val)) := by
  have hpok := s.ok hp
  have hne : p ≠ head := by
    rintro rfl
    rw [s.head_width] at hpw
    omega
  have hpkey : (t.node p).key = key := by
    have hold := hpok.key
    rw [hpok.mask, hpw] at hold
    refine Agree.eq ?_ hwn hold hkey
    rw [← hpw]
    exact hk
  refine ⟨s.setValue hp hne _, ?_, ?_, ?_, ?_⟩
  · intro k hk hne hv
    have hklive : k ∈ t.live := by
      rw [← live_set hp]
      exact hk
    rw [(label_setValue (some val) k).2.2.2]
    rw [node_setValue] at hv
    split at hv
    · cases hv
    · exact f k hklive hne hv
  · unfold Node.entry
    rw [hnone]
    rfl
  · rw [node_setValue, if_pos rfl]
    show some (Entry.mk (t.node p).width (t.node p).key val) = _
    rw [hpw, hpkey]
  · intro k hk
    rw [node_setValue, if_neg hk]

theorem mask_eq (hw : w ≤ n) : (if w < n then BitVec.allOnes n <<< (n - w) else BitVec.allOnes n) = leading n w := by
  split
  · rfl
  · obtain rfl : w = n := by omega
    unfold leading
    rw [Nat.sub_self, BitVec.shiftLeft_zero]

/-- A prefix without a value can be inserted. -/
theorem insert_spec (s : Shape t) (f : t.Full) (hw : 1 ≤ w) (hwn : w ≤ n)
    (hnot : ∀ c ∈ t.live, (t.node c).width = w → (t.node c).Covers key → (t.node c).value = none) (val : V) :
    ∃ h t', t.insert key w (some val) = .ok (h, t') ∧ Inserted t (key &&& leading n w) w val h t' := by
  have hkey : key &&& leading n w &&& leading n w = key &&& leading n w := by rw [BitVec.and_assoc, BitVec.and_self]
  have hhead : (t.node head).Covers (key &&& leading n w) := by
    intro i hi
    rw [s.head_width] at hi
    omega
  obtain ⟨p, hwalk, hp, hk, hle, hlong⟩ := walk_spec s (key &&& leading n w) hwn (n + 1) head s.head_live hhead
    (by rw [s.head_width]; omega) (by omega)
  have hmask : (t.node p).mask = leading n w ↔ (t.node p).width = w := by
    rw [(s.ok hp).mask, leading_inj (s.ok hp).width_le hwn]
  unfold insert
  dsimp only
  rw [mask_eq hwn, hwalk, bind_ok, get_eq hp, bind_ok]
  by_cases hpw : (t.node p).width = w
  · have hcovers : (t.node p).Covers key := by
      unfold Node.Covers at hk ⊢
      rw [hpw] at hk ⊢
      exact hk.trans (agree_and_leading hwn key)
    have hnone := hnot p hp hpw hcovers
    refine ⟨p, t.setValue p (some val), ?_, inserted_here s f hp hw hwn hkey hpw hk hnone val⟩
    rw [if_pos (hmask.mpr hpw), hnone]
    rfl
  · have hlt : (t.node p).width < w := by omega
    rw [if_neg (mt hmask.mp hpw)]
    rcases insertLeg_spec s f hp hwn hkey hlt hk (hlong 0) (fun _ h => absurd h (by decide)) (fun h => absurd h (by decide)) val with
      ⟨⟨h, t'⟩, hleg, hins⟩ | ⟨hleg, a, ha, hdiff⟩
    · refine ⟨h, t', ?_, hins⟩
      rw [hleg]
      rfl
    · rcases insertLeg_spec s f hp hwn hkey hlt hk (hlong 1) (fun c _ hc => by cases ha.symm.trans hc; exact hdiff)
        (fun _ h => by cases ha.symm.trans h) val with ⟨⟨h, t'⟩, hleg', hins⟩ | ⟨hleg', b, hb, hdiff'⟩
      · refine ⟨h, t', ?_, hins⟩
        rw [hleg, bind_ok]
        rw [hleg']
        rfl
      · -- the key has the next bit of one of the kids
        have hfork := s.fork ha hb
        revert hdiff hdiff' hfork
        cases (key &&& leading n w).getMsbD (t.node p).width <;> cases (t.node a).key.getMsbD (t.node p).width <;>
          cases (t.node b).key.getMsbD (t.node p).width <;> simp

end Trie

end Gem5.Base
