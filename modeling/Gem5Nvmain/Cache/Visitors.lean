import Gem5Nvmain.Cache.CacheRuns
import Gem5Nvmain.Cache.FilterPolicies
import Gem5Nvmain.Cache.HapPolicies
import Gem5Nvmain.Cache.Brp

/- Visiting the whole cache, for every tag store derived from BaseSetAssoc.

  `forEachBlk` walks the array that the member `blks` points at; `findBlock` walks the sets. They agree as long as
  `blks` is the array BaseSetAssoc allocated, and no operation changes that: `memWriteback` then writes back every
  dirty block, `isDirty` sees it and `memInvalidate` leaves no block valid. BRP's constructor makes `blks` point at
  its shadow tags, so its visitors never see a block. -/
namespace Gem5.Cache
open Lib Gem5.Mem List BlkPtr

/-! ## The tag stores -/

/-- The classes derived from BaseSetAssoc, with the parameters of their constructors. -/
inductive Policy where
  | lru
  | lruWb
  | pipp (pcmLocation dramLocation : Int)
  | randomRepl
  | hybLru
  | hybDip
  | iHybDip
  | hybRrip
  | heaf (counter : Int) (numBits : Nat)
  | hybBf (counter : Int) (numBits : Nat)
  | feaf
  | hap (bitsOfSets : Nat)
  | hapTest (bitsOfSets : Nat)
  | brp
  deriving DecidableEq

namespace Policy

/-- The members of the derived class. -/
def State : Policy → Type
  | .hybDip | .iHybDip => DipState
  | .hybRrip => RripState
  | .heaf .. | .hybBf .. => BloomState
  | .feaf => FeafState
  | .hap _ | .hapTest _ => HapState
  | .brp => BrpState
  | _ => Unit

def store (p : TagParams) : (x : Policy) → TagStore x.State
  | .lru => Cache.lru p
  | .lruWb => Cache.lruWb p
  | .pipp pcmLocation dramLocation => Cache.pipp p pcmLocation dramLocation
  | .randomRepl => Cache.randomRepl p
  | .hybLru => Cache.hybLru p
  | .hybDip => Cache.hybDip p
  | .iHybDip => Cache.iHybDip p
  | .hybRrip => Cache.hybRrip p
  | .heaf counter numBits => Cache.heaf p counter numBits
  | .hybBf counter numBits => Cache.hybBf p counter numBits
  | .feaf => Cache.feaf p
  | .hap bitsOfSets => Cache.hap p bitsOfSets
  | .hapTest bitsOfSets => Cache.hapTest p bitsOfSets
  | .brp => Cache.brp p

theorem lawful (p : TagParams) : (x : Policy) → Lawful p (x.store p)
  | .lru => lru_lawful p
  | .lruWb => lruWb_lawful p
  | .pipp pcmLocation dramLocation => pipp_lawful p pcmLocation dramLocation
  | .randomRepl => randomRepl_lawful p
  | .hybLru => hybLru_lawful p
  | .hybDip => hybDip_lawful p
  | .iHybDip => iHybDip_lawful p
  | .hybRrip => hybRrip_lawful p
  | .heaf counter numBits => heaf_lawful p counter numBits
  | .hybBf counter numBits => hybBf_lawful p counter numBits
  | .feaf => feaf_lawful p
  | .hap bitsOfSets => hap_lawful p bitsOfSets
  | .hapTest bitsOfSets => hapTest_lawful p bitsOfSets
  | .brp => brp_lawful p

theorem new_blks (p : TagParams) (x : Policy) : (x.store p).new.blks = .blocks ↔ x ≠ .brp := by
  cases x with
  | brp => exact ⟨nofun, absurd rfl⟩
  | lru | lruWb | pipp | randomRepl | hybLru | hybDip | iHybDip | hybRrip | heaf | hybBf | feaf | hap | hapTest =>
    exact ⟨fun _ => by simp, fun _ => rfl⟩

end Policy

/-! ## What is visited -/

section Visit
variable {σ : Type} {P : CacheParams} {Q : MshrQueue → MshrQueue → Prop} {T : TagStore σ} {live : Bool} {c : CacheState σ}

/-- `sets[i].blks[j]` for every `i` and `j`. -/
def setBlks (P : CacheParams) (c : CacheState σ) : List BlkPtr :=
  (range P.numSets).flatMap fun i => (c.tags.setAt i).blks.map blk

/-- The visitors see the blocks of the sets, each once: what is written back, reported dirty and invalidated is what
  `findBlock` can return. -/
structure VisitsAll (P : CacheParams) (T : TagStore σ) (c : CacheState σ) : Prop where
  visits : (c.visited P).Perm (setBlks P c) ∧ (c.visited P).Nodup
  writesBack : ∃ c' pkts, c.memWriteback P = .ok (c', pkts) ∧
    (∀ a isSecure i, c.tags.findBlock P.toTagParams a isSecure = some i → (c.tags.blk i).dirty = true →
      ∃ pkt ∈ pkts, pkt.addr = P.blkAlign a ∧ pkt.data = (c.tags.blk i).data) ∧
    ∃ c'', c'.memInvalidate P T = .ok c'' ∧ ∀ i < P.numBlocks, (c''.tags.blk i).valid = false
  isDirty : c.isDirty P = true ↔
    ∃ a isSecure i, c.tags.findBlock P.toTagParams a isSecure = some i ∧ (c.tags.blk i).dirty = true

theorem visited_blocks (h : c.tags.blks = .blocks) : c.visited P = (range P.numBlocks).map blk := by
  simp [CacheState.visited, h]

variable {arr : BlkArray} {i : Nat}

theorem mem_setBlks (hi : CacheInv P arr Q live c) : blk i ∈ setBlks P c ↔ i < P.numBlocks := by
  simp only [setBlks, mem_flatMap, mem_range, mem_map, blk.injEq, exists_eq_right]
  constructor
  · intro ⟨s, hs, hmem⟩
    exact ((hi.tags.mem_ways hs).mp hmem).1
  · intro hlt
    have hs := P.div_assoc_lt hlt
    exact ⟨_, hs, (hi.tags.mem_ways hs).mpr ⟨hlt, rfl⟩⟩

theorem setBlks_nodup (hi : CacheInv P arr Q live c) : (setBlks P c).Nodup := by
  refine nodup_flatMap.mpr ⟨fun s hs => ?_, ?_⟩
  · refine (hi.tags.ways_nodup (mem_range.mp hs)).map ?_
    intro i j hij
    exact blk.inj hij
  · -- a block is in the set of its own index
    refine nodup_range.imp_of_mem ?_
    intro s s' hs hs' hne
    refine disjoint_left.mpr fun ptr hptr hptr' => hne ?_
    obtain ⟨i, hmem, rfl⟩ := mem_map.mp hptr
    obtain ⟨j, hmem', heq⟩ := mem_map.mp hptr'
    rw [blk.inj heq] at hmem'
    rw [← ((hi.tags.mem_ways (mem_range.mp hs)).mp hmem).2,
      ((hi.tags.mem_ways (mem_range.mp hs')).mp hmem').2]

theorem range_nodup (P : CacheParams) : ((range P.numBlocks).map blk).Nodup := by
  refine nodup_range.map ?_
  intro i j hij
  exact blk.inj hij

theorem visits_sets (hi : CacheInv P .blocks Q live c) : (c.visited P).Perm (setBlks P c) := by
  rw [visited_blocks hi.tags.array]
  refine (perm_ext_iff_of_nodup (range_nodup P) (setBlks_nodup hi)).mpr fun ptr => ?_
  cases ptr with
  | blk i => rw [mem_setBlks hi, mem_map_of_injective (fun _ _ h => blk.inj h), mem_range]
  | temp => simp [setBlks]
  | record i => simp [setBlks]

/-! ## What the visitors do -/

/-- One block: written back if it is dirty, and clean afterwards. -/
theorem writebackVisitor_ok (hi : CacheInv P arr Q live c) (hlt : i < P.numBlocks) :
    ∃ c' pkts, c.writebackVisitor P (.blk i) = .ok (c', pkts) ∧ (c'.tags.blk i).dirty = false ∧
      (∀ j, j ≠ i → c'.tags.blk j = c.tags.blk j) ∧
      ((c.tags.blk i).dirty = true → ∃ pkt ∈ pkts,
        pkt.addr = P.regenerateBlkAddr (c.tags.blk i).tag (c.tags.blk i).set ∧
        pkt.data = (c.tags.blk i).data) := by
  by_cases hd : (c.tags.blk i).dirty = true
  · have hvalid := (hi.tags.blk i hlt).dirty hd
    refine ⟨_, _, (if_pos hd).trans (bind_eq_ok.mpr ⟨(), require_eq_ok.mpr hvalid, rfl⟩), ?_,
      fun j hj => Tags.blk_setBlk_ne hj, fun _ => ⟨_, mem_singleton_self _, rfl, rfl⟩⟩
    change ((c.tags.setBlk i { c.tags.blk i with dirty := false }).blk i).dirty = false
    rw [Tags.blk_setBlk_self (hi.tags.lt_length hlt)]
  · exact ⟨c, [], if_neg hd, by simpa using hd, fun j _ => rfl, fun h => absurd h hd⟩

variable {l : List Nat}

/-- A list of blocks, each once. -/
theorem writebackAll_ok (hi : CacheInv P arr Q live c) (hlt : ∀ i ∈ l, i < P.numBlocks) (hnd : l.Nodup) :
    ∃ c' pkts, c.writebackAll P (l.map blk) = .ok (c', pkts) ∧
      (∀ i ∈ l, (c'.tags.blk i).dirty = false) ∧ (∀ i, i ∉ l → c'.tags.blk i = c.tags.blk i) ∧
      ∀ i ∈ l, (c.tags.blk i).dirty = true → ∃ pkt ∈ pkts,
        pkt.addr = P.regenerateBlkAddr (c.tags.blk i).tag (c.tags.blk i).set ∧
        pkt.data = (c.tags.blk i).data := by
  induction l generalizing c with
  | nil => exact ⟨c, [], rfl, nofun, fun i _ => rfl, nofun⟩
  | cons i l ih =>
    obtain ⟨hnot, hnd⟩ := nodup_cons.mp hnd
    have hi_lt := hlt i (mem_cons_self ..)
    obtain ⟨c₁, pkts₁, h₁, hclean₁, hother₁, hpkt₁⟩ := writebackVisitor_ok hi hi_lt
    have hi₁ := hi.writebackVisitor (inBounds_blk hi_lt) h₁
    obtain ⟨c₂, pkts₂, h₂, hclean₂, hother₂, hpkt₂⟩ := ih hi₁ (fun j hj => hlt j (mem_cons_of_mem _ hj)) hnd
    refine ⟨c₂, pkts₁ ++ pkts₂, ?_, fun j hj => ?_, fun j hj => ?_, fun j hj hd => ?_⟩
    · exact bind_eq_ok.mpr ⟨(c₁, pkts₁), h₁, bind_eq_ok.mpr ⟨(c₂, pkts₂), h₂, rfl⟩⟩
    · rcases mem_cons.mp hj with rfl | hj
      · rw [hother₂ j hnot]
        exact hclean₁
      · exact hclean₂ j hj
    · rw [mem_cons, not_or] at hj
      rw [hother₂ j hj.2, hother₁ j hj.1]
    · rcases mem_cons.mp hj with rfl | hj
      · obtain ⟨pkt, hmem, hpkt⟩ := hpkt₁ hd
        exact ⟨pkt, mem_append_left _ hmem, hpkt⟩
      · have hne : j ≠ i := fun heq => hnot (heq ▸ hj)
        rw [← hother₁ j hne] at hd ⊢
        obtain ⟨pkt, hmem, hpkt⟩ := hpkt₂ j hj hd
        exact ⟨pkt, mem_append_right _ hmem, hpkt⟩

/-- Clean blocks can all be invalidated. -/
theorem invalidateAll_ok (hT : Lawful P.toTagParams T) (hi : CacheInv P arr Q live c) (hlt : ∀ i ∈ l, i < P.numBlocks)
    (hclean : ∀ i < P.numBlocks, (c.tags.blk i).dirty = false) : ∃ c', c.invalidateAll T (l.map blk) = .ok c' ∧
      ∀ i < P.numBlocks, i ∈ l ∨ (c.tags.blk i).valid = false → (c'.tags.blk i).valid = false := by
  induction l generalizing c with
  | nil =>
    refine ⟨c, rfl, fun i _ h => ?_⟩
    rcases h with h | h
    · cases h
    · exact h
  | cons i l ih =>
    have hi_lt := hlt i (mem_cons_self ..)
    have hrest := fun j hj => hlt j (mem_cons_of_mem _ hj)
    by_cases hv : (c.tags.blk i).valid = true
    · obtain ⟨c₁, h₁, hi₁, hinv₁, hclean₁, hother₁⟩ := hi.invalidateBlk_ok hT hi_lt hv
      have hclean' : ∀ j < P.numBlocks, (c₁.tags.blk j).dirty = false := by
        intro j hj
        by_cases hji : j = i
        · rw [hji]
          exact hclean₁
        · rw [hother₁ j hji]
          exact hclean j hj
      obtain ⟨c₂, h₂, hinv₂⟩ := ih hi₁ hrest hclean'
      have hvisit : c.invalidateVisitor T (.blk i) = .ok c₁ :=
        (if_pos hv).trans (bind_eq_ok.mpr ⟨(), by simp [CacheState.get, hclean i hi_lt], h₁⟩)
      refine ⟨c₂, bind_eq_ok.mpr ⟨c₁, hvisit, h₂⟩, fun j hj h => hinv₂ j hj ?_⟩
      by_cases hji : j = i
      · rw [hji]
        exact .inr hinv₁
      · rw [hother₁ j hji]
        exact h.imp (fun hmem => (mem_cons.mp hmem).resolve_left hji) id
    · obtain ⟨c₂, h₂, hinv₂⟩ := ih hi hrest hclean
      refine ⟨c₂, bind_eq_ok.mpr ⟨c, if_neg hv, h₂⟩, fun j hj h => hinv₂ j hj ?_⟩
      by_cases hji : j = i
      · rw [hji]
        exact .inr (by simpa using hv)
      · exact h.imp (fun hmem => (mem_cons.mp hmem).resolve_left hji) id

theorem dirty_iff_found (hi : CacheInv P arr Q live c) : (∃ i < P.numBlocks, (c.tags.blk i).dirty = true) ↔
    ∃ a isSecure i, c.tags.findBlock P.toTagParams a isSecure = some i ∧ (c.tags.blk i).dirty = true := by
  constructor
  · intro ⟨i, hlt, hd⟩
    exact ⟨_, _, i, hi.tags.findBlock_own hlt ((hi.tags.blk i hlt).dirty hd), hd⟩
  · intro ⟨a, isSecure, i, hf, hd⟩
    exact ⟨i, hi.found_lt hf, hd⟩

theorem CacheInv.visitsAll (hT : Lawful P.toTagParams T) (hi : CacheInv P .blocks Q live c) : VisitsAll P T c := by
  have hrange : ∀ i ∈ range P.numBlocks, i < P.numBlocks := fun i h => mem_range.mp h
  refine ⟨⟨visits_sets hi, ?_⟩, ?_, ?_⟩
  · rw [visited_blocks hi.tags.array]
    exact range_nodup P
  · obtain ⟨c', pkts, h, hclean, -, hpkts⟩ := writebackAll_ok hi hrange nodup_range
    rw [← visited_blocks hi.tags.array] at h
    have hi' := hi.memWriteback h
    obtain ⟨c'', h'', hinv⟩ := invalidateAll_ok hT hi' hrange fun i hlt => hclean i (mem_range.mpr hlt)
    rw [← visited_blocks hi'.tags.array] at h''
    refine ⟨c', pkts, h, fun a isSecure i hf hd => ?_, c'', h'', fun i hlt => ?_⟩
    · obtain ⟨hlt, hset, htag, -, -⟩ := hi.tags.findBlock_spec hf
      obtain ⟨pkt, hmem, haddr, hdata⟩ := hpkts i (mem_range.mpr hlt) hd
      refine ⟨pkt, hmem, ?_, hdata⟩
      rw [haddr, hset, htag]
      exact P.regenerateBlkAddr_extract a
    · exact hinv i hlt (.inl (mem_range.mpr hlt))
  · rw [← dirty_iff_found hi, CacheState.isDirty, visited_blocks hi.tags.array, any_map,
      any_eq_true]
    simp only [mem_range, Function.comp_apply, CacheState.get]

theorem not_visitsAll (hi : CacheInv P .recordBlks Q live c) : ¬VisitsAll P T c := by
  intro hv
  have hmem : blk 0 ∈ c.visited P := hv.visits.1.mem_iff.mpr ((mem_setBlks hi).mpr P.numBlocks_pos)
  rw [CacheState.visited, hi.tags.array] at hmem
  obtain ⟨i, -, hptr⟩ := mem_map.mp hmem
  cases hptr

end Visit

/-- In every state of every run, the visitors see the whole cache exactly when the tag store is not BRP. -/
theorem visitors_see_all_iff (P : CacheParams) (x : Policy) {h : List Op} {s : RunState x.State}
    (hr : Reachable P (x.store P.toTagParams) h s) : VisitsAll P (x.store P.toTagParams) s.cache ↔ x ≠ .brp := by
  have hi := reachable_inv (x.lawful _) hr
  rw [← x.new_blks P.toTagParams]
  constructor
  · intro hv
    cases harr : (x.store P.toTagParams).new.blks with
    | blocks => rfl
    | recordBlks =>
      rw [harr] at hi
      exact absurd hv (not_visitsAll hi)
  · intro harr
    rw [harr] at hi
    exact hi.visitsAll (x.lawful _)

theorem lru_visitors_see_all :
    ∃ s, Reachable oneWay (Policy.lru.store oneWay.toTagParams) [.access (writebackOf 0) 0] s ∧
      s.cache.isDirty oneWay = true ∧ VisitsAll oneWay (Policy.lru.store oneWay.toTagParams) s.cache := by
  refine Exec.ends_with (p := fun s => s.cache.isDirty oneWay) (by decide) fun s hr hp => ?_
  exact ⟨hp, (visitors_see_all_iff oneWay .lru hr).mpr (by simp)⟩

/-- A dirty block in a BRP cache: it is found, but `isDirty` is false and `memWriteback` writes nothing. -/
theorem brp_visitors_miss_dirty_block :
    ∃ s, Reachable oneWay (Policy.brp.store oneWay.toTagParams) [.access (writebackOf 0) 0] s ∧
      (s.cache.tags.findBlock oneWay.toTagParams 0 false = some 0 ∧ (s.cache.tags.blk 0).dirty = true ∧
        s.cache.isDirty oneWay = false ∧ (s.cache.memWriteback oneWay).map Prod.snd = .ok []) ∧
      ¬VisitsAll oneWay (Policy.brp.store oneWay.toTagParams) s.cache := by
  refine Exec.ends_with (p := fun s => decide (s.cache.tags.findBlock oneWay.toTagParams 0 false = some 0) &&
      (s.cache.tags.blk 0).dirty && !s.cache.isDirty oneWay &&
      match s.cache.memWriteback oneWay with
      | .ok (_, pkts) => decide (pkts = [])
      | .error _ => false) (by decide) fun s hr hp => ?_
  simp only [Bool.and_eq_true, decide_eq_true_eq, Bool.not_eq_true'] at hp
  obtain ⟨⟨⟨hfound, hdirty⟩, hnot⟩, hwb⟩ := hp
  refine ⟨⟨hfound, hdirty, hnot, ?_⟩, fun hv => ?_⟩
  · split at hwb
    · rename_i c pkts hok
      rw [hok]
      exact congrArg Except.ok (of_decide_eq_true hwb)
    · cases hwb
  · rw [hv.isDirty.mpr ⟨0, false, 0, hfound, hdirty⟩] at hnot
    cases hnot

end Gem5.Cache
