import Gem5Nvmain.Cache.BrpStack

/- Invalidation and the shadow tags of BRP (`BRP::invalidate`, `BRP::MoveTagTail`).

  `invalidate` looks through the shadow sets of the cores for the tag of the block, and returns from the function when
  it has dropped the first one. One call takes away one copy, whatever the number of cores that have it
  (`count_coreTags`), so the shadow sets are rid of the tag exactly when there was one copy at most. -/
namespace Gem5.Cache
open Lib Gem5.Mem Tags List Nat

variable {p : TagParams} {row : List CacheBlk} {t t' : Tags BrpState} {k set tag i : Nat}

/-! ## What moves -/

theorem length_moveTagTail : (moveTagTail row i).length = row.length := length_mapIdx ..

/-- The tag goes to the end. -/
theorem tags_moveTagTail (h : i < row.length) :
    (moveTagTail row i).map (·.tag) = (row.map (·.tag)).eraseIdx i ++ [row[i].tag] := by
  have herase : ((row.map (·.tag)).eraseIdx i).length = row.length - 1 := by
    rw [length_eraseIdx_of_lt (by simpa using h), length_map]
  apply ext_getElem
  · rw [length_map, length_moveTagTail, length_append, herase, length_singleton]
    omega
  · intro j hj hj'
    rw [length_map, length_moveTagTail] at hj
    simp only [moveTagTail, getElem_map, getElem_mapIdx]
    by_cases hlast : j + 1 = row.length
    · rw [if_pos hlast, getElem_append_right (by omega), getElem_singleton]
      exact (congrArg CacheBlk.tag (shadowAt_eq h) : (shadowAt row i).tag = row[i].tag)
    · rw [if_neg hlast, getElem_append_left (by omega), getElem_eraseIdx]
      by_cases hij : i ≤ j
      · rw [if_pos hij, dif_neg (by omega), getElem_map]
        exact (congrArg CacheBlk.tag (shadowAt_eq (by omega)) : (shadowAt row (j + 1)).tag = row[j + 1].tag)
      · rw [if_neg hij, dif_pos (by omega), getElem_map]

/-- The first of the tags that are `tag` makes room for `noTag` at the end. -/
theorem tags_dropTag (h : (row.findIdx? fun b => b.tag == tag) = some i) :
    (moveTagTail (row.modify i fun b => { b with tag := noTag }) i).map (·.tag) =
      (row.map (·.tag)).erase tag ++ [noTag] ∧ tag ∈ row.map (·.tag) := by
  have hmap : (row.map (·.tag)).findIdx? (· == tag) = some i := by
    rw [← h]
    exact findIdx?_map
  have hidx : i = (row.map (·.tag)).idxOf tag := (findIdx?_eq_some_iff_findIdx_eq.mp hmap).2.symm
  have hlt : i < row.length := by
    have hi := (findIdx?_eq_some_iff_findIdx_eq.mp hmap).1
    rwa [length_map] at hi
  have hmem : tag ∈ row.map (·.tag) := by
    apply idxOf_lt_length_iff.mp
    rw [← hidx, length_map]
    exact hlt
  have hset : (row.modify i fun b => { b with tag := noTag }).map (·.tag) = (row.map (·.tag)).set i noTag := by
    apply ext_getElem (by simp)
    intro j hj hj'
    rw [getElem_map, getElem_modify, getElem_set, getElem_map]
    split <;> rfl
  have hmodify : i < (row.modify i fun b => { b with tag := noTag }).length := by
    rw [length_modify]
    exact hlt
  have herase : (row.map (·.tag)).eraseIdx i = (row.map (·.tag)).erase tag := by
    rw [hidx, eraseIdx_idxOf_eq_erase]
  refine ⟨?_, hmem⟩
  rw [tags_moveTagTail hmodify, hset, eraseIdx_set_eq, getElem_modify, if_pos rfl, herase]

/-! ## The shadow sets as parts of one array -/

variable {k' set' : Nat}

theorem shadowRow_setShadowRow_ne (h : Room p t k set) (hrow : row.length = p.assoc)
    (hne : k' * p.numSets + set' ≠ k * p.numSets + set) :
    shadowRow p (setShadowRow p t k set row) k' set' = shadowRow p t k' set' := by
  unfold Room at h
  simp only [shadowRow, setShadowRow]
  generalize hn : k * p.numSets + set = n at h hne
  generalize k' * p.numSets + set' = n' at hne
  have hstart : (t.recordBlks.take (n * p.assoc)).length = n * p.assoc := length_take_of_le (by omega)
  rcases lt_or_gt_of_ne hne with hlt | hgt
  · -- in front of the set that is written
    have hend : n' * p.assoc + p.assoc ≤ n * p.assoc := by
      rw [← succ_mul]
      exact mul_le_mul_right _ hlt
    rw [append_assoc, drop_append_of_le_length (by omega),
      take_append_of_le_length (by rw [length_drop]; omega), drop_take, take_take]
    congr 1
    omega
  · -- behind it
    have hend : n * p.assoc + p.assoc ≤ n' * p.assoc := by
      rw [← succ_mul]
      exact mul_le_mul_right _ hgt
    have hlen : (t.recordBlks.take (n * p.assoc) ++ row).length = n * p.assoc + p.assoc := by
      rw [length_append, hstart, hrow]
    rw [drop_append, drop_eq_nil_of_le (by omega), hlen, nil_append, drop_drop,
      Nat.add_sub_cancel' hend]

/-- What the constructor allocates and no call changes. -/
structure Shadowed (p : TagParams) (t : Tags BrpState) : Prop where
  sets : t.sets.length = p.numSets
  shadow : t.recordBlks.length = numCore * p.numSets * p.assoc

namespace Shadowed

theorem room (h : Shadowed p t) (hk : k < numCore) (hset : set < p.numSets) : Room p t k set := by
  unfold Room
  rw [h.shadow]
  exact shadowRow_fits hk hset

theorem length_shadowRow (h : Shadowed p t) (hk : k < numCore) (hset : set < p.numSets) :
    (shadowRow p t k set).length = p.assoc := by
  have hroom := h.room hk hset
  unfold Room at hroom
  rw [shadowRow, length_take_of_le (by rw [length_drop]; omega)]

end Shadowed

/-! ## One call -/

def shadowTags (p : TagParams) (t : Tags BrpState) (k set : Nat) : List Nat := (shadowRow p t k set).map (·.tag)

/-- The tags of one set, of all cores. -/
def coreTags (p : TagParams) (t : Tags BrpState) (set : Nat) : List Nat :=
  (range numCore).flatMap fun k => shadowTags p t k set

/-- The tags other than the one that is dropped, in their order. -/
def otherTags (tag : Nat) (tags : List Nat) : List Nat := tags.filter fun x => x ≠ tag ∧ x ≠ noTag

/-- No core has the tag in its shadow set, and the other tags of every shadow set are in order. -/
structure ShadowTagsDropped (p : TagParams) (t t' : Tags BrpState) (set tag : Nat) : Prop where
  gone : ∀ k < numCore, tag ∉ shadowTags p t' k set
  order : ∀ k < numCore, ∀ n < p.numSets, otherTags tag (shadowTags p t' k n) = otherTags tag (shadowTags p t k n)

/-- The scan stops at the first core that has the tag. -/
theorem dropShadowTag_cases (t : Tags BrpState) (set tag : Nat) (ks : List Nat) :
    (∀ k ∈ ks, tag ∉ shadowTags p t k set) ∧ dropShadowTag p t set tag ks = t ∨
    ∃ before k behind row, ks = before ++ k :: behind ∧ (∀ j ∈ before, tag ∉ shadowTags p t j set) ∧
      tag ∈ shadowTags p t k set ∧ row.map (·.tag) = (shadowTags p t k set).erase tag ++ [noTag] ∧
      dropShadowTag p t set tag ks = setShadowRow p t k set row := by
  induction ks with
  | nil => exact .inl ⟨fun _ hk => absurd hk not_mem_nil, rfl⟩
  | cons k ks ih =>
    simp only [dropShadowTag]
    cases hfind : (shadowRow p t k set).findIdx? fun b => b.tag == tag with
    | some i =>
      obtain ⟨htags, hmem⟩ := tags_dropTag hfind
      exact .inr ⟨[], k, ks, _, rfl, fun _ hj => absurd hj not_mem_nil, hmem, htags, rfl⟩
    | none =>
      have hk : tag ∉ shadowTags p t k set := by
        intro hmem
        obtain ⟨b, hb, htag⟩ := mem_map.mp hmem
        have hno := findIdx?_eq_none_iff.mp hfind b hb
        rw [beq_eq_false_iff_ne] at hno
        exact hno htag
      rcases ih with ⟨hnone, hsame⟩ | ⟨before, j, behind, row, hks, hbefore, hrest⟩
      · exact .inl ⟨forall_mem_cons.mpr ⟨hk, hnone⟩, hsame⟩
      · subst hks
        exact .inr ⟨k :: before, j, behind, row, rfl, forall_mem_cons.mpr ⟨hk, hbefore⟩, hrest⟩

theorem shadowIndex_ne (hset : set < p.numSets) (hset' : set' < p.numSets)
    (hne : k' ≠ k ∨ set' ≠ set) : k' * p.numSets + set' ≠ k * p.numSets + set := by
  intro heq
  have hk := congrArg (· / p.numSets) heq
  have hmod := congrArg (· % p.numSets) heq
  have hpos : 0 < p.numSets := zero_lt_of_lt hset
  simp only [mul_comm _ p.numSets, mul_add_div hpos, div_eq_of_lt hset, div_eq_of_lt hset'] at hk
  simp only [mul_comm _ p.numSets, mul_add_mod, mod_eq_of_lt hset, mod_eq_of_lt hset'] at hmod
  rcases hne with h | h
  · exact h hk
  · exact h hmod

/-- The copies that one call can drop. An empty place stays one. -/
def droppable (tag : Nat) : Nat := if tag = noTag then 0 else 1

section Scan
variable (hs : Shadowed p t) (hset : set < p.numSets)
include hs hset

/-- What the scan leaves in each shadow set. -/
theorem shadowTags_dropShadowTag (tag : Nat) :
    (∀ k < numCore, tag ∉ shadowTags p t k set) ∧ dropShadowTag p t set tag (range numCore) = t ∨
    ∃ c < numCore, tag ∈ shadowTags p t c set ∧ ∀ k < numCore, ∀ n < p.numSets,
      shadowTags p (dropShadowTag p t set tag (range numCore)) k n =
        if k = c ∧ n = set then (shadowTags p t c set).erase tag ++ [noTag] else shadowTags p t k n := by
  rcases dropShadowTag_cases t set tag (range numCore) with
    ⟨hnone, hsame⟩ | ⟨before, c, behind, row, hks, -, hmem, hrow, hdrop⟩
  · exact .inl ⟨fun k hk => hnone k (mem_range.mpr hk), hsame⟩
  · have hc : c < numCore := by
      have hin : c ∈ before ++ c :: behind := mem_append_right _ mem_cons_self
      rw [← hks] at hin
      exact mem_range.mp hin
    have hlen : row.length = p.assoc := by
      have htags := congrArg length hrow
      have hpos : 0 < (shadowTags p t c set).length := length_pos_of_mem hmem
      rw [length_map, length_append, length_erase_of_mem hmem, length_singleton,
        Nat.sub_add_cancel hpos, shadowTags, length_map, hs.length_shadowRow hc hset] at htags
      exact htags
    refine .inr ⟨c, hc, hmem, fun k hk n hn => ?_⟩
    rw [hdrop]
    by_cases hat : k = c ∧ n = set
    · obtain ⟨rfl, rfl⟩ := hat
      rw [if_pos ⟨rfl, rfl⟩, shadowTags, shadowRow_setShadowRow (hs.room hc hset) hlen, hrow]
    · rw [if_neg hat, shadowTags, shadowRow_setShadowRow_ne (hs.room hc hset) hlen
        (shadowIndex_ne hset hn (not_and_or.mp hat))]
      rfl

theorem order_dropShadowTag (tag : Nat) {n : Nat} (hk : k < numCore) (hn : n < p.numSets) :
    otherTags tag (shadowTags p (dropShadowTag p t set tag (range numCore)) k n) =
      otherTags tag (shadowTags p t k n) := by
  rcases shadowTags_dropShadowTag hs hset tag with ⟨-, hsame⟩ | ⟨c, -, -, hrows⟩
  · rw [hsame]
  · rw [hrows k hk n hn]
    split
    · rename_i hat
      obtain ⟨rfl, rfl⟩ := hat
      have hmark : otherTags tag [noTag] = [] := by simp [otherTags]
      have herase : otherTags tag ((shadowTags p t k n).erase tag) = otherTags tag (shadowTags p t k n) := by
        unfold otherTags
        rw [← erase_filter, erase_of_not_mem]
        simp
      calc otherTags tag ((shadowTags p t k n).erase tag ++ [noTag])
          = otherTags tag ((shadowTags p t k n).erase tag) ++ otherTags tag [noTag] := filter_append ..
        _ = otherTags tag (shadowTags p t k n) := by rw [hmark, append_nil, herase]
    · rfl

/-- One copy of the tag is gone, if there was one. -/
theorem count_coreTags (tag : Nat) : (coreTags p (dropShadowTag p t set tag (range numCore)) set).count tag =
      (coreTags p t set).count tag - droppable tag := by
  rcases shadowTags_dropShadowTag hs hset tag with ⟨hnone, hsame⟩ | ⟨c, hc, hmem, hrows⟩
  · have hzero : (coreTags p t set).count tag = 0 := by
      apply count_eq_zero_of_not_mem
      intro h
      obtain ⟨k, hk, hin⟩ := mem_flatMap.mp h
      exact hnone k (mem_range.mp hk) hin
    rw [hsame, hzero, Nat.zero_sub]
  · -- the set of core `c` apart from those of the others
    have hsplit (u : Tags BrpState) : (coreTags p u set).count tag = (shadowTags p u c set).count tag +
        (((range numCore).erase c).flatMap fun k => shadowTags p u k set).count tag := by
      have hperm := (perm_cons_erase (mem_range.mpr hc)).flatMap_right fun k => shadowTags p u k set
      rw [coreTags, hperm.count_eq, flatMap_cons, count_append]
    have hothers : ((range numCore).erase c).flatMap
          (fun k => shadowTags p (dropShadowTag p t set tag (range numCore)) k set) =
        ((range numCore).erase c).flatMap fun k => shadowTags p t k set := by
      apply flatMap_congr
      intro k hk
      obtain ⟨hne, hlt⟩ := (nodup_range.mem_erase_iff).mp hk
      rw [hrows k (mem_range.mp hlt) set hset, if_neg fun h => hne h.1]
    have hpos : 0 < (shadowTags p t c set).count tag := count_pos_iff.mpr hmem
    rw [hsplit, hsplit t, hothers, hrows c hc set hset, if_pos ⟨rfl, rfl⟩, count_append, count_erase_self]
    unfold droppable
    by_cases htag : tag = noTag
    · rw [if_pos htag, htag, count_singleton_self, ← htag, Nat.sub_add_cancel hpos, Nat.sub_zero]
    · have habsent : tag ∉ [noTag] := by simpa using htag
      rw [if_neg htag, count_eq_zero_of_not_mem habsent, add_zero]
      omega

end Scan

theorem gone_iff (u : Tags BrpState) (set tag : Nat) :
    (∀ k < numCore, tag ∉ shadowTags p u k set) ↔ (coreTags p u set).count tag = 0 := by
  rw [count_eq_zero]
  constructor
  · intro h hmem
    obtain ⟨k, hk, hin⟩ := mem_flatMap.mp hmem
    exact h k (mem_range.mp hk) hin
  · intro h k hk hin
    exact h (mem_flatMap.mpr ⟨k, mem_range.mpr hk, hin⟩)

/-! ## Every state has its shadow sets -/

/-- The shadow sets are untouched, and no set is lost. -/
def SameShadow (t t' : Tags BrpState) : Prop := t'.recordBlks = t.recordBlks ∧ t'.sets.length = t.sets.length

variable {u : Tags BrpState}

theorem SameShadow.trans (h : SameShadow t u) (h' : SameShadow u t') : SameShadow t t' :=
  ⟨h'.1.trans h.1, h'.2.trans h.2⟩

theorem Shadowed.same (hs : Shadowed p t) (h : SameShadow t t') : Shadowed p t' :=
  ⟨h.2.trans hs.sets, (congrArg length h.1).trans hs.shadow⟩

theorem Shadowed.withPolicy (hs : Shadowed p t) (x : BrpState) : Shadowed p { t with policy := x } :=
  ⟨hs.sets, hs.shadow⟩

theorem reorder_sameShadow {n : Nat} {f : List Nat → Except Stop (List Nat)} (h : t.reorder n f = .ok t') :
    SameShadow t t' := by
  obtain ⟨s, -, h⟩ := of_bind h
  obtain ⟨l, -, h⟩ := of_bind h
  cases h
  exact ⟨rfl, length_set⟩

theorem evict_sameShadow (h : t.evict p i = .ok t') : SameShadow t t' := by
  unfold Tags.evict at h
  simp only at h
  split at h
  · obtain ⟨_, -, h⟩ := of_bind h
    cases h
    exact ⟨rfl, length_modify ..⟩
  · cases h
    exact ⟨rfl, rfl⟩

variable {pkt : Packet}

theorem insertBlock_sameShadow (h : t.insertBlock p pkt i = .ok t') : SameShadow t t' := by
  obtain ⟨u, hevict, h⟩ := of_bind h
  obtain ⟨_, -, h⟩ := of_bind h
  cases h
  have hstart : SameShadow t (if (t.blk i).isTouched then t else { t with tagsInUse := t.tagsInUse + 1 }) := by
    split <;> exact ⟨rfl, rfl⟩
  have hend := hstart.trans (evict_sameShadow hevict)
  exact ⟨hend.1, (length_modify ..).trans hend.2⟩

theorem invalidate_sameShadow (h : t.invalidate p i = .ok t') : SameShadow t t' := by
  obtain ⟨-, -, rfl⟩ := Tags.invalidate_eq_ok.mp h
  exact ⟨rfl, length_modify ..⟩

theorem Shadowed.setShadowRow (hs : Shadowed p t) (hk : k < numCore) (hset : set < p.numSets)
    (hrow : row.length = p.assoc) : Shadowed p (setShadowRow p t k set row) := by
  have hroom := hs.room hk hset
  unfold Room at hroom
  refine ⟨hs.sets, ?_⟩
  simp only [Cache.setShadowRow, length_append, length_take, length_drop]
  rw [← hs.shadow]
  omega

variable {addr : Nat} {cmd : MemCmd} {portId : Int}

theorem recordBrp_shadowed (hs : Shadowed p t) (h : recordBrp p t addr cmd portId = .ok t') : Shadowed p t' := by
  obtain ⟨k, hk, h⟩ := of_bind h
  have hrow := hs.length_shadowRow (portCore_lt hk) (p.extractSet_lt addr)
  simp only at h
  split at h
  · cases h
    apply (hs.withPolicy _).setShadowRow (portCore_lt hk) (p.extractSet_lt addr)
    rw [length_moveTagHead, length_modify, hrow]
  · cases h
    apply hs.setShadowRow (portCore_lt hk) (p.extractSet_lt addr)
    rw [length_moveTagHead, length_modify, hrow]

theorem dropShadowTag_shadowed (hs : Shadowed p t) (hset : set < p.numSets) (tag : Nat) (ks : List Nat)
    (hks : ∀ k ∈ ks, k < numCore) : Shadowed p (dropShadowTag p t set tag ks) := by
  induction ks with
  | nil => exact hs
  | cons k ks ih =>
    obtain ⟨hk, hrest⟩ := forall_mem_cons.mp hks
    simp only [dropShadowTag]
    split
    · apply hs.setShadowRow hk hset
      rw [length_moveTagTail, length_modify, hs.length_shadowRow hk hset]
    · exact ih hrest

theorem recordSet_shadowed {maxRatioIndex : Nat} (hs : Shadowed p t) (hset : set < p.numSets) :
    Shadowed p (recordSet p maxRatioIndex t set) := by
  have hclear (ks : List Nat) (hks : ∀ k ∈ ks, k < numCore) {t : Tags BrpState} (hs : Shadowed p t) :
      Shadowed p (ks.foldl (fun t k => Cache.setShadowRow p t k set
        ((shadowRow p t k set).map fun b => { b with asid := 0, asidDirty := 0 })) t) := by
    induction ks generalizing t with
    | nil => exact hs
    | cons k ks ih =>
      obtain ⟨hk, hrest⟩ := forall_mem_cons.mp hks
      apply ih hrest
      apply hs.setShadowRow hk hset
      rw [length_map, hs.length_shadowRow hk hset]
  exact (hclear (range numCore) (fun k hk => mem_range.mp hk) hs).withPolicy _

theorem brpSetRecord_shadowed (hs : Shadowed p t) (lt : Nat → Nat → Bool) : Shadowed p (brpSetRecord p t lt) := by
  have hsets (maxRatioIndex : Nat) (sets : List Nat) (hin : ∀ n ∈ sets, n < p.numSets) {t : Tags BrpState}
      (hs : Shadowed p t) : Shadowed p (sets.foldl (recordSet p maxRatioIndex) t) := by
    induction sets generalizing t with
    | nil => exact hs
    | cons n sets ih =>
      obtain ⟨hn, hrest⟩ := forall_mem_cons.mp hin
      exact ih hrest (recordSet_shadowed hs hn)
  exact (hsets _ (range p.numSets) (fun n hn => mem_range.mp hn) (hs.withPolicy _)).withPolicy _

theorem brpPlace_sameShadow (h : brpPlace p t pkt i = .ok t') : SameShadow t t' := by
  unfold brpPlace at h
  split at h
  · obtain ⟨k, -, h⟩ := of_bind h
    obtain ⟨c, -, h⟩ := of_bind h
    exact reorder_sameShadow h
  · exact reorder_sameShadow h

theorem brpAccessBlock_shadowed {isSecure : Bool} {b : Option Nat}
    (hs : Shadowed p t) (h : brpAccessBlock p t addr isSecure cmd portId = .ok (t', b)) : Shadowed p t' := by
  obtain ⟨u, hrecord, h⟩ := of_bind h
  obtain ⟨k, -, h⟩ := of_bind h
  have hu := recordBrp_shadowed hs hrecord
  split at h
  · cases h
    exact hu.withPolicy _
  · obtain ⟨v, hmove, h⟩ := of_bind h
    cases h
    have hsame := reorder_sameShadow hmove
    exact ((hu.withPolicy _).same hsame).withPolicy _

theorem brp_invalidate_cases (h : (brp p).invalidate t i = .ok t') :
    ∃ u, SameShadow t u ∧ t' = dropShadowTag p u (t.blk i).set (t.blk i).tag (range numCore) := by
  obtain ⟨u, htail, h⟩ := of_bind h
  cases h
  obtain ⟨v, hbase, hmove⟩ := of_bind htail
  have hblk : u.blk i = v.blk i := (moveBlk_reordered (fun _ _ => moveToTail_perm) hmove).blk i
  have hkept : (v.blk i).set = (t.blk i).set ∧ (v.blk i).tag = (t.blk i).tag := by
    obtain ⟨-, -, rfl⟩ := Tags.invalidate_eq_ok.mp hbase
    by_cases hlt : i < t.blocks.length
    · rw [Tags.blk_setBlk_self (by exact hlt)]
      exact ⟨rfl, rfl⟩
    · rw [Tags.setBlk, set_eq_of_length_le (by exact Nat.le_of_not_lt hlt)]
      exact ⟨rfl, rfl⟩
  rw [hblk, hkept.1, hkept.2]
  exact ⟨u, (invalidate_sameShadow hbase).trans (reorder_sameShadow hmove), rfl⟩

theorem tagStep_shadowed {op : TagOp} (hs : Shadowed p t) (hp : Placed p t)
    (h : tagStep p (brp p) t op = .ok t') : Shadowed p t' := by
  obtain ⟨⟨u, used⟩, h, hu⟩ := of_bind h
  cases hu
  cases op with
  | access addr isSecure cmd portId => exact brpAccessBlock_shadowed hs h
  | fill pkt rand =>
    obtain ⟨⟨t₁, i⟩, hv, h⟩ := of_bind h
    obtain ⟨t₂, hins, h⟩ := of_bind h
    cases h
    obtain ⟨rfl, -⟩ := lastWay_eq_ok.mp hv
    obtain ⟨u, hbase, hplace⟩ := of_bind hins
    have hsame := (insertBlock_sameShadow hbase).trans (brpPlace_sameShadow hplace)
    exact hs.same hsame
  | invalidate i =>
    obtain ⟨_, hlt, h⟩ := of_bind h
    obtain ⟨t₁, hinv, h⟩ := of_bind h
    cases h
    obtain ⟨u, hsame, rfl⟩ := brp_invalidate_cases hinv
    have hset : (t.blk i).set < p.numSets := by
      have hi : i < p.numBlocks := by simpa using hlt
      rw [hp.set i hi]
      exact Nat.div_lt_of_lt_mul (by rwa [Nat.mul_comm])
    have hdropped := dropShadowTag_shadowed (hs.same hsame) hset (t.blk i).tag (range numCore)
      fun k hk => mem_range.mp hk
    exact ⟨hdropped.sets, hdropped.shadow⟩
  | adapt a =>
    obtain ⟨t₁, ha, h⟩ := of_bind h
    cases h
    cases a with
    | setWarmUp =>
      cases ha
      exact ⟨hs.sets, hs.shadow⟩
    | updateSomething lt =>
      cases ha
      exact hs
    | setRecord lt =>
      cases ha
      exact brpSetRecord_shadowed hs lt

theorem shadowed_of_run {ops : List TagOp} (hr : Exec (StepOf (tagStep p (brp p))) (brp p).new ops t) : Shadowed p t := by
  have hboth : Placed p t ∧ Shadowed p t := by
    apply hr.invariant
    · exact ⟨Placed.new (brp_lawful p), by simp [brp, Tags.new], length_replicate⟩
    · intro t op t' h hstep
      obtain ⟨⟨u, used⟩, hop, hu⟩ := of_bind hstep
      cases hu
      exact ⟨tagOp_placed (brp_lawful p) h.1 hop, tagStep_shadowed h.2 h.1 hstep⟩
  exact hboth.2

/-! ## The shadow sets without the tag -/

theorem shadowTags_same (h : SameShadow t u) (k n : Nat) : shadowTags p u k n = shadowTags p t k n := by
  rw [shadowTags, shadowTags, shadowRow, shadowRow, h.1]

/-- A block is invalidated: the shadow sets are rid of its tag when the cores have one copy of it at most, and the
  others stay in order. -/
theorem shadow_tags_dropped_iff (hs : Shadowed p t) (hc : CanInvalidate p t i) :
    ∃ t', (brp p).invalidate t i = .ok t' ∧
      (ShadowTagsDropped p t t' (t.blk i).set (t.blk i).tag ↔
        (coreTags p t (t.blk i).set).count (t.blk i).tag ≤ droppable (t.blk i).tag) := by
  obtain ⟨t', hinv⟩ := (brp_lawful p).invalidate_ok hc
  obtain ⟨u, hsame, rfl⟩ := brp_invalidate_cases hinv
  have hset : (t.blk i).set < p.numSets := by
    rw [← hs.sets]
    exact hc.set_lt
  have hu := hs.same hsame
  have htags : coreTags p u (t.blk i).set = coreTags p t (t.blk i).set :=
    flatMap_congr fun k _ => shadowTags_same hsame k _
  have hcount := count_coreTags hu hset (t.blk i).tag
  rw [htags] at hcount
  refine ⟨_, hinv, fun h => ?_, fun h => ⟨?_, fun k hk n hn => ?_⟩⟩
  · have hgone := (gone_iff _ _ _).mp h.gone
    omega
  · apply (gone_iff _ _ _).mpr
    omega
  · rw [order_dropShadowTag hu hset _ hk hn, shadowTags_same hsame]

def brpOneMaster : TagParams := { brpTwoWays with maxMasters := 1, maxMasters_lt := TagParams.one_master }

def fillOfMaster : Packet := { cmd := .readResp, req := { paddr := 0, size := 64, masterId := 0 }, addr := 0, size := 64 }

/-- A line that one core has touched is filled and then touched by the cores of `ports`. -/
def touchedBy (ports : List Int) : List TagOp :=
  [.access 0 false .readReq 0, .fill fillOfMaster 0] ++ ports.map fun portId => .access 0 false .readReq portId

theorem shadow_tags_dropped_one_core :
    ∃ t t', Exec (StepOf (tagStep brpOneMaster (brp brpOneMaster))) (brp brpOneMaster).new (touchedBy [0]) t ∧
      (brp brpOneMaster).invalidate t 1 = .ok t' ∧ ShadowTagsDropped brpOneMaster t t' 0 0 := by
  refine Exec.ends_with_two (p := fun t =>
      decide (1 < t.blocks.length ∧ (t.blk 1).valid = true ∧ (t.blk 1).srcMasterId < brpOneMaster.maxMasters ∧
        (t.blk 1).set = 0 ∧ (t.blk 1).tag = 0 ∧ 0 < t.sets.length ∧ 1 ∈ (t.setAt 0).blks ∧
        (coreTags brpOneMaster t 0).count 0 ≤ droppable 0)) (by decide) fun t hr ht => ?_
  obtain ⟨hlt, hvalid, hmaster, hset, htag, hsets, hmem, hcount⟩ := of_decide_eq_true ht
  have hc : CanInvalidate brpOneMaster t 1 := ⟨hlt, hvalid, hmaster, by rwa [hset], by rwa [hset]⟩
  obtain ⟨t', hinv, hiff⟩ := shadow_tags_dropped_iff (shadowed_of_run hr) hc
  rw [hset, htag] at hiff
  exact ⟨t', hinv, hiff.mpr hcount⟩

/-- Two cores have touched the line: the second one keeps the tag. -/
theorem second_core_keeps_tag :
    ∃ t t', Exec (StepOf (tagStep brpOneMaster (brp brpOneMaster))) (brp brpOneMaster).new (touchedBy [1]) t ∧
      (t.blk 1).valid = true ∧ (brp brpOneMaster).invalidate t 1 = .ok t' ∧
      (t.blk 1).tag ∈ shadowTags brpOneMaster t' 1 (t.blk 1).set := by
  refine Exec.ends_with_two (p := fun t => (t.blk 1).valid && match (brp brpOneMaster).invalidate t 1 with
        | .ok t' => decide ((t.blk 1).tag ∈ shadowTags brpOneMaster t' 1 (t.blk 1).set)
        | .error _ => false) (by decide) fun t hr ht => ?_
  obtain ⟨hvalid, ht⟩ := Bool.and_eq_true_iff.mp ht
  split at ht
  · rename_i t' hinv
    exact ⟨t', hvalid, hinv, of_decide_eq_true ht⟩
  · cases ht

end Gem5.Cache
