import Gem5Nvmain.Cache.BrpSampling
import Gem5Nvmain.Lib.LruStack

/- The shadow tags of BRP (`BRP::record_brp`, `BRP::MoveTagHead`).

  The tags of a shadow set, without those that are still `noTag`, are what an LRU cache of `assoc` places holds
  (`Stacked`). By inclusion a call that finds its tag at place `j` or before is one that an LRU cache of `j + 1`
  places would hit. -/
namespace Gem5.Cache
open Lib Tags List

variable {p : TagParams} {row : List CacheBlk} {l : List Nat} {tag i : Nat}

/-! ## What moves -/

theorem shadowAt_eq {j : Nat} (h : j < row.length) : shadowAt row j = row[j] := by
  rw [shadowAt, getElem?_eq_getElem h]
  rfl

/-- The tag goes to the front. -/
theorem tags_moveTagHead (h : i < row.length) :
    (moveTagHead row i).map (·.tag) = row[i].tag :: (row.map (·.tag)).eraseIdx i := by
  have hlen : (moveTagHead row i).length = row.length := length_mapIdx ..
  refine ext_getElem ?_ fun j hj hj' => ?_
  · rw [length_map, hlen, length_cons, length_eraseIdx_of_lt (by simpa using h), length_map]
    omega
  · simp only [moveTagHead, getElem_map, getElem_mapIdx]
    cases j with
    | zero =>
      exact (congrArg CacheBlk.tag (shadowAt_eq h) : (shadowAt row i).tag = row[i].tag)
    | succ j =>
      rw [if_neg (Nat.succ_ne_zero j), getElem_cons_succ, getElem_eraseIdx]
      by_cases hji : j + 1 ≤ i
      · rw [if_pos hji, dif_pos (by omega), getElem_map]
        exact (congrArg CacheBlk.tag (shadowAt_eq (by omega)) : (shadowAt row j).tag = row[j].tag)
      · rw [if_neg hji, dif_neg (by omega), getElem_map]

theorem tags_modify {f : CacheBlk → CacheBlk} (hf : ∀ b, (f b).tag = b.tag) (i : Nat) :
    (row.modify i f).map (·.tag) = row.map (·.tag) := by
  refine ext_getElem (by simp) fun j hj hj' => ?_
  rw [getElem_map, getElem_map, getElem_modify]
  split
  · exact hf _
  · rfl

theorem creditHit_tag (addr : Nat) (cmd : Mem.MemCmd) (b : CacheBlk) : (creditHit p addr cmd b).tag = b.tag := by
  unfold creditHit
  split <;> split <;> rfl

/-! ## The stack -/

/-- The tags are those of `l`, and then `noTag`. -/
structure Stacked (assoc : Nat) (row : List CacheBlk) (l : List Nat) : Prop where
  tags : row.map (·.tag) = l ++ replicate (assoc - l.length) noTag
  length : l.length ≤ assoc
  marker : noTag ∉ l
  nodup : l.Nodup

namespace Stacked
variable {assoc : Nat}

theorem length_row (h : Stacked assoc row l) : row.length = assoc := by
  have hlen := congrArg List.length h.tags
  rw [length_map, length_append, length_replicate] at hlen
  have hle := h.length
  omega

/-- A tag is searched for in the stack alone. -/
theorem search (h : Stacked assoc row l) (ht : tag ≠ noTag) :
    (row.findIdx? fun b => b.tag == tag) = if tag ∈ l then some (l.idxOf tag) else none := by
  have hmap : (row.map (·.tag)).findIdx? (· == tag) = row.findIdx? fun b => b.tag == tag := findIdx?_map
  rw [← hmap, h.tags]
  have hnone : ∀ n, (replicate n noTag).findIdx? (· == tag) = none := by
    intro n
    refine findIdx?_eq_none_iff.mpr fun x hx => ?_
    rw [eq_of_mem_replicate hx]
    simpa using Ne.symm ht
  rw [findIdx?_append, hnone]
  by_cases hmem : tag ∈ l
  · have hfound : l.findIdx? (· == tag) = some (l.idxOf tag) :=
      findIdx?_eq_some_iff_findIdx_eq.mpr ⟨idxOf_lt_length_of_mem hmem, rfl⟩
    rw [if_pos hmem, hfound]
    rfl
  · have habsent : l.findIdx? (· == tag) = none := by
      refine findIdx?_eq_none_iff.mpr fun x hx => ?_
      rw [beq_eq_false_iff_ne]
      rintro rfl
      exact hmem hx
    rw [if_neg hmem, habsent]
    rfl

/-- A tag that is found goes to the front of the stack. -/
theorem hit (h : Stacked assoc row l) (hmem : tag ∈ l) {f : CacheBlk → CacheBlk} (hf : ∀ b, (f b).tag = b.tag) :
    Stacked assoc (moveTagHead (row.modify (l.idxOf tag) f) (l.idxOf tag)) (Lru.step assoc l tag) := by
  have hlt := idxOf_lt_length_of_mem hmem
  have hrow : l.idxOf tag < (row.modify (l.idxOf tag) f).length := by
    rw [length_modify, h.length_row]
    exact hlt.trans_le h.length
  have hold : (row.map (·.tag))[l.idxOf tag]? = some tag := by
    rw [h.tags, getElem?_append_left hlt, getElem?_eq_getElem hlt, getElem_idxOf]
  have hfound : (row.modify (l.idxOf tag) f)[l.idxOf tag].tag = tag := by
    rw [getElem?_map, getElem?_eq_getElem (by simpa using hrow)] at hold
    rw [getElem_modify, if_pos rfl, hf]
    exact Option.some.inj hold
  refine ⟨?_, Lru.length_step h.length, fun hm => ?_, Lru.nodup_step h.nodup⟩
  · rw [tags_moveTagHead hrow, tags_modify hf, hfound, h.tags, eraseIdx_append_of_lt_length hlt, Lru.step_hit hmem,
      length_cons, length_erase_of_mem hmem, Nat.sub_add_cancel (length_pos_of_mem hmem),
      eraseIdx_idxOf_eq_erase, cons_append]
  · rcases Lru.subset_step _ hm with rfl | hm
    · exact h.marker hmem
    · exact h.marker hm

/-- A tag that is not found replaces the last one and goes to the front. -/
theorem miss (h : Stacked assoc row l) (hassoc : 0 < assoc) (hmem : tag ∉ l) (ht : tag ≠ noTag) (valid : Bool) :
    Stacked assoc (moveTagHead (row.modify (assoc - 1) fun b => { b with tag := tag, valid := valid }) (assoc - 1))
      (Lru.step assoc l tag) := by
  have hlast : assoc - 1 < row.length := by
    rw [h.length_row]
    omega
  have hrow : assoc - 1 < (row.modify (assoc - 1) fun b => { b with tag := tag, valid := valid }).length := by
    rw [length_modify]
    exact hlast
  have htag : (row.modify (assoc - 1) fun b => { b with tag := tag, valid := valid })[assoc - 1].tag = tag := by
    rw [getElem_modify, if_pos rfl]
  -- the last tag is dropped
  have hrest : ((row.modify (assoc - 1) fun b => { b with tag := tag, valid := valid }).map (·.tag)).eraseIdx (assoc - 1) =
      (row.map (·.tag)).take (assoc - 1) := by
    have hlen := h.length_row
    rw [eraseIdx_eq_take_drop_succ, drop_eq_nil_of_le (by rw [length_map, length_modify]; omega),
      append_nil, ← map_take, ← map_take, take_modify,
      modify_eq_self (length_take_le _ _)]
  have hstep : Lru.step assoc l tag = tag :: l.take (assoc - 1) := by
    obtain ⟨n, rfl⟩ : ∃ n, assoc = n + 1 := ⟨assoc - 1, by omega⟩
    exact Lru.step_miss hmem
  refine ⟨?_, Lru.length_step h.length, fun hm => ?_, Lru.nodup_step h.nodup⟩
  · rw [tags_moveTagHead hrow, htag, hrest, h.tags, hstep, take_append, take_replicate, length_cons,
      length_take, cons_append]
    congr 3
    omega
  · rcases Lru.subset_step _ hm with rfl | hm
    · exact ht rfl
    · exact h.marker hm

end Stacked

/-! ## Calls by one core to one set -/

section Calls
variable {t t' : Tags BrpState} {k set addr : Nat} {cmd : Mem.MemCmd} {portId : Int}

/-- The shadow blocks reach to the end of the set. -/
def Room (p : TagParams) (t : Tags BrpState) (k set : Nat) : Prop :=
  (k * p.numSets + set) * p.assoc + p.assoc ≤ t.recordBlks.length

theorem length_moveTagHead : (moveTagHead row i).length = row.length := length_mapIdx ..

theorem shadowRow_setShadowRow (h : Room p t k set) (hrow : row.length = p.assoc) :
    shadowRow p (setShadowRow p t k set row) k set = row := by
  have hstart : (t.recordBlks.take ((k * p.numSets + set) * p.assoc)).length = (k * p.numSets + set) * p.assoc := by
    unfold Room at h
    rw [length_take]
    omega
  simp only [shadowRow, setShadowRow, append_assoc]
  rw [drop_left' hstart, take_left' hrow]

theorem room_setShadowRow (h : Room p t k set) (hrow : row.length = p.assoc) : Room p (setShadowRow p t k set row) k set := by
  unfold Room at h ⊢
  simp only [setShadowRow, length_append, length_take]
  omega

theorem recordBrp_stacked (hk : portCore portId = .ok k) (hset : p.extractSet addr = set) (hroom : Room p t k set)
    (ht : p.extractTag addr ≠ noTag) (h : Stacked p.assoc (shadowRow p t k set) l)
    (hrec : recordBrp p t addr cmd portId = .ok t') :
    Room p t' k set ∧ Stacked p.assoc (shadowRow p t' k set) (Lru.step p.assoc l (p.extractTag addr)) := by
  obtain ⟨k', hk', hrec⟩ := of_bind hrec
  obtain rfl : k = k' := Except.ok.inj (hk.symm.trans hk')
  simp only [hset] at hrec
  rw [h.search ht] at hrec
  by_cases hmem : p.extractTag addr ∈ l
  · rw [if_pos hmem] at hrec
    cases hrec
    have hrow : (moveTagHead ((shadowRow p t k set).modify (l.idxOf (p.extractTag addr)) (creditHit p addr cmd))
        (l.idxOf (p.extractTag addr))).length = p.assoc := by
      rw [length_moveTagHead, length_modify, h.length_row]
    have hroom' : Room p { t with policy := { t.policy with hit := t.policy.hit + 1 } } k set := hroom
    refine ⟨room_setShadowRow hroom' hrow, ?_⟩
    rw [shadowRow_setShadowRow hroom' hrow]
    exact h.hit hmem (creditHit_tag addr cmd)
  · rw [if_neg hmem] at hrec
    cases hrec
    have hrow : (moveTagHead ((shadowRow p t k set).modify (p.assoc - 1) fun b =>
        { b with tag := p.extractTag addr, valid := decide (cmd = .writeback) }) (p.assoc - 1)).length = p.assoc := by
      rw [length_moveTagHead, length_modify, h.length_row]
    refine ⟨room_setShadowRow hroom hrow, ?_⟩
    rw [shadowRow_setShadowRow hroom hrow]
    exact h.miss p.assoc_pos hmem ht _

/-- The tag store, and the places at which the calls so far hit. -/
structure ShadowRun where
  tags : Tags BrpState
  places : List (Option Nat)

/-- The place at which a call of core `k` hits. -/
def shadowPlace (p : TagParams) (t : Tags BrpState) (k addr : Nat) : Option Nat :=
  (shadowRow p t k (p.extractSet addr)).findIdx? fun b => b.tag == p.extractTag addr

def ShadowRun.step (p : TagParams) (portId : Int) (s : ShadowRun) (call : Nat × Mem.MemCmd) : Except Stop ShadowRun := do
  let k ← portCore portId
  let t ← recordBrp p s.tags call.1 call.2 portId
  return ⟨t, s.places ++ [shadowPlace p s.tags k call.1]⟩

/-- The hits at place `j` or before. -/
def hitsWithin (j : Nat) (places : List (Option Nat)) : Nat := places.countP fun q => q.any (· ≤ j)

theorem hitsWithin_place {j : Nat} (h : Stacked p.assoc (shadowRow p t k (p.extractSet addr)) l)
    (ht : p.extractTag addr ≠ noTag) :
    hitsWithin j [shadowPlace p t k addr] = if p.extractTag addr ∈ l.take (j + 1) then 1 else 0 := by
  unfold hitsWithin shadowPlace
  rw [h.search ht]
  by_cases hmem : p.extractTag addr ∈ l
  · simp only [if_pos hmem, mem_take_iff_idxOf_lt hmem, Nat.lt_succ_iff]
    simp
  · have hfirst : p.extractTag addr ∉ l.take (j + 1) := fun h => hmem (mem_of_mem_take h)
    rw [if_neg hmem, if_neg hfirst]
    rfl

theorem extractTag_ne_noTag (h : addr < 2 ^ 64) : p.extractTag addr ≠ noTag := by
  have hshift := p.setShift_ge
  have hle : p.extractTag addr ≤ addr / 2 := by
    unfold TagParams.extractTag TagParams.tagShift
    rw [Nat.shiftRight_eq_div_pow]
    apply Nat.div_le_div_left _ (by decide)
    calc 2 = 2 ^ 1 := rfl
      _ ≤ 2 ^ (p.setShift + p.setBits) := Nat.pow_le_pow_right (by decide) (by omega)
  unfold noTag
  omega

theorem shadowRow_fits (hk : k < numCore) (hset : set < p.numSets) :
    (k * p.numSets + set) * p.assoc + p.assoc ≤ numCore * p.numSets * p.assoc := by
  calc (k * p.numSets + set) * p.assoc + p.assoc = (k * p.numSets + set + 1) * p.assoc := (Nat.succ_mul _ _).symm
    _ ≤ (k * p.numSets + p.numSets) * p.assoc := Nat.mul_le_mul_right _ (Nat.add_le_add_left hset _)
    _ = (k + 1) * p.numSets * p.assoc := by rw [Nat.succ_mul]
    _ ≤ numCore * p.numSets * p.assoc := Nat.mul_le_mul_right _ (Nat.mul_le_mul_right _ hk)

theorem shadowRow_new (hk : k < numCore) (hset : set < p.numSets) :
    Room p (brp p).new k set ∧ Stacked p.assoc (shadowRow p (brp p).new k set) [] := by
  have hfits := shadowRow_fits hk hset
  constructor
  · unfold Room
    rw [show (brp p).new.recordBlks.length = numCore * p.numSets * p.assoc from length_replicate]
    exact hfits
  · refine ⟨?_, Nat.zero_le _, not_mem_nil, nodup_nil⟩
    simp only [shadowRow, brp, drop_replicate, take_replicate, map_replicate, length_nil, Nat.sub_zero]
    congr 1
    omega

/-- The stack and the hits after the calls in `calls`. -/
structure FollowsLru (p : TagParams) (k set : Nat) (calls : List (Nat × Mem.MemCmd)) (s : ShadowRun) : Prop where
  room : Room p s.tags k set
  stacked : Stacked p.assoc (shadowRow p s.tags k set) (Lru.run p.assoc (calls.map fun c => p.extractTag c.1))
  hits : ∀ j < p.assoc, hitsWithin j s.places = Lru.hits (j + 1) [] (calls.map fun c => p.extractTag c.1)

theorem FollowsLru.step {calls : List (Nat × Mem.MemCmd)} {call : Nat × Mem.MemCmd} {s s' : ShadowRun}
    (hk : portCore portId = .ok k) (h : FollowsLru p k set calls s) (haddr : call.1 < 2 ^ 64)
    (hset : p.extractSet call.1 = set) (hs : s.step p portId call = .ok s') :
    FollowsLru p k set (calls ++ [call]) s' := by
  obtain ⟨k', hk', hs⟩ := of_bind hs
  obtain rfl : k = k' := Except.ok.inj (hk.symm.trans hk')
  obtain ⟨t, hrec, hs⟩ := of_bind hs
  cases hs
  have htag := extractTag_ne_noTag (p := p) haddr
  obtain ⟨hroom, hstacked⟩ := recordBrp_stacked hk hset h.room htag h.stacked hrec
  refine ⟨hroom, ?_, fun j hj => ?_⟩
  · rw [map_append, map_singleton, Lru.run_snoc]
    exact hstacked
  · have hplace : hitsWithin j [shadowPlace p s.tags k call.1] =
        if p.extractTag call.1 ∈ Lru.run (j + 1) (calls.map fun c => p.extractTag c.1) then 1 else 0 := by
      rw [← Lru.take_run hj]
      apply hitsWithin_place _ htag
      rw [hset]
      exact h.stacked
    calc hitsWithin j (s.places ++ [shadowPlace p s.tags k call.1])
        = hitsWithin j s.places + hitsWithin j [shadowPlace p s.tags k call.1] := countP_append
      _ = _ := by rw [h.hits j hj, hplace, map_append, map_singleton, Lru.hits_snoc]; rfl

theorem run_ok {σ ε : Type} {f : σ → ε → Except Stop σ} (hf : ∀ s e, ∃ s', f s e = .ok s') (l : List ε) (s : σ) :
    ∃ s', run f s l = .ok s' := by
  induction l generalizing s with
  | nil => exact ⟨s, rfl⟩
  | cons e l ih =>
    obtain ⟨u, hu⟩ := hf s e
    obtain ⟨s', hs'⟩ := ih u
    exact ⟨s', bind_eq_ok.mpr ⟨u, hu, hs'⟩⟩

/-- The calls of a core to a set from the start: those that hit at place `j` or before are as many as the hits of an
  LRU cache of `j + 1` places, and no tag is twice in the set. -/
theorem shadow_follows_lru (hk : k < numCore) (hset : set < p.numSets) (calls : List (Nat × Mem.MemCmd))
    (hcalls : ∀ c ∈ calls, c.1 < 2 ^ 64 ∧ p.extractSet c.1 = set) :
    ∃ s, run (ShadowRun.step p (k : Int)) ⟨(brp p).new, []⟩ calls = .ok s ∧
      (∀ j < p.assoc, hitsWithin j s.places = Lru.hits (j + 1) [] (calls.map fun c => p.extractTag c.1)) ∧
      (((shadowRow p s.tags k set).map (·.tag)).filter (· ≠ noTag)).Nodup := by
  have hcore : portCore (k : Int) = .ok k := if_pos ⟨Int.natCast_nonneg k, Int.ofNat_lt.mpr hk⟩
  have hok : ∀ s c, ∃ s', ShadowRun.step p (k : Int) s c = .ok s' := by
    intro s c
    obtain ⟨t, ht⟩ := recordBrp_ok s.tags c.1 c.2 hcore
    exact ⟨_, bind_eq_ok.mpr ⟨k, hcore, bind_eq_ok.mpr ⟨t, ht, rfl⟩⟩⟩
  obtain ⟨s, hs⟩ := run_ok hok calls ⟨(brp p).new, []⟩
  have hfollows : (∀ c ∈ calls, c.1 < 2 ^ 64 ∧ p.extractSet c.1 = set) → FollowsLru p k set calls s := by
    apply (Exec.of_run hs).history_invariant
    · intro _
      obtain ⟨hroom, hstacked⟩ := shadowRow_new hk hset
      exact ⟨hroom, hstacked, fun j _ => rfl⟩
    · intro h t c u ih hu hh
      obtain ⟨haddr, hsame⟩ := hh c (mem_append_right _ (mem_singleton_self c))
      exact (ih fun c' hc' => hh c' (mem_append_left _ hc')).step hcore haddr hsame hu
  have hstate := hfollows hcalls
  refine ⟨s, hs, hstate.hits, ?_⟩
  have hmarker : ∀ n, (replicate n noTag).filter (· ≠ noTag) = [] := by
    intro n
    refine filter_eq_nil_iff.mpr fun x hx => ?_
    rw [eq_of_mem_replicate hx]
    simp
  rw [hstate.stacked.tags, filter_append, hmarker, append_nil]
  exact hstate.stacked.nodup.filter _

/-- The last call finds its tag at the second place. -/
theorem shadow_follows_lru_again :
    ∃ s, run (ShadowRun.step brpTwoWays 0) ⟨(brp brpTwoWays).new, []⟩ [(0, .readReq), (64, .writeback), (0, .readReq)] = .ok s ∧
      hitsWithin 0 s.places = 0 ∧ hitsWithin 1 s.places = 1 := by
  obtain ⟨s, hs, hhits, -⟩ := shadow_follows_lru (by decide : 0 < numCore) (by decide : 0 < brpTwoWays.numSets)
    [(0, .readReq), (64, .writeback), (0, .readReq)] (by decide)
  exact ⟨s, hs, hhits 0 (by decide), hhits 1 (by decide)⟩

end Calls

end Gem5.Cache
