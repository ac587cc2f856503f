import Gem5Nvmain.Cache.Visitors

/- Page invalidation in a data cache (`Cache::pageInvalidate`).

  `pageInvalidate` looks up 64 addresses of the page and writes back a block it finds if it is dirty, readable and
  writable, before it drops it. A dirty block need not be writable: a snoop, or a writeback from above without
  exclusivity, leaves a block that is dirty and shared. `pageSteps_spec` says exactly which blocks are written back; a
  page loses no data when its dirty blocks are all among them. -/
namespace Gem5.Cache
open Lib Gem5.Mem CacheState

section Page
variable {σ : Type} {P : CacheParams} {Q : MshrQueue → MshrQueue → Prop} {T : TagStore σ} {arr : BlkArray} {live : Bool} {c : CacheState σ}

/-- The packet `writebackBlk` builds. -/
def writebackPacket (P : CacheParams) (b : CacheBlk) : Packet :=
  { cmd := .writeback
    req := { paddr := P.regenerateBlkAddr b.tag b.set, size := P.blkSize, masterId := b.srcMasterId }
    addr := P.regenerateBlkAddr b.tag b.set
    size := P.blkSize
    isSecure := b.secure
    data := b.data
    isSupplyExclusive := b.isWritable }

/-- The test of `pageInvalidate`. -/
def pageWrites (b : CacheBlk) : Bool := b.dirty && b.isReadable && b.isWritable

/-- Some byte of the page is in the block. -/
def InPage (P : CacheParams) (pageStart : Nat) (b : CacheBlk) : Prop :=
  ∃ a, pageStart ≤ a ∧ a < pageStart + 4096 ∧ P.regenerateBlkAddr b.tag b.set = P.blkAlign a

/-- The packet has the address of the block. -/
def carries (P : CacheParams) (b : CacheBlk) (pkt : Packet) : Bool :=
  pkt.addr == P.regenerateBlkAddr b.tag b.set && pkt.isSecure == b.secure

/-- Each dirty block of the page is written back by one packet, and no clean one is. -/
def WritesBackPage (P : CacheParams) (pageStart : Nat) (c : CacheState σ) (writebacks : List Packet) : Prop :=
  ∀ i < P.numBlocks, (c.tags.blk i).valid = true → InPage P pageStart (c.tags.blk i) →
    if (c.tags.blk i).dirty then
      ∃ pkt, writebacks.filter (carries P (c.tags.blk i)) = [pkt] ∧ pkt.cmd = .writeback ∧
        pkt.data = (c.tags.blk i).data
    else writebacks.filter (carries P (c.tags.blk i)) = []

/-- The dirty blocks of the page are ones that `pageInvalidate` looks up and writes back: not secure, with read and
  write permission, and at one of its addresses. -/
def PageWritable (P : CacheParams) (pageStart : Nat) (c : CacheState σ) : Prop :=
  ∀ i < P.numBlocks, (c.tags.blk i).valid = true → InPage P pageStart (c.tags.blk i) →
    (c.tags.blk i).dirty = true →
    (c.tags.blk i).secure = false ∧ (c.tags.blk i).isReadable = true ∧ (c.tags.blk i).isWritable = true ∧
    ∃ a ∈ pageAddrs pageStart, P.regenerateBlkAddr (c.tags.blk i).tag (c.tags.blk i).set = P.blkAlign a

/-! ## One address -/

theorem pageClearFilter_ok (hT : Lawful P.toTagParams T) (hi : CacheInv P arr Q live c) (i : Nat) :
    ∃ c', c.pageClearFilter T i = .ok c' ∧ CacheInv P arr Q live c' ∧ ∀ j, c'.tags.blk j = c.tags.blk j := by
  unfold pageClearFilter
  split
  · obtain ⟨t, ht⟩ := hT.clearBloomFilter_ok c.tags (c.tags.blk i).set
    have hr := hT.clearBloomFilter ht
    exact ⟨_, bind_eq_ok.mpr ⟨t, ht, rfl⟩, hi.reordered hr, hr.blk⟩
  · exact ⟨c, rfl, hi, fun _ => rfl⟩

theorem pageWriteback_ok (hi : CacheInv P arr Q live c) {i : Nat} (hlt : i < P.numBlocks) :
    ∃ c', c.pageWriteback P i =
        .ok (c', if pageWrites (c.tags.blk i) then [writebackPacket P (c.tags.blk i)] else []) ∧
      (c'.tags.blk i).valid = (c.tags.blk i).valid ∧ ∀ j, j ≠ i → c'.tags.blk j = c.tags.blk j := by
  by_cases hw : pageWrites (c.tags.blk i) = true
  · have hd : (c.tags.blk i).dirty = true := by
      simp only [pageWrites, Bool.and_eq_true] at hw
      exact hw.1.1
    have hok : require ((c.tags.blk i).valid && (c.tags.blk i).dirty) = .ok () := by
      rw [require_eq_ok, hd, (hi.tags.blk i hlt).dirty hd]
      rfl
    rw [if_pos hw]
    refine ⟨_, (if_pos hw).trans (bind_eq_ok.mpr ⟨_, bind_eq_ok.mpr ⟨(), hok, rfl⟩, rfl⟩), ?_, fun j hj => ?_⟩
    · change ((c.tags.setBlk i { c.tags.blk i with dirty := false }).blk i).valid = _
      rw [Tags.blk_setBlk_self (hi.tags.lt_length hlt)]
    · exact Tags.blk_setBlk_ne hj
  · rw [if_neg hw]
    exact ⟨c, if_neg hw, rfl, fun j _ => rfl⟩

/-- The block found at an address is written back if the test holds, and dropped. -/
theorem pageStep_found (hT : Lawful P.toTagParams T) (hi : CacheInv P arr Q live c) {addr i : Nat}
    (hf : c.tags.findBlock P.toTagParams addr false = some i) : ∃ c', c.pageStep P T addr =
        .ok (c', if pageWrites (c.tags.blk i) then [writebackPacket P (c.tags.blk i)] else []) ∧
      CacheInv P arr Q live c' ∧ (c'.tags.blk i).valid = false ∧ ∀ j, j ≠ i → c'.tags.blk j = c.tags.blk j := by
  obtain ⟨hlt, -, -, hvalid, -⟩ := hi.tags.findBlock_spec hf
  obtain ⟨c₁, h₁, hi₁, hblk₁⟩ := pageClearFilter_ok hT hi i
  obtain ⟨c₂, h₂, hvalid₂, hother₂⟩ := pageWriteback_ok hi₁ hlt
  have hi₂ := hi₁.pageWriteback hlt h₂
  rw [hblk₁] at h₂ hvalid₂
  obtain ⟨c₃, h₃, hi₃, hinv₃, -, hother₃⟩ := hi₂.invalidateBlk_ok hT hlt (hvalid₂.trans hvalid)
  refine ⟨c₃, ?_, hi₃, hinv₃, fun j hj => ?_⟩
  · unfold pageStep
    rw [hf]
    exact bind_eq_ok.mpr ⟨c₁, h₁, bind_eq_ok.mpr ⟨_, h₂, bind_eq_ok.mpr ⟨c₃, h₃, rfl⟩⟩⟩
  · rw [hother₃ j hj, hother₂ j hj, hblk₁]

theorem pageStep_none {addr : Nat} (hf : c.tags.findBlock P.toTagParams addr false = none) :
    c.pageStep P T addr = .ok (c, []) := by
  unfold pageStep
  rw [hf]

/-! ## All addresses -/

/-- A lookup of one of the addresses finds the block. -/
def Hits (P : CacheParams) (b : CacheBlk) (addrs : List Nat) : Prop :=
  b.valid = true ∧ b.secure = false ∧ ∃ a ∈ addrs, P.regenerateBlkAddr b.tag b.set = P.blkAlign a

theorem regenerateBlkAddr_eq_blkAlign {tag set : Nat} (hset : set < P.numSets) (a : Nat) :
    P.regenerateBlkAddr tag set = P.blkAlign a ↔ set = P.extractSet a ∧ tag = P.extractTag a := by
  rw [← P.regenerateBlkAddr_extract a]
  constructor
  · intro h
    have hs := congrArg P.extractSet h
    have ht := congrArg P.extractTag h
    rw [P.extractSet_regenerate _ hset, P.extractSet_regenerate _ (P.extractSet_lt a)] at hs
    rw [P.extractTag_regenerate _ hset, P.extractTag_regenerate _ (P.extractSet_lt a)] at ht
    exact ⟨hs, ht⟩
  · rintro ⟨rfl, rfl⟩
    rfl

/-- What a lookup finds, in terms of the block's own address. -/
theorem findBlock_iff (hi : CacheInv P arr Q live c) {a i : Nat} {isSecure : Bool} (hlt : i < P.numBlocks) :
    c.tags.findBlock P.toTagParams a isSecure = some i ↔ (c.tags.blk i).valid = true ∧
      (c.tags.blk i).secure = isSecure ∧
      P.regenerateBlkAddr (c.tags.blk i).tag (c.tags.blk i).set = P.blkAlign a := by
  rw [regenerateBlkAddr_eq_blkAlign (hi.tags.set_lt hlt)]
  constructor
  · intro hf
    obtain ⟨-, hset, htag, hvalid, hsec⟩ := hi.tags.findBlock_spec hf
    exact ⟨hvalid, hsec, hset, htag⟩
  · intro ⟨hvalid, hsec, hset, htag⟩
    have hown := hi.tags.findBlock_own hlt hvalid
    rw [hsec] at hown
    unfold Tags.findBlock at hown ⊢
    rw [P.extractSet_regenerate _ (hi.tags.set_lt hlt), P.extractTag_regenerate _ (hi.tags.set_lt hlt)] at hown
    rw [← hset, ← htag]
    exact hown

theorem hits_cons {b : CacheBlk} {a : Nat} {addrs : List Nat} :
    Hits P b (a :: addrs) ↔ (b.valid = true ∧ b.secure = false ∧
      P.regenerateBlkAddr b.tag b.set = P.blkAlign a) ∨ Hits P b addrs := by
  simp only [Hits, List.mem_cons, exists_eq_or_imp]
  constructor
  · rintro ⟨hv, hs, h | h⟩
    · exact .inl ⟨hv, hs, h⟩
    · exact .inr ⟨hv, hs, h⟩
  · rintro (⟨hv, hs, h⟩ | ⟨hv, hs, h⟩)
    · exact ⟨hv, hs, .inl h⟩
    · exact ⟨hv, hs, .inr h⟩

/-- The blocks that are written back: those found that pass the test, each once. -/
theorem pageSteps_spec (hT : Lawful P.toTagParams T) {addrs : List Nat} (hi : CacheInv P arr Q live c) :
    ∃ (c' : CacheState σ) (l : List Nat), c.pageSteps P T addrs = .ok (c', l.map fun i => writebackPacket P (c.tags.blk i)) ∧ l.Nodup ∧
      ∀ i, i ∈ l ↔ i < P.numBlocks ∧ Hits P (c.tags.blk i) addrs ∧ pageWrites (c.tags.blk i) = true := by
  induction addrs generalizing c with
  | nil =>
    refine ⟨c, [], rfl, List.nodup_nil, fun i => ⟨nofun, fun ⟨_, hits, _⟩ => ?_⟩⟩
    obtain ⟨a, hmem, -⟩ := hits.2.2
    cases hmem
  | cons a addrs ih =>
    cases hf : c.tags.findBlock P.toTagParams a false with
    | none =>
      obtain ⟨c', l, hok, hnd, hmem⟩ := ih hi
      refine ⟨c', l, bind_eq_ok.mpr ⟨_, pageStep_none hf, bind_eq_ok.mpr ⟨_, hok, rfl⟩⟩, hnd, fun i => ?_⟩
      rw [hmem]
      refine and_congr_right fun hlt => and_congr_left fun _ => ?_
      rw [hits_cons, ← findBlock_iff hi hlt, hf]
      simp
    | some i =>
      obtain ⟨c₁, h₁, hi₁, hinv₁, hother₁⟩ := pageStep_found hT hi hf
      obtain ⟨c₂, l, h₂, hnd, hmem⟩ := ih hi₁
      have hlt := hi.found_lt hf
      have hnot : i ∉ l := fun h => by
        have hv := ((hmem i).mp h).2.1.1
        rw [hinv₁] at hv
        cases hv
      have hmap : (l.map fun j => writebackPacket P (c₁.tags.blk j)) =
          l.map fun j => writebackPacket P (c.tags.blk j) := by
        refine List.map_congr_left fun j hj => ?_
        rw [hother₁ j fun heq => hnot (heq ▸ hj)]
      rw [hmap] at h₂
      have hrest : ∀ j, j ≠ i → (j ∈ l ↔
          j < P.numBlocks ∧ Hits P (c.tags.blk j) (a :: addrs) ∧ pageWrites (c.tags.blk j) = true) := by
        intro j hj
        rw [hmem, hother₁ j hj]
        refine and_congr_right fun hjlt => and_congr_left fun _ => ?_
        rw [hits_cons, ← findBlock_iff hi hjlt, hf]
        simp [Ne.symm hj]
      have hfound : Hits P (c.tags.blk i) (a :: addrs) := hits_cons.mpr (.inl ((findBlock_iff hi hlt).mp hf))
      by_cases hw : pageWrites (c.tags.blk i) = true
      · rw [if_pos hw] at h₁
        refine ⟨c₂, i :: l, bind_eq_ok.mpr ⟨_, h₁, bind_eq_ok.mpr ⟨_, h₂, rfl⟩⟩,
          List.nodup_cons.mpr ⟨hnot, hnd⟩, fun j => ?_⟩
        by_cases hj : j = i
        · rw [hj]
          exact ⟨fun _ => ⟨hlt, hfound, hw⟩, fun _ => List.mem_cons_self ..⟩
        · rw [List.mem_cons, or_iff_right hj]
          exact hrest j hj
      · rw [if_neg hw] at h₁
        refine ⟨c₂, l, bind_eq_ok.mpr ⟨_, h₁, bind_eq_ok.mpr ⟨_, h₂, rfl⟩⟩, hnd, fun j => ?_⟩
        by_cases hj : j = i
        · rw [hj]
          exact ⟨fun h => absurd h hnot, fun h => absurd h.2.2 hw⟩
        · exact hrest j hj

/-- Among the packets of some blocks, those with the address of one of them. -/
theorem filter_carries (hi : CacheInv P arr Q live c) {l : List Nat} (hnd : l.Nodup)
    (hl : ∀ j ∈ l, j < P.numBlocks ∧ (c.tags.blk j).valid = true) {i : Nat} (hlt : i < P.numBlocks)
    (hvalid : (c.tags.blk i).valid = true) :
    (l.map fun j => writebackPacket P (c.tags.blk j)).filter (carries P (c.tags.blk i)) =
      if i ∈ l then [writebackPacket P (c.tags.blk i)] else [] := by
  have hcarries : ∀ j ∈ l, carries P (c.tags.blk i) (writebackPacket P (c.tags.blk j)) = (j == i) := by
    intro j hj
    obtain ⟨hjlt, hjvalid⟩ := hl j hj
    by_cases hji : j = i
    · simp [carries, writebackPacket, hji]
    · simp only [carries, writebackPacket, beq_eq_false_iff_ne.mpr hji, Bool.and_eq_false_iff,
        beq_eq_false_iff_ne]
      by_cases hsec : (c.tags.blk j).secure = (c.tags.blk i).secure
      · refine .inl fun haddr => hji ?_
        have hj_own := hi.tags.findBlock_own hjlt hjvalid
        rw [haddr, hsec, hi.tags.findBlock_own hlt hvalid] at hj_own
        exact (Option.some.inj hj_own).symm
      · exact .inr hsec
  have hfilter : l.filter (carries P (c.tags.blk i) ∘ fun j => writebackPacket P (c.tags.blk j)) =
      l.filter (· == i) := by
    apply List.filter_congr
    exact hcarries
  rw [List.filter_map, hfilter, List.filter_beq, hnd.count]
  split
  · rfl
  · rfl

/-- `pageInvalidate` of a data cache returns, and loses no dirty data of the page exactly when each of its dirty
  blocks is one that is looked up and may be read and written. -/
theorem CacheInv.pageInvalidate_iff (hT : Lawful P.toTagParams T) (hi : CacheInv P arr Q live c)
    (hdata : P.isInstruction = false) (pageStart : Nat) :
    ∃ c' writebacks, c.pageInvalidate P T pageStart = .ok (c', writebacks) ∧
      (WritesBackPage P pageStart c writebacks ↔ PageWritable P pageStart c) := by
  obtain ⟨c', l, hok, hnd, hmem⟩ := pageSteps_spec hT hi
  have hl : ∀ j ∈ l, j < P.numBlocks ∧ (c.tags.blk j).valid = true := fun j hj =>
    ⟨((hmem j).mp hj).1, ((hmem j).mp hj).2.1.1⟩
  refine ⟨c', _, (if_neg (by rw [hdata]; exact Bool.false_ne_true)).trans hok, fun hw => ?_, fun hw => ?_⟩
  · intro i hlt hvalid hpage hdirty
    have hi_wb := hw i hlt hvalid hpage
    rw [if_pos hdirty, filter_carries hi hnd hl hlt hvalid] at hi_wb
    obtain ⟨pkt, hfilter, -⟩ := hi_wb
    -- a packet has the block's address, so the block is among those written back
    split at hfilter
    · rename_i hil
      obtain ⟨-, ⟨-, hsec, haddr⟩, hwrites⟩ := (hmem i).mp hil
      simp only [pageWrites, Bool.and_eq_true] at hwrites
      exact ⟨hsec, hwrites.1.2, hwrites.2, haddr⟩
    · cases hfilter
  · intro i hlt hvalid hpage
    rw [filter_carries hi hnd hl hlt hvalid]
    by_cases hdirty : (c.tags.blk i).dirty = true
    · rw [if_pos hdirty]
      obtain ⟨hsec, hread, hwrite, haddr⟩ := hw i hlt hvalid hpage hdirty
      have hwrites : pageWrites (c.tags.blk i) = true := by simp [pageWrites, hdirty, hread, hwrite]
      rw [if_pos ((hmem i).mpr ⟨hlt, ⟨hvalid, hsec, haddr⟩, hwrites⟩)]
      exact ⟨_, rfl, rfl, rfl⟩
    · rw [if_neg hdirty]
      refine if_neg fun hil => hdirty ?_
      have hwrites := ((hmem i).mp hil).2.2
      simp only [pageWrites, Bool.and_eq_true] at hwrites
      exact hwrites.1.1

end Page

/-- In every state of every run of a data cache, for every tag store and every page. -/
theorem pageInvalidate_keeps_dirty_iff (P : CacheParams) (hdata : P.isInstruction = false) (x : Policy)
    {h : List Op} {s : RunState x.State} (hr : Reachable P (x.store P.toTagParams) h s) (pageStart : Nat) :
    ∃ c' writebacks, s.cache.pageInvalidate P (x.store P.toTagParams) pageStart = .ok (c', writebacks) ∧
      (WritesBackPage P pageStart s.cache writebacks ↔ PageWritable P pageStart s.cache) :=
  (reachable_inv (x.lawful _) hr).pageInvalidate_iff (x.lawful _) hdata pageStart

theorem inPage_zero {b : CacheBlk} (h : oneWay.regenerateBlkAddr b.tag b.set = 0) : InPage oneWay 0 b :=
  ⟨0, Nat.le_refl 0, by decide, h⟩

/-- A block written back from above with exclusivity: it is written back once. -/
theorem pageInvalidate_keeps_writable_block :
    ∃ s c' writebacks, Reachable oneWay (Policy.lru.store oneWay.toTagParams)
        [.access { writebackOf 0 with isSupplyExclusive := true } 0] s ∧ (s.cache.tags.blk 0).dirty = true ∧
      s.cache.pageInvalidate oneWay (Policy.lru.store oneWay.toTagParams) 0 = .ok (c', writebacks) ∧
      WritesBackPage oneWay 0 s.cache writebacks := by
  obtain ⟨s, hr, hp⟩ := Exec.of_endsIn (f := opStep oneWay (Policy.lru.store oneWay.toTagParams))
    (s := ⟨new oneWay (Policy.lru.store oneWay.toTagParams), none⟩)
    (l := [.access { writebackOf 0 with isSupplyExclusive := true } 0])
    (p := fun s => pageWrites (s.cache.tags.blk 0) && !(s.cache.tags.blk 0).secure &&
      decide (oneWay.regenerateBlkAddr (s.cache.tags.blk 0).tag (s.cache.tags.blk 0).set = 0)) (by decide)
  simp only [pageWrites, Bool.and_eq_true, Bool.not_eq_true', decide_eq_true_eq] at hp
  obtain ⟨⟨⟨⟨hdirty, hread⟩, hwrite⟩, hsec⟩, haddr⟩ := hp
  obtain ⟨c', writebacks, hok, hiff⟩ := pageInvalidate_keeps_dirty_iff oneWay rfl .lru hr 0
  refine ⟨s, c', writebacks, hr, hdirty, hok, hiff.mpr fun i hlt _ _ _ => ?_⟩
  rw [Nat.lt_one_iff.mp (show i < 1 from hlt)]
  exact ⟨hsec, hread, hwrite, 0, by decide, haddr⟩

/-- A block written back from above without exclusivity is dirty and not writable: `pageInvalidate` drops it without a
  writeback. -/
theorem pageInvalidate_drops_shared_dirty_block :
    ∃ s c' writebacks, Reachable oneWay (Policy.lru.store oneWay.toTagParams) [.access (writebackOf 0) 0] s ∧
      (s.cache.tags.blk 0).dirty = true ∧
      s.cache.pageInvalidate oneWay (Policy.lru.store oneWay.toTagParams) 0 = .ok (c', writebacks) ∧
      ¬WritesBackPage oneWay 0 s.cache writebacks := by
  obtain ⟨s, hr, hp⟩ := Exec.of_endsIn (f := opStep oneWay (Policy.lru.store oneWay.toTagParams))
    (s := ⟨new oneWay (Policy.lru.store oneWay.toTagParams), none⟩)
    (l := [.access (writebackOf 0) 0])
    (p := fun s => (s.cache.tags.blk 0).valid && (s.cache.tags.blk 0).dirty &&
      !(s.cache.tags.blk 0).isWritable &&
      decide (oneWay.regenerateBlkAddr (s.cache.tags.blk 0).tag (s.cache.tags.blk 0).set = 0)) (by decide)
  simp only [Bool.and_eq_true, Bool.not_eq_true', decide_eq_true_eq] at hp
  obtain ⟨⟨⟨hvalid, hdirty⟩, hnot⟩, haddr⟩ := hp
  have hi := reachable_inv (Policy.lawful oneWay.toTagParams .lru) hr
  obtain ⟨c', writebacks, hok, hiff⟩ := hi.pageInvalidate_iff (Policy.lawful oneWay.toTagParams .lru) rfl 0
  refine ⟨s, c', writebacks, hr, hdirty, hok, fun hw => ?_⟩
  obtain ⟨-, -, hwrite, -⟩ := hiff.mp hw 0 (by decide) hvalid (inPage_zero haddr) hdirty
  rw [hnot] at hwrite
  cases hwrite

end Gem5.Cache
