import Gem5Nvmain.Cache.Cache
import Gem5Nvmain.Cache.TagsInv

/- The invariant of the cache: what every operation on blocks keeps, for any lawful tag store.

  `CacheInv P arr Q live c` adds the temporary block to the invariant of the tag store:
  `live` says that it is counted in its set. It never has a registered master, and it is the only block that has none,
  so a packet that `writebackBlk` builds has a registered master exactly when it was not built from it. The operations
  on blocks do not change the two queues: any property `Q` of them is kept (`queues`). -/
namespace Gem5.Cache
open Lib Gem5.Mem List CacheState BlkPtr

structure CacheInv {σ : Type} (P : CacheParams) (arr : BlkArray) (Q : MshrQueue → MshrQueue → Prop)
    (live : Bool) (c : CacheState σ) : Prop where
  tags : TagsInv P.toTagParams arr (if live then some (c.tempBlock.set, c.tempBlock.isPcm) else none) 0 c.tags
  tempSet : live = true → c.tempBlock.set < P.numSets
  tempValid : c.tempBlock.valid = true → live = true
  tempDirty : c.tempBlock.dirty = true → c.tempBlock.valid = true
  tempMaster : c.tempBlock.srcMasterId = invldMasterId
  built : ∀ x ∈ c.built, (x.2.req.masterId < P.maxMasters ↔ x.1 ≠ .temp)
  queues : Q c.mshrQueue c.writeBuffer

/-- A pointer into the arrays of the cache. -/
def BlkPtr.InBounds (P : CacheParams) : BlkPtr → Prop
  | .blk i => i < P.numBlocks
  | _ => True

theorem BlkPtr.inBounds_blk {P : CacheParams} {i : Nat} (h : i < P.numBlocks) : (blk i).InBounds P := h

theorem BlkPtr.inBounds_temp (P : CacheParams) : temp.InBounds P := trivial

namespace CacheInv
variable {σ : Type} {P : CacheParams} {arr : BlkArray} {Q Q' : MshrQueue → MshrQueue → Prop}
  {T : TagStore σ} {live : Bool} {c c' : CacheState σ} {ptr : BlkPtr} {pkt pkt' : Packet} {b : CacheBlk}
  {i : Nat}

theorem new (hT : Lawful P.toTagParams T) (hq : Q (new P T).mshrQueue (new P T).writeBuffer) :
    CacheInv P T.new.blks Q false (new P T) := by
  have hbase : TagsInv P.toTagParams .blocks none 0 (Tags.new P.toTagParams T.new.policy) := TagsInv.new _ _
  refine ⟨?_, fun h => ?_, fun h => h, fun h => h, rfl, fun x hx => ?_, hq⟩
  · change TagsInv _ T.new.blks none 0 T.new
    rw [hT.new]
    exact hbase.congr rfl rfl rfl rfl rfl
  · cases h
  · cases hx

variable (hi : CacheInv P arr Q live c)
include hi

theorem of_eq (htags : c'.tags = c.tags) (htemp : c'.tempBlock = c.tempBlock)
    (hbuilt : c'.built = c.built) (hq : Q' c'.mshrQueue c'.writeBuffer) : CacheInv P arr Q' live c' := by
  refine ⟨?_, ?_, ?_, ?_, ?_, ?_, hq⟩
  · rw [htags, htemp]
    exact hi.tags
  · rw [htemp]
    exact hi.tempSet
  · rw [htemp]
    exact hi.tempValid
  · rw [htemp]
    exact hi.tempDirty
  · rw [htemp]
    exact hi.tempMaster
  · rw [hbuilt]
    exact hi.built

variable {t : Tags σ}

theorem setTags
    (ht : TagsInv P.toTagParams arr (if live then some (c.tempBlock.set, c.tempBlock.isPcm) else none) 0 t) :
    CacheInv P arr Q live { c with tags := t } :=
  ⟨ht, hi.tempSet, hi.tempValid, hi.tempDirty, hi.tempMaster, hi.built, hi.queues⟩

theorem reordered (hr : Reordered c.tags t) :
    CacheInv P arr Q live { c with tags := t } :=
  hi.setTags (hi.tags.reordered hr)

/-! ## One block -/

/-- A change of a block that the tag store does not see. -/
theorem put_same (hin : ptr.InBounds P) (hs : CacheBlk.SameLine (c.get ptr) b)
    (hd : b.dirty = true → b.valid = true) : CacheInv P arr Q live (c.put ptr b) := by
  cases ptr with
  | blk i => exact hi.setTags (hi.tags.setSame hin hs hd)
  | record i => exact hi.setTags (hi.tags.congr hi.tags.array rfl rfl rfl rfl)
  | temp =>
    refine ⟨?_, ?_, ?_, hd, hs.srcMasterId.trans hi.tempMaster, hi.built, hi.queues⟩
    · change TagsInv _ arr (if live then some (b.set, b.isPcm) else none) 0 c.tags
      rw [hs.set, hs.isPcm]
      exact hi.tags
    · change live = true → b.set < P.numSets
      rw [hs.set]
      exact hi.tempSet
    · change b.valid = true → live = true
      rw [hs.valid]
      exact hi.tempValid

theorem dirty_valid (hin : ptr.InBounds P) (hrec : ∀ k, ptr ≠ .record k)
    (h : (c.get ptr).dirty = true) : (c.get ptr).valid = true := by
  cases ptr with
  | blk i => exact (hi.tags.blk i hin).dirty h
  | temp => exact hi.tempDirty h
  | record k => exact absurd rfl (hrec k)

variable {addr : Nat}

theorem found_lt {isSecure : Bool}
    (h : c.tags.findBlock P.toTagParams addr isSecure = some i) : i < P.numBlocks :=
  (hi.tags.findBlock_spec h).1

variable (hT : Lawful P.toTagParams T)
include hT

theorem invalidateBlk (hin : ptr.InBounds P)
    (h : invalidateBlk T c ptr = .ok c') : CacheInv P arr Q live c' := by
  obtain ⟨c₁, h₁, h⟩ := of_bind h
  cases h
  cases ptr with
  | blk i =>
    obtain ⟨t, ht, h₁⟩ := of_bind h₁
    cases h₁
    exact hi.setTags (hi.tags.invalidate hT hin ht).2.1
  | temp => cases h₁
  | record i => cases h₁

/-- A valid block can be invalidated; the others stay as they are. -/
theorem invalidateBlk_ok (hlt : i < P.numBlocks)
    (hvalid : (c.tags.blk i).valid = true) :
    ∃ c', CacheState.invalidateBlk T c (.blk i) = .ok c' ∧ CacheInv P arr Q live c' ∧
      (c'.tags.blk i).valid = false ∧ (c'.tags.blk i).dirty = false ∧
      ∀ j, j ≠ i → c'.tags.blk j = c.tags.blk j := by
  obtain ⟨t, ht⟩ := hT.invalidate_ok (hi.tags.canInvalidate hlt hvalid)
  obtain ⟨-, hinv, hother⟩ := hi.tags.invalidate hT hlt ht
  have hok : CacheState.invalidateBlk T c (.blk i) =
      .ok { c with tags := t.setBlk i (t.blk i).invalidate } :=
    bind_eq_ok.mpr ⟨_, bind_eq_ok.mpr ⟨t, ht, rfl⟩, rfl⟩
  have hlen : i < t.blocks.length := by
    have hnum := hinv.numBlocks
    rw [Tags.setBlk, length_set] at hnum
    rw [hnum]
    exact hlt
  refine ⟨_, hok, hi.setTags hinv, ?_, ?_, fun j hj => ?_⟩
  · rw [Tags.blk_setBlk_self hlen]
    rfl
  · rw [Tags.blk_setBlk_self hlen]
    rfl
  · rw [Tags.blk_setBlk_ne hj]
    exact hother j hj

theorem dropBlk (hin : ptr.InBounds P) (h : dropBlk T c ptr = .ok c') :
    CacheInv P arr Q live c' := by
  unfold CacheState.dropBlk at h
  split at h
  · rename_i htemp
    cases h
    rw [htemp]
    exact ⟨hi.tags, hi.tempSet, nofun, nofun, hi.tempMaster, hi.built,
      hi.queues⟩
  · exact hi.invalidateBlk hT hin h

omit hT hi

/-! ## Requests from the CPU side -/

variable {b' : CacheBlk}

theorem cmpAndSwap_same (h : cmpAndSwap P b pkt = .ok (b', pkt')) : CacheBlk.SameLine b b' := by
  obtain ⟨_, -, h⟩ := of_bind h
  obtain ⟨_, -, h⟩ := of_bind h
  obtain ⟨w, -, h⟩ := of_bind h
  cases h
  cases w
  · exact CacheBlk.SameLine.refl b
  · exact ⟨rfl, rfl, rfl, rfl, rfl, rfl, rfl⟩

theorem readLock_same (h : readLock b pkt = .ok b') : CacheBlk.SameLine b b' ∧ b'.dirty = b.dirty := by
  unfold readLock at h
  split at h
  · exact CacheBlk.trackLoadLocked_same h
  · cases h
    exact ⟨CacheBlk.SameLine.refl _, rfl⟩

include hT hi

variable {deferred pendingDowngrade : Bool}

theorem supplyBlock (hin : ptr.InBounds P)
    (h : supplyBlock P T c pkt ptr deferred pendingDowngrade = .ok (c', pkt')) :
    CacheInv P arr Q live c' := by
  unfold CacheState.supplyBlock at h
  simp only at h
  split at h
  · obtain ⟨c₁, h₁, h⟩ := of_bind h
    cases h
    exact hi.dropBlk hT hin h₁
  · split at h
    · split at h
      · split at h
        · cases h
          exact hi.put_same hin ⟨rfl, rfl, rfl, rfl, rfl, rfl, rfl⟩ nofun
        · cases h
          exact hi
      · cases h
        exact hi
    · cases h
      exact hi

theorem satisfyCpuSideRequest (hin : ptr.InBounds P)
    (h : satisfyCpuSideRequest P T c pkt ptr deferred pendingDowngrade = .ok (c', pkt')) :
    CacheInv P arr Q live c' := by
  obtain ⟨_, -, h⟩ := of_bind h
  obtain ⟨_, hvalid, h⟩ := of_bind h
  obtain ⟨_, -, h⟩ := of_bind h
  rw [require_eq_ok] at hvalid
  split at h
  · obtain ⟨⟨b, _⟩, hb, h⟩ := of_bind h
    cases h
    have hs := cmpAndSwap_same hb
    exact hi.put_same hin hs fun _ => hs.valid.trans hvalid
  · split at h
    · obtain ⟨⟨b, _, proceeds⟩, hb, h⟩ := of_bind h
      cases h
      have hs := CacheBlk.checkWrite_same hb
      have hwritten : CacheBlk.SameLine b { (if proceeds then
          { b with data := pkt'.writeDataToBlock b.data P.blkSize } else b) with dirty := true } := by
        cases proceeds
        · exact ⟨rfl, rfl, rfl, rfl, rfl, rfl, rfl⟩
        · exact ⟨rfl, rfl, rfl, rfl, rfl, rfl, rfl⟩
      exact hi.put_same hin (hs.trans hwritten) fun _ => (hwritten.valid.trans hs.valid).trans hvalid
    · split at h
      · obtain ⟨b, hb, h⟩ := of_bind h
        obtain ⟨hs, hd⟩ := readLock_same hb
        have hput : CacheInv P arr Q live (c.put ptr b) := hi.put_same hin hs fun _ => hs.valid.trans hvalid
        simp only at h
        split at h
        · exact hput.supplyBlock hT hin h
        · cases h
          exact hput
      · obtain ⟨_, -, h⟩ := of_bind h
        obtain ⟨_, -, h⟩ := of_bind h
        obtain ⟨c₁, h₁, h⟩ := of_bind h
        cases h
        exact hi.invalidateBlk hT hin h₁

omit hT

/-! ## Writebacks -/

/-- The packet has a registered master exactly when the block is not the temporary one. -/
theorem writebackBlk (hin : ptr.InBounds P) (hrec : ∀ k, ptr ≠ .record k)
    (h : writebackBlk P c ptr = .ok (c', pkt)) : CacheInv P arr Q live c' := by
  obtain ⟨_, hvd, h⟩ := of_bind h
  cases h
  rw [require_eq_ok, Bool.and_eq_true] at hvd
  have hput : CacheInv P arr Q live (c.put ptr { c.get ptr with dirty := false }) :=
    hi.put_same hin ⟨rfl, rfl, rfl, rfl, rfl, rfl, rfl⟩ nofun
  refine ⟨hput.tags, hput.tempSet, hput.tempValid, hput.tempDirty, hput.tempMaster, fun x hx => ?_,
    hput.queues⟩
  rcases mem_append.mp hx with hx | hx
  · exact hput.built x hx
  · rw [mem_singleton.mp hx]
    change (c.get ptr).srcMasterId < P.maxMasters ↔ ptr ≠ .temp
    cases ptr with
    | temp =>
      have hmax := P.maxMasters_lt
      rw [show (c.get .temp).srcMasterId = 65535 from hi.tempMaster]
      constructor
      · omega
      · intro hne
        exact absurd rfl hne
    | blk i => exact ⟨fun _ => by simp, fun _ => (hi.tags.blk i hin).master hvd.1⟩
    | record k => exact absurd rfl (hrec k)

variable {pkts : List Packet}

theorem writebackVisitor (hin : ptr.InBounds P)
    (h : writebackVisitor P c ptr = .ok (c', pkts)) : CacheInv P arr Q live c' := by
  unfold CacheState.writebackVisitor at h
  simp only at h
  split at h
  · obtain ⟨_, -, h⟩ := of_bind h
    cases h
    exact hi.put_same hin ⟨rfl, rfl, rfl, rfl, rfl, rfl, rfl⟩ nofun
  · cases h
    exact hi

omit hi in
theorem visited_inBounds (c : CacheState σ) : ∀ ptr ∈ c.visited P, ptr.InBounds P := by
  intro ptr hptr
  obtain ⟨i, hi, rfl⟩ := mem_map.mp hptr
  split
  · exact mem_range.mp hi
  · trivial

variable {ptrs : List BlkPtr}

theorem writebackAll
    (hin : ∀ ptr ∈ ptrs, ptr.InBounds P) (h : writebackAll P c ptrs = .ok (c', pkts)) :
    CacheInv P arr Q live c' := by
  induction ptrs generalizing c pkts with
  | nil =>
    cases h
    exact hi
  | cons ptr ptrs ih =>
    obtain ⟨⟨c₁, _⟩, h₁, h⟩ := of_bind h
    obtain ⟨⟨c₂, _⟩, h₂, h⟩ := of_bind h
    cases h
    have hi₁ := hi.writebackVisitor (hin ptr (mem_cons_self ..)) h₁
    exact ih hi₁ (fun p hp => hin p (mem_cons_of_mem _ hp)) h₂

theorem memWriteback
    (h : memWriteback P c = .ok (c', pkts)) : CacheInv P arr Q live c' :=
  hi.writebackAll (visited_inBounds c) h

theorem putLocks (hin : ptr.InBounds P) (locks : List Lock) :
    CacheInv P arr Q live (c.put ptr { c.get ptr with lockList := locks }) := by
  cases ptr with
  | record k => exact hi.setTags (hi.tags.congr hi.tags.array rfl rfl rfl rfl)
  | temp => exact hi.put_same hin ⟨rfl, rfl, rfl, rfl, rfl, rfl, rfl⟩ hi.tempDirty
  | blk i => exact hi.put_same hin ⟨rfl, rfl, rfl, rfl, rfl, rfl, rfl⟩ (hi.tags.blk i hin).dirty

theorem clearLocks : CacheInv P arr Q live (c.clearLocks P) := by
  have hin := visited_inBounds (P := P) c
  unfold CacheState.clearLocks
  generalize c.visited P = ptrs at hin
  induction ptrs generalizing c with
  | nil => exact hi
  | cons ptr ptrs ih =>
    exact ih (hi.putLocks (hin ptr (mem_cons_self ..)) []) fun p hp =>
      hin p (mem_cons_of_mem _ hp)

include hT

theorem invalidateVisitor (hin : ptr.InBounds P)
    (h : invalidateVisitor T c ptr = .ok c') : CacheInv P arr Q live c' := by
  unfold CacheState.invalidateVisitor at h
  simp only at h
  split at h
  · obtain ⟨_, -, h⟩ := of_bind h
    exact hi.invalidateBlk hT hin h
  · cases h
    exact hi

theorem invalidateAll (hin : ∀ ptr ∈ ptrs, ptr.InBounds P)
    (h : invalidateAll T c ptrs = .ok c') : CacheInv P arr Q live c' := by
  induction ptrs generalizing c with
  | nil =>
    cases h
    exact hi
  | cons ptr ptrs ih =>
    obtain ⟨c₁, h₁, h⟩ := of_bind h
    have hi₁ := hi.invalidateVisitor hT (hin ptr (mem_cons_self ..)) h₁
    exact ih hi₁ (fun p hp => hin p (mem_cons_of_mem _ hp)) h

theorem memInvalidate (h : memInvalidate P T c = .ok c') :
    CacheInv P arr Q live c' :=
  hi.invalidateAll hT (visited_inBounds c) h

theorem uncacheableFlush
    (h : uncacheableFlush P T c pkt = .ok (c', pkts)) : CacheInv P arr Q live c' := by
  unfold CacheState.uncacheableFlush at h
  have hi₀ : CacheInv P arr Q live (if pkt.req.isClearLL then c.clearLocks P else c) := by
    split
    · exact hi.clearLocks
    · exact hi
  simp only at h
  split at h
  · cases h
    exact hi₀
  · rename_i i hfound
    obtain ⟨⟨c₁, _⟩, h₁, h⟩ := of_bind h
    obtain ⟨c₂, h₂, h⟩ := of_bind h
    cases h
    have hlt := hi₀.found_lt hfound
    exact (hi₀.writebackVisitor (inBounds_blk hlt) h₁).invalidateVisitor hT (inBounds_blk hlt) h₂

/-! ## Allocation -/

variable {rand : Nat}

/-- The victim is a block of the set; no block changes what the tag store sees. -/
theorem allocateBlock {victim : Option Nat}
    (h : allocateBlock P T c addr rand = .ok (c', victim, pkts)) :
    CacheInv P arr Q live c' ∧ (∀ j, CacheBlk.SameLine (c.tags.blk j) (c'.tags.blk j)) ∧
    c'.tempBlock = c.tempBlock ∧ ∀ i, victim = some i → i ∈ (c'.tags.setAt (P.extractSet addr)).blks := by
  obtain ⟨⟨t, i⟩, hv, h⟩ := of_bind h
  obtain ⟨hr, hmem⟩ := hT.findVictim hv
  have hi₁ : CacheInv P arr Q live { c with tags := t } := hi.reordered hr
  have hmem₁ : i ∈ (t.setAt (P.extractSet addr)).blks := (hr.ways _).mem_iff.mpr hmem
  have hsame : ∀ j, CacheBlk.SameLine (c.tags.blk j) (t.blk j) := by
    intro j
    rw [hr.blk]
    exact CacheBlk.SameLine.refl _
  have hsome : ∀ k, some i = some k → k ∈ (t.setAt (P.extractSet addr)).blks := by
    rintro k ⟨⟩
    exact hmem₁
  simp only at h
  split at h
  · split at h
    · obtain ⟨_, -, h⟩ := of_bind h
      obtain ⟨_, -, h⟩ := of_bind h
      cases h
      exact ⟨hi₁, hsame, rfl, nofun⟩
    · split at h
      · obtain ⟨⟨c₂, wb⟩, h₂, h⟩ := of_bind h
        cases h
        have hlt := ((hi₁.tags.mem_ways (P.extractSet_lt addr)).mp hmem₁).1
        have hi₂ := hi₁.writebackBlk (inBounds_blk hlt) (fun k => by simp) h₂
        obtain ⟨_, -, h₂⟩ := of_bind h₂
        cases h₂
        refine ⟨hi₂, fun j => (hsame j).trans ?_, rfl, hsome⟩
        change CacheBlk.SameLine (t.blk j) ((t.setBlk i { t.blk i with dirty := false }).blk j)
        by_cases hj : j = i
        · rw [hj, Tags.blk_setBlk_self (hi₁.tags.lt_length hlt)]
          exact ⟨rfl, rfl, rfl, rfl, rfl, rfl, rfl⟩
        · rw [Tags.blk_setBlk_ne hj]
          exact CacheBlk.SameLine.refl _
      · cases h
        exact ⟨hi₁, hsame, rfl, hsome⟩
  · cases h
    exact ⟨hi₁, hsame, rfl, hsome⟩

omit hT in
theorem writeWholeBlk (hlt : i < P.numBlocks) (hv : (c.tags.blk i).valid = true)
    (h : writeWholeBlk P c pkt i = .ok c') : CacheInv P arr Q live c' := by
  unfold CacheState.writeWholeBlk at h
  simp only at h
  split at h
  · obtain ⟨_, -, h⟩ := of_bind h
    cases h
    exact hi.put_same (inBounds_blk hlt) ⟨rfl, rfl, rfl, rfl, rfl, rfl, rfl⟩ fun _ => hv
  · obtain ⟨_, -, h⟩ := of_bind h
    cases h
    exact hi.put_same (inBounds_blk hlt) ⟨rfl, rfl, rfl, rfl, rfl, rfl, rfl⟩ fun _ => hv

variable {a : CacheState.Access σ}

theorem accessWholeBlk {blk : Option Nat}
    (hblk : blk = c.tags.findBlock P.toTagParams pkt.addr pkt.isSecure)
    (h : accessWholeBlk P T c pkt blk rand = .ok a) :
    CacheInv P arr Q live a.cache ∧ ∀ i, a.blk = some i → i < P.numBlocks := by
  obtain ⟨_, -, h⟩ := of_bind h
  split at h
  · obtain ⟨hlt, -, -, hv, -⟩ := hi.tags.findBlock_spec hblk.symm
    obtain ⟨c₁, h₁, h⟩ := of_bind h
    cases h
    exact ⟨hi.writeWholeBlk hlt hv h₁, fun j hj => by cases hj; exact hlt⟩
  · obtain ⟨⟨c₁, victim, wbs⟩, h₁, h⟩ := of_bind h
    obtain ⟨hi₁, hsame, htemp, hmem⟩ := hi.allocateBlock hT h₁
    simp only at h
    split at h
    · cases h
      exact ⟨hi₁, nofun⟩
    · rename_i i
      obtain ⟨t, ht, h⟩ := of_bind h
      obtain ⟨c₂, h₂, h⟩ := of_bind h
      cases h
      have hmiss := (hi.tags.misses hblk.symm).same hsame
      have hvictim := hmem i rfl
      have hlt := ((hi₁.tags.mem_ways (P.extractSet_lt pkt.addr)).mp hvictim).1
      have hins := (hi₁.tags.insertBlock hT hvictim hmiss ht).2.2 { t.blk i with
        valid := true
        readable := true
        writable := false
        dirty := false
        hwPrefetched := false
        canGoExclusive := false
        secure := pkt.isSecure } rfl rfl rfl rfl rfl rfl rfl
      have hi₂ := hi₁.setTags hins
      refine ⟨hi₂.writeWholeBlk hlt ?_ h₂, fun j hj => by cases hj; exact hlt⟩
      rw [Tags.blk_setBlk_self]
      have hlen := hins.numBlocks
      rw [Tags.setBlk, length_set] at hlen
      rw [hlen]
      exact hlt

/-- `access` keeps the invariant, and gives a block of the cache. -/
theorem access (h : access P T c pkt rand = .ok a) :
    CacheInv P arr Q live a.cache ∧ ∀ i, a.blk = some i → i < P.numBlocks := by
  obtain ⟨_, -, h⟩ := of_bind h
  split at h
  · obtain ⟨⟨c₁, _⟩, h₁, h⟩ := of_bind h
    cases h
    exact ⟨hi.uncacheableFlush hT h₁, nofun⟩
  · obtain ⟨⟨t, blk⟩, hacc, h⟩ := of_bind h
    obtain ⟨hr, hblk⟩ := hT.accessBlock hacc
    have hi₁ : CacheInv P arr Q live { c with tags := t } := hi.reordered hr
    simp only at h
    split at h
    · refine hi₁.accessWholeBlk hT ?_ h
      rw [hblk]
      exact (hi.tags.findBlock_reordered hr _ _).symm
    · split at h
      · rename_i i
        have hlt : i < P.numBlocks := hi.found_lt hblk.symm
        split at h
        · obtain ⟨c₂, h₂, h⟩ := of_bind h
          cases h
          exact ⟨hi₁.invalidateBlk hT (inBounds_blk hlt) h₂, fun j hj => by cases hj; exact hlt⟩
        · split at h
          · obtain ⟨⟨c₂, _⟩, h₂, h⟩ := of_bind h
            cases h
            exact ⟨hi₁.satisfyCpuSideRequest hT (inBounds_blk hlt) h₂,
              fun j hj => by cases hj; exact hlt⟩
          · cases h
            exact ⟨hi₁, fun j hj => by cases hj; exact hlt⟩
      · split at h
        · cases h
          exact ⟨hi₁, nofun⟩
        · split at h
          · cases h
            exact ⟨hi₁, nofun⟩
          · cases h
            exact ⟨hi₁, nofun⟩

/-! ## Fills -/

omit hT hi in
theorem useTempBlock (hi : CacheInv P arr Q false c) (h : useTempBlock P c pkt = .ok c') :
    CacheInv P arr Q true c' ∧ c'.tempBlock.valid = false := by
  obtain ⟨_, hv, h⟩ := of_bind h
  cases h
  rw [require_eq_ok, Bool.not_eq_true'] at hv
  exact ⟨⟨hi.tags.countTemp (P.extractSet_lt _) _, fun _ => P.extractSet_lt _, fun _ => rfl, hi.tempDirty,
    hi.tempMaster, hi.built, hi.queues⟩, hv⟩

variable {wbs : List Packet}

omit hi in
/-- A fill puts the block in the cache, or in `tempBlock`, which is then live. -/
theorem handleFill (hi : CacheInv P arr Q false c)
    (h : handleFill P T c pkt (c.tags.findBlock P.toTagParams pkt.addr pkt.isSecure) rand =
      .ok (c', ptr, wbs)) :
    CacheInv P arr Q (decide (ptr = .temp)) c' ∧ ptr.InBounds P ∧ ∀ k, ptr ≠ .record k := by
  obtain ⟨_, -, h⟩ := of_bind h
  split at h
  · rename_i i hfound
    obtain ⟨hlt, -, -, hvalid, hsec⟩ := hi.tags.findBlock_spec hfound
    obtain ⟨_, -, h⟩ := of_bind h
    obtain ⟨_, -, h⟩ := of_bind h
    cases h
    refine ⟨hi.put_same (inBounds_blk hlt) ⟨rfl, hvalid.symm, ?_, rfl, rfl, rfl, rfl⟩ fun _ => rfl, hlt,
      fun k => by simp⟩
    change ((c.tags.blk i).secure || pkt.isSecure) = (c.tags.blk i).secure
    rw [hsec, Bool.or_self]
  · rename_i hfound
    obtain ⟨_, -, h⟩ := of_bind h
    obtain ⟨⟨c₁, victim, _⟩, h₁, h⟩ := of_bind h
    obtain ⟨hi₁, hsame, -, hmem⟩ := hi.allocateBlock hT h₁
    simp only at h
    split at h
    · obtain ⟨c₂, h₂, h⟩ := of_bind h
      cases h
      obtain ⟨hi₂, -⟩ := CacheInv.useTempBlock hi₁ h₂
      exact ⟨⟨hi₂.tags, hi₂.tempSet, fun _ => rfl, fun _ => rfl, hi₂.tempMaster, hi₂.built,
        hi₂.queues⟩, trivial, fun k => by simp⟩
    · rename_i i
      obtain ⟨t, ht, h⟩ := of_bind h
      obtain ⟨_, -, h⟩ := of_bind h
      cases h
      have hmiss := (hi.tags.misses hfound).same hsame
      have hvictim := hmem i rfl
      have hlt := ((hi₁.tags.mem_ways (P.extractSet_lt pkt.addr)).mp hvictim).1
      obtain ⟨-, hsec, hins⟩ := hi₁.tags.insertBlock hT hvictim hmiss ht
      refine ⟨hi₁.setTags (hins _ rfl ?_ rfl rfl rfl rfl rfl), hlt, fun k => by simp⟩
      change ((t.blk i).secure || pkt.isSecure) = pkt.isSecure
      rw [hsec, Bool.false_or]

/-! ## Snoops -/

variable {pendingInval : Bool} {resps : List Packet}

theorem snoopBlk (hin : ptr.InBounds P) (hvalid : (c.get ptr).valid = true)
    (h : snoopBlk P T c pkt ptr pendingInval = .ok (c', pkt', resps)) : CacheInv P arr Q live c' := by
  obtain ⟨_, -, h⟩ := of_bind h
  obtain ⟨⟨_, _⟩, -, h⟩ := of_bind h
  obtain ⟨c₁, h₁, h⟩ := of_bind h
  cases h
  have hput : CacheInv P arr Q live (c.put ptr { c.get ptr with
      writable := (c.get ptr).writable && !(pkt.isRead && !pkt.isInvalidate)
      canGoExclusive := (c.get ptr).canGoExclusive && !(pkt.isRead && !pkt.isInvalidate) }) :=
    hi.put_same hin ⟨rfl, rfl, rfl, rfl, rfl, rfl, rfl⟩ fun _ => hvalid
  split at h₁
  · exact hput.dropBlk hT hin h₁
  · cases h₁
    exact hput

theorem handleSnoop {blk : Option BlkPtr} {isDeferred : Bool} {up : SnoopReply} (hin : ∀ ptr, blk = some ptr → ptr.InBounds P)
    (h : handleSnoop P T c pkt blk isDeferred pendingInval up = .ok (c', pkt', resps)) :
    CacheInv P arr Q live c' := by
  obtain ⟨_, -, h⟩ := of_bind h
  obtain ⟨_, -, h⟩ := of_bind h
  obtain ⟨pkt₁, -, h⟩ := of_bind h
  cases blk with
  | none =>
    cases h
    exact hi
  | some ptr =>
    simp only at h
    split at h
    · cases h
      exact hi
    · rename_i hvalid
      split at h
      · cases h
        exact hi
      · exact hi.snoopBlk hT (hin ptr rfl) (by simpa using hvalid) h

/-! ## Page invalidation -/

theorem pageStepInstruction
    (h : pageStepInstruction P T c addr = .ok c') : CacheInv P arr Q live c' := by
  unfold CacheState.pageStepInstruction at h
  split at h
  · cases h
    exact hi
  · rename_i i hfound
    obtain ⟨_, -, h⟩ := of_bind h
    exact hi.invalidateBlk hT (inBounds_blk (hi.found_lt hfound)) h

theorem pageClearFilter (h : pageClearFilter T c i = .ok c') :
    CacheInv P arr Q live c' := by
  unfold CacheState.pageClearFilter at h
  split at h
  · obtain ⟨t, ht, h⟩ := of_bind h
    cases h
    exact hi.reordered (hT.clearBloomFilter ht)
  · cases h
    exact hi

omit hT in
theorem pageWriteback (hlt : i < P.numBlocks)
    (h : pageWriteback P c i = .ok (c', wbs)) : CacheInv P arr Q live c' := by
  unfold CacheState.pageWriteback at h
  simp only at h
  split at h
  · obtain ⟨⟨c₁, wb⟩, h₁, h⟩ := of_bind h
    cases h
    exact hi.writebackBlk (inBounds_blk hlt) (fun k => by simp) h₁
  · cases h
    exact hi

theorem pageStep
    (h : pageStep P T c addr = .ok (c', wbs)) : CacheInv P arr Q live c' := by
  unfold CacheState.pageStep at h
  split at h
  · cases h
    exact hi
  · rename_i i hfound
    have hlt := hi.found_lt hfound
    obtain ⟨c₁, h₁, h⟩ := of_bind h
    obtain ⟨⟨c₂, _⟩, h₂, h⟩ := of_bind h
    obtain ⟨c₃, h₃, h⟩ := of_bind h
    cases h
    exact ((hi.pageClearFilter hT h₁).pageWriteback hlt h₂).invalidateBlk hT (inBounds_blk hlt) h₃

variable {addrs : List Nat}

theorem pageStepsInstruction
    (h : pageStepsInstruction P T c addrs = .ok c') : CacheInv P arr Q live c' := by
  induction addrs generalizing c with
  | nil =>
    cases h
    exact hi
  | cons addr addrs ih =>
    obtain ⟨c₁, h₁, h⟩ := of_bind h
    exact ih (hi.pageStepInstruction hT h₁) h

theorem pageSteps
    (h : pageSteps P T c addrs = .ok (c', wbs)) : CacheInv P arr Q live c' := by
  induction addrs generalizing c wbs with
  | nil =>
    cases h
    exact hi
  | cons addr addrs ih =>
    obtain ⟨⟨c₁, _⟩, h₁, h⟩ := of_bind h
    obtain ⟨⟨c₂, _⟩, h₂, h⟩ := of_bind h
    cases h
    exact ih (hi.pageStep hT h₁) h₂

theorem pageInvalidate {pageStart : Nat}
    (h : pageInvalidate P T c pageStart = .ok (c', wbs)) : CacheInv P arr Q live c' := by
  unfold CacheState.pageInvalidate at h
  split at h
  · obtain ⟨_, -, h⟩ := of_bind h
    obtain ⟨c₁, h₁, h⟩ := of_bind h
    cases h
    exact hi.pageStepsInstruction hT h₁
  · exact hi.pageSteps hT h

end CacheInv

end Gem5.Cache
