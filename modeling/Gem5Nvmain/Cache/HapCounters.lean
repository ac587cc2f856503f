import Gem5Nvmain.Cache.StackPolicies

/- The quota counters of HAP count the valid PCM blocks (mem/cache/tags/hap.cc).

  The counters change at three places: when a valid PCM block is replaced, when a PCM block is inserted and when a PCM
  block is invalidated; which counter it is depends on low bits of the set's number. `HapOp` runs these with any block
  and any packet, between any other uses of the tag store. -/
namespace Gem5.Cache
open Lib Gem5.Mem Tags List

/-! ## The counters -/

/-- `sc[l].pcmLineCounter`. -/
def HapState.lines (s : HapState) (l : Nat) : Int := ((s.sc[l]?).getD {}).pcmLineCounter

/-- The line counters are the same. -/
structure SameLines (s s' : HapState) : Prop where
  samples : s'.sc.length = s.sc.length
  lines : ∀ l, s'.lines l = s.lines l
  current : s'.currentPcmLineCounter = s.currentPcmLineCounter

theorem SameLines.refl (s : HapState) : SameLines s s := ⟨rfl, fun _ => rfl, rfl⟩

/-- `n` more lines of set `numSet`. -/
structure AddsLines (p : TagParams) (bitsOfSets numSet : Nat) (n : Int) (s s' : HapState) : Prop where
  samples : s'.sc.length = s.sc.length
  lines : ∀ l < s.sc.length, s'.lines l = s.lines l + if l = hapLow p bitsOfSets numSet ∧ l < 5 then n else 0
  current : s'.currentPcmLineCounter = s.currentPcmLineCounter +
    if hapLow p bitsOfSets numSet < 5 then 0 else BitVec.ofInt 32 n

theorem AddsLines.trans {p : TagParams} {bitsOfSets numSet : Nat} {m n : Int} {s s' s'' : HapState}
    (h₁ : AddsLines p bitsOfSets numSet m s s') (h₂ : AddsLines p bitsOfSets numSet n s' s'') :
    AddsLines p bitsOfSets numSet (m + n) s s'' := by
  refine ⟨h₂.samples.trans h₁.samples, fun l hl => ?_, ?_⟩
  · rw [h₂.lines l (by rw [h₁.samples]; exact hl), h₁.lines l hl]
    split <;> omega
  · rw [h₂.current, h₁.current, BitVec.add_assoc]
    split
    · rfl
    · rw [BitVec.ofInt_add]

theorem SameLines.adds {s s' : HapState} (h : SameLines s s') (p : TagParams) (bitsOfSets numSet : Nat) :
    AddsLines p bitsOfSets numSet 0 s s' := by
  refine ⟨h.samples, fun l _ => ?_, ?_⟩
  · rw [h.lines l, ite_self, Int.add_zero]
  · rw [h.current]
    split <;> exact (BitVec.add_zero _).symm

section Counters
variable {p : TagParams} {bitsOfSets : Nat} {t t' : Tags HapState} {pkt : Packet} {i : Nat}

theorem lines_modify (s : HapState) (low l : Nat) (f : SampleCounter → SampleCounter) (hl : l < s.sc.length) :
    HapState.lines { s with sc := s.sc.modify low f } l =
      if l = low then (f ((s.sc[l]?).getD {})).pcmLineCounter else s.lines l := by
  by_cases h : l = low
  · simp [HapState.lines, h ▸ hl, h]
  · simp [HapState.lines, h, Ne.symm h]

theorem hapAddPcmLine_adds (t : Tags HapState) (numSet : Nat) (n : Int) :
    AddsLines p bitsOfSets numSet n t.policy (hapAddPcmLine p bitsOfSets t numSet n).policy := by
  unfold hapAddPcmLine
  simp only
  split
  · rename_i hlow
    refine ⟨length_modify .., fun l hl => ?_, ?_⟩
    · refine (lines_modify t.policy _ l _ hl).trans ?_
      by_cases h : l = hapLow p bitsOfSets numSet
      · rw [if_pos h, if_pos ⟨h, h ▸ hlow⟩]
        rfl
      · rw [if_neg h, if_neg (fun hc => h hc.1), Int.add_zero]
    · rw [if_pos hlow]
      exact (BitVec.add_zero _).symm
  · rename_i hlow
    refine ⟨rfl, fun l hl => ?_, ?_⟩
    · rw [if_neg (by omega), Int.add_zero]
      rfl
    · rw [if_neg hlow]
      rfl

theorem modifySample_same {low : Nat} {f : SampleCounter → SampleCounter}
    (hf : ∀ c, (f c).pcmLineCounter = c.pcmLineCounter) : SameLines t.policy (modifySample t low f).policy := by
  refine ⟨length_modify .., fun l => ?_, rfl⟩
  simp only [modifySample, HapState.lines, getElem?_modify]
  cases t.policy.sc[l]? with
  | none => rfl
  | some c =>
    split
    · exact hf c
    · rfl

theorem addCost_same (pcmCost : BitVec 32) (t : Tags HapState) (pkt : Packet) (i : Nat) :
    SameLines t.policy (addCost p bitsOfSets pcmCost t pkt i).policy := by
  unfold addCost
  simp only
  split
  · exact modifySample_same fun _ => rfl
  · exact .refl _

theorem hap_access_same {addr : Nat} {isSecure : Bool} {cmd : MemCmd} {portId : Int} {b : Option Nat}
    (h : (hap p bitsOfSets).accessBlock t addr isSecure cmd portId = .ok (t', b)) : SameLines t.policy t'.policy := by
  obtain ⟨⟨t₁, b₁⟩, h₁, h⟩ := of_bind h
  have hpolicy : t₁.policy = t.policy := by
    cases b₁ with
    | none => rw [accessAndMove_miss h₁]
    | some i => exact reorder_policy (accessAndMove_hit h₁)
  cases h
  rw [← hpolicy]
  split
  · exact modifySample_same fun _ => rfl
  · exact .refl _

theorem hap_adapt_same {a : Adapt} (h : adaptTags (hap p bitsOfSets) t a = .ok t') :
    SameLines t.policy t'.policy := by
  cases a with
  | setWarmUp =>
    cases h
    exact .refl _
  | updateSomething lt =>
    obtain ⟨t₁, h₁, h⟩ := of_bind h
    obtain ⟨-, -, h₁⟩ := of_bind h₁
    cases h₁
    cases h
    refine ⟨length_map .., fun l => ?_, rfl⟩
    simp only [HapState.lines, getElem?_map]
    cases t.policy.sc[l]? <;> rfl
  | setRecord lt =>
    cases h
    exact .refl _

/-! ## What is counted -/

/-- 1 for a valid PCM block. -/
def pcmLine (b : CacheBlk) : Int := if b.valid && b.isPcm then 1 else 0

theorem pcmLine_valid {b : CacheBlk} (h : b.valid = true) : pcmLine b = if b.isPcm then 1 else 0 := by
  rw [pcmLine, h, Bool.true_and]

theorem insertCounted_adds (hlt : i < t.blocks.length)
    (h : insertCounted p (hapAddPcmLine p bitsOfSets) t pkt i = .ok t') :
    (t'.blk i).isPcm = decide (pkt.addr < p.watershed) ∧
    AddsLines p bitsOfSets (t.blk i).set (-pcmLine (t.blk i) + if pkt.addr < p.watershed then 1 else 0)
      t.policy t'.policy := by
  obtain ⟨t₂, hins, h⟩ := of_bind h
  have hfirst : (t₂.blk i).isPcm = decide (pkt.addr < p.watershed) ∧
      AddsLines p bitsOfSets (t.blk i).set (-pcmLine (t.blk i)) t.policy t₂.policy := by
    split at hins
    · rename_i hold
      have hlt₁ : i < (hapAddPcmLine p bitsOfSets t (t.blk i).set (-1)).blocks.length := by
        rw [(hapAddPcmLine_reordered ..).blocks]
        exact hlt
      obtain ⟨-, -, -, hpcm, hpolicy, -⟩ := insertBlock_spec hins hlt₁
      rw [hpolicy, pcmLine, if_pos hold]
      exact ⟨hpcm, hapAddPcmLine_adds ..⟩
    · rename_i hold
      obtain ⟨-, -, -, hpcm, hpolicy, -⟩ := insertBlock_spec hins hlt
      rw [hpolicy, pcmLine, if_neg hold]
      exact ⟨hpcm, (SameLines.refl _).adds ..⟩
  have hr := Reordered.reorder (fun _ _ => moveToHead_perm) h
  have hpolicy := reorder_policy h
  rw [hr.blk, hpolicy]
  split
  · refine ⟨by rw [(hapAddPcmLine_reordered ..).blk]; exact hfirst.1, hfirst.2.trans ?_⟩
    exact hapAddPcmLine_adds ..
  · exact ⟨hfirst.1, hfirst.2.trans ((SameLines.refl _).adds ..)⟩

theorem hap_insert_adds (hlt : i < t.blocks.length) (h : (hap p bitsOfSets).insertBlock t pkt i = .ok t') :
    (t'.blk i).isPcm = decide (pkt.addr < p.watershed) ∧
    AddsLines p bitsOfSets (t.blk i).set (-pcmLine (t.blk i) + if pkt.addr < p.watershed then 1 else 0)
      t.policy t'.policy := by
  dsimp only [hap] at h
  split at h
  · exact insertCounted_adds hlt h
  · have hr : Reordered t (addCost p bitsOfSets 4 t pkt i) := addCost_reordered ..
    obtain ⟨hpcm, hadds⟩ := insertCounted_adds (by rw [hr.blocks]; exact hlt) h
    rw [hr.blk] at hadds
    have htotal := ((addCost_same 4 t pkt i).adds p bitsOfSets (t.blk i).set).trans hadds
    rw [Int.zero_add] at htotal
    exact ⟨hpcm, htotal⟩

theorem hap_fill_adds (hlt : i < t.blocks.length) (h : (hap p bitsOfSets).insertBlock t pkt i = .ok t') :
    AddsLines p bitsOfSets (t.blk i).set
      (pcmLine ((t'.setBlk i ((t'.blk i).fill pkt.isSecure)).blk i) - pcmLine (t.blk i)) t.policy
      (t'.setBlk i ((t'.blk i).fill pkt.isSecure)).policy := by
  obtain ⟨hpcm, hadds⟩ := hap_insert_adds hlt h
  have hlt' : i < t'.blocks.length := by
    rw [(insert_touches (hap_lawful p bitsOfSets) hlt h).1.numBlocks]
    exact hlt
  have hnew : pcmLine ((t'.blk i).fill pkt.isSecure) = if pkt.addr < p.watershed then 1 else 0 := by
    rw [pcmLine_valid (by rfl)]
    simp [CacheBlk.fill, hpcm]
  rw [Tags.blk_setBlk_self hlt', hnew, Int.sub_eq_add_neg, Int.add_comm]
  exact hadds

theorem hap_invalidate_adds (h : (hap p bitsOfSets).invalidate t i = .ok t') :
    AddsLines p bitsOfSets (t.blk i).set (-pcmLine (t.blk i)) t.policy t'.policy := by
  have hrest {u : Tags HapState} (h : u.invalidateToTail p i = .ok t') :
      (u.blk i).valid = true ∧ t'.policy = u.policy := by
    obtain ⟨u₁, hinv, h⟩ := of_bind h
    obtain ⟨hvalid, -, -, hpolicy⟩ := invalidate_spec hinv
    exact ⟨hvalid, (reorder_policy h).trans hpolicy⟩
  obtain ⟨hvalid, hpolicy⟩ := hrest h
  rw [hpolicy]
  split
  · rename_i hpcm
    rw [if_pos hpcm, (hapAddPcmLine_reordered ..).blk] at hvalid
    rw [pcmLine_valid hvalid, if_pos hpcm]
    exact hapAddPcmLine_adds ..
  · rename_i hpcm
    rw [if_neg hpcm] at hvalid
    rw [pcmLine_valid hvalid, if_neg hpcm]
    exact (SameLines.refl _).adds ..

/-! ## Runs -/

/-- Any block may be inserted, between any other uses of the store; the caller makes it valid. -/
inductive HapOp where
  | insertBlock (pkt : Packet) (i : Nat)
  | tags (op : TagOp)

def hapStep (p : TagParams) (bitsOfSets : Nat) (t : Tags HapState) : HapOp → Except Stop (Tags HapState)
  | .insertBlock pkt i => do
    require (decide (i < p.numBlocks))
    let t ← (hap p bitsOfSets).insertBlock t pkt i
    pure (t.setBlk i ((t.blk i).fill pkt.isSecure))
  | .tags op => tagStep p (hap p bitsOfSets) t op

/-- A valid PCM block of a set whose low bits have the property. -/
def isPcmLine (p : TagParams) (bitsOfSets : Nat) (low : Nat → Bool) (b : CacheBlk) : Bool :=
  b.valid && b.isPcm && low (hapLow p bitsOfSets b.set)

def pcmLines (p : TagParams) (bitsOfSets : Nat) (low : Nat → Bool) (t : Tags HapState) : Nat :=
  t.blocks.countP (isPcmLine p bitsOfSets low)

structure LineInv (p : TagParams) (bitsOfSets : Nat) (t : Tags HapState) : Prop where
  placed : Placed p t
  samples : t.policy.sc.length = 5
  lines : ∀ l ≤ 4, t.policy.lines l = pcmLines p bitsOfSets (· == l) t
  current : t.policy.currentPcmLineCounter = BitVec.ofNat 32 (pcmLines p bitsOfSets (decide <| 5 ≤ ·) t)

theorem one_pcmLine (p : TagParams) (bitsOfSets : Nat) (low : Nat → Bool) (b : CacheBlk) :
    (one (isPcmLine p bitsOfSets low) b : Int) = if low (hapLow p bitsOfSets b.set) then pcmLine b else 0 := by
  unfold one isPcmLine pcmLine
  cases b.valid <;> cases b.isPcm <;> cases low (hapLow p bitsOfSets b.set) <;> rfl

/-- One block changes: its lines come and go. -/
theorem pcmLines_touched (h : Touches t t' i) (hlt : i < t.blocks.length) (low : Nat → Bool) :
    (pcmLines p bitsOfSets low t' : Int) = pcmLines p bitsOfSets low t +
      if low (hapLow p bitsOfSets (t.blk i).set) then pcmLine (t'.blk i) - pcmLine (t.blk i) else 0 := by
  have hcount : pcmLines p bitsOfSets low t' + one (isPcmLine p bitsOfSets low) (t.blk i) =
      pcmLines p bitsOfSets low t + one (isPcmLine p bitsOfSets low) (t'.blk i) := by
    rw [pcmLines, h.blocks]
    exact Tags.countP_setBlk _ hlt
  have hold := one_pcmLine p bitsOfSets low (t.blk i)
  have hnew := one_pcmLine p bitsOfSets low (t'.blk i)
  rw [h.set] at hnew
  by_cases hlow : low (hapLow p bitsOfSets (t.blk i).set) = true
  · rw [if_pos hlow] at hold hnew ⊢
    omega
  · rw [if_neg hlow] at hold hnew ⊢
    omega

theorem LineInv.touched (hi : LineInv p bitsOfSets t) (hp : Placed p t') (h : Touches t t' i) (hlt : i < p.numBlocks)
    (hadds : AddsLines p bitsOfSets (t.blk i).set (pcmLine (t'.blk i) - pcmLine (t.blk i)) t.policy t'.policy) :
    LineInv p bitsOfSets t' := by
  have hlt' : i < t.blocks.length := by
    rw [hi.placed.numBlocks]
    exact hlt
  refine ⟨hp, hadds.samples.trans hi.samples, fun l hl => ?_, ?_⟩
  · rw [hadds.lines l (by rw [hi.samples]; omega), hi.lines l hl, pcmLines_touched h hlt']
    simp only [beq_iff_eq, eq_comm (a := l), show l < 5 by omega, and_true]
  · rw [hadds.current, hi.current, ← BitVec.ofInt_natCast, ← BitVec.ofInt_natCast, pcmLines_touched h hlt',
      BitVec.ofInt_add]
    by_cases hlow : hapLow p bitsOfSets (t.blk i).set < 5
    · rw [if_pos hlow, if_neg (by simpa using hlow)]
      rfl
    · rw [if_neg hlow, if_pos (by simpa using Nat.le_of_not_lt hlow)]

theorem LineInv.same (hi : LineInv p bitsOfSets t) (hr : Reordered t t') (h : SameLines t.policy t'.policy) :
    LineInv p bitsOfSets t' := by
  have hcount (low : Nat → Bool) : pcmLines p bitsOfSets low t' = pcmLines p bitsOfSets low t := by
    rw [pcmLines, pcmLines, hr.blocks]
  refine ⟨hi.placed.reordered hr, h.samples.trans hi.samples, fun l hl => ?_, ?_⟩
  · rw [h.lines, hi.lines l hl, hcount]
  · rw [h.current, hi.current, hcount]

theorem LineInv.new (p : TagParams) (bitsOfSets : Nat) : LineInv p bitsOfSets (hap p bitsOfSets).new := by
  have hnone (low : Nat → Bool) : pcmLines p bitsOfSets low (hap p bitsOfSets).new = 0 := by
    refine countP_eq_zero.mpr fun b hb => ?_
    obtain ⟨j, -, rfl⟩ := mem_map.mp hb
    simp [isPcmLine]
  refine ⟨Placed.new (hap_lawful p bitsOfSets), length_replicate, fun l hl => ?_, ?_⟩
  · rw [hnone]
    change (((replicate 5 ({} : SampleCounter))[l]?).getD {}).pcmLineCounter = 0
    rw [getElem?_replicate, if_pos (by omega)]
    rfl
  · rw [hnone]
    rfl

theorem LineInv.tagOp {op : TagOp} {used : Option Nat} (hi : LineInv p bitsOfSets t)
    (h : tagOp p (hap p bitsOfSets) t op = .ok (t', used)) : LineInv p bitsOfSets t' := by
  have hT := hap_lawful p bitsOfSets
  have hp' := tagOp_placed hT hi.placed h
  cases op with
  | access addr isSecure cmd portId => exact hi.same (hT.accessBlock h).1 (hap_access_same h)
  | fill pkt rand =>
    obtain ⟨i, t₁, t₂, hv, hins, rfl, -, hmem, htouch, hvalid, -⟩ := fill_spec hT hi.placed h
    obtain rfl := hapFindVictim_same hv
    have hlt := ((hi.placed.mem_ways (p.extractSet_lt pkt.addr)).mp hmem).1
    exact hi.touched hp' htouch hlt (hap_fill_adds (by rw [hi.placed.numBlocks]; exact hlt) hins)
  | invalidate i =>
    obtain ⟨t₁, hinv, rfl, -, hlt, -, htouch, hinvalid, -⟩ := invalidation_spec hT hi.placed h
    refine hi.touched hp' htouch hlt ?_
    have hadds := hap_invalidate_adds hinv
    rw [show pcmLine _ = 0 by rw [pcmLine, hinvalid]; rfl, Int.zero_sub]
    exact hadds
  | adapt a =>
    obtain ⟨t₁, ha, h⟩ := of_bind h
    cases h
    exact hi.same (adaptTags_reordered hT ha) (hap_adapt_same ha)

theorem LineInv.step {op : HapOp} (hi : LineInv p bitsOfSets t) (h : hapStep p bitsOfSets t op = .ok t') :
    LineInv p bitsOfSets t' := by
  cases op with
  | insertBlock pkt i =>
    obtain ⟨_, hlt, h⟩ := of_bind h
    obtain ⟨t₂, hins, h⟩ := of_bind h
    cases h
    rw [require_eq_ok, decide_eq_true_eq] at hlt
    have hlt' : i < t.blocks.length := by
      rw [hi.placed.numBlocks]
      exact hlt
    obtain ⟨htouch, hways⟩ := insert_touches (hap_lawful p bitsOfSets) hlt' hins
    have htouch' := htouch.trans (setBlk_touches (b := (t₂.blk i).fill pkt.isSecure) rfl)
    exact hi.touched (hi.placed.touched htouch' hways) htouch' hlt (hap_fill_adds hlt' hins)
  | tags op =>
    obtain ⟨⟨t₁, used⟩, hop, h⟩ := of_bind h
    cases h
    exact hi.tagOp hop

/-- In every state of every run `sc[l].pcmLineCounter` is the number of valid PCM blocks of the sets whose low bits
  are `l`, and `currentPcmLineCounter` that of all other sets; the blocks of a set are those that name it. `numBlocks`
  is an `unsigned`. -/
theorem hap_counters_exact {h : List HapOp} (hn : p.numBlocks < 2 ^ 32)
    (hr : Exec (StepOf (hapStep p bitsOfSets)) (hap p bitsOfSets).new h t) :
    (∀ l ≤ 4, ∃ c, t.policy.sc[l]? = some c ∧ c.pcmLineCounter = (pcmLines p bitsOfSets (· == l) t : Int)) ∧
    t.policy.currentPcmLineCounter.toNat = pcmLines p bitsOfSets (decide <| 5 ≤ ·) t ∧
    ∀ n < p.numSets, ∀ i, i ∈ (t.setAt n).blks ↔ i < p.numBlocks ∧ (t.blk i).set = n := by
  have hi : LineInv p bitsOfSets t := hr.invariant (LineInv.new p bitsOfSets) fun _ _ _ hi hs => hi.step hs
  refine ⟨fun l hl => ?_, ?_, fun n hn i => ?_⟩
  · have hlt : l < t.policy.sc.length := by
      rw [hi.samples]
      omega
    refine ⟨_, getElem?_eq_getElem hlt, ?_⟩
    have hlines := hi.lines l hl
    rw [HapState.lines, getElem?_eq_getElem hlt, Option.getD_some] at hlines
    exact hlines
  · rw [hi.current, BitVec.toNat_ofNat]
    refine Nat.mod_eq_of_lt (Nat.lt_of_le_of_lt ?_ hn)
    calc pcmLines p bitsOfSets (decide <| 5 ≤ ·) t ≤ t.blocks.length := countP_le_length
      _ = p.numBlocks := hi.placed.numBlocks
  · rw [hi.placed.mem_ways hn]
    exact and_congr_right fun hlt => by rw [hi.placed.set i hlt]

end Counters

def sixteenSets : TagParams := { (oneSet 2 Nat.two_pos).toTagParams with setBits := 4 }

/-- A PCM block is replaced by a DRAM block in a sample set and another is invalidated. -/
theorem hap_counters_exact_run : ∃ t, Exec (StepOf (hapStep sixteenSets 1)) (hap sixteenSets 1).new
    [.insertBlock (writebackOf 2) 4, .insertBlock (writebackOf 7) 14, .insertBlock (writebackOf 1026) 4,
      .tags (.fill (writebackOf 2) 0), .tags (.invalidate 14)] t ∧
    ∃ c, t.policy.sc[2]? = some c ∧ c.pcmLineCounter = (pcmLines sixteenSets 1 (· == 2) t : Int) := by
  refine Exec.ends_with (p := fun _ => true) (by decide) fun t hr _ => ?_
  exact (hap_counters_exact (by decide) hr).1 2 (by decide)

end Gem5.Cache
