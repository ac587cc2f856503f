import Gem5Nvmain.Cache.TagRuns

/- The location that HYBDIP adapts (mem/cache/tags/hybdip.cc).

  `setLocation` starts at 128 and moves in steps of 8, so it is always a multiple of 8 (`Eighths`). The guard of the
  lower end tests the upper six bits, which are zero at 0 alone. The guard of the upper end compares with 0xfc, which
  is no multiple of 8: it never holds a step back, and the step at 248 wraps to 0. The ways computed from a location
  are its upper four bits, whatever the location is. -/
namespace Gem5.Cache
open Lib Gem5.Mem Tags List

variable {p : TagParams} {t t' : Tags DipState} {i : Nat}

/-! ## One adjustment -/

/-- `setLocation[set]`. -/
def setLocationOf (t : Tags DipState) (set : Nat) : BitVec 8 := (t.policy.setLocation[set]?).getD 0

/-- A location that steps of 8 can reach. -/
def Eighths (l : BitVec 8) : Prop := l &&& 7 = 0

instance (l : BitVec 8) : Decidable (Eighths l) := inferInstanceAs (Decidable (l &&& 7 = 0))

/-- What a miss does to the location of its set. -/
def adjusted (isPcm : Bool) (l : BitVec 8) : BitVec 8 :=
  if isPcm then (if l &&& 0xfc ≠ 0 then l - 8 else l) else (if l ^^^ 0xfc ≠ 0 then l + 8 else l)

theorem adjusted_eighths : ∀ (isPcm : Bool) (l : BitVec 8), Eighths l → Eighths (adjusted isPcm l) := by
  decide

theorem adjusted_pcm_le : ∀ l : BitVec 8, Eighths l → (adjusted true l).toNat ≤ l.toNat := by
  decide

theorem le_adjusted_dram : ∀ l : BitVec 8, Eighths l → (l.toNat ≤ (adjusted false l).toNat ↔ l ≠ 248) := by
  decide

theorem setLocationOf_dipAdjust {set : Nat} (hset : set < t.policy.setLocation.length) (isPcm : Bool) (n : Nat) :
    setLocationOf (dipAdjust t set isPcm 8) n =
      if n = set then adjusted isPcm (setLocationOf t n) else setLocationOf t n := by
  simp only [setLocationOf, dipAdjust]
  by_cases hn : n = set
  · subst hn
    rw [if_pos rfl, getElem?_modify_eq, getElem?_eq_getElem hset]
    rfl
  · rw [if_neg hn, getElem?_modify_ne _ _ (Ne.symm hn)]

/-! ## One call -/

/-- The locations are multiples of 8. -/
structure Tuned (p : TagParams) (t : Tags DipState) : Prop where
  numBlocks : t.blocks.length = p.numBlocks
  length : t.policy.setLocation.length = p.numSets
  eighths : ∀ n, Eighths (setLocationOf t n)

theorem Tuned.new (p : TagParams) : Tuned p (hybDip p).new := by
  refine ⟨?_, length_replicate, fun n => ?_⟩
  · show ((range p.numBlocks).map _).length = p.numBlocks
    rw [length_map, length_range]
  · show Eighths ((replicate p.numSets (128 : BitVec 8))[n]?.getD 0)
    rw [getElem?_replicate]
    split
    · show Eighths 128
      decide
    · show Eighths 0
      decide

theorem Tuned.same (h : Tuned p t) (hlen : t'.blocks.length = t.blocks.length) (hpolicy : t'.policy = t.policy) :
    Tuned p t' := by
  refine ⟨hlen.trans h.numBlocks, ?_, fun n => ?_⟩
  · rw [hpolicy]
    exact h.length
  · rw [setLocationOf, hpolicy]
    exact h.eighths n

/-- A miss that is no writeback, in a cache that has warmed up. -/
def misses (t : Tags DipState) (pkt : Packet) : Bool := t.warmedUp && pkt.cmd != .writeback

theorem dipHit_policy {steps : Nat → Nat} (h : dipHit steps t i = .ok t') : t'.policy = t.policy := by
  unfold dipHit at h
  split at h
  · obtain ⟨location, -, h⟩ := of_bind h
    exact reorder_policy h
  · exact reorder_policy h

/-- The location of the set of the packet is adjusted on a miss, and no other. -/
theorem hybDipInsert_location {pkt : Packet} (hlen : t.policy.setLocation.length = p.numSets)
    (h : hybDipInsert p t pkt i = .ok t') :
    t'.policy.setLocation.length = t.policy.setLocation.length ∧ ∀ n, setLocationOf t' n =
      if n = p.extractSet pkt.addr ∧ misses t pkt = true then adjusted (t.blk i).isPcm (setLocationOf t n)
      else setLocationOf t n := by
  unfold hybDipInsert at h
  simp only at h
  split at h
  · rename_i hwarm
    obtain ⟨u, hmove, h⟩ := of_bind h
    have hpolicy : u.policy = t.policy := by
      split at hmove
      · exact reorder_policy hmove
      · split at hmove
        · obtain ⟨location, -, hmove⟩ := of_bind hmove
          obtain ⟨-, -, hmove⟩ := of_bind hmove
          exact reorder_policy hmove
        · exact reorder_policy hmove
    have hsame (n : Nat) : setLocationOf u n = setLocationOf t n := by
      rw [setLocationOf, hpolicy]
      rfl
    by_cases hcmd : pkt.cmd = .writeback
    · have hno : misses t pkt = false := by simp [misses, hcmd]
      rw [if_pos hcmd] at h
      cases h
      refine ⟨by rw [hpolicy], fun n => ?_⟩
      rw [hno, if_neg (by simp)]
      exact hsame n
    · have hyes : misses t pkt = true := by simp [misses, hcmd, hwarm]
      have hset : p.extractSet pkt.addr < u.policy.setLocation.length := by
        rw [hpolicy, hlen]
        exact p.extractSet_lt pkt.addr
      rw [if_neg hcmd] at h
      cases h
      refine ⟨?_, fun n => ?_⟩
      · show (u.policy.setLocation.modify _ _).length = _
        rw [length_modify, hpolicy]
      · rw [setLocationOf_dipAdjust hset, hsame, hyes]
        simp only [and_true]
  · rename_i hcold
    have hno : misses t pkt = false := by simp [misses, hcold]
    have hpolicy := reorder_policy h
    refine ⟨by rw [hpolicy], fun n => ?_⟩
    rw [hno, if_neg (by simp), setLocationOf, hpolicy]
    rfl

/-- What a call does to the locations. -/
def callLocation (p : TagParams) (t : Tags DipState) (n : Nat) : TagCall → BitVec 8
  | .insertBlock pkt _ =>
    if n = p.extractSet pkt.addr ∧ misses t pkt = true then adjusted (decide (pkt.addr < p.watershed)) (setLocationOf t n)
    else setLocationOf t n
  | _ => setLocationOf t n

theorem callStep_location {op : TagCall} (h : Tuned p t) (hstep : callStep p (hybDip p) t op = .ok t') :
    Tuned p t' ∧ ∀ n, setLocationOf t' n = callLocation p t n op := by
  have hsame {u : Tags DipState} (hlen : u.blocks.length = t.blocks.length) (hpolicy : u.policy = t.policy) :
      Tuned p u ∧ ∀ n, setLocationOf u n = setLocationOf t n :=
    ⟨h.same hlen hpolicy, fun n => by rw [setLocationOf, hpolicy]; rfl⟩
  cases op with
  | accessBlock addr isSecure cmd portId =>
    obtain ⟨⟨u, b⟩, hacc, hu⟩ := of_bind hstep
    cases hu
    have hblocks := congrArg length ((hybDip_lawful p).accessBlock hacc).1.blocks
    dsimp only [hybDip] at hacc
    unfold accessAndMove at hacc
    split at hacc
    · cases hacc
      exact hsame rfl rfl
    · obtain ⟨v, hmove, hacc⟩ := of_bind hacc
      cases hacc
      exact hsame hblocks (dipHit_policy hmove)
  | findVictim addr rand =>
    obtain ⟨⟨u, b⟩, hvictim, hu⟩ := of_bind hstep
    cases hu
    obtain ⟨rfl, -⟩ := lastWay_eq_ok.mp hvictim
    exact hsame rfl rfl
  | insertBlock pkt i =>
    obtain ⟨_, hlt, hins⟩ := of_bind hstep
    obtain ⟨u, hbase, hplace⟩ := of_bind hins
    have hi : i < t.blocks.length := by
      rw [h.numBlocks]
      simpa using hlt
    obtain ⟨-, htouch, -, hisPcm, hpolicy, hwarm⟩ := insertBlock_spec hbase hi
    have hu := h.same htouch.numBlocks hpolicy
    obtain ⟨hlen, hloc⟩ := hybDipInsert_location hu.length hplace
    have hmiss : misses u pkt = misses t pkt := by rw [misses, misses, hwarm]
    have hlocation : ∀ n, setLocationOf t' n = callLocation p t n (.insertBlock pkt i) := by
      intro n
      rw [hloc n, hmiss, hisPcm, setLocationOf, hpolicy]
      rfl
    have hblocks := congrArg length (hybDipInsert_reordered hplace).blocks
    refine ⟨⟨hblocks.trans hu.numBlocks, hlen.trans hu.length, fun n => ?_⟩, hlocation⟩
    rw [hlocation n, callLocation]
    split
    · exact adjusted_eighths _ _ (h.eighths n)
    · exact h.eighths n
  | invalidate i =>
    obtain ⟨_, -, hinv⟩ := of_bind hstep
    obtain ⟨u, hbase, hmove⟩ := of_bind hinv
    obtain ⟨-, -, htouch, hpolicy⟩ := invalidate_spec hbase
    have hblocks := congrArg length (moveBlk_reordered (fun _ _ => moveToTail_perm) hmove).blocks
    exact hsame (hblocks.trans htouch.numBlocks) ((reorder_policy hmove).trans hpolicy)
  | setWarmUp =>
    cases hstep
    exact hsame rfl rfl
  | block i b =>
    cases hstep
    exact hsame length_set rfl

/-! ## Runs -/

/-- A DRAM miss does not lower the location of its set, and a PCM miss does not raise it. -/
def Saturates (p : TagParams) (t : Tags DipState) (op : TagCall) (t' : Tags DipState) : Prop :=
  match op with
  | .insertBlock pkt _ => misses t pkt = true →
    if pkt.addr < p.watershed then
      (setLocationOf t' (p.extractSet pkt.addr)).toNat ≤ (setLocationOf t (p.extractSet pkt.addr)).toNat
    else (setLocationOf t (p.extractSet pkt.addr)).toNat ≤ (setLocationOf t' (p.extractSet pkt.addr)).toNat
  | _ => True

/-- A DRAM miss in a set whose location is 248. -/
def AtTop (p : TagParams) (t : Tags DipState) (op : TagCall) : Prop :=
  match op with
  | .insertBlock pkt _ => misses t pkt = true ∧ p.watershed ≤ pkt.addr ∧ setLocationOf t (p.extractSet pkt.addr) = 248
  | _ => False

theorem saturates_iff {op : TagCall} (h : Tuned p t) (hstep : callStep p (hybDip p) t op = .ok t') :
    Saturates p t op t' ↔ ¬AtTop p t op := by
  have hlocation := (callStep_location h hstep).2
  cases op with
  | insertBlock pkt i =>
    have hafter := hlocation (p.extractSet pkt.addr)
    have heighths := h.eighths (p.extractSet pkt.addr)
    simp only [callLocation, true_and] at hafter
    simp only [Saturates]
    by_cases hmiss : misses t pkt = true
    · rw [if_pos hmiss] at hafter
      by_cases hpcm : pkt.addr < p.watershed
      · rw [hafter, if_pos hpcm, decide_eq_true hpcm]
        exact ⟨fun _ h => absurd h.2.1 (Nat.not_le.mpr hpcm), fun _ _ => adjusted_pcm_le _ heighths⟩
      · have hdram := le_adjusted_dram _ heighths
        rw [hafter, if_neg hpcm, decide_eq_false hpcm]
        constructor
        · intro hle htop
          exact hdram.mp (hle hmiss) htop.2.2
        · intro hno _
          exact hdram.mpr fun htop => hno ⟨hmiss, Nat.not_lt.mp hpcm, htop⟩
    · exact ⟨fun _ h => hmiss h.1, fun _ h => absurd h hmiss⟩
  | _ => exact ⟨fun _ h => h, fun _ => trivial⟩

theorem dipLocation_lt {set location : Nat} (h : dipLocation t set = .ok location) : location < 16 := by
  obtain ⟨l, -, h⟩ := of_bind h
  cases h
  rw [BitVec.toNat_ushiftRight, Nat.shiftRight_eq_div_pow]
  omega

/-- The locations of a run saturate exactly when no DRAM miss comes at 248. With 16 ways the places that are computed
  from them are ways of the set. -/
theorem hybDip_saturates_iff (p : TagParams) (ops : List TagCall) :
    (EachStep (StepOf (callStep p (hybDip p))) (hybDip p).new ops (Saturates p) ↔
      EachStep (StepOf (callStep p (hybDip p))) (hybDip p).new ops fun t op _ => ¬AtTop p t op) ∧
    ∀ t, Exec (StepOf (callStep p (hybDip p))) (hybDip p).new ops t → p.assoc = 16 →
      ∀ set location, dipLocation t set = .ok location →
        location < p.assoc ∧ toUInt8 (p.assoc - location - 1) = p.assoc - location - 1 := by
  constructor
  · apply EachStep.congr (Tuned.new p)
    · intro t op u ht hstep
      exact (callStep_location ht hstep).1
    · intro t op u ht hstep
      exact saturates_iff ht hstep
  · intro t _ hassoc set location hloc
    have hlt := dipLocation_lt hloc
    unfold toUInt8
    omega

/-- One set of 16 ways, and DRAM only. -/
def dipOneSet : TagParams where
  setShift := 6
  setBits := 0
  assoc := 16
  watershed := 0
  maxMasters := 1
  setShift_ge := TagParams.two_le_six
  assoc_pos := by decide
  maxMasters_lt := TagParams.one_master

/-- The `k`-th of a row of DRAM misses. The victim is the last way, and the block goes to the way before it. -/
def dramMiss (k : Nat) : TagCall :=
  .insertBlock { cmd := .readResp, req := { paddr := 64 * k, size := 64, masterId := 0 }, addr := 64 * k, size := 64 }
    (15 - k % 2)

/-- A DRAM block at 128, and the places after it. -/
theorem hybDip_saturates_first : ∃ t, Exec (StepOf (callStep dipOneSet (hybDip dipOneSet))) (hybDip dipOneSet).new
      [.setWarmUp, dramMiss 0] t ∧
    dipLocation t 0 = .ok 8 ∧ toUInt8 (dipOneSet.assoc - 8 - 1) = dipOneSet.assoc - 8 - 1 := by
  refine Exec.ends_with (p := fun t => decide (dipLocation t 0 = .ok 8)) (by decide) fun t hr ht => ?_
  have hloc := of_decide_eq_true ht
  exact ⟨hloc, ((hybDip_saturates_iff dipOneSet _).2 t hr rfl 0 8 hloc).2⟩

/-- Sixteen DRAM misses take the location from 128 to 248 and then to 0. -/
theorem dram_miss_wraps : ∃ t u, Exec (StepOf (callStep dipOneSet (hybDip dipOneSet))) (hybDip dipOneSet).new
      (.setWarmUp :: (range 15).map dramMiss) t ∧
    callStep dipOneSet (hybDip dipOneSet) t (dramMiss 15) = .ok u ∧
    setLocationOf t 0 = 248 ∧ setLocationOf u 0 = 0 := by
  refine Exec.ends_with_two (p := fun t => match callStep dipOneSet (hybDip dipOneSet) t (dramMiss 15) with
        | .ok u => decide (setLocationOf t 0 = 248 ∧ setLocationOf u 0 = 0)
        | .error _ => false) (by decide) fun t hr ht => ?_
  split at ht
  · rename_i u hu
    obtain ⟨hbefore, hafter⟩ := of_decide_eq_true ht
    exact ⟨u, hu, hbefore, hafter⟩
  · cases ht

end Gem5.Cache
