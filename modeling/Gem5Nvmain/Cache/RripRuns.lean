import Gem5Nvmain.Cache.InvalidFirst

/- The re-reference counters of HYBRRIP over whole runs (mem/cache/tags/hybrrip.cc).

  `findVictim` ages the blocks of a set until the counter of one of them is exactly `assoc - 1`. It ends because no
  counter is ever above that value (`Ranked`): the constructor starts there, the other writers give values below, and
  the search itself stops at the first pass in which the largest counter has arrived. A run is any order of calls of
  the four functions, of the warm-up and of changes that the cache makes to its blocks. -/
namespace Gem5.Cache
open Lib Gem5.Mem Tags List Nat

/-! ## The search -/

/-- The counter of a block. -/
def rrpvOf (rrpv : List (BitVec 8)) (i : Nat) : Nat := ((rrpv[i]?).getD 0).toNat

section Search
variable {assoc fuel m i : Nat} {ways : List Nat} {rrpv rrpv' : List (BitVec 8)}

/-- One pass of ageing raises each counter of the set by one, where none wraps. -/
theorem age_rrpvOf (hnodup : ways.Nodup) (hin : ∀ j ∈ ways, j < rrpv.length ∧ rrpvOf rrpv j < 255) :
    ∀ j ∈ ways, rrpvOf (ways.foldl (fun r i => r.modify i (· + 1)) rrpv) j = rrpvOf rrpv j + 1 := by
  induction ways generalizing rrpv with
  | nil => exact fun j hj => absurd hj not_mem_nil
  | cons i ways ih =>
    obtain ⟨hi, hnodup⟩ := nodup_cons.mp hnodup
    obtain ⟨⟨hlen, hlt⟩, hrest⟩ := forall_mem_cons.mp hin
    have hself : rrpvOf (rrpv.modify i (· + 1)) i = rrpvOf rrpv i + 1 := by
      unfold rrpvOf at hlt ⊢
      rw [getElem?_modify_eq, getElem?_eq_getElem hlen] at *
      simp only [Option.getD_some] at hlt ⊢
      exact mod_eq_of_lt (by simp; omega)
    have hother : ∀ j, j ≠ i → rrpvOf (rrpv.modify i (· + 1)) j = rrpvOf rrpv j := by
      intro j hj
      rw [rrpvOf, rrpvOf, getElem?_modify_ne _ _ (Ne.symm hj)]
    intro j hj
    rw [foldl_cons]
    rcases mem_cons.mp hj with rfl | hj
    · rw [rrpvOf, (age_spec ways _).2 j hi]
      exact hself
    · have hne : j ≠ i := fun h => hi (h ▸ hj)
      rw [← hother j hne]
      apply ih hnodup _ j hj
      intro k hk
      have hki : k ≠ i := fun h => hi (h ▸ hk)
      rw [length_modify, hother k hki]
      exact hrest k hk

/-- What the search returns when `m` is the largest counter: the first block that has it, and every counter raised by
  what was missing. -/
structure Victim (assoc : Nat) (ways : List Nat) (m : Nat) (rrpv rrpv' : List (BitVec 8)) (i : Nat) : Prop where
  first : ways.find? (fun j => rrpvOf rrpv j == m) = some i
  raised : ∀ j ∈ ways, rrpvOf rrpv' j = rrpvOf rrpv j + (assoc - 1 - m)
  others : ∀ j ∉ ways, rrpv'[j]? = rrpv[j]?
  length : rrpv'.length = rrpv.length

theorem find?_congr_mem {l : List Nat} {q r : Nat → Bool} (h : ∀ j ∈ l, q j = r j) : l.find? q = l.find? r := by
  induction l with
  | nil => rfl
  | cons a l ih =>
    obtain ⟨ha, hrest⟩ := forall_mem_cons.mp h
    rw [find?_cons, find?_cons, ha, ih hrest]

/-- The search ends: the largest counter comes one nearer to `assoc - 1` with every pass. -/
theorem rripSearch_ends (hassoc : assoc ≤ 256) (hnodup : ways.Nodup) (hlen : ∀ j ∈ ways, j < rrpv.length)
    (hmax : ∀ j ∈ ways, rrpvOf rrpv j ≤ m) (hat : ∃ j ∈ ways, rrpvOf rrpv j = m) (hm : m ≤ assoc - 1)
    (hfuel : assoc - 1 - m < fuel) :
    ∃ rrpv' i, rripSearch assoc ways fuel rrpv = .ok (rrpv', i) ∧ Victim assoc ways m rrpv rrpv' i := by
  induction fuel generalizing rrpv m with
  | zero => cases hfuel
  | succ fuel ih =>
    simp only [rripSearch]
    cases hfind : ways.find? fun i => ((rrpv[i]?).getD 0).toNat == assoc - 1 with
    | some i =>
      -- the largest counter has arrived
      have hi : rrpvOf rrpv i = assoc - 1 := by
        have h := find?_some hfind
        exact beq_iff_eq.mp h
      have hle := hmax i (mem_of_find?_eq_some hfind)
      obtain rfl : m = assoc - 1 := by omega
      refine ⟨rrpv, i, rfl, hfind, fun j _ => ?_, fun _ _ => rfl, rfl⟩
      rw [Nat.sub_self, Nat.add_zero]
    | none =>
      have hbelow : m < assoc - 1 := by
        obtain ⟨j, hj, hjm⟩ := hat
        have hne : rrpvOf rrpv j ≠ assoc - 1 := fun h => find?_eq_none.mp hfind j hj (beq_iff_eq.mpr h)
        omega
      have hsmall : ∀ j ∈ ways, j < rrpv.length ∧ rrpvOf rrpv j < 255 := by
        intro j hj
        have hle := hmax j hj
        exact ⟨hlen j hj, by omega⟩
      have hage := age_rrpvOf hnodup hsmall
      obtain ⟨hlength, hother⟩ := age_spec ways rrpv
      generalize ways.foldl (fun r i => r.modify i (· + 1)) rrpv = aged at hage hlength hother
      have hlen' : ∀ j ∈ ways, j < aged.length := by
        rw [hlength]
        exact hlen
      have hmax' : ∀ j ∈ ways, rrpvOf aged j ≤ m + 1 := by
        intro j hj
        rw [hage j hj]
        exact succ_le_succ (hmax j hj)
      have hat' : ∃ j ∈ ways, rrpvOf aged j = m + 1 := by
        obtain ⟨j, hj, hjm⟩ := hat
        exact ⟨j, hj, by rw [hage j hj, hjm]⟩
      obtain ⟨rrpv', i, hsearch, hv⟩ := ih hlen' hmax' hat' hbelow (by omega)
      refine ⟨rrpv', i, hsearch, ?_, fun j hj => ?_, fun j hj => (hv.others j hj).trans (hother j hj),
        hv.length.trans hlength⟩
      · rw [← hv.first]
        apply find?_congr_mem
        intro j hj
        rw [hage j hj, Bool.eq_iff_iff, beq_iff_eq, beq_iff_eq]
        omega
      · rw [hv.raised j hj, hage j hj]
        omega

end Search

/-! ## The tag store -/

section Store
variable {p : TagParams} {t t' : Tags RripState} {i : Nat}

/-- The ways of each set are in the order of the constructor, and no counter is above `assoc - 1`. -/
structure Ranked (p : TagParams) (t : Tags RripState) : Prop where
  numBlocks : t.blocks.length = p.numBlocks
  ways : ∀ s < p.numSets, (t.setAt s).blks = (range p.assoc).map fun j => s * p.assoc + j
  length : t.policy.rrpv.length = p.numBlocks
  bound : ∀ j, rrpvOf t.policy.rrpv j ≤ p.assoc - 1

theorem rrpvOf_set (rrpv : List (BitVec 8)) (i : Nat) (v : BitVec 8) (j : Nat) :
    rrpvOf (rrpv.set i v) j = v.toNat ∨ rrpvOf (rrpv.set i v) j = rrpvOf rrpv j := by
  by_cases hij : i = j
  · subst hij
    by_cases hlt : i < rrpv.length
    · left
      rw [rrpvOf, getElem?_set_self hlt, Option.getD_some]
    · right
      rw [set_eq_of_length_le (Nat.le_of_not_lt hlt)]
  · right
    rw [rrpvOf, rrpvOf, getElem?_set_ne hij]

theorem Ranked.setRrpv (h : Ranked p t) {v : BitVec 8} (hv : v.toNat ≤ p.assoc - 1) : Ranked p (setRrpv t i v) := by
  refine ⟨h.numBlocks, h.ways, length_set.trans h.length, fun j => ?_⟩
  rcases rrpvOf_set t.policy.rrpv i v j with hj | hj
  · exact Nat.le_trans (Nat.le_of_eq hj) hv
  · exact Nat.le_trans (Nat.le_of_eq hj) (h.bound j)

theorem Ranked.same (h : Ranked p t) (horder : SameOrder t t') (hlen : t'.blocks.length = t.blocks.length)
    (hpolicy : t'.policy = t.policy) : Ranked p t' := by
  refine ⟨hlen.trans h.numBlocks, fun s hs => (horder s).trans (h.ways s hs), ?_, ?_⟩
  · rw [hpolicy]
    exact h.length
  · rw [hpolicy]
    exact h.bound

theorem Ranked.new (p : TagParams) : Ranked p (hybRrip p).new := by
  refine ⟨?_, fun s hs => ?_, length_replicate, fun j => ?_⟩
  · show ((range p.numBlocks).map _).length = p.numBlocks
    rw [length_map, length_range]
  · have hset : (hybRrip p).new.sets[s]? = some { blks := (range p.assoc).map fun j => s * p.assoc + j } := by
      simp only [hybRrip, Tags.new]
      rw [getElem?_map, getElem?_range hs, Option.map_some]
    rw [Tags.setAt, hset, Option.getD_some]
  · show ((replicate p.numBlocks (BitVec.ofNat 8 (p.assoc - 1)))[j]?.getD 0).toNat ≤ p.assoc - 1
    rw [getElem?_replicate]
    split
    · exact mod_le _ _
    · exact zero_le _

theorem hit_value_le (hassoc : p.assoc ≤ 256) (c : Bool) :
    (if c then BitVec.ofNat 8 (p.assoc / 2) else 0).toNat ≤ p.assoc - 1 := by
  have hpos := p.assoc_pos
  split
  · rw [BitVec.toNat_ofNat, mod_eq_of_lt (by omega)]
    omega
  · exact zero_le _

theorem insert_value_le (h2 : 2 ≤ p.assoc) (hassoc : p.assoc ≤ 256) (c w : Bool) :
    (if c then (if w then BitVec.ofNat 8 (p.assoc / 2) else BitVec.ofInt 8 (p.assoc - 2)) else 0).toNat ≤ p.assoc - 1 := by
  split
  · split
    · rw [BitVec.toNat_ofNat, mod_eq_of_lt (by omega)]
      omega
    · rw [BitVec.toNat_ofInt]
      omega
  · exact zero_le _

theorem wayNodup (s : Nat) : ((range p.assoc).map fun j => s * p.assoc + j).Nodup :=
  nodup_range.map fun _ _ h => Nat.add_left_cancel h

theorem way_lt {s v : Nat} (hs : s < p.numSets) (hv : v < p.assoc) : s * p.assoc + v < p.numBlocks := by
  calc s * p.assoc + v < (s + 1) * p.assoc := by rw [succ_mul]; omega
    _ ≤ p.numSets * p.assoc := mul_le_mul_right _ hs

theorem exists_max (f : Nat → Nat) (n : Nat) : ∃ v ≤ n, ∀ j ≤ n, f j ≤ f v := by
  induction n with
  | zero =>
    refine ⟨0, Nat.le_refl 0, fun j hj => ?_⟩
    obtain rfl := le_zero.mp hj
    exact Nat.le_refl _
  | succ n ih =>
    obtain ⟨v, hv, hmax⟩ := ih
    rcases Nat.le_total (f v) (f (n + 1)) with hle | hle
    · refine ⟨n + 1, Nat.le_refl _, fun j hj => ?_⟩
      rcases le_or_eq_of_le_succ hj with hj | rfl
      · exact Nat.le_trans (hmax j hj) hle
      · exact Nat.le_refl _
    · refine ⟨v, le_succ_of_le hv, fun j hj => ?_⟩
      rcases le_or_eq_of_le_succ hj with hj | rfl
      · exact hmax j hj
      · exact hle

/-- The search in a set of the store. -/
theorem findVictim_ends (h : Ranked p t) (hassoc : p.assoc ≤ 256) (addr rand : Nat) :
    ∃ rrpv' i m, (hybRrip p).findVictim t addr rand = .ok ({ t with policy := ⟨rrpv'⟩ }, i) ∧
      (∀ j < p.assoc, rrpvOf t.policy.rrpv (p.extractSet addr * p.assoc + j) ≤ m) ∧ m ≤ p.assoc - 1 ∧
      Victim p.assoc ((range p.assoc).map fun j => p.extractSet addr * p.assoc + j) m t.policy.rrpv rrpv' i := by
  have hs := p.extractSet_lt addr
  have hpos := p.assoc_pos
  obtain ⟨w, hw, hmax⟩ :=
    exists_max (fun j => rrpvOf t.policy.rrpv (p.extractSet addr * p.assoc + j)) (p.assoc - 1)
  have hm := h.bound (p.extractSet addr * p.assoc + w)
  have hin : ∀ j ∈ (range p.assoc).map (fun v => p.extractSet addr * p.assoc + v), j < t.policy.rrpv.length ∧
      rrpvOf t.policy.rrpv j ≤ rrpvOf t.policy.rrpv (p.extractSet addr * p.assoc + w) := by
    intro j hj
    obtain ⟨v, hv, rfl⟩ := mem_map.mp hj
    have hv := mem_range.mp hv
    rw [h.length]
    exact ⟨way_lt hs hv, hmax v (by omega)⟩
  have hat : p.extractSet addr * p.assoc + w ∈ (range p.assoc).map (fun v => p.extractSet addr * p.assoc + v) :=
    mem_map.mpr ⟨w, mem_range.mpr (by omega), rfl⟩
  have hfuel : p.assoc - 1 - rrpvOf t.policy.rrpv (p.extractSet addr * p.assoc + w) < 256 + 1 := by omega
  obtain ⟨rrpv', i, hsearch, hv⟩ := rripSearch_ends hassoc (wayNodup (p.extractSet addr)) (fun j hj => (hin j hj).1)
    (fun j hj => (hin j hj).2) ⟨_, hat, rfl⟩ hm hfuel
  refine ⟨rrpv', i, _, ?_, fun j hj => hmax j (by omega), hm, hv⟩
  rw [← h.ways _ hs] at hsearch
  exact bind_eq_ok.mpr ⟨(rrpv', i), hsearch, rfl⟩

theorem Victim.bound {assoc m : Nat} {ways : List Nat} {rrpv rrpv' : List (BitVec 8)}
    (hv : Victim assoc ways m rrpv rrpv' i) (hm : m ≤ assoc - 1) (hmax : ∀ j ∈ ways, rrpvOf rrpv j ≤ m)
    (hbound : ∀ j, rrpvOf rrpv j ≤ assoc - 1) (j : Nat) : rrpvOf rrpv' j ≤ assoc - 1 := by
  by_cases hj : j ∈ ways
  · have hle := hmax j hj
    rw [hv.raised j hj]
    omega
  · rw [rrpvOf, hv.others j hj]
    exact hbound j

theorem callStep_ranked {op : TagCall} (h2 : 2 ≤ p.assoc) (hassoc : p.assoc ≤ 256) (h : Ranked p t)
    (hstep : callStep p (hybRrip p) t op = .ok t') : Ranked p t' := by
  cases op with
  | accessBlock addr isSecure cmd portId =>
    obtain ⟨⟨u, b⟩, hacc, hu⟩ := of_bind hstep
    cases hu
    dsimp only [hybRrip] at hacc
    unfold accessAndMove at hacc
    split at hacc
    · cases hacc
      exact h
    · cases hacc
      exact h.setRrpv (hit_value_le hassoc _)
  | findVictim addr rand =>
    obtain ⟨⟨u, b⟩, hvictim, hu⟩ := of_bind hstep
    cases hu
    obtain ⟨rrpv', i, m, hfound, hmax, hm, hv⟩ := findVictim_ends h hassoc addr rand
    rw [hfound] at hvictim
    cases hvictim
    refine ⟨h.numBlocks, h.ways, hv.length.trans h.length, hv.bound hm (fun j hj => ?_) h.bound⟩
    obtain ⟨w, hw, rfl⟩ := mem_map.mp hj
    exact hmax w (mem_range.mp hw)
  | insertBlock pkt i =>
    obtain ⟨_, hlt, hins⟩ := of_bind hstep
    obtain ⟨u, hbase, hmove⟩ := of_bind hins
    cases hmove
    have hi : i < t.blocks.length := by
      rw [h.numBlocks]
      simpa using hlt
    obtain ⟨horder, htouch, -, -, hpolicy, -⟩ := insertBlock_spec hbase hi
    have hu := h.same horder htouch.numBlocks hpolicy
    apply hu.setRrpv
    have hvalue := insert_value_le h2 hassoc (u.warmedUp && !(u.blk i).isPcm) (decide (pkt.cmd = .writeback))
    simpa only [decide_eq_true_eq] using hvalue
  | invalidate i =>
    obtain ⟨_, -, hinv⟩ := of_bind hstep
    obtain ⟨u, hbase, hmove⟩ := of_bind hinv
    cases hmove
    obtain ⟨-, horder, htouch, hpolicy⟩ := invalidate_spec hbase
    apply (h.same horder htouch.numBlocks hpolicy).setRrpv
    exact mod_le _ _
  | setWarmUp =>
    cases hstep
    exact ⟨h.numBlocks, h.ways, h.length, h.bound⟩
  | block i b =>
    cases hstep
    exact ⟨length_set.trans h.numBlocks, h.ways, h.length, h.bound⟩

theorem ranked_of_run {ops : List TagCall} (h2 : 2 ≤ p.assoc) (hassoc : p.assoc ≤ 256)
    (hr : Exec (StepOf (callStep p (hybRrip p))) (hybRrip p).new ops t) : Ranked p t := by
  apply hr.invariant (Ranked.new p)
  intro t op u ht hstep
  exact callStep_ranked h2 hassoc ht hstep

/-- Every state of a run: no counter is above `assoc - 1`, and the search in any set ends. It returns the first way
  among those with the largest counter `m`, and raises every counter of the set by `assoc - 1 - m`. -/
theorem hybRrip_findVictim_first {ops : List TagCall} (h2 : 2 ≤ p.assoc) (hassoc : p.assoc ≤ 256)
    (hr : Exec (StepOf (callStep p (hybRrip p))) (hybRrip p).new ops t) :
    (∀ i < p.numBlocks, rrpvOf t.policy.rrpv i ≤ p.assoc - 1) ∧ ∀ addr rand, ∃ t' w m, w < p.assoc ∧
      (hybRrip p).findVictim t addr rand = .ok (t', p.extractSet addr * p.assoc + w) ∧
      (∀ v < p.assoc, rrpvOf t.policy.rrpv (p.extractSet addr * p.assoc + v) ≤ m) ∧
      rrpvOf t.policy.rrpv (p.extractSet addr * p.assoc + w) = m ∧
      (∀ v < w, rrpvOf t.policy.rrpv (p.extractSet addr * p.assoc + v) ≠ m) ∧
      (∀ v < p.assoc, rrpvOf t'.policy.rrpv (p.extractSet addr * p.assoc + v) =
        rrpvOf t.policy.rrpv (p.extractSet addr * p.assoc + v) + (p.assoc - 1 - m)) ∧
      ∀ i, i / p.assoc ≠ p.extractSet addr → rrpvOf t'.policy.rrpv i = rrpvOf t.policy.rrpv i := by
  have h := ranked_of_run h2 hassoc hr
  refine ⟨fun i _ => h.bound i, fun addr rand => ?_⟩
  obtain ⟨rrpv', i, m, hfound, hmax, hm, hv⟩ := findVictim_ends h hassoc addr rand
  -- the ways of the set are in order, so the first of them is the lowest
  have hfirst := hv.first
  rw [find?_map, Option.map_eq_some_iff] at hfirst
  obtain ⟨w, hw, rfl⟩ := hfirst
  obtain ⟨hat, hin, hbefore⟩ := find?_range_eq_some.mp hw
  refine ⟨_, w, m, mem_range.mp hin, hfound, hmax, beq_iff_eq.mp hat, fun v hvw heq => ?_, fun v hvlt => ?_,
    fun j hj => ?_⟩
  · have hno := hbefore v hvw
    simp [heq] at hno
  · exact hv.raised _ (mem_map.mpr ⟨v, mem_range.mpr hvlt, rfl⟩)
  · have hout : j ∉ (range p.assoc).map fun v => p.extractSet addr * p.assoc + v := by
      intro hmem
      obtain ⟨v, hv, rfl⟩ := mem_map.mp hmem
      apply hj
      rw [Nat.mul_comm, Nat.mul_add_div p.assoc_pos, Nat.div_eq_of_lt (mem_range.mp hv), Nat.add_zero]
    rw [rrpvOf, hv.others j hout]
    rfl

end Store

theorem four_ways : 0 < 4 := by decide

/-- One set of four ways. -/
def rripFourWays : TagParams where
  setShift := 6
  setBits := 0
  assoc := 4
  watershed := 0
  maxMasters := 1
  setShift_ge := TagParams.two_le_six
  assoc_pos := four_ways
  maxMasters_lt := TagParams.one_master

def rripPacket : Packet := { cmd := .readResp, req := { paddr := 0, size := 64, masterId := 0 }, addr := 0, size := 64 }

/-- All four ways are filled, and no counter is at its largest value. -/
theorem hybRrip_findVictim_first_full :
    ∃ t, Exec (StepOf (callStep rripFourWays (hybRrip rripFourWays))) (hybRrip rripFourWays).new
        ((range 4).map fun i => .insertBlock rripPacket i) t ∧
      (∀ i < 4, rrpvOf t.policy.rrpv i = 0) ∧
      ∃ t' w, w < 4 ∧ (hybRrip rripFourWays).findVictim t 0 0 = .ok (t', w) ∧ rrpvOf t'.policy.rrpv w = 3 := by
  refine Exec.ends_with (p := fun t => decide (∀ i ∈ range 4, rrpvOf t.policy.rrpv i = 0)) (by decide) fun t hr ht => ?_
  have hzero : ∀ i < 4, rrpvOf t.policy.rrpv i = 0 := fun i hi => of_decide_eq_true ht i (mem_range.mpr hi)
  obtain ⟨-, hvictim⟩ := hybRrip_findVictim_first (by decide : 2 ≤ rripFourWays.assoc) (by decide) hr
  obtain ⟨t', w, m, hw, hfound, -, hat, -, hraised, -⟩ := hvictim 0 0
  have hset : rripFourWays.extractSet 0 * rripFourWays.assoc + w = w := by
    rw [show rripFourWays.extractSet 0 = 0 from rfl, Nat.zero_mul, Nat.zero_add]
  have hr3 := hraised w hw
  rw [hset] at hfound hat hr3
  have hm : m = 0 := hat.symm.trans (hzero w hw)
  refine ⟨hzero, t', w, hw, hfound, ?_⟩
  rw [hr3, hzero w hw, hm]
  rfl

end Gem5.Cache
