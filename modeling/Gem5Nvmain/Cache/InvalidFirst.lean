import Gem5Nvmain.Cache.HapCounters

/- When an invalid block is replaced before a valid one.

  A stack whose new blocks never enter behind an invalid one replaces invalid blocks first. HAP does not always take
  the last way, but scans the set for a valid block of one kind when it has too many or too few of the other
  (`hapScan`), and takes it whether or not the set has an invalid block. HYBRRIP keeps no order: an invalid block has
  the value that the search looks for, but so may a valid block that was aged by an earlier search; the first one in
  the set is taken. Its values are 8 bits wide, so with more than 256 ways the search does not end. -/
namespace Gem5.Cache
open Lib Gem5.Mem Tags List Cache

/-! ## The scan of HAP -/

/-- The kind of block that `HAP::findVictim` scans the set for, if any. -/
def hapScan (p : TagParams) (bitsOfSets : Nat) (t : Tags HapState) (addr : Nat) : Option (CacheBlk → Bool) :=
  let low := hapLow p bitsOfSets (p.extractSet addr)
  let validPcm := fun b : CacheBlk => b.isPcm && b.valid
  let validDram := fun b : CacheBlk => !b.isPcm && b.valid
  if low ≤ 4 then
    if ((t.policy.sc[low]?).getD {}).pcmLineCounter > low * 4 * 2 ^ bitsOfSets then some validPcm else none
  else if t.policy.currentPcmLineCounter > t.policy.maxPcmLineCounter then
    if addr < p.watershed then some validPcm else none
  else if t.policy.currentPcmLineCounter < t.policy.minPcmLineCounter then
    if addr < p.watershed then none else some validDram
  else none

section Hap
variable {p : TagParams} {bitsOfSets : Nat} {t t' : Tags HapState} {addr i : Nat}

theorem hapFindVictim_eq (hsc : t.policy.sc.length = 5)
    (hlast : (t.setAt (p.extractSet addr)).blks[p.assoc - 1]? = some i) :
    hapFindVictim p bitsOfSets t addr = .ok (t, match hapScan p bitsOfSets t addr with
      | some such => lastSuch t (p.extractSet addr) such i
      | none => i) := by
  have hway : t.way (p.extractSet addr) (p.assoc - 1) = .ok i := index_eq_ok.mpr hlast
  unfold hapFindVictim hapScan
  simp only [hway, bind_ok]
  split
  · have hlt : hapLow p bitsOfSets (p.extractSet addr) < t.policy.sc.length := by omega
    have hindex := index_eq_ok.mpr (getElem?_eq_getElem hlt)
    rw [hindex, bind_ok, getElem?_eq_getElem hlt, Option.getD_some]
    split <;> rfl
  · split
    · split <;> rfl
    · split
      · split <;> rfl
      · rfl

theorem hapScan_valid {such : CacheBlk → Bool} (h : hapScan p bitsOfSets t addr = some such) {b : CacheBlk}
    (hb : such b = true) : b.valid = true := by
  unfold hapScan at h
  simp only at h
  split at h
  · split at h <;> cases h
    exact (Bool.and_eq_true_iff.mp hb).2
  · split at h
    · split at h <;> cases h
      exact (Bool.and_eq_true_iff.mp hb).2
    · split at h
      · split at h <;> cases h
        exact (Bool.and_eq_true_iff.mp hb).2
      · cases h

/-- The scan finds nothing in the set. -/
def HapScanEmpty (p : TagParams) (bitsOfSets : Nat) (t : Tags HapState) (addr : Nat) : Prop :=
  ∀ such, hapScan p bitsOfSets t addr = some such →
    ∀ i ∈ (t.setAt (p.extractSet addr)).blks, such (t.blk i) = false

theorem hap_victim_invalid_iff (hsc : t.policy.sc.length = 5)
    (hlast : (t.setAt (p.extractSet addr)).blks[p.assoc - 1]? = some i) (hinvalid : (t.blk i).valid = false) :
    (∃ t' j, hapFindVictim p bitsOfSets t addr = .ok (t', j) ∧ (t.blk j).valid = false) ↔
      HapScanEmpty p bitsOfSets t addr := by
  rw [hapFindVictim_eq hsc hlast]
  constructor
  · rintro ⟨t', j, h, hj⟩ such hsuch k hk
    rw [hsuch] at h
    cases h
    by_contra hfound
    rw [Bool.not_eq_false] at hfound
    have hsome : (((t.setAt (p.extractSet addr)).blks.reverse.find? fun i => such (t.blk i))).isSome := by
      rw [find?_isSome]
      exact ⟨k, mem_reverse.mpr hk, hfound⟩
    obtain ⟨m, hm⟩ := Option.isSome_iff_exists.mp hsome
    simp only [lastSuch, hm, Option.getD_some] at hj
    rw [hapScan_valid hsuch (find?_some (p := fun i => such (t.blk i)) hm)] at hj
    cases hj
  · intro hempty
    refine ⟨t, _, rfl, ?_⟩
    cases hscan : hapScan p bitsOfSets t addr with
    | none => exact hinvalid
    | some such =>
      have hnone : ((t.setAt (p.extractSet addr)).blks.reverse.find? fun i => such (t.blk i)) = none := by
        refine find?_eq_none.mpr fun k hk => ?_
        rw [hempty such hscan k (mem_reverse.mp hk)]
        exact Bool.false_ne_true
      simp only [lastSuch, hnone]
      exact hinvalid

end Hap

/-! ## The search of HYBRRIP -/

/-- The value the search looks for. -/
def distant (p : TagParams) (t : Tags RripState) (i : Nat) : Bool :=
  ((t.policy.rrpv[i]?).getD 0).toNat == p.assoc - 1

/-- No valid block before the first invalid one of the set has the value. -/
def NoneDistant (p : TagParams) (t : Tags RripState) (addr : Nat) : Prop :=
  ∀ i ∈ (t.setAt (p.extractSet addr)).blks.takeWhile fun i => (t.blk i).valid, distant p t i = false

structure RripInv (p : TagParams) (t : Tags RripState) : Prop where
  placed : Placed p t
  length : t.policy.rrpv.length = p.numBlocks
  invalid : ∀ i < p.numBlocks, (t.blk i).valid = false →
    t.policy.rrpv[i]? = some (BitVec.ofNat 8 (p.assoc - 1))

section Rrip
variable {p : TagParams} {t t' : Tags RripState} {i : Nat}

theorem age_spec (ways : List Nat) (rrpv : List (BitVec 8)) :
    (ways.foldl (fun r i => r.modify i (· + 1)) rrpv).length = rrpv.length ∧
    ∀ j ∉ ways, (ways.foldl (fun r i => r.modify i (· + 1)) rrpv)[j]? = rrpv[j]? := by
  induction ways generalizing rrpv with
  | nil => exact ⟨rfl, fun _ _ => rfl⟩
  | cons i ways ih =>
    obtain ⟨hlen, hget⟩ := ih (rrpv.modify i (· + 1))
    refine ⟨hlen.trans (length_modify ..), fun j hj => ?_⟩
    rw [mem_cons, not_or] at hj
    rw [foldl_cons, hget j hj.2, getElem?_modify_ne _ _ (Ne.symm hj.1)]

/-- A search that finds the value at once changes nothing; in any case it changes only the blocks of the set. -/
theorem rripSearch_spec {assoc fuel : Nat} {ways : List Nat} {rrpv rrpv' : List (BitVec 8)}
    (h : rripSearch assoc ways fuel rrpv = .ok (rrpv', i)) :
    rrpv'.length = rrpv.length ∧ (∀ j ∉ ways, rrpv'[j]? = rrpv[j]?) ∧
    ((∃ j ∈ ways, ((rrpv[j]?).getD 0).toNat = assoc - 1) → rrpv' = rrpv) := by
  induction fuel generalizing rrpv with
  | zero => cases h
  | succ fuel ih =>
    simp only [rripSearch] at h
    split at h
    · cases h
      exact ⟨rfl, fun _ _ => rfl, fun _ => rfl⟩
    · rename_i hnone
      obtain ⟨hlen, hget, -⟩ := ih h
      obtain ⟨hlen', hget'⟩ := age_spec ways rrpv
      refine ⟨hlen.trans hlen', fun j hj => (hget j hj).trans (hget' j hj), ?_⟩
      rintro ⟨j, hj, hv⟩
      exact absurd (beq_iff_eq.mpr hv) (find?_eq_none.mp hnone j hj)

theorem rripSearch_endless {assoc : Nat} (h : 256 < assoc) (ways : List Nat) (fuel : Nat)
    (rrpv : List (BitVec 8)) : rripSearch assoc ways fuel rrpv = .error .outOfFuel := by
  induction fuel generalizing rrpv with
  | zero => rfl
  | succ fuel ih =>
    have hnone : (ways.find? fun i => ((rrpv[i]?).getD 0).toNat == assoc - 1) = none := by
      refine find?_eq_none.mpr fun i _ => ?_
      rw [beq_iff_eq]
      omega
    rw [rripSearch, hnone]
    exact ih _

theorem RripInv.distant (hi : RripInv p t) (ha : p.assoc ≤ 256) (hlt : i < p.numBlocks)
    (hinvalid : (t.blk i).valid = false) : ((t.policy.rrpv[i]?).getD 0).toNat = p.assoc - 1 := by
  rw [hi.invalid i hlt hinvalid, Option.getD_some, BitVec.toNat_ofNat]
  exact Nat.mod_eq_of_lt (by omega)

theorem RripInv.new (p : TagParams) : RripInv p (hybRrip p).new := by
  refine ⟨Placed.new (hybRrip_lawful p), length_replicate, fun i hlt _ => ?_⟩
  change (replicate p.numBlocks (BitVec.ofNat 8 (p.assoc - 1)))[i]? = _
  rw [getElem?_replicate, if_pos hlt]

/-- Block `i` is given a value; an invalid one is given the value for it. -/
theorem RripInv.given (hi : RripInv p t) {u : Tags RripState} {v : BitVec 8} (hp : Placed p u) (htouch : Touches t u i)
    (hpolicy : u.policy.rrpv = t.policy.rrpv.set i v) (hlt : i < p.numBlocks)
    (hv : (u.blk i).valid = true ∨ v = BitVec.ofNat 8 (p.assoc - 1)) : RripInv p u := by
  refine ⟨hp, ?_, fun j hj hinvalid => ?_⟩
  · rw [hpolicy, length_set, hi.length]
  · rw [hpolicy]
    by_cases hji : j = i
    · subst hji
      rw [getElem?_set_self (by rw [hi.length]; exact hlt)]
      rcases hv with hv | rfl
      · rw [hv] at hinvalid
        cases hinvalid
      · rfl
    · rw [htouch.others j hji] at hinvalid
      rw [getElem?_set_ne (Ne.symm hji)]
      exact hi.invalid j hj hinvalid

theorem hybRrip_findVictim_inv (hi : RripInv p t) {addr rand : Nat}
    (h : (hybRrip p).findVictim t addr rand = .ok (t', i)) : RripInv p t' := by
  obtain ⟨⟨rrpv, j⟩, hs, h⟩ := of_bind h
  cases h
  obtain ⟨hlen, hother, hfound⟩ := rripSearch_spec hs
  refine ⟨hi.placed.reordered (Reordered.of_policy t _ t.recordBlks), hlen.trans hi.length, fun k hk hinvalid => ?_⟩
  have ha : p.assoc ≤ 256 := by
    by_contra hgt
    rw [rripSearch_endless (by omega)] at hs
    cases hs
  change rrpv[k]? = _
  by_cases hmem : k ∈ (t.setAt (p.extractSet addr)).blks
  · rw [hfound ⟨k, hmem, hi.distant ha hk hinvalid⟩]
    exact hi.invalid k hk hinvalid
  · rw [hother k hmem]
    exact hi.invalid k hk hinvalid

theorem setRrpv_rrpv {u : Tags RripState} (h : u.policy = t.policy) (v : BitVec 8) (b : CacheBlk) :
    ((setRrpv u i v).setBlk i b).policy.rrpv = t.policy.rrpv.set i v := by
  rw [← h]
  rfl

theorem RripInv.step {op : TagOp} {used : Option Nat} (hi : RripInv p t)
    (h : tagOp p (hybRrip p) t op = .ok (t', used)) : RripInv p t' := by
  have hT := hybRrip_lawful p
  have hp' := tagOp_placed hT hi.placed h
  cases op with
  | access addr isSecure cmd portId =>
    have hfound := (hT.accessBlock h).2
    dsimp only [tagOp, hybRrip] at h
    cases used with
    | none =>
      rw [accessAndMove_miss h]
      exact hi
    | some i =>
      obtain ⟨hlt, -, hvalid⟩ := hi.placed.findBlock hfound.symm
      cases accessAndMove_hit h
      exact hi.given hp' ((setRrpv_reordered t i _).touches i) rfl hlt (.inl hvalid)
  | fill pkt rand =>
    obtain ⟨i, t₁, t₂, hv, hins, rfl, -, hmem, htouch, hvalid, -⟩ := fill_spec hT hi.placed h
    have hi₁ := hybRrip_findVictim_inv hi hv
    have hlt := ((hi.placed.mem_ways (p.extractSet_lt pkt.addr)).mp hmem).1
    have hlt₁ : i < t₁.blocks.length := by
      rw [hi₁.placed.numBlocks]
      exact hlt
    have htouch₁ := (insert_touches hT hlt₁ hins).1.trans
      (setBlk_touches (b := (t₂.blk i).fill pkt.isSecure) rfl)
    obtain ⟨u, hbase, hins⟩ := of_bind hins
    cases hins
    obtain ⟨-, -, -, -, hpolicy, -⟩ := insertBlock_spec hbase hlt₁
    exact hi₁.given hp' htouch₁ (setRrpv_rrpv hpolicy _ _) hlt (.inl hvalid)
  | invalidate i =>
    obtain ⟨t₁, hinv, rfl, -, hlt, -, htouch, -, -⟩ := invalidation_spec hT hi.placed h
    obtain ⟨u, hbase, hinv⟩ := of_bind hinv
    cases hinv
    obtain ⟨-, -, -, hpolicy⟩ := invalidate_spec hbase
    exact hi.given hp' htouch (setRrpv_rrpv hpolicy _ _) hlt (.inr rfl)
  | adapt a =>
    obtain ⟨t₁, ha, h⟩ := of_bind h
    cases h
    have hr := adaptTags_reordered hT ha
    have hpolicy : t'.policy = t.policy := by
      cases a with
      | setWarmUp | updateSomething | setRecord =>
        cases ha
        rfl
    refine ⟨hp', by rw [hpolicy]; exact hi.length, fun j hj hinvalid => ?_⟩
    rw [hr.blk] at hinvalid
    rw [hpolicy]
    exact hi.invalid j hj hinvalid

/-- The first element with `f`, when all without `v` have it. -/
theorem find_first {f v : Nat → Bool} {l : List Nat} (hf : ∀ i ∈ l, v i = false → f i = true)
    (hex : ∃ j ∈ l, v j = false) : ∃ x, l.find? f = some x ∧ (v x = false ↔ ∀ i ∈ l.takeWhile v, f i = false) := by
  induction l with
  | nil => simp at hex
  | cons a l ih =>
    cases hv : v a with
    | false =>
      have ha := hf a (mem_cons_self ..) hv
      exact ⟨a, by rw [find?_cons_of_pos ha], by simp [hv]⟩
    | true =>
      rw [takeWhile_cons_of_pos hv]
      cases ha : f a with
      | true => exact ⟨a, by rw [find?_cons_of_pos ha], by simp [hv, ha]⟩
      | false =>
        have hex' : ∃ j ∈ l, v j = false := by
          obtain ⟨j, hj, hjv⟩ := hex
          rcases mem_cons.mp hj with rfl | hj
          · rw [hv] at hjv
            cases hjv
          · exact ⟨j, hj, hjv⟩
        obtain ⟨x, hx, hiff⟩ := ih (fun i hi => hf i (mem_cons_of_mem a hi)) hex'
        refine ⟨x, by rw [find?_cons_of_neg (by simp [ha])]; exact hx, ?_⟩
        simp only [forall_mem_cons, ha, true_and]
        exact hiff

theorem hybRrip_victim_invalid_iff (hi : RripInv p t) {addr rand : Nat}
    (hex : ∃ j ∈ (t.setAt (p.extractSet addr)).blks, (t.blk j).valid = false) :
    (∃ t' j, (hybRrip p).findVictim t addr rand = .ok (t', j) ∧ (t.blk j).valid = false) ↔
      p.assoc ≤ 256 ∧ NoneDistant p t addr := by
  by_cases ha : p.assoc ≤ 256
  · have hlt (i : Nat) (hmem : i ∈ (t.setAt (p.extractSet addr)).blks) : i < p.numBlocks :=
      ((hi.placed.mem_ways (p.extractSet_lt addr)).mp hmem).1
    obtain ⟨x, hx, hiff⟩ := find_first
      (fun i hmem hinvalid => beq_iff_eq.mpr (hi.distant ha (hlt i hmem) hinvalid)) hex
    have hvictim : (hybRrip p).findVictim t addr rand = .ok (t, x) := by
      change (rripSearch p.assoc (t.setAt (p.extractSet addr)).blks (256 + 1) t.policy.rrpv >>= _) = _
      have hfirst : ((t.setAt (p.extractSet addr)).blks.find? fun i =>
          ((t.policy.rrpv[i]?).getD 0).toNat == p.assoc - 1) = some x := hx
      rw [rripSearch, hfirst]
      rfl
    rw [hvictim]
    constructor
    · rintro ⟨t', j, h, hinvalid⟩
      cases h
      exact ⟨ha, hiff.mp hinvalid⟩
    · rintro ⟨-, hnone⟩
      exact ⟨t, x, rfl, hiff.mpr hnone⟩
  · constructor
    · rintro ⟨t', j, h, -⟩
      obtain ⟨r, hs, -⟩ := of_bind h
      rw [rripSearch_endless (by omega)] at hs
      cases hs
    · rintro ⟨hle, -⟩
      exact absurd hle ha

end Rrip

/-! ## Every store -/

namespace Policy

/-- The stores that send an invalidated block to the end of its set, or give it the value that is looked for. -/
def stackBased : Policy → Bool
  | .pipp .. | .hybLru | .hybBf .. | .hybDip | .brp | .hap _ | .hybRrip => true
  | _ => false

/-- The way at which a new block enters its set. -/
def enters (p : TagParams) : (x : Policy) → Tags x.State → Packet → Nat
  | .pipp pcmLocation dramLocation => pippEnters p pcmLocation dramLocation
  | .hybLru => hybLruEnters p
  | .hybBf _ _ => hybBfEnters p
  | .hybDip => hybDipEnters p
  | .brp => brpEnters p
  | _ => fun _ _ => 0

/-- No valid block is sought before an invalid one. -/
def ScanFits (p : TagParams) : (x : Policy) → Tags x.State → Nat → Prop
  | .hap bitsOfSets => HapScanEmpty p bitsOfSets
  | .hybRrip => fun t addr => p.assoc ≤ 256 ∧ NoneDistant p t addr
  | _ => fun _ _ => True

end Policy

/-- A step whose new block, if any, does not enter behind an invalid block. -/
def FitStep {σ : Type} (p : TagParams) (T : TagStore σ) (enters : Tags σ → Packet → Nat) (t : Tags σ) (op : TagOp)
    (t' : Tags σ) : Prop :=
  tagStep p T t op = .ok t' ∧ Fits p enters t op

section Every
variable {σ : Type} {p : TagParams} {T : TagStore σ} {enters : Tags σ → Packet → Nat} {t : Tags σ}
  {h : List TagOp}

theorem Stack.run (hS : Stack p T (fun _ => True) (EntersAt p enters))
    (hr : Exec (FitStep p T enters) T.new h t) : Placed p t ∧ ValidFirst p t := by
  refine hr.invariant (P := fun t => Placed p t ∧ ValidFirst p t)
    ⟨Placed.new hS.lawful, ValidFirst.new hS.lawful⟩ ?_
  rintro t op t' ⟨hp, hf⟩ ⟨hstep, hfit⟩
  obtain ⟨⟨t₁, used⟩, hop, heq⟩ := of_bind hstep
  cases heq
  exact ⟨tagOp_placed hS.lawful hp hop, hS.validFirst hp hf hfit hop⟩

theorem Stack.victim_invalid (hS : Stack p T (fun _ => True) (EntersAt p enters))
    (hlast : ∀ t addr rand, T.findVictim t addr rand = t.lastWay p addr)
    (hr : Exec (FitStep p T enters) T.new h t) {addr : Nat} (rand : Nat)
    (hex : ∃ j ∈ (t.setAt (p.extractSet addr)).blks, (t.blk j).valid = false) :
    ∃ t' i, T.findVictim t addr rand = .ok (t', i) ∧ (t.blk i).valid = false := by
  obtain ⟨hp, hf⟩ := hS.run hr
  obtain ⟨i, hi⟩ := hp.lastWay addr
  refine ⟨t, i, ?_, hf.last_invalid hp hi hex⟩
  rw [hlast]
  exact lastWay_eq_ok.mpr ⟨rfl, hi⟩

end Every

/-- Along a run whose new blocks never enter behind an invalid block, the victim of a set with an invalid block is
  invalid exactly when the store does not seek a valid one. -/
theorem invalid_replaced_first {p : TagParams} {x : Policy} (hx : x.stackBased = true) {h : List TagOp}
    {t : Tags x.State} (hr : Exec (FitStep p (x.store p) (x.enters p)) (x.store p).new h t) {addr : Nat} (rand : Nat)
    (hex : ∃ j ∈ (t.setAt (p.extractSet addr)).blks, (t.blk j).valid = false) :
    (∃ t' i, (x.store p).findVictim t addr rand = .ok (t', i) ∧ (t.blk i).valid = false) ↔
      x.ScanFits p t addr := by
  cases x with
  | pipp pcmLocation dramLocation =>
    exact iff_of_true ((pipp_stack p _ _).victim_invalid (fun _ _ _ => rfl) hr rand hex) trivial
  | hybLru => exact iff_of_true ((hybLru_stack p).victim_invalid (fun _ _ _ => rfl) hr rand hex) trivial
  | hybBf counter numBits =>
    exact iff_of_true ((hybBf_stack p counter numBits).victim_invalid (fun _ _ _ => rfl) hr rand hex) trivial
  | hybDip => exact iff_of_true ((hybDip_stack p).victim_invalid (fun _ _ _ => rfl) hr rand hex) trivial
  | brp => exact iff_of_true ((brp_stack p).victim_invalid (fun _ _ _ => rfl) hr rand hex) trivial
  | hap bitsOfSets =>
    obtain ⟨hp, hf⟩ := (hap_stack p bitsOfSets).run hr
    have hlines : LineInv p bitsOfSets t := by
      refine hr.invariant (LineInv.new p bitsOfSets) ?_
      rintro t op t' hi ⟨hstep, -⟩
      obtain ⟨⟨t₁, used⟩, hop, heq⟩ := of_bind hstep
      cases heq
      exact hi.tagOp hop
    obtain ⟨i, hi⟩ := hp.lastWay addr
    exact hap_victim_invalid_iff hlines.samples hi (hf.last_invalid hp hi hex)
  | hybRrip =>
    have hi : RripInv p t := by
      refine hr.invariant (RripInv.new p) ?_
      rintro t op t' hi ⟨hstep, -⟩
      obtain ⟨⟨t₁, used⟩, hop, heq⟩ := of_bind hstep
      cases heq
      exact hi.step hop
    exact hybRrip_victim_invalid_iff hi hex
  | lru | lruWb | randomRepl | iHybDip | heaf | feaf | hapTest => cases hx

def eightWays : TagParams := (oneSet 8 eight_pos).toTagParams

/-- PIPP with its default places, after a PCM block has entered at the head. -/
theorem invalid_replaced_first_pcm : ∃ t, Exec (FitStep eightWays (pipp eightWays 0 7)
      (pippEnters eightWays 0 7)) (pipp eightWays 0 7).new [.fill (writebackOf 0) 0] t ∧
    ∃ t' i, (pipp eightWays 0 7).findVictim t 0 0 = .ok (t', i) ∧ (t.blk i).valid = false := by
  obtain ⟨t, hstep, hex⟩ : ∃ t, tagStep eightWays (pipp eightWays 0 7) (pipp eightWays 0 7).new
      (.fill (writebackOf 0) 0) = .ok t ∧
      ∃ j ∈ (t.setAt (eightWays.extractSet 0)).blks, (t.blk j).valid = false :=
    ⟨_, rfl, by decide⟩
  have hr : Exec (FitStep eightWays (pipp eightWays 0 7) (pippEnters eightWays 0 7))
      (pipp eightWays 0 7).new [.fill (writebackOf 0) 0] t :=
    .one ⟨hstep, Nat.zero_le _⟩
  exact ⟨t, hr, (invalid_replaced_first (x := .pipp 0 7) rfl hr 0 hex).mpr trivial⟩

/-- PIPP with its default places: a DRAM block enters the empty set at the last way and is the next victim, before
  seven invalid blocks. -/
theorem valid_replaced_first : ∃ t, Exec (StepOf (tagStep eightWays (pipp eightWays 0 7)))
      (pipp eightWays 0 7).new [.fill (writebackOf 1024) 0] t ∧
    (∃ j ∈ (t.setAt (eightWays.extractSet 0)).blks, (t.blk j).valid = false) ∧
    ∃ i, (pipp eightWays 0 7).findVictim t 0 0 = .ok (t, i) ∧ (t.blk i).valid = true := by
  obtain ⟨t, hstep, hex, hvictim⟩ : ∃ t, tagStep eightWays (pipp eightWays 0 7) (pipp eightWays 0 7).new
      (.fill (writebackOf 1024) 0) = .ok t ∧
      (∃ j ∈ (t.setAt (eightWays.extractSet 0)).blks, (t.blk j).valid = false) ∧
      ∃ i, (pipp eightWays 0 7).findVictim t 0 0 = .ok (t, i) ∧ (t.blk i).valid = true :=
    ⟨_, rfl, by decide, _, rfl, by decide⟩
  exact ⟨t, .one hstep, hex, hvictim⟩

end Gem5.Cache
