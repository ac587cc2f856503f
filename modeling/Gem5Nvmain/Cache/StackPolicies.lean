import Gem5Nvmain.Cache.Visitors

/- Where the stores that order a set as a stack put a new block.

  Such a store takes the block in the last way, so it replaces invalid blocks first as long as no valid block stands
  behind an invalid one (`ValidFirst`). Hits and invalidations keep that order; a new block keeps it when it does not
  enter behind an invalid block (`Fits`). HAP enters it at the head. PIPP, HYBLRU, HYBBF, HYBDIP and BRP enter it at a
  way that they read off their parameters or members, whether the set is full or not: `pippEnters` and the like are
  those ways. -/
namespace Gem5.Cache
open Lib Gem5.Mem Tags

/-! ## Stacks -/

/-- The blocks of a set that are valid come first. -/
def ValidFirst {σ : Type} (p : TagParams) (t : Tags σ) : Prop :=
  ∀ n < p.numSets, Leading (fun i => (t.blk i).valid) (t.setAt n).blks

/-- A new block goes to the head, or replaces the last way and goes to the way `enters` says; that way does not matter
  when the block it replaces was valid. -/
def EntersAt {σ : Type} (p : TagParams) (enters : Tags σ → Packet → Nat) (t : Tags σ) (pkt : Packet)
    (i k : Nat) : Prop :=
  k = 0 ∨ (t.setAt (p.extractSet pkt.addr)).blks[p.assoc - 1]? = some i ∧
    (k = enters t pkt ∨ (t.blk i).valid = true)

/-- The way is not behind an invalid block. -/
def Fits {σ : Type} (p : TagParams) (enters : Tags σ → Packet → Nat) (t : Tags σ) : TagOp → Prop
  | .fill pkt _ => enters t pkt ≤ (t.setAt (p.extractSet pkt.addr)).blks.countP fun i => (t.blk i).valid
  | _ => True

section Stacks
variable {σ : Type} {p : TagParams} {T : TagStore σ} {t t' : Tags σ} {op : TagOp} {used : Option Nat}
  {enters : Tags σ → Packet → Nat} {hitAt : Nat → Prop}

theorem leading_before {q : Nat → Bool} {l : List Nat} {i k : Nat} (hl : Leading q l) (hi : i ∈ l.drop k)
    (hq : q i = true) : ∀ a ∈ l.take k, q a = true := by
  rw [Leading, ← List.take_append_drop k l, List.pairwise_append] at hl
  exact fun a ha => hl.2.2 a ha i hi hq

theorem leading_step {q q' : Nat → Bool} {l l' : List Nat} {fillAt : Nat → Nat → Prop} (hl : Leading q l)
    (hnd : l.Nodup) (hfill : ∀ i k, fillAt i k → i ∈ l → ∀ a ∈ l.take k, q a = true)
    (h : SetStep hitAt fillAt q q' l l' used) : Leading q' l' := by
  cases h with
  | idle order same unused =>
    subst order
    refine hl.imp_of_mem ?_
    intro a b ha hb hab
    rw [same a ha, same b hb]
    exact hab
  | hit i k at_way order same isValid isUsed =>
    obtain ⟨hmem, rfl⟩ := order
    have hbefore := leading_before hl hmem isValid
    refine promote_pairwise hnd hl (fun a _ b _ hab => ?_) hmem (fun a ha _ => ?_) fun b _ _ _ => ?_
    · rw [same a, same b]
      exact hab
    · rw [same a]
      exact hbefore a ha
    · rw [same i]
      exact isValid
  | fill i k at_way order same isValid isUsed =>
    obtain ⟨hmem, rfl⟩ := order
    refine promote_pairwise hnd hl (fun a ha b hb hab => ?_) hmem (fun a ha _ => ?_) fun _ _ _ _ => isValid
    · rw [same a ha, same b hb]
      exact hab
    · by_cases hai : a = i
      · rw [hai]
        exact isValid
      · rw [same a hai]
        exact hfill i k at_way (List.mem_of_mem_drop hmem) a ha
  | invalidate i mem order same isInvalid unused =>
    subst order
    refine demote_pairwise hnd hl (fun a ha b hb hab => ?_) fun a _ _ hv => ?_
    · rw [same a ha, same b hb]
      exact hab
    · rw [isInvalid] at hv
      cases hv

theorem Stack.validFirst (hS : Stack p T hitAt (EntersAt p enters)) (hp : Placed p t) (hf : ValidFirst p t)
    (hfit : Fits p enters t op) (h : tagOp p T t op = .ok (t', used)) : ValidFirst p t' := by
  intro n hn
  refine leading_step (hf n hn) (hp.ways_nodup hn) (fun i k hk hmem => ?_) (hS.step hp hn h)
  cases op with
  | fill pkt rand =>
    rcases hk with rfl | ⟨hlast, hk⟩
    · simp
    · have hway := (hp.mem_ways (p.extractSet_lt pkt.addr)).mp (List.mem_of_getElem? hlast)
      obtain rfl : p.extractSet pkt.addr = n := hway.2.symm.trans ((hp.mem_ways hn).mp hmem).2
      rcases hk with rfl | hvalid
      · exact (hf _ hn).take hfit
      · -- the last way is valid, so the set is full
        have hlen := hp.ways_length hn
        have hall := (hf _ hn).of_last (by omega) hlast hvalid
        exact fun a ha => hall a (List.mem_of_mem_take ha)
  | access | invalidate | adapt => exact hk.elim

theorem ValidFirst.last_invalid (hf : ValidFirst p t) (hp : Placed p t) {addr i : Nat}
    (hlast : (t.setAt (p.extractSet addr)).blks[p.assoc - 1]? = some i)
    (h : ∃ j ∈ (t.setAt (p.extractSet addr)).blks, (t.blk j).valid = false) : (t.blk i).valid = false := by
  have hlen := hp.ways_length (p.extractSet_lt addr)
  exact (hf _ (p.extractSet_lt addr)).last_lacks (by omega) hlast h

theorem new_invalid (hT : Lawful p T) (i : Nat) : (T.new.blk i).valid = false := by
  rw [hT.new]
  exact TagsInv.new_invalid p T.new.policy i

theorem ValidFirst.new (hT : Lawful p T) : ValidFirst p T.new := by
  intro n _
  refine List.pairwise_of_forall fun i j hj => ?_
  exact absurd hj (by simp [new_invalid hT j])

/-! ## Where the stores put a new block -/

theorem insertAndMove_moves {move : Tags σ → Nat → Except Stop (Tags σ)} {pkt : Packet} {i n : Nat}
    {ok : Nat → Prop} (hlt : i < t.blocks.length) (h : t.insertAndMove p move pkt i = .ok t')
    (hmove : ∀ u, (u.blk i).isPcm = decide (pkt.addr < p.watershed) → (u.blk i).set = (t.blk i).set →
      u.policy = t.policy → u.warmedUp = t.warmedUp → move u i = .ok t' →
      Moves (PromotesTo ok i) u t' n) : Moves (PromotesTo ok i) t t' n := by
  obtain ⟨u, hins, h⟩ := of_bind h
  obtain ⟨horder, htouch, -, hpcm, hpolicy, hwarm⟩ := insertBlock_spec hins hlt
  exact (hmove u hpcm htouch.set hpolicy hwarm h).after horder

theorem Placed.victim_lt (hp : Placed p t) {addr i : Nat}
    (hlast : (t.setAt (p.extractSet addr)).blks[p.assoc - 1]? = some i) :
    i < t.blocks.length ∧ (t.blk i).set = p.extractSet addr := by
  obtain ⟨hlt, hset⟩ := (hp.mem_ways (p.extractSet_lt addr)).mp (List.mem_of_getElem? hlast)
  exact ⟨by rwa [hp.numBlocks], (hp.set i hlt).trans hset⟩

end Stacks

section Enters
variable (p : TagParams)

def pippEnters (pcmLocation dramLocation : Int) (_ : Tags Unit) (pkt : Packet) : Nat :=
  toUInt8 (if pkt.addr < p.watershed then pcmLocation else dramLocation)

def hybLruEnters (t : Tags Unit) (pkt : Packet) : Nat :=
  if t.warmedUp && !decide (pkt.addr < p.watershed) then 7 else 0

def hybBfEnters (t : Tags BloomState) (pkt : Packet) : Nat :=
  if t.warmedUp && !decide (pkt.addr < p.watershed) then
    (match testBloomFilter t (p.extractSet pkt.addr) (p.extractTag pkt.addr) with
     | .ok true => 3
     | _ => 7)
  else 0

def hybDipEnters (t : Tags DipState) (pkt : Packet) : Nat :=
  if t.warmedUp then
    if pkt.addr < p.watershed then (if pkt.cmd = .writeback then 0 else toUInt8 (p.assoc - 3))
    else if pkt.cmd = .writeback then
      (match dipLocation t (p.extractSet pkt.addr) with
       | .ok location => toUInt8 (p.assoc - location - 1)
       | .error _ => 0)
    else toUInt8 (p.assoc - 2)
  else 0

def brpEnters (t : Tags BrpState) (pkt : Packet) : Nat :=
  if t.warmedUp then
    (match portCore (((pkt.req.masterId : Int) - 7).tdiv 6) >>= index t.policy.coreSampling with
     | .ok c => toUInt8 (p.assoc - 1 - brpPosition p c (decide (pkt.addr < p.watershed)))
     | .error _ => 0)
  else 0

end Enters

theorem pipp_stack (p : TagParams) (pcmLocation dramLocation : Int) :
    Stack p (pipp p pcmLocation dramLocation) (fun _ => True)
      (EntersAt p (pippEnters p pcmLocation dramLocation)) where
  lawful := pipp_lawful p pcmLocation dramLocation
  miss h := by
    rw [accessAndMove_miss h]
    exact fun _ => rfl
  hit h := by
    refine (reorder_moves (accessAndMove_hit h)).imp fun l l' hl => ?_
    obtain ⟨k, hk⟩ := moveOneStep_promotes hl
    exact ⟨k, trivial, hk⟩
  fill hp hv h := by
    dsimp only [pipp] at hv h
    obtain ⟨rfl, hlast⟩ := lastWay_eq_ok.mp hv
    refine insertAndMove_moves (hp.victim_lt hlast).1 h fun u hpcm _ _ _ hmove => ?_
    refine (reorder_moves hmove).imp fun l l' hl => ?_
    have hk := insertFixLocation_promotes hl
    refine ⟨_, .inr ⟨hlast, .inl ?_⟩, hk⟩
    simp only [hpcm, pippEnters, decide_eq_true_eq]
  invalidate h := invalidateToTail_moves h
  adapt h := adaptTags_sameOrder (fun _ => rfl) (fun _ => rfl) h

theorem hybLru_stack (p : TagParams) : Stack p (hybLru p) (fun _ => True) (EntersAt p (hybLruEnters p)) where
  lawful := hybLru_lawful p
  miss h := by
    dsimp only [hybLru] at h
    rw [accessAndMove_miss h]
    exact fun _ => rfl
  hit h := by
    dsimp only [hybLru] at h
    have hmove := accessAndMove_hit h
    split at hmove
    · refine (reorder_moves hmove).imp fun l l' hl => ?_
      obtain ⟨k, hk⟩ := moveOneStep_promotes hl
      exact ⟨k, trivial, hk⟩
    · exact (reorder_moves hmove).imp fun l l' hl => ⟨0, trivial, moveToHead_promotes hl⟩
  fill hp hv h := by
    dsimp only [hybLru] at hv h
    obtain ⟨rfl, hlast⟩ := lastWay_eq_ok.mp hv
    refine insertAndMove_moves (hp.victim_lt hlast).1 h fun u hpcm _ _ hwarm hmove => ?_
    refine (reorder_moves hmove).imp fun l l' hl => ?_
    rw [hpcm, hwarm] at hl
    split at hl
    · rename_i hdeep
      exact ⟨7, .inr ⟨hlast, .inl (if_pos hdeep).symm⟩, insertFixLocation_promotes hl⟩
    · exact ⟨0, .inl rfl, moveToHead_promotes hl⟩
  invalidate h := invalidateToTail_moves h
  adapt h := adaptTags_sameOrder (fun _ => rfl) (fun _ => rfl) h

section Filter
variable {p : TagParams} {t t' : Tags BloomState} {i : Nat}

theorem rememberDram_spec (h : rememberDram t i = .ok t') :
    t'.sets = t.sets ∧ ((t.blk i).valid = false → t' = t) := by
  unfold rememberDram at h
  simp only at h
  split at h
  · rename_i hv
    obtain ⟨f, -, h⟩ := of_bind h
    obtain ⟨f', -, h⟩ := of_bind h
    cases h
    exact ⟨rfl, fun hinvalid => by simp [hinvalid] at hv⟩
  · cases h
    exact ⟨rfl, fun _ => rfl⟩

theorem hybBf_fill {pkt : Packet} (hp : Placed p t) (hlast : (t.setAt (p.extractSet pkt.addr)).blks[p.assoc - 1]? = some i)
    (hwarm : t.warmedUp = true) {t₁ t₂ : Tags BloomState} (h₁ : rememberDram t i = .ok t₁)
    (h₂ : t₁.insertBlock p pkt i = .ok t₂) (h : hybBfPlace p t₂ pkt i = .ok t') :
    Moves (PromotesTo (EntersAt p (hybBfEnters p) t pkt i) i) t t' (p.extractSet pkt.addr) := by
  obtain ⟨hsets, hsame⟩ := rememberDram_spec h₁
  have hlt : i < t₁.blocks.length := by
    rw [(rememberDram_reordered h₁).blocks]
    exact (hp.victim_lt hlast).1
  obtain ⟨horder, -, -, hpcm, hpolicy, -⟩ := insertBlock_spec h₂ hlt
  have horder₂ := (SameOrder.of_sets hsets).trans horder
  unfold hybBfPlace at h
  simp only [hpcm] at h
  split at h
  · exact ((reorder_moves h).after horder₂).imp fun l l' hl => ⟨0, .inl rfl, moveToHead_promotes hl⟩
  · rename_i hdram
    obtain ⟨hit, htest, h⟩ := of_bind h
    refine ((reorder_moves h).after horder₂).imp fun l l' hl => ?_
    refine ⟨_, .inr ⟨hlast, ?_⟩, insertFixLocation_promotes hl⟩
    cases hv : (t.blk i).valid with
    | true => exact .inr rfl
    | false =>
      -- nothing was remembered, so the filter is the one before
      have hfilter : testBloomFilter t (p.extractSet pkt.addr) (p.extractTag pkt.addr) = .ok hit := by
        rw [testBloomFilter, hpolicy, hsame hv] at htest
        exact htest
      rw [hybBfEnters, hwarm, hfilter]
      cases hit <;> simp [hdram]

end Filter

theorem hybBf_stack (p : TagParams) (counter : Int) (numBits : Nat) :
    Stack p (hybBf p counter numBits) (fun _ => True) (EntersAt p (hybBfEnters p)) where
  lawful := hybBf_lawful p counter numBits
  miss h := by
    dsimp only [hybBf] at h
    rw [accessAndMove_miss h]
    exact fun _ => rfl
  hit h := by
    dsimp only [hybBf] at h
    refine (reorder_moves (accessAndMove_hit h)).imp fun l l' hl => ?_
    simp only at hl
    split at hl
    · obtain ⟨k, hk⟩ := moveNStep_promotes hl
      exact ⟨k, trivial, hk⟩
    · exact ⟨0, trivial, moveToHead_promotes hl⟩
  fill hp hv h := by
    dsimp only [hybBf] at hv h
    obtain ⟨rfl, hlast⟩ := lastWay_eq_ok.mp hv
    split at h
    · rename_i hwarm
      obtain ⟨t₁, h₁, h⟩ := of_bind h
      obtain ⟨t₂, h₂, h⟩ := of_bind h
      exact hybBf_fill hp hlast hwarm h₁ h₂ h
    · refine insertAndMove_moves (hp.victim_lt hlast).1 h fun u _ _ _ _ hmove => ?_
      exact (reorder_moves hmove).imp fun l l' hl => ⟨0, .inl rfl, moveToHead_promotes hl⟩
  invalidate h := invalidateToTail_moves h
  adapt h := adaptTags_sameOrder (fun _ => rfl) (fun _ => rfl) h

theorem hybDip_fill {p : TagParams} {t u t' : Tags DipState} {pkt : Packet} {i : Nat}
    (hlast : (t.setAt (p.extractSet pkt.addr)).blks[p.assoc - 1]? = some i)
    (hpcm : (u.blk i).isPcm = decide (pkt.addr < p.watershed)) (hset : (u.blk i).set = p.extractSet pkt.addr)
    (hpolicy : u.policy = t.policy) (hwarm : u.warmedUp = t.warmedUp) (h : hybDipInsert p u pkt i = .ok t') :
    Moves (PromotesTo (EntersAt p (hybDipEnters p) t pkt i) i) u t' (p.extractSet pkt.addr) := by
  unfold hybDipInsert at h
  simp only [hpcm, hwarm, decide_eq_true_eq] at h
  split at h
  · rename_i hw
    obtain ⟨u₁, h₁, h⟩ := of_bind h
    have hmoves : Moves (PromotesTo (EntersAt p (hybDipEnters p) t pkt i) i) u u₁ (p.extractSet pkt.addr) := by
      have henters (k : Nat) (hk : k = hybDipEnters p t pkt) : EntersAt p (hybDipEnters p) t pkt i k :=
        .inr ⟨hlast, .inl hk⟩
      split at h₁
      · rename_i hp
        refine (reorder_moves h₁).imp fun l l' hl => ?_
        split at hl
        · exact ⟨0, .inl rfl, moveToHead_promotes hl⟩
        · rename_i hcmd
          refine ⟨_, henters _ ?_, insertFixLocation_promotes hl⟩
          rw [hybDipEnters, if_pos hw, if_pos hp, if_neg hcmd]
      · rename_i hd
        split at h₁
        · rename_i hcmd
          obtain ⟨location, hloc, h₁⟩ := of_bind h₁
          obtain ⟨-, -, h₁⟩ := of_bind h₁
          refine (reorder_moves h₁).imp fun l l' hl => ⟨_, henters _ ?_, insertFixLocation_promotes hl⟩
          have hdip : dipLocation t (p.extractSet pkt.addr) = .ok location := by
            rw [hset, dipLocation, hpolicy] at hloc
            exact hloc
          rw [hybDipEnters, if_pos hw, if_neg hd, if_pos hcmd, hdip]
        · rename_i hcmd
          refine (reorder_moves h₁).imp fun l l' hl => ⟨_, henters _ ?_, insertFixLocation_promotes hl⟩
          rw [hybDipEnters, if_pos hw, if_neg hd, if_neg hcmd]
    cases h
    refine hmoves.before ?_
    split
    · exact fun _ => rfl
    · exact SameOrder.of_sets rfl
  · exact (reorder_moves h).imp fun l l' hl => ⟨0, .inl rfl, moveToHead_promotes hl⟩

theorem hybDip_stack (p : TagParams) : Stack p (hybDip p) (fun _ => True) (EntersAt p (hybDipEnters p)) where
  lawful := hybDip_lawful p
  miss h := by
    dsimp only [hybDip] at h
    rw [accessAndMove_miss h]
    exact fun _ => rfl
  hit h := by
    dsimp only [hybDip] at h
    have hmove := accessAndMove_hit h
    unfold dipHit at hmove
    split at hmove
    · obtain ⟨location, -, hmove⟩ := of_bind hmove
      refine (reorder_moves hmove).imp fun l l' hl => ?_
      simp only at hl
      split at hl
      · exact ⟨0, trivial, moveToHead_promotes hl⟩
      · obtain ⟨k, hk⟩ := moveNStep_promotes hl
        exact ⟨k, trivial, hk⟩
    · exact (reorder_moves hmove).imp fun l l' hl => ⟨0, trivial, moveToHead_promotes hl⟩
  fill hp hv h := by
    obtain ⟨rfl, hlast⟩ := lastWay_eq_ok.mp hv
    obtain ⟨hlt, hset⟩ := hp.victim_lt hlast
    exact insertAndMove_moves hlt h fun u hpcm hsame hpolicy hwarm hmove =>
      hybDip_fill hlast hpcm (hsame.trans hset) hpolicy hwarm hmove
  invalidate h := invalidateToTail_moves h
  adapt h := adaptTags_sameOrder (fun _ => rfl) (fun _ => rfl) h

section Brp
variable {p : TagParams} {t t' : Tags BrpState} {i : Nat}

theorem setShadowRow_sets (t : Tags BrpState) (k set : Nat) (row : List CacheBlk) :
    (setShadowRow p t k set row).sets = t.sets := rfl

theorem recordBrp_sets {addr : Nat} {cmd : MemCmd} {portId : Int} (h : recordBrp p t addr cmd portId = .ok t') :
    t'.sets = t.sets := by
  obtain ⟨k, -, h⟩ := of_bind h
  simp only at h
  split at h
  · cases h
    rfl
  · cases h
    rfl

theorem dropShadowTag_sets (t : Tags BrpState) (set tag : Nat) (ks : List Nat) :
    (dropShadowTag p t set tag ks).sets = t.sets := by
  induction ks with
  | nil => rfl
  | cons k ks ih =>
    simp only [dropShadowTag]
    split
    · rfl
    · exact ih

theorem foldl_sets {f : Tags BrpState → Nat → Tags BrpState} (hf : ∀ t k, (f t k).sets = t.sets)
    (ks : List Nat) (t : Tags BrpState) : (ks.foldl f t).sets = t.sets := by
  induction ks generalizing t with
  | nil => rfl
  | cons k ks ih => exact (ih (f t k)).trans (hf t k)

theorem brpSetRecord_sets (t : Tags BrpState) (lt : Nat → Nat → Bool) : (brpSetRecord p t lt).sets = t.sets := by
  unfold brpSetRecord
  refine (foldl_sets (fun u set => ?_) _ _).trans rfl
  exact foldl_sets (fun _ _ => setShadowRow_sets ..) _ u

theorem brpAccessBlock_moves {addr : Nat} {isSecure : Bool} {cmd : MemCmd} {portId : Int} {b : Option Nat}
    (h : brpAccessBlock p t addr isSecure cmd portId = .ok (t', b)) : (b = none → SameOrder t t') ∧
    ∀ i, b = some i → Moves (PromotesTo (fun _ => True) i) t t' (t.blk i).set := by
  obtain ⟨t₁, h₁, h⟩ := of_bind h
  obtain ⟨k, -, h⟩ := of_bind h
  have hsets := recordBrp_sets h₁
  have hblk (i : Nat) : t₁.blk i = t.blk i := (recordBrp_reordered h₁).blk i
  split at h
  · cases h
    exact ⟨fun _ => SameOrder.of_sets hsets, by simp⟩
  · rename_i j hf
    obtain ⟨t₂, h₂, h⟩ := of_bind h
    cases h
    refine ⟨by simp, fun i hi => ?_⟩
    cases hi
    have hstart : SameOrder t { t₁ with policy := { t₁.policy with access := countPort t₁.policy.access k } } :=
      SameOrder.of_sets hsets
    have hmoves := (reorder_moves h₂).after hstart
    change Moves _ t t₂ (t₁.blk j).set at hmoves
    rw [hblk] at hmoves
    refine (hmoves.imp fun l l' hl => ?_).before (SameOrder.of_sets rfl)
    simp only at hl
    split at hl
    · obtain ⟨k, hk⟩ := moveNStep_promotes hl
      exact ⟨k, trivial, hk⟩
    · exact ⟨0, trivial, moveToHead_promotes hl⟩

theorem brp_fill {u : Tags BrpState} {pkt : Packet}
    (hlast : (t.setAt (p.extractSet pkt.addr)).blks[p.assoc - 1]? = some i)
    (hpcm : (u.blk i).isPcm = decide (pkt.addr < p.watershed)) (hpolicy : u.policy = t.policy)
    (hwarm : u.warmedUp = t.warmedUp) (h : brpPlace p u pkt i = .ok t') :
    Moves (PromotesTo (EntersAt p (brpEnters p) t pkt i) i) u t' (p.extractSet pkt.addr) := by
  unfold brpPlace at h
  simp only [hwarm, hpolicy, hpcm] at h
  split at h
  · rename_i hw
    obtain ⟨k, hk, h⟩ := of_bind h
    obtain ⟨c, hc, h⟩ := of_bind h
    refine (reorder_moves h).imp fun l l' hl => ?_
    refine ⟨_, .inr ⟨hlast, .inl ?_⟩, insertFixLocation_promotes hl⟩
    rw [brpEnters, if_pos hw, hk, bind_ok, hc]
  · exact (reorder_moves h).imp fun l l' hl => ⟨0, .inl rfl, moveToHead_promotes hl⟩

end Brp

theorem brp_stack (p : TagParams) : Stack p (brp p) (fun _ => True) (EntersAt p (brpEnters p)) where
  lawful := brp_lawful p
  miss h := (brpAccessBlock_moves h).1 rfl
  hit h := (brpAccessBlock_moves h).2 _ rfl
  fill hp hv h := by
    obtain ⟨rfl, hlast⟩ := lastWay_eq_ok.mp hv
    exact insertAndMove_moves (hp.victim_lt hlast).1 h fun u hpcm _ hpolicy hwarm hmove =>
      brp_fill hlast hpcm hpolicy hwarm hmove
  invalidate h := by
    obtain ⟨t₁, h₁, h⟩ := of_bind h
    cases h
    exact (invalidateToTail_moves h₁).before (SameOrder.of_sets (dropShadowTag_sets ..))
  adapt {t t' a} h := by
    cases a with
    | setWarmUp =>
      cases h
      exact fun _ => rfl
    | updateSomething lt =>
      cases h
      exact fun _ => rfl
    | setRecord lt =>
      cases h
      exact SameOrder.of_sets (brpSetRecord_sets t lt)

section Hap
variable {p : TagParams} {bitsOfSets : Nat}

theorem addCost_sets (pcmCost : BitVec 32) (t : Tags HapState) (pkt : Packet) (i : Nat) :
    (addCost p bitsOfSets pcmCost t pkt i).sets = t.sets := by
  unfold addCost
  simp only
  split <;> rfl

theorem hapAddPcmLine_sets (t : Tags HapState) (numSet : Nat) (n : Int) :
    (hapAddPcmLine p bitsOfSets t numSet n).sets = t.sets := by
  unfold hapAddPcmLine
  simp only
  split <;> rfl

theorem hapFindVictim_same {t t' : Tags HapState} {addr i : Nat}
    (h : hapFindVictim p bitsOfSets t addr = .ok (t', i)) : t' = t := by
  obtain ⟨blk, -, h⟩ := of_bind h
  simp only at h
  split at h
  · obtain ⟨s, -, h⟩ := of_bind h
    cases h
    rfl
  · split at h
    · cases h
      rfl
    · split at h <;> (cases h; rfl)

theorem insertCounted_moves {t t' : Tags HapState} {pkt : Packet} {i : Nat} (hlt : i < t.blocks.length)
    (h : insertCounted p (hapAddPcmLine p bitsOfSets) t pkt i = .ok t') :
    Moves (PromotesTo (· = 0) i) t t' (p.extractSet pkt.addr) := by
  obtain ⟨t₁, hins, h⟩ := of_bind h
  have hstart : SameOrder t t₁ := by
    split at hins
    · refine (SameOrder.of_sets (hapAddPcmLine_sets ..)).trans (insertBlock_spec hins ?_).1
      rw [(hapAddPcmLine_reordered ..).blocks]
      exact hlt
    · exact (insertBlock_spec hins hlt).1
  refine (((reorder_moves h).after ?_).after hstart).imp fun l l' hl => ⟨0, rfl, moveToHead_promotes hl⟩
  split
  · exact SameOrder.of_sets (hapAddPcmLine_sets ..)
  · exact fun _ => rfl

end Hap

/-- HAP enters every block at the head. -/
theorem hap_stack (p : TagParams) (bitsOfSets : Nat) :
    Stack p (hap p bitsOfSets) (fun _ => True) (EntersAt p fun _ _ => 0) where
  lawful := hap_lawful p bitsOfSets
  miss h := by
    obtain ⟨⟨t₁, b₁⟩, h₁, h⟩ := of_bind h
    cases h
    rw [← accessAndMove_miss h₁]
    exact SameOrder.of_sets (by split <;> rfl)
  hit h := by
    obtain ⟨⟨t₁, b₁⟩, h₁, h⟩ := of_bind h
    cases h
    refine Moves.before ?_ (SameOrder.of_sets (t := t₁) (by split <;> rfl))
    exact (reorder_moves (accessAndMove_hit h₁)).imp fun l l' hl => ⟨0, trivial, moveToHead_promotes hl⟩
  fill {t t₁ t₂ pkt rand i} hp hv h := by
    have hmem := ((hap_lawful p bitsOfSets).findVictim hv).2
    obtain rfl := (hapFindVictim_same hv).symm
    have hlt : i < t.blocks.length := by
      rw [hp.numBlocks]
      exact ((hp.mem_ways (p.extractSet_lt pkt.addr)).mp hmem).1
    dsimp only [hap] at h
    have hmoves : Moves (PromotesTo (· = 0) i) t t₂ (p.extractSet pkt.addr) := by
      split at h
      · exact insertCounted_moves hlt h
      · refine (insertCounted_moves ?_ h).after (SameOrder.of_sets (addCost_sets ..))
        rw [(addCost_reordered ..).blocks]
        exact hlt
    exact hmoves.imp fun l l' ⟨k, hk, hprom⟩ => ⟨k, .inl hk, hprom⟩
  invalidate h := by
    dsimp only [hap] at h
    split at h
    · have hmoves := invalidateToTail_moves h
      rw [(hapAddPcmLine_reordered ..).blk] at hmoves
      exact hmoves.after (SameOrder.of_sets (hapAddPcmLine_sets ..))
    · exact invalidateToTail_moves h
  adapt {t t' a} h := by
    cases a with
    | setWarmUp =>
      cases h
      exact fun _ => rfl
    | updateSomething lt =>
      obtain ⟨t₁, h₁, h⟩ := of_bind h
      obtain ⟨-, -, h₁⟩ := of_bind h₁
      cases h₁
      cases h
      exact SameOrder.of_sets rfl
    | setRecord lt =>
      cases h
      exact fun _ => rfl

end Gem5.Cache
