import Gem5Nvmain.Cache.CacheRuns

/- The LRU tag store is exact (mem/cache/tags/lru.cc).

  A set's order is only what the rotations of its pointer array leave behind. Here the store runs beside a clock that
  notes when each block was last accessed or inserted: in every state of every run the valid blocks of a set come
  first, latest use first, and so the victim is an invalid block or the one whose last use is oldest. -/
namespace Gem5.Cache
open Lib Gem5.Mem Tags

/-- The LRU store, with the number of steps so far and the step at which each block was last used. -/
structure LruClock where
  tags : Tags Unit
  clock : Nat := 0
  lastUse : Nat → Nat := fun _ => 0

/-- The clock after a step that used a block. -/
def LruClock.tick (s : LruClock) (t : Tags Unit) (used : Option Nat) : LruClock :=
  ⟨t, s.clock + 1, fun i => if used = some i then s.clock else s.lastUse i⟩

def clockedStep (p : TagParams) (s : LruClock) (op : TagOp) : Except Stop LruClock := do
  let (t, used) ← tagOp p (lru p) s.tags op
  pure (s.tick t used)

theorem lru_stack (p : TagParams) : Stack p (lru p) (· = 0) fun _ _ _ k => k = 0 where
  lawful := lru_lawful p
  miss h := by
    rw [accessAndMove_miss h]
    exact fun _ => rfl
  hit h := (reorder_moves (accessAndMove_hit h)).imp fun _ _ hl => ⟨0, rfl, moveToHead_promotes hl⟩
  fill {t t₁ t₂ pkt rand i} hp hv h := by
    obtain ⟨rfl, -⟩ := lastWay_eq_ok.mp hv
    obtain ⟨hr, hmem⟩ := (lru_lawful p).findVictim hv
    obtain ⟨t₃, hins, h⟩ := of_bind h
    have hlt : i < t₁.blocks.length := by
      rw [hp.numBlocks]
      exact ((hp.mem_ways (p.extractSet_lt pkt.addr)).mp hmem).1
    exact ((reorder_moves h).after (insertBlock_spec hins hlt).1).imp
      fun _ _ hl => ⟨0, rfl, moveToHead_promotes hl⟩
  invalidate h := invalidateToTail_moves h
  adapt h := adaptTags_sameOrder (fun _ => rfl) (fun _ => rfl) h

/-! ## The order -/

/-- A valid block has a valid one with a later use before it. -/
def Later (s : LruClock) (i j : Nat) : Prop :=
  (s.tags.blk j).valid = true → (s.tags.blk i).valid = true ∧ s.lastUse j < s.lastUse i

/-- The order of a set, whose uses are all in the past. -/
structure RecencyOrder (s : LruClock) (l : List Nat) : Prop where
  order : l.Pairwise (Later s)
  past : ∀ i ∈ l, (s.tags.blk i).valid = true → s.lastUse i < s.clock

structure LruInv (p : TagParams) (s : LruClock) : Prop where
  placed : Placed p s.tags
  order : ∀ n < p.numSets, RecencyOrder s (s.tags.setAt n).blks

section Run
variable {p : TagParams} {s : LruClock} {t : Tags Unit} {used : Option Nat} {l l' : List Nat}

theorem LruInv.new (p : TagParams) : LruInv p ⟨(lru p).new, 0, fun _ => 0⟩ := by
  have hinvalid (i : Nat) : ((lru p).new.blk i).valid = false := TagsInv.new_invalid p () i
  refine ⟨Placed.new (lru_lawful p), fun n _ => ⟨?_, fun i _ hi => ?_⟩⟩
  · refine List.pairwise_of_forall fun i j hj => ?_
    rw [hinvalid] at hj
    cases hj
  · rw [hinvalid] at hi
    cases hi

/-- A block that goes to the head is the latest. -/
theorem RecencyOrder.toHead {i k : Nat} (ho : RecencyOrder s l) (hnd : l.Nodup) (hk : k = 0)
    (hprom : Promotes i l l' k) (hsame : ∀ j, j ≠ i → (t.blk j).valid = (s.tags.blk j).valid)
    (hvalid : (t.blk i).valid = true) : RecencyOrder (s.tick t (some i)) l' := by
  subst hk
  obtain ⟨hmem, rfl⟩ := hprom
  have huse (j : Nat) (hj : j ≠ i) : (s.tick t (some i)).lastUse j = s.lastUse j :=
    if_neg fun h => hj (Option.some.inj h).symm
  have hlast : (s.tick t (some i)).lastUse i = s.clock := if_pos rfl
  constructor
  · refine promote_pairwise hnd ho.order (fun a ha b hb hab => ?_) hmem (by simp) fun b hb hne => ?_
    · intro hv
      rw [huse a ha, huse b hb]
      simp only [LruClock.tick, hsame a ha, hsame b hb] at hv ⊢
      exact hab hv
    · intro hv
      rw [hlast, huse b hne]
      simp only [LruClock.tick, hsame b hne] at hv
      exact ⟨hvalid, ho.past b hb hv⟩
  · intro j hj hv
    by_cases hji : j = i
    · rw [hji, hlast]
      exact Nat.lt_succ_self _
    · rw [huse j hji]
      simp only [LruClock.tick, hsame j hji] at hv
      have hjl := (promote_perm hmem).mem_iff.mp hj
      exact Nat.lt_succ_of_lt (ho.past j hjl hv)

theorem RecencyOrder.step {fillAt : Nat → Nat → Prop} (ho : RecencyOrder s l) (hnd : l.Nodup)
    (hfill : ∀ i k, fillAt i k → k = 0)
    (h : SetStep (· = 0) fillAt (fun i => (s.tags.blk i).valid) (fun i => (t.blk i).valid) l l' used) :
    RecencyOrder (s.tick t used) l' := by
  cases h with
  | idle order same unused =>
    subst order
    have huse (j : Nat) (hj : j ∈ l') : (s.tick t used).lastUse j = s.lastUse j := if_neg (unused j hj)
    constructor
    · refine ho.order.imp_of_mem fun ha hb hab hv => ?_
      rw [huse _ ha, huse _ hb]
      simp only [LruClock.tick, same _ ha, same _ hb] at hv ⊢
      exact hab hv
    · intro j hj hv
      rw [huse j hj]
      simp only [LruClock.tick, same j hj] at hv
      exact Nat.lt_succ_of_lt (ho.past j hj hv)
  | hit i k at_way order same isValid isUsed =>
    subst isUsed
    exact ho.toHead hnd at_way order (fun j _ => same j) ((same i).trans isValid)
  | fill i k at_way order same isValid isUsed =>
    subst isUsed
    exact ho.toHead hnd (hfill i k at_way) order same isValid
  | invalidate i mem order same isInvalid unused =>
    subst order unused
    have hnot (hv : (t.blk i).valid = true) : False := by simp_all
    constructor
    · refine demote_pairwise hnd ho.order (fun a ha b hb hab hv => ?_) fun a _ _ hv => (hnot hv).elim
      simp only [LruClock.tick, same a ha, same b hb] at hv ⊢
      exact hab hv
    · intro j hj hv
      by_cases hji : j = i
      · exact (hnot (hji ▸ hv)).elim
      · simp only [LruClock.tick, same j hji] at hv
        exact Nat.lt_succ_of_lt (ho.past j ((demote_perm mem).mem_iff.mp hj) hv)

theorem LruInv.step {s' : LruClock} {op : TagOp} (hi : LruInv p s) (h : clockedStep p s op = .ok s') :
    LruInv p s' := by
  obtain ⟨⟨t, used⟩, ht, h⟩ := of_bind h
  cases h
  refine ⟨tagOp_placed (lru_lawful p) hi.placed ht, fun n hn => ?_⟩
  refine (hi.order n hn).step (hi.placed.ways_nodup hn) (fun i k hk => ?_) ((lru_stack p).step hi.placed hn ht)
  cases op with
  | fill => exact hk
  | access | invalidate | adapt => exact hk.elim

/-- In every state of every run a set holds its own blocks, the valid ones first and latest use first; the victim is
  an invalid block when there is one, and else the block with the oldest use. -/
theorem lru_exact {h : List TagOp} (hr : Exec (StepOf (clockedStep p)) ⟨(lru p).new, 0, fun _ => 0⟩ h s)
    {n : Nat} (hn : n < p.numSets) : (s.tags.setAt n).blks.Perm ((List.range p.assoc).map fun j => n * p.assoc + j) ∧
    ((s.tags.setAt n).blks.Pairwise fun i j => (s.tags.blk j).valid = true →
      (s.tags.blk i).valid = true ∧ s.lastUse j < s.lastUse i) ∧
    ∀ addr rand, p.extractSet addr = n → ∃ i ∈ (s.tags.setAt n).blks,
      (lru p).findVictim s.tags addr rand = .ok (s.tags, i) ∧
      ((∃ j ∈ (s.tags.setAt n).blks, (s.tags.blk j).valid = false) → (s.tags.blk i).valid = false) ∧
      ((∀ j ∈ (s.tags.setAt n).blks, (s.tags.blk j).valid = true) →
        ∀ j ∈ (s.tags.setAt n).blks, j ≠ i → s.lastUse i < s.lastUse j) := by
  have hi : LruInv p s := hr.invariant (LruInv.new p) fun _ _ _ hi hs => hi.step hs
  have horder := (hi.order n hn).order
  refine ⟨hi.placed.ways n hn, horder, ?_⟩
  rintro addr rand rfl
  have hlen := hi.placed.ways_length hn
  obtain ⟨i, hlast⟩ := hi.placed.lastWay addr
  refine ⟨i, List.mem_of_getElem? hlast, lastWay_eq_ok.mpr ⟨rfl, hlast⟩, ?_, ?_⟩
  · -- a valid block in the last way would have only valid ones before it
    have hlead : Leading (fun i => (s.tags.blk i).valid) (s.tags.setAt (p.extractSet addr)).blks :=
      horder.imp fun hab hv => (hab hv).1
    exact hlead.last_lacks (by omega) hlast
  · intro hall j hj hne
    obtain ⟨k, hk, rfl⟩ := List.mem_iff_getElem.mp hj
    obtain ⟨hpos, rfl⟩ := List.getElem?_eq_some_iff.mp hlast
    have hlt : k < p.assoc - 1 := by
      rcases Nat.lt_or_ge k (p.assoc - 1) with hlt | hge
      · exact hlt
      · refine absurd ?_ hne
        simp only [show k = p.assoc - 1 by omega]
    exact (List.pairwise_iff_getElem.mp horder k _ hk hpos hlt (hall _ (List.getElem_mem hpos))).2

def twoWays : TagParams := (oneSet 2 Nat.two_pos).toTagParams

/-- Two ways are filled and the first is used again: the second is the victim. -/
theorem lru_exact_two_ways : ∃ s, Exec (StepOf (clockedStep twoWays)) ⟨(lru twoWays).new, 0, fun _ => 0⟩
    [.fill (writebackOf 0) 0, .fill (writebackOf 1) 0, .access 0 false .readReq 0] s ∧
    ∃ i ∈ (s.tags.setAt 0).blks, (lru twoWays).findVictim s.tags 8 0 = .ok (s.tags, i) ∧
      ∀ j ∈ (s.tags.setAt 0).blks, j ≠ i → s.lastUse i < s.lastUse j := by
  refine Exec.ends_with (p := fun s => (s.tags.setAt 0).blks.all fun j => (s.tags.blk j).valid) (by decide) fun s hr hall => ?_
  obtain ⟨-, -, hvictim⟩ := lru_exact hr (n := 0) (by decide)
  obtain ⟨i, hmem, hfind, -, holdest⟩ := hvictim 8 0 (by decide)
  exact ⟨i, hmem, hfind, holdest (List.all_eq_true.mp hall)⟩

end Run

end Gem5.Cache
