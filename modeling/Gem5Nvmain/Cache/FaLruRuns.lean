import Gem5Nvmain.Cache.FaLruOrder

/- FALRU tracks every size exactly.

  The store runs beside a clock that notes when each block was last moved to the head. In every state of every run the
  list is in the order of these moves, so that the place of a block is the number of blocks moved after it, and the
  three views of `FaOrdered` agree. -/
namespace Gem5.Cache
open Lib Function List Falru

inductive FalruOp where
  | access (addr : Nat)
  /-- A victim is chosen, and left as it is. -/
  | victim (addr : Nat)
  /-- A victim is chosen, and its tag and status are set. -/
  | fill (addr tag : Nat)
  | invalidate (blk : Nat)
  deriving DecidableEq, Repr

/-- The store, the number of the next step and the step of each block's last move to the head (0: none yet). -/
structure FalruClock where
  store : Falru
  clock : Nat := 1
  moved : Nat → Nat := fun _ => 0

def FalruClock.tick (s : FalruClock) (t : Falru) (blk : Option Nat) : FalruClock :=
  ⟨t, s.clock + 1, fun i => if blk = some i then s.clock else s.moved i⟩

/-- What the cache writes to a block that it fills. -/
def Falru.setBlk (s : Falru) (blk tag : Nat) : Falru :=
  s.modifyBlk blk fun x => { x with tag := tag, valid := true }

/-- `invalidate` of the store and of the block. -/
def Falru.clearBlk (s : Falru) (blk : Nat) : Falru :=
  (s.invalidate blk).modifyBlk blk fun x => { x with valid := false, isTouched := false }

def falruStep (p : FalruParams) (s : FalruClock) : FalruOp → Except Stop FalruClock
  | .access addr => do
    let (t, blk, _) ← s.store.accessBlock p addr
    -- a block at the head stays there without a move
    pure (s.tick t (blk.filter (· ≠ s.store.head)))
  | .victim addr => do
    let (t, blk) ← s.store.findVictim p addr
    pure (s.tick t (some blk))
  | .fill addr tag => do
    let (t, blk) ← s.store.findVictim p addr
    pure (s.tick ((t.insertBlock blk).setBlk blk tag) (some blk))
  | .invalidate blk => pure (s.tick (s.store.clearBlk blk) none)

/-! ## What a step does to the store -/

section Steps
variable {p : FalruParams} {s t : Falru} {l : List Nat}

theorem FaOrdered.congr (h : FaOrdered p s l) (hhead : t.head = s.head) (htail : t.tail = s.tail)
    (hblk : ∀ y, (t.blks y).prev = (s.blks y).prev ∧ (t.blks y).next = (s.blks y).next ∧
      (t.blks y).inCache = (s.blks y).inCache)
    (hbound : t.cacheBoundaries = s.cacheBoundaries) : FaOrdered p t l := by
  have hlinks : t.links = s.links := by
    ext1
    · exact hhead
    · exact htail
    · exact funext fun y => (hblk y).2.1
    · exact funext fun y => (hblk y).1
  refine ⟨h.perm, hlinks ▸ h.links, fun {q x} hx => ?_, fun i hi => ?_⟩
  · rw [(hblk x).2.2]
    exact h.mask hx
  · rw [hbound]
    exact h.boundary i hi

theorem FaOrdered.modifyBlk {b : Nat} {f : FalruBlk → FalruBlk} (h : FaOrdered p s l)
    (hf : ∀ x, (f x).prev = x.prev ∧ (f x).next = x.next ∧ (f x).inCache = x.inCache) :
    FaOrdered p (s.modifyBlk b f) l := by
  refine h.congr rfl rfl (fun y => ?_) rfl
  simp only [Falru.modifyBlk, update_apply]
  split
  · rename_i heq
    rw [heq]
    exact hf _
  · exact ⟨rfl, rfl, rfl⟩

/-- `findVictim` takes the tail, whose mask is empty. -/
theorem FaOrdered.findVictim (h : FaOrdered p s l) (addr : Nat) :
    ∃ t, s.findVictim p addr = .ok (t, s.tail) ∧ s.tail ∈ l ∧ FaOrdered p t (promote s.tail 0 l) ∧
      (∀ y, (t.blks y).valid = (s.blks y).valid ∧ (t.blks y).tag = (s.blks y).tag) ∧
      t.tagHash = update (update s.tagHash (s.blks s.tail).tag none) (p.blkAlign addr) (some s.tail) := by
  have htwo := p.two_le_numBlocks
  have htail : l[p.numBlocks - 1]? = some s.tail := h.length ▸ h.links.tail
  have hmask : (s.blks s.tail).inCache = 0 := (h.mask htail).eq (maskAt_tail p) fun _ _ => .rfl
  obtain ⟨t, ht, ho, hk⟩ := h.moveToHead htail (by omega)
  unfold Falru.findVictim
  simp only [hmask, bind_ok, ht]
  by_cases hv : (t.blks s.tail).valid = true
  · simp only [hv]
    refine ⟨_, rfl, mem_of_getElem? htail, ho.congr rfl rfl (fun _ => ⟨rfl, rfl, rfl⟩) rfl,
      fun y => ⟨hk.valid y, hk.tag y⟩, ?_⟩
    simp only [hk.tagHash, hk.tag]
  · simp only [hv]
    refine ⟨_, rfl, mem_of_getElem? htail, ?_, fun y => ?_, ?_⟩
    · refine ho.congr rfl rfl (fun y => ?_) rfl
      simp only [Falru.modifyBlk, update_apply]
      split
      · rename_i heq
        rw [heq]
        exact ⟨rfl, rfl, rfl⟩
      · exact ⟨rfl, rfl, rfl⟩
    · simp only [Falru.modifyBlk, update_apply]
      split
      · rename_i heq
        rw [heq]
        exact ⟨hk.valid _, hk.tag _⟩
      · exact ⟨hk.valid y, hk.tag y⟩
    · simp only [Falru.modifyBlk, hk.tagHash, hk.tag]

theorem findBlock_some {addr blk : Nat} (h : s.findBlock p addr = .ok (some blk)) :
    s.tagHash (p.blkAlign addr) = some blk ∧ (s.blks blk).valid = true ∧ (s.blks blk).tag = p.blkAlign addr := by
  unfold findBlock hashLookup at h
  split at h
  · simp at h
  · split at h
    · obtain ⟨_, hreq, h⟩ := of_bind h
      cases h
      exact ⟨‹_›, ‹_›, beq_iff_eq.mp (require_eq_ok.mp hreq)⟩
    · simp at h

/-- `accessBlock` finds what `findBlock` finds, and moves it to the head unless it is there. -/
theorem FaOrdered.accessBlock {addr : Nat} {r : Option Nat} (h : FaOrdered p s l)
    (hhash : ∀ a b, s.tagHash a = some b → b ∈ l) (hf : s.findBlock p addr = .ok r) :
    ∃ t m, s.accessBlock p addr = .ok (t, r, m) ∧ Kept s t ∧
      ((r.filter (· ≠ s.head) = none ∧ t = s) ∨
        ∃ x ∈ l, r.filter (· ≠ s.head) = some x ∧ FaOrdered p t (promote x 0 l)) := by
  have hself : Kept s s := ⟨fun _ => rfl, fun _ => rfl, rfl, rfl⟩
  unfold Falru.accessBlock
  rw [hf]
  cases r with
  | none => exact ⟨s, 0, rfl, hself, .inl ⟨rfl, rfl⟩⟩
  | some blk =>
    have hmem := hhash _ _ (findBlock_some hf).1
    obtain ⟨q, hq, hblk⟩ := mem_iff_getElem.mp hmem
    have hx : l[q]? = some blk := by rw [getElem?_eq_getElem hq, hblk]
    by_cases hhead : blk = s.head
    · refine ⟨s, (s.blks blk).inCache, ?_, hself, .inl ⟨?_, rfl⟩⟩
      · simp [hhead]
      · simp [hhead]
    · have hne : q ≠ 0 := by
        rintro rfl
        rw [h.links.head] at hx
        exact hhead (Option.some.inj hx).symm
      obtain ⟨t, ht, ho, hk⟩ := h.moveToHead hx hne
      refine ⟨t, (s.blks blk).inCache, ?_, hk, .inr ⟨blk, hmem, ?_, ho⟩⟩
      · simp [hhead, ht]
      · simp [hhead]

end Steps

/-! ## The order of the moves -/

/-- A block that was moved has only blocks moved later before it. -/
def MovedLater (s : FalruClock) (a b : Nat) : Prop := s.moved b ≠ 0 → s.moved b < s.moved a

structure FalruInv (p : FalruParams) (s : FalruClock) (l : List Nat) : Prop where
  ordered : FaOrdered p s.store l
  order : l.Pairwise (MovedLater s)
  past : ∀ x, s.moved x < s.clock
  valid : ∀ x, (s.store.blks x).valid = true → s.moved x ≠ 0
  hash : ∀ a b, s.store.tagHash a = some b → b ∈ l

section Run
variable {p : FalruParams} {s : FalruClock} {t : Falru} {l : List Nat} {x : Nat}

theorem hashed_after {f : Nat → Option Nat} {old new a b v : Nat}
    (h : update (update f old none) new (some v) a = some b) : b = v ∨ f a = some b := by
  simp only [update_apply] at h
  split at h
  · exact .inl (Option.some.inj h).symm
  · split at h
    · cases h
    · exact .inr h

/-- A step that moves a block to the head. -/
theorem FalruInv.move (hi : FalruInv p s l) (hx : x ∈ l) (ho : FaOrdered p t (promote x 0 l))
    (hvalid : ∀ y, y ≠ x → (t.blks y).valid = (s.store.blks y).valid)
    (hhash : ∀ a b, t.tagHash a = some b → b = x ∨ s.store.tagHash a = some b) :
    FalruInv p (s.tick t (some x)) (promote x 0 l) := by
  have hmem : x ∈ l.drop 0 := hx
  have hself : (s.tick t (some x)).moved x = s.clock := if_pos rfl
  have hother (y : Nat) (hy : y ≠ x) : (s.tick t (some x)).moved y = s.moved y :=
    if_neg fun h => hy (Option.some.inj h).symm
  have hpos : s.clock ≠ 0 := fun h => by
    have := hi.past x
    omega
  refine ⟨ho, ?_, fun y => ?_, fun y hy => ?_, fun a b hb => ?_⟩
  · refine promote_pairwise hi.ordered.links.nodup hi.order (fun a ha b hb hab => ?_) hmem (by simp) fun b hb hne => ?_
    · unfold MovedLater
      rw [hother a ha, hother b hb]
      exact hab
    · intro _
      rw [hself, hother b hne]
      exact hi.past b
  · show _ < s.clock + 1
    by_cases hyx : y = x
    · rw [hyx, hself]
      omega
    · rw [hother y hyx]
      exact Nat.lt_succ_of_lt (hi.past y)
  · by_cases hyx : y = x
    · rwa [hyx, hself]
    · rw [hother y hyx]
      exact hi.valid y ((hvalid y hyx).symm.trans hy)
  · rw [(promote_perm hmem).mem_iff]
    rcases hhash a b hb with rfl | hb
    · exact hx
    · exact hi.hash a b hb

theorem FalruInv.stay (hi : FalruInv p s l) (ho : FaOrdered p t l)
    (hvalid : ∀ y, (t.blks y).valid = true → (s.store.blks y).valid = true)
    (hhash : t.tagHash = s.store.tagHash) : FalruInv p (s.tick t none) l := by
  refine ⟨ho, ?_, fun y => ?_, fun y hy => ?_, fun a b hb => ?_⟩
  · exact hi.order
  · exact Nat.lt_succ_of_lt (hi.past y)
  · exact hi.valid y (hvalid y hy)
  · exact hi.hash a b (hhash ▸ hb)

theorem FalruInv.step {s' : FalruClock} {op : FalruOp} (hi : FalruInv p s l) (h : falruStep p s op = .ok s') :
    ∃ l', FalruInv p s' l' := by
  cases op with
  | access addr =>
    obtain ⟨⟨t, r, m⟩, ht, h⟩ := of_bind h
    cases h
    obtain ⟨r', hf, -⟩ := of_bind ht
    obtain ⟨t', m', ht', hk, hmoves⟩ := hi.ordered.accessBlock hi.hash hf
    obtain ⟨rfl, rfl, rfl⟩ : t' = t ∧ r' = r ∧ m' = m := by simpa using ht'.symm.trans ht
    rcases hmoves with ⟨hnone, rfl⟩ | ⟨x, hx, hsome, ho⟩
    · rw [hnone]
      exact ⟨l, hi.stay hi.ordered (fun _ hv => hv) rfl⟩
    · rw [hsome]
      exact ⟨_, hi.move hx ho (fun y _ => hk.valid y) fun a b hb => .inr (hk.tagHash ▸ hb)⟩
  | victim addr =>
    obtain ⟨t, ht, htail, ho, hsame, hhash⟩ := hi.ordered.findVictim addr
    simp only [falruStep, ht, bind_ok, pure_eq_ok, Except.ok.injEq] at h
    subst h
    exact ⟨_, hi.move htail ho (fun y _ => (hsame y).1) fun a b hb => hashed_after (hhash ▸ hb)⟩
  | fill addr tag =>
    obtain ⟨t, ht, htail, ho, hsame, hhash⟩ := hi.ordered.findVictim addr
    simp only [falruStep, ht, bind_ok, pure_eq_ok, Except.ok.injEq] at h
    subst h
    refine ⟨_, hi.move htail (ho.modifyBlk fun _ => ⟨rfl, rfl, rfl⟩) (fun y hy => ?_)
      fun a b hb => hashed_after (hhash ▸ hb)⟩
    rw [← (hsame y).1]
    simp only [setBlk, modifyBlk, insertBlock, update_apply, if_neg hy]
  | invalidate blk =>
    simp only [falruStep, pure_eq_ok, Except.ok.injEq] at h
    subst h
    have ho : FaOrdered p (s.store.invalidate blk) l :=
      hi.ordered.congr rfl rfl (fun _ => ⟨rfl, rfl, rfl⟩) rfl
    refine ⟨l, hi.stay (ho.modifyBlk fun _ => ⟨rfl, rfl, rfl⟩) (fun y hy => ?_) rfl⟩
    simp only [clearBlk, modifyBlk, update_apply] at hy
    split at hy
    · cases hy
    · exact hy

theorem FalruInv.place {q : Nat} (hi : FalruInv p s l) (hx : l[q]? = some x) (hv : (s.store.blks x).valid = true) :
    ((range p.numBlocks).countP fun y => s.moved x < s.moved y) = q := by
  rw [← hi.ordered.perm.countP_eq]
  refine countP_place hi.order hx (fun a ha => ?_) (by simp) fun b hb => ?_
  · simpa using ha (hi.valid x hv)
  · rw [decide_eq_false_iff_not, Nat.not_lt]
    by_cases hzero : s.moved b = 0
    · omega
    · exact Nat.le_of_lt (hb hzero)

/-- The constructor's assertions hold. In every state of every run `check` holds, a victim is found, an access stops
  only at the assertion of `findBlock`, and a valid block is in a tracked size exactly when fewer blocks than the size
  has were moved to the head after it. -/
theorem falru_exact (p : FalruParams) : ∃ t, new p = .ok t ∧
    ∀ h s, Exec (StepOf (falruStep p)) ⟨t, 1, fun _ => 0⟩ h s →
      s.store.check p = .ok true ∧
      (∀ addr, ∃ r, s.store.findVictim p addr = .ok r) ∧
      (∀ addr r, s.store.findBlock p addr = .ok r → ∃ t m, s.store.accessBlock p addr = .ok (t, r, m)) ∧
      ∀ x < p.numBlocks, (s.store.blks x).valid = true → ∀ i < p.numCaches,
        ((s.store.blks x).inCache.getLsbD i = true ↔
          ((range p.numBlocks).countP fun y => s.moved x < s.moved y) < 2 ^ 17 * 2 ^ i / p.blkSize) := by
  obtain ⟨t, hnew, ho, hfresh, hhash⟩ := new_ordered p
  refine ⟨t, hnew, fun h s hr => ?_⟩
  have hstart : ∃ l, FalruInv p ⟨t, 1, fun _ => 0⟩ l := by
    refine ⟨_, ho, pairwise_of_forall fun _ _ h => absurd rfl h, fun _ => Nat.one_pos, fun y hy => ?_,
      fun a b hb => ?_⟩
    · rw [(hfresh y).1] at hy
      cases hy
    · simp [hhash] at hb
  obtain ⟨l, hi⟩ : ∃ l, FalruInv p s l :=
    hr.invariant (P := fun s => ∃ l, FalruInv p s l) hstart fun _ _ _ ⟨_, hi⟩ hs => hi.step hs
  refine ⟨hi.ordered.check, fun addr => ?_, fun addr r hf => ?_, fun x hx hv i hc => ?_⟩
  · obtain ⟨t, ht, -⟩ := hi.ordered.findVictim addr
    exact ⟨_, ht⟩
  · obtain ⟨t, m, ht, -⟩ := hi.ordered.accessBlock hi.hash hf
    exact ⟨t, m, ht⟩
  · have hmem : x ∈ l := hi.ordered.perm.mem_iff.mpr (mem_range.mpr hx)
    obtain ⟨q, hq, hxq⟩ := mem_iff_getElem.mp hmem
    have hplace : l[q]? = some x := by rw [getElem?_eq_getElem hq, hxq]
    rw [hi.place hplace hv, p.tracked_eq, hi.ordered.mask hplace i, decide_eq_true_iff]
    exact and_iff_right hc

/-- 256 KiB in blocks of 64 KiB. -/
def fourBlocks : FalruParams := ⟨18, 16, by decide, by decide, by decide⟩

/-- Of three blocks filled, the cache of 128 KiB holds the last two. -/
theorem falru_exact_three_fills : ∃ t s, new fourBlocks = .ok t ∧
    Exec (StepOf (falruStep fourBlocks)) ⟨t, 1, fun _ => 0⟩ [.fill 0 0, .fill 65536 65536, .fill 131072 131072] s ∧
    s.store.check fourBlocks = .ok true ∧
    (s.store.blks 3).inCache.getLsbD 0 = false ∧ (s.store.blks 2).inCache.getLsbD 0 = true := by
  obtain ⟨t, hnew, hall⟩ := falru_exact fourBlocks
  have hrun : (match new fourBlocks with
      | .ok t => endsIn (falruStep fourBlocks) ⟨t, 1, fun _ => 0⟩
          [.fill 0 0, .fill 65536 65536, .fill 131072 131072] fun s =>
        (s.store.blks 3).valid && (s.store.blks 2).valid &&
        decide (((range 4).countP fun y => s.moved 3 < s.moved y) = 2) &&
        decide (((range 4).countP fun y => s.moved 2 < s.moved y) = 1)
      | .error _ => false) = true := by decide
  rw [hnew] at hrun
  obtain ⟨s, hr, hs⟩ := Exec.of_endsIn hrun
  simp only [Bool.and_eq_true, decide_eq_true_eq] at hs
  obtain ⟨⟨⟨hv3, hv2⟩, hc3⟩, hc2⟩ := hs
  obtain ⟨hcheck, -, -, hbit⟩ := hall _ s hr
  have hbit3 := hbit 3 (by decide) hv3 0 (by decide)
  have hbit2 := hbit 2 (by decide) hv2 0 (by decide)
  rw [show fourBlocks.numBlocks = 4 by decide] at hbit3 hbit2
  refine ⟨t, s, hnew, hr, hcheck, ?_, ?_⟩
  · rw [hc3] at hbit3
    exact Bool.eq_false_iff.mpr fun hb => absurd (hbit3.mp hb) (by decide)
  · rw [hc2] at hbit2
    exact hbit2.mpr (by decide)

end Run

end Gem5.Cache
