import Gem5Nvmain.Cache.FaLruRuns

/- Looking up blocks in FALRU.

  `findVictim` enters the new address in `tagHash` and erases the entry of the victim's tag, and a lookup asserts that
  the tag of the block it finds is the address it looks for. But nothing sets the tag: `insertBlock` of FALRU is
  empty, where that of the set associative stores writes the tag and the set. All tags stay 0, and so lookups are
  consistent exactly along the runs that fill no block but the one at address 0 (`lookups_consistent_iff`).

  The store runs beside a record of the address that each block was filled for and of the addresses that were evicted. -/
namespace Gem5.Cache
open Lib Function Falru

inductive LookupOp where
  | access (addr : Nat)
  | fill (addr : Nat)
  | invalidate (blk : Nat)
  deriving DecidableEq, Repr

structure FalruHeld where
  store : Falru
  held : Nat → Option Nat := fun _ => none
  evicted : Nat → Bool := fun _ => false

/-- A fill of `handleFill`: `findVictim`, `insertBlock`, and the block becomes valid. A block that the lookup finds is
  filled in place. -/
def fillBlk (p : FalruParams) (s : FalruHeld) (addr : Nat) : Except Stop FalruHeld := do
  match ← s.store.findBlock p addr with
  | some _ => pure s
  | none =>
    let (t, blk) ← s.store.findVictim p addr
    let t := (t.insertBlock blk).modifyBlk blk fun x => { x with valid := true }
    let old := if (s.store.blks blk).valid then s.held blk else none
    pure { store := t
           held := update s.held blk (some (p.blkAlign addr))
           evicted := fun a => a != p.blkAlign addr && (s.evicted a || old == some a) }

def lookupStep (p : FalruParams) (s : FalruHeld) : LookupOp → Except Stop FalruHeld
  | .access addr => do
    let (t, _, _) ← s.store.accessBlock p addr
    pure { s with store := t }
  | .fill addr => fillBlk p s addr
  | .invalidate blk => pure { s with store := s.store.clearBlk blk, held := update s.held blk none }

/-- The address of a resident block leads to it, an evicted address leads nowhere, and no lookup fails. -/
structure Consistent (p : FalruParams) (s : FalruHeld) : Prop where
  resident : ∀ b a, (s.store.blks b).valid = true → s.held b = some a → s.store.tagHash a = some b
  evicted : ∀ a, s.evicted a = true → s.store.tagHash a = none
  findBlock : ∀ addr, ∃ r, s.store.findBlock p addr = .ok r
  accessBlock : ∀ addr, ∃ r, s.store.accessBlock p addr = .ok r

/-! ## Every run -/

/-- All tags are 0. -/
structure LookupInv (p : FalruParams) (s : Falru) : Prop where
  ordered : ∃ l, FaOrdered p s l ∧ ∀ a b, s.tagHash a = some b → b ∈ l
  tag : ∀ y, (s.blks y).tag = 0

section Every
variable {p : FalruParams} {s s' : FalruHeld} {t : Falru}

theorem LookupInv.modifyBlk {b : Nat} {f : FalruBlk → FalruBlk} (hi : LookupInv p t)
    (hf : ∀ x, (f x).prev = x.prev ∧ (f x).next = x.next ∧ (f x).inCache = x.inCache) (htag : ∀ x, (f x).tag = x.tag) :
    LookupInv p (t.modifyBlk b f) := by
  obtain ⟨l, ho, hhash⟩ := hi.ordered
  refine ⟨⟨l, ho.modifyBlk hf, hhash⟩, fun y => ?_⟩
  simp only [Falru.modifyBlk, update_apply]
  split
  · rw [htag, hi.tag]
  · exact hi.tag y

theorem LookupInv.findVictim (hi : LookupInv p t) (addr : Nat) :
    ∃ t', t.findVictim p addr = .ok (t', t.tail) ∧ LookupInv p t' ∧
      (∀ y, (t'.blks y).valid = (t.blks y).valid) ∧
      t'.tagHash = update (update t.tagHash 0 none) (p.blkAlign addr) (some t.tail) := by
  obtain ⟨l, ho, hhash⟩ := hi.ordered
  obtain ⟨t', ht, htail, ho', hsame, hh⟩ := ho.findVictim addr
  rw [hi.tag] at hh
  refine ⟨t', ht, ⟨⟨_, ho', fun a b hb => ?_⟩, fun y => (hsame y).2.trans (hi.tag y)⟩, fun y => (hsame y).1, hh⟩
  rw [(promote_perm htail).mem_iff]
  rcases hashed_after (hh ▸ hb) with rfl | hb
  · exact htail
  · exact hhash a b hb

theorem LookupInv.accessBlock {addr : Nat} {r : Option Nat} (hi : LookupInv p t)
    (hf : t.findBlock p addr = .ok r) :
    ∃ t' m, t.accessBlock p addr = .ok (t', r, m) ∧ LookupInv p t' ∧ FaOrdered.Kept t t' := by
  obtain ⟨l, ho, hhash⟩ := hi.ordered
  obtain ⟨t', m, ht, hk, hmoves⟩ := ho.accessBlock hhash hf
  refine ⟨t', m, ht, ⟨?_, fun y => (hk.tag y).trans (hi.tag y)⟩, hk⟩
  rw [hk.tagHash]
  rcases hmoves with ⟨-, rfl⟩ | ⟨x, hx, -, ho'⟩
  · exact ⟨l, ho, hhash⟩
  · exact ⟨_, ho', fun a b hb => (promote_perm hx).mem_iff.mpr (hhash a b hb)⟩

theorem LookupInv.findBlock_eq (hi : LookupInv p t) (addr : Nat) : t.findBlock p addr =
    match t.tagHash (p.blkAlign addr) with
    | none => .ok none
    | some b => if (t.blks b).valid then if p.blkAlign addr = 0 then .ok (some b) else .error .assertFailed
      else .ok none := by
  unfold findBlock hashLookup
  cases t.tagHash (p.blkAlign addr) with
  | none => rfl
  | some b =>
    simp only [hi.tag b]
    by_cases hz : p.blkAlign addr = 0
    · simp [hz, require]
    · rw [if_neg hz, show ((0 : Nat) == p.blkAlign addr) = false from beq_false_of_ne (Ne.symm hz)]
      rfl

theorem LookupInv.new (h : new p = .ok t) : LookupInv p t := by
  obtain ⟨t', ht', ho, hfresh, hhash⟩ := new_ordered p
  obtain rfl : t' = t := Except.ok.inj (ht'.symm.trans h)
  refine ⟨⟨_, ho, fun a b hb => ?_⟩, fun y => (hfresh y).2⟩
  simp [hhash] at hb

/-- What a fill that replaces a block leaves behind. -/
structure Replaced (p : FalruParams) (s s' : FalruHeld) (addr v : Nat) : Prop where
  inv : LookupInv p s'.store
  held : s'.held = update s.held v (some (p.blkAlign addr))
  valid : ∀ y, (s'.store.blks y).valid = if y = v then true else (s.store.blks y).valid
  tagHash : s'.store.tagHash = update (update s.store.tagHash 0 none) (p.blkAlign addr) (some v)
  evicted : ∀ a, s'.evicted a = (a != p.blkAlign addr &&
    (s.evicted a || (if (s.store.blks v).valid then s.held v else none) == some a))

/-- One step: what it finds is filled in place, and else a block is replaced. -/
theorem fillBlk_spec {addr : Nat} (hi : LookupInv p s.store) (h : fillBlk p s addr = .ok s') :
    ((∃ b, s.store.findBlock p addr = .ok (some b)) ∧ s' = s) ∨
      (s.store.findBlock p addr = .ok none ∧ ∃ v, Replaced p s s' addr v) := by
  obtain ⟨r, hf, h⟩ := of_bind h
  cases r with
  | some b =>
    cases h
    exact .inl ⟨⟨b, hf⟩, rfl⟩
  | none =>
    obtain ⟨t, ht, hi', hvalid, hh⟩ := hi.findVictim addr
    simp only [ht, bind_ok, pure_eq_ok, Except.ok.injEq, insertBlock] at h
    subst h
    have hset : LookupInv p (t.modifyBlk s.store.tail fun x => { x with valid := true }) :=
      hi'.modifyBlk (fun _ => ⟨rfl, rfl, rfl⟩) fun _ => rfl
    refine .inr ⟨hf, s.store.tail, hset, rfl, fun y => ?_, hh, fun _ => rfl⟩
    simp only [modifyBlk, update_apply]
    split
    · rfl
    · exact hvalid y

theorem LookupInv.step {op : LookupOp} (hi : LookupInv p s.store) (h : lookupStep p s op = .ok s') :
    LookupInv p s'.store := by
  cases op with
  | access addr =>
    obtain ⟨⟨t, r, m⟩, ht, h⟩ := of_bind h
    cases h
    obtain ⟨r', hf, -⟩ := of_bind ht
    obtain ⟨t', m', ht', hi', -⟩ := hi.accessBlock hf
    obtain ⟨rfl, -⟩ : t' = t ∧ _ := by simpa using ht'.symm.trans ht
    exact hi'
  | fill addr =>
    rcases fillBlk_spec hi h with ⟨-, rfl⟩ | ⟨-, v, hr⟩
    · exact hi
    · exact hr.inv
  | invalidate blk =>
    cases h
    have hi' : LookupInv p (s.store.invalidate blk) := by
      obtain ⟨l, ho, hhash⟩ := hi.ordered
      exact ⟨⟨l, ho.congr rfl rfl (fun _ => ⟨rfl, rfl, rfl⟩) rfl, hhash⟩, hi.tag⟩
    have hset : LookupInv p (s.store.clearBlk blk) := hi'.modifyBlk (fun _ => ⟨rfl, rfl, rfl⟩) fun _ => rfl
    exact hset

end Every

/-! ## Runs that fill the block at address 0 only -/

structure ZeroInv (p : FalruParams) (s : FalruHeld) : Prop where
  inv : LookupInv p s.store
  hash : ∀ a b, s.store.tagHash a = some b → a = 0
  held : ∀ b a, s.held b = some a → a = 0
  resident : ∀ b, (s.store.blks b).valid = true → s.store.tagHash 0 = some b
  evicted : ∀ a, s.evicted a = false

section Zero
variable {p : FalruParams} {s s' : FalruHeld} {t : Falru}

theorem ZeroInv.new (h : new p = .ok t) : ZeroInv p ⟨t, fun _ => none, fun _ => false⟩ := by
  obtain ⟨t', ht', -, hfresh, hhash⟩ := new_ordered p
  obtain rfl : t' = t := Except.ok.inj (ht'.symm.trans h)
  refine ⟨LookupInv.new h, fun a b hb => ?_, fun b a ha => ?_, fun b hb => ?_, fun _ => rfl⟩
  · simp [hhash] at hb
  · cases ha
  · simp [(hfresh b).1] at hb

/-- A fill that replaces a block finds no valid one. -/
theorem ZeroInv.replaced {addr v : Nat} (hi : ZeroInv p s) (hz : p.blkAlign addr = 0)
    (hf : s.store.findBlock p addr = .ok none) (hr : Replaced p s s' addr v) : ZeroInv p s' := by
  have hnone (b : Nat) : (s.store.blks b).valid = false := by
    by_contra hv
    rw [Bool.not_eq_false] at hv
    rw [hi.inv.findBlock_eq, hz, hi.resident b hv] at hf
    simp [hv] at hf
  have hh : s'.store.tagHash = update (update s.store.tagHash 0 none) 0 (some v) := hz ▸ hr.tagHash
  refine ⟨hr.inv, fun a b hb => ?_, fun b a ha => ?_, fun b hb => ?_, fun a => ?_⟩
  · by_contra ha
    simp only [hh, update_apply, if_neg ha] at hb
    exact ha (hi.hash a b hb)
  · rw [hr.held, hz, update_apply] at ha
    split at ha
    · exact (Option.some.inj ha).symm
    · exact hi.held b a ha
  · rw [hr.valid, hnone] at hb
    split at hb
    · rename_i heq
      rw [hh, heq, update_self]
    · cases hb
  · rw [hr.evicted, hi.evicted, hnone]
    simp

theorem ZeroInv.step {op : LookupOp} (hi : ZeroInv p s) (hop : ∀ addr, op = .fill addr → p.blkAlign addr = 0)
    (h : lookupStep p s op = .ok s') : ZeroInv p s' := by
  have hinv := hi.inv.step h
  cases op with
  | access addr =>
    obtain ⟨⟨t, r, m⟩, ht, h⟩ := of_bind h
    cases h
    obtain ⟨r', hf, -⟩ := of_bind ht
    obtain ⟨t', m', ht', -, hk⟩ := hi.inv.accessBlock hf
    obtain ⟨rfl, -⟩ : t' = t ∧ _ := by simpa using ht'.symm.trans ht
    refine ⟨hinv, fun a b hb => hi.hash a b (hk.tagHash ▸ hb), hi.held, fun b hb => ?_, hi.evicted⟩
    show t'.tagHash 0 = some b
    rw [hk.tagHash]
    exact hi.resident b ((hk.valid b).symm.trans hb)
  | fill addr =>
    rcases fillBlk_spec hi.inv h with ⟨-, rfl⟩ | ⟨hf, v, hr⟩
    · exact hi
    · exact hi.replaced (hop addr rfl) hf hr
  | invalidate blk =>
    cases h
    refine ⟨hinv, hi.hash, fun b a ha => ?_, fun b hb => ?_, hi.evicted⟩
    · simp only [update_apply] at ha
      split at ha
      · cases ha
      · exact hi.held b a ha
    · simp only [clearBlk, modifyBlk, update_apply] at hb
      split at hb
      · cases hb
      · exact hi.resident b hb

theorem ZeroInv.consistent (hi : ZeroInv p s) : Consistent p s := by
  have hfind (addr : Nat) : ∃ r, s.store.findBlock p addr = .ok r := by
    rw [hi.inv.findBlock_eq]
    split
    · exact ⟨_, rfl⟩
    · rename_i b hb
      rw [if_pos (hi.hash _ b hb)]
      split <;> exact ⟨_, rfl⟩
  refine ⟨fun b a hv ha => ?_, fun a ha => ?_, hfind, fun addr => ?_⟩
  · rw [hi.held b a ha]
    exact hi.resident b hv
  · rw [hi.evicted] at ha
    cases ha
  · obtain ⟨r, hf⟩ := hfind addr
    obtain ⟨t, m, ht, -⟩ := hi.inv.accessBlock hf
    exact ⟨_, ht⟩

theorem fill_inconsistent {addr : Nat} (hi : LookupInv p s.store) (hnz : p.blkAlign addr ≠ 0)
    (h : lookupStep p s (.fill addr) = .ok s') : s'.store.findBlock p addr = .error .assertFailed := by
  rcases fillBlk_spec hi h with ⟨⟨b, hf⟩, -⟩ | ⟨-, v, hr⟩
  · exact absurd ((findBlock_some hf).2.2.symm.trans (hi.tag b)) hnz
  · rw [hr.inv.findBlock_eq, hr.tagHash, update_self]
    simp [hr.valid, hnz]

/-- The lookups are consistent all along a run exactly when every fill of the run is of the block at address 0. -/
theorem lookups_consistent_iff (hnew : new p = .ok t) {h : List LookupOp}
    (hr : Exec (StepOf (lookupStep p)) ⟨t, fun _ => none, fun _ => false⟩ h s) :
    (∀ k u, k <+: h → Exec (StepOf (lookupStep p)) ⟨t, fun _ => none, fun _ => false⟩ k u → Consistent p u) ↔
      ∀ addr, .fill addr ∈ h → p.blkAlign addr = 0 := by
  constructor
  · -- the first fill of another block ends the consistency
    intro hall addr hmem
    induction hr with
    | nil => simp at hmem
    | @snoc h s s' op hr hs ih =>
      rcases List.mem_append.mp hmem with hmem | hmem
      · exact ih (fun k u hk => hall k u (hk.trans (List.prefix_append h [op]))) hmem
      · by_contra hnz
        rw [List.mem_singleton] at hmem
        subst hmem
        have hi : LookupInv p s.store :=
          hr.invariant (P := fun s => LookupInv p s.store) (LookupInv.new hnew) fun _ _ _ hi hs => hi.step hs
        obtain ⟨r, hf⟩ := (hall _ s' (List.prefix_refl _) (hr.snoc hs)).findBlock addr
        rw [fill_inconsistent hi hnz hs] at hf
        cases hf
  · intro hzero k u hk hu
    have hzero' (addr : Nat) (hmem : .fill addr ∈ k) : p.blkAlign addr = 0 := hzero addr (hk.subset hmem)
    refine ZeroInv.consistent (hu.history_invariant
      (P := fun k u => (∀ addr, .fill addr ∈ k → p.blkAlign addr = 0) → ZeroInv p u)
      (fun _ => ZeroInv.new hnew) ?_ hzero')
    intro k u op u' hi hs hfills
    refine (hi fun addr hmem => hfills addr (List.mem_append_left _ hmem)).step (fun addr hop => ?_) hs
    exact hfills addr (by simp [hop])

/-- The block at address 0 is filled, used, invalidated and filled again. -/
theorem lookups_consistent_zero : ∃ t s, new fourBlocks = .ok t ∧
    Exec (StepOf (lookupStep fourBlocks)) ⟨t, fun _ => none, fun _ => false⟩
      [.fill 0, .access 64, .invalidate 3, .fill 128] s ∧ (s.store.blks 2).valid = true ∧ Consistent fourBlocks s := by
  have hrun : (match new fourBlocks with
      | .ok t => endsIn (lookupStep fourBlocks) ⟨t, fun _ => none, fun _ => false⟩
          [.fill 0, .access 64, .invalidate 3, .fill 128] fun s => (s.store.blks 2).valid
      | .error _ => false) = true := by decide
  obtain ⟨t, hnew, -⟩ := new_ordered fourBlocks
  rw [hnew] at hrun
  obtain ⟨s, hr, hs⟩ := Exec.of_endsIn hrun
  refine ⟨t, s, hnew, hr, hs, (lookups_consistent_iff hnew hr).mpr ?_ _ s (List.prefix_refl _) hr⟩
  intro addr hmem
  simp only [List.mem_cons, LookupOp.fill.injEq, reduceCtorEq, List.not_mem_nil, false_or, or_false] at hmem
  rcases hmem with rfl | rfl <;> decide

/-- The block at 64 KiB is filled, and the next lookup of it fails. -/
theorem lookup_fails_after_fill : ∃ t s, new fourBlocks = .ok t ∧
    Exec (StepOf (lookupStep fourBlocks)) ⟨t, fun _ => none, fun _ => false⟩ [.fill 65536] s ∧
    s.store.findBlock fourBlocks 65536 = .error .assertFailed ∧
    lookupStep fourBlocks s (.access 65536) = .error .assertFailed ∧ ¬Consistent fourBlocks s := by
  obtain ⟨t, hnew, -⟩ := new_ordered fourBlocks
  have hrun : (match new fourBlocks with
      | .ok t => endsIn (lookupStep fourBlocks) ⟨t, fun _ => none, fun _ => false⟩ [.fill 65536] fun s =>
        match s.store.findBlock fourBlocks 65536 with
        | .error e => e == .assertFailed
        | .ok _ => false
      | .error _ => false) = true := by decide
  rw [hnew] at hrun
  obtain ⟨s, hr, hs⟩ := Exec.of_endsIn hrun
  have hfail : s.store.findBlock fourBlocks 65536 = .error .assertFailed := by
    split at hs
    · rename_i e he
      rw [he, beq_iff_eq.mp hs]
    · cases hs
  refine ⟨t, s, hnew, hr, hfail, ?_, fun hc => ?_⟩
  · simp only [lookupStep, accessBlock, hfail, bind_error]
  · obtain ⟨r, hr⟩ := hc.findBlock 65536
    rw [hfail] at hr
    cases hr

end Zero

end Gem5.Cache
