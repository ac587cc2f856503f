import Gem5Nvmain.Cache.TagsInv
import Gem5Nvmain.Cache.Policies

/- Runs of a tag store on its own.

  `tagOp` is one use the cache makes of its tag store: an access, a fill (the victim is taken, the block inserted and
  then made valid by the caller), an invalidation together with the block's own, and a change of the members that the
  store adapts by itself. Nothing else is asked of the caller, so a run may fill an address that the cache holds.
  `callStep` takes the functions of the store one by one, in any order.

  Every store that is lawful keeps its blocks in their sets (`Placed`). `Stack` adds what the stores that order a set
  as a stack have in common: which block a step moves, and where to. What a step does to one set is then one of four
  things (`SetStep`), whatever the store; the orders the stores keep are proved from that. -/
namespace Gem5.Cache
open Lib Gem5.Mem Tags List Tags

/-! ## Steps -/

/-- The members of the tag store that change on their own. -/
inductive Adapt where
  | setWarmUp
  | updateSomething (lt : Nat → Nat → Bool)
  | setRecord (lt : Nat → Nat → Bool)

inductive TagOp where
  | access (addr : Nat) (isSecure : Bool) (cmd : MemCmd) (portId : Int)
  | fill (pkt : Packet) (rand : Nat)
  | invalidate (i : Nat)
  | adapt (a : Adapt)

/-- What the caller of `insertBlock` makes of the block. -/
def CacheBlk.fill (b : CacheBlk) (isSecure : Bool) : CacheBlk :=
  { b with valid := true, readable := true, secure := b.secure || isSecure }

section Step
variable {σ : Type} (p : TagParams) (T : TagStore σ)

def adaptTags (t : Tags σ) : Adapt → Except Stop (Tags σ)
  | .setWarmUp => .ok { t with warmedUp := true }
  | .updateSomething lt => T.updateSomething t lt
  | .setRecord lt => T.setRecord t lt

/-- The store afterwards, and the block that was accessed or inserted. -/
def tagOp (t : Tags σ) : TagOp → Except Stop (Tags σ × Option Nat)
  | .access addr isSecure cmd portId => T.accessBlock t addr isSecure cmd portId
  | .fill pkt rand => do
    let (t, i) ← T.findVictim t pkt.addr rand
    let t ← T.insertBlock t pkt i
    pure (t.setBlk i ((t.blk i).fill pkt.isSecure), some i)
  | .invalidate i => do
    require (decide (i < p.numBlocks))
    let t ← T.invalidate t i
    pure (t.setBlk i (t.blk i).invalidate, none)
  | .adapt a => do
    let t ← adaptTags T t a
    pure (t, none)

def tagStep (t : Tags σ) (op : TagOp) : Except Stop (Tags σ) := do
  let (t, _) ← tagOp p T t op
  pure t

end Step

/-- A single call of the tag store, the warm-up, or a block that the cache changes: the calls in any order. -/
inductive TagCall where
  | accessBlock (addr : Nat) (isSecure : Bool) (cmd : MemCmd) (portId : Int)
  | findVictim (addr rand : Nat)
  | insertBlock (pkt : Packet) (i : Nat)
  | invalidate (i : Nat)
  | setWarmUp
  | block (i : Nat) (b : CacheBlk)

def callStep {σ : Type} (p : TagParams) (T : TagStore σ) (t : Tags σ) : TagCall → Except Stop (Tags σ)
  | .accessBlock addr isSecure cmd portId => do
    let (t, _) ← T.accessBlock t addr isSecure cmd portId
    pure t
  | .findVictim addr rand => do
    let (t, _) ← T.findVictim t addr rand
    pure t
  | .insertBlock pkt i => do
    require (decide (i < p.numBlocks))
    T.insertBlock t pkt i
  | .invalidate i => do
    require (decide (i < p.numBlocks))
    T.invalidate t i
  | .setWarmUp => .ok { t with warmedUp := true }
  | .block i b => .ok (t.setBlk i b)

section Frame
variable {σ : Type} {p : TagParams} {T : TagStore σ} {t t' : Tags σ} {i : Nat}

variable {a : Adapt}

theorem adaptTags_reordered (hT : Lawful p T) (h : adaptTags T t a = .ok t') : Reordered t t' := by
  cases a with
  | setWarmUp =>
    cases h
    exact ⟨rfl, rfl, rfl, fun _ => List.Perm.refl _, fun _ => rfl, fun _ => rfl, rfl, rfl⟩
  | updateSomething lt => exact hT.updateSomething h
  | setRecord lt => exact hT.setRecord h

/-! ## What the base class changes -/

/-- Every set has its blocks in the same order. -/
def SameOrder (t t' : Tags σ) : Prop := ∀ n, (t'.setAt n).blks = (t.setAt n).blks

theorem SameOrder.of_sets (h : t'.sets = t.sets) : SameOrder t t' := by
  intro n
  rw [setAt, setAt, h]

variable {t'' : Tags σ}

theorem SameOrder.trans (h₁ : SameOrder t t') (h₂ : SameOrder t' t'') : SameOrder t t'' :=
  fun n => (h₂ n).trans (h₁ n)

/-- Block `i` alone has changed, and stays in its set. -/
structure Touches (t t' : Tags σ) (i : Nat) : Prop where
  numBlocks : t'.blocks.length = t.blocks.length
  numSets : t'.sets.length = t.sets.length
  set : (t'.blk i).set = (t.blk i).set
  others : ∀ j, j ≠ i → t'.blk j = t.blk j

theorem Touches.refl (t : Tags σ) (i : Nat) : Touches t t i := ⟨rfl, rfl, rfl, fun _ _ => rfl⟩

theorem Touches.trans (h₁ : Touches t t' i) (h₂ : Touches t' t'' i) : Touches t t'' i :=
  ⟨h₂.numBlocks.trans h₁.numBlocks, h₂.numSets.trans h₁.numSets, h₂.set.trans h₁.set,
    fun j hj => (h₂.others j hj).trans (h₁.others j hj)⟩

theorem Touches.blocks (h : Touches t t' i) : t'.blocks = t.blocks.set i (t'.blk i) := by
  refine ext_getElem (by rw [length_set, h.numBlocks]) fun j hj hj' => ?_
  rw [← blk_eq_getElem hj]
  by_cases hji : j = i
  · subst hji
    rw [getElem_set_self]
  · rw [h.others j hji, getElem_set_ne (Ne.symm hji), blk_eq_getElem]

theorem Reordered.touches (h : Reordered t t') (i : Nat) : Touches t t' i :=
  ⟨congrArg length h.blocks, h.numSets, by rw [h.blk], fun j _ => h.blk j⟩

theorem setBlk_touches {b : CacheBlk} (hb : b.set = (t.blk i).set) : Touches t (t.setBlk i b) i := by
  refine ⟨length_set, rfl, ?_, fun j hj => blk_setBlk_ne hj⟩
  by_cases h : i < t.blocks.length
  · rw [blk_setBlk_self h, hb]
  · rw [setBlk, set_eq_of_length_le (Nat.le_of_not_lt h)]

theorem evict_spec (h : t.evict p i = .ok t') : SameOrder t t' ∧ Touches t t' i ∧
    (i < t.blocks.length → (t'.blk i).valid = false) ∧ t'.policy = t.policy ∧ t'.warmedUp = t.warmedUp := by
  unfold evict at h
  simp only at h
  split at h
  · obtain ⟨_, -, h⟩ := of_bind h
    cases h
    refine ⟨fun n => blks_decSetLine, ?_, fun hlt => ?_, rfl, rfl⟩
    · refine ⟨length_set, length_modify .., ?_, fun j hj => blk_setBlk_ne hj⟩
      exact (setBlk_touches (b := (t.blk i).invalidate) rfl).set
    · rw [blk_setBlk_self (by exact hlt)]
      rfl
  · rename_i hv
    cases h
    exact ⟨fun _ => rfl, .refl t i, fun _ => by simpa using hv, rfl, rfl⟩

variable {pkt : Packet}

theorem insertBlock_spec (h : t.insertBlock p pkt i = .ok t') (hlt : i < t.blocks.length) :
    SameOrder t t' ∧ Touches t t' i ∧ (t'.blk i).valid = false ∧
    (t'.blk i).isPcm = decide (pkt.addr < p.watershed) ∧ t'.policy = t.policy ∧ t'.warmedUp = t.warmedUp := by
  obtain ⟨t₁, h₁, h⟩ := of_bind h
  obtain ⟨_, -, h⟩ := of_bind h
  cases h
  have hstart : ∃ n, (if (t.blk i).isTouched then t else { t with tagsInUse := t.tagsInUse + 1 }) =
      { t with tagsInUse := n } := by
    split
    · exact ⟨t.tagsInUse, rfl⟩
    · exact ⟨_, rfl⟩
  obtain ⟨n, hstart⟩ := hstart
  rw [hstart] at h₁
  obtain ⟨horder, htouch, hvalid, hpolicy, hwarm⟩ := evict_spec h₁
  have hlt₁ : i < t₁.blocks.length := by
    rw [htouch.numBlocks]
    exact hlt
  refine ⟨fun n => (blks_incSetLine).trans (horder n), ?_, ?_, ?_, hpolicy, hwarm⟩
  · refine ⟨length_set.trans htouch.numBlocks, (length_modify ..).trans htouch.numSets, ?_,
      fun j hj => (blk_setBlk_ne hj).trans (htouch.others j hj)⟩
    rw [blk_setBlk_self (by exact hlt₁)]
    exact htouch.set
  · rw [blk_setBlk_self (by exact hlt₁)]
    exact hvalid hlt
  · rw [blk_setBlk_self (by exact hlt₁)]

theorem invalidate_spec (h : t.invalidate p i = .ok t') :
    (t.blk i).valid = true ∧ SameOrder t t' ∧ Touches t t' i ∧ t'.policy = t.policy := by
  obtain ⟨hv, -, rfl⟩ := invalidate_eq_ok.mp h
  refine ⟨hv, fun n => blks_decSetLine, ⟨length_set,
    length_modify .., ?_, fun j hj => blk_setBlk_ne hj⟩, rfl⟩
  exact (setBlk_touches (b := { t.blk i with srcMasterId := invldMasterId }) rfl).set

/-! ## Blocks stay in their sets -/

theorem Placed.touched (hp : Placed p t) (h : Touches t t' i)
    (hways : ∀ n, (t'.setAt n).blks.Perm (t.setAt n).blks) : Placed p t' := by
  refine ⟨h.numBlocks.trans hp.numBlocks, h.numSets.trans hp.numSets,
    fun n hn => (hways n).trans (hp.ways n hn), fun j hj => ?_⟩
  by_cases hji : j = i
  · rw [hji, h.set, ← hji]
    exact hp.set j hj
  · rw [h.others j hji]
    exact hp.set j hj

theorem Placed.reordered (hp : Placed p t) (h : Reordered t t') : Placed p t' :=
  hp.touched (h.touches 0) h.ways

theorem Placed.new (hT : Lawful p T) : Placed p T.new := by
  have hbase : Placed p (Tags.new p T.new.policy) := (TagsInv.new p T.new.policy).placed
  rw [hT.new]
  exact ⟨hbase.numBlocks, hbase.numSets, hbase.ways, hbase.set⟩

variable {addr : Nat} {isSecure : Bool}

theorem Placed.findBlock (hp : Placed p t) (h : t.findBlock p addr isSecure = some i) :
    i < p.numBlocks ∧ (t.blk i).set = p.extractSet addr ∧ (t.blk i).valid = true := by
  obtain ⟨hlt, hset⟩ := (hp.mem_ways (p.extractSet_lt addr)).mp (mem_of_find?_eq_some h)
  have hholds := find?_some h
  simp only [holds, Bool.and_eq_true] at hholds
  exact ⟨hlt, by rw [hp.set i hlt, hset], hholds.1.2⟩

theorem insert_touches (hT : Lawful p T) (hlt : i < t.blocks.length) (h : T.insertBlock t pkt i = .ok t') :
    Touches t t' i ∧ ∀ n, (t'.setAt n).blks.Perm (t.setAt n).blks := by
  obtain ⟨u₁, u₂, hu₁, hbase, hu₂⟩ := hT.insertBlock h
  have hlt₁ : i < u₁.blocks.length := by
    rw [hu₁.blocks]
    exact hlt
  obtain ⟨horder, htouch, -⟩ := insertBlock_spec hbase hlt₁
  refine ⟨((hu₁.touches i).trans htouch).trans (hu₂.touches i), fun n => ?_⟩
  have hu := hu₂.ways n
  rw [horder n] at hu
  exact hu.trans (hu₁.ways n)

/-- A fill changes the victim only, and makes it valid. -/
theorem fill_spec (hT : Lawful p T) (hp : Placed p t) {rand : Nat} {used : Option Nat}
    (h : tagOp p T t (.fill pkt rand) = .ok (t', used)) :
    ∃ i t₁ t₂, T.findVictim t pkt.addr rand = .ok (t₁, i) ∧ T.insertBlock t₁ pkt i = .ok t₂ ∧
      t' = t₂.setBlk i ((t₂.blk i).fill pkt.isSecure) ∧ used = some i ∧
      i ∈ (t.setAt (p.extractSet pkt.addr)).blks ∧ Touches t t' i ∧ (t'.blk i).valid = true ∧
      ∀ n, (t'.setAt n).blks.Perm (t.setAt n).blks := by
  obtain ⟨⟨t₁, i⟩, hv, h⟩ := of_bind h
  obtain ⟨t₂, hins, h⟩ := of_bind h
  cases h
  obtain ⟨hr, hmem⟩ := hT.findVictim hv
  have hlt := ((hp.mem_ways (p.extractSet_lt pkt.addr)).mp hmem).1
  obtain ⟨htouch, hways⟩ := insert_touches hT (by rw [hr.blocks, hp.numBlocks]; exact hlt) hins
  have htouches := (hr.touches i).trans htouch
  refine ⟨i, t₁, t₂, hv, hins, rfl, rfl, hmem, htouches.trans (setBlk_touches rfl), ?_,
    fun n => (hways n).trans (hr.ways n)⟩
  rw [blk_setBlk_self]
  · rfl
  · rw [htouches.numBlocks, hp.numBlocks]
    exact hlt

/-- An invalidation changes one block of the store, and leaves it invalid. -/
theorem invalidation_spec (hT : Lawful p T) (hp : Placed p t) {used : Option Nat}
    (h : tagOp p T t (.invalidate i) = .ok (t', used)) :
    ∃ t₁, T.invalidate t i = .ok t₁ ∧ t' = t₁.setBlk i (t₁.blk i).invalidate ∧ used = none ∧
      i < p.numBlocks ∧ (t.blk i).valid = true ∧ Touches t t' i ∧ (t'.blk i).valid = false ∧
      ∀ n, (t'.setAt n).blks.Perm (t.setAt n).blks := by
  obtain ⟨_, hlt, h⟩ := of_bind h
  obtain ⟨t₁, hinv, h⟩ := of_bind h
  cases h
  rw [require_eq_ok, decide_eq_true_eq] at hlt
  obtain ⟨u₁, u₂, hu₁, hbase, hu₂⟩ := hT.invalidate hinv
  obtain ⟨hvalid, horder, htouch, -⟩ := invalidate_spec hbase
  have htouches := ((hu₁.touches i).trans htouch).trans (hu₂.touches i)
  refine ⟨t₁, hinv, rfl, rfl, hlt, by rw [← hu₁.blk]; exact hvalid, htouches.trans (setBlk_touches rfl), ?_,
    fun n => ?_⟩
  · rw [blk_setBlk_self]
    · rfl
    · rw [htouches.numBlocks, hp.numBlocks]
      exact hlt
  · have hu := hu₂.ways n
    rw [horder n] at hu
    exact hu.trans (hu₁.ways n)

theorem tagOp_placed (hT : Lawful p T) {op : TagOp} {used : Option Nat} (hp : Placed p t)
    (h : tagOp p T t op = .ok (t', used)) : Placed p t' := by
  cases op with
  | access addr isSecure cmd portId => exact hp.reordered (hT.accessBlock h).1
  | fill pkt rand =>
    obtain ⟨i, t₁, t₂, -, -, -, -, -, htouch, -, hways⟩ := fill_spec hT hp h
    exact hp.touched htouch hways
  | invalidate i =>
    obtain ⟨t₁, -, -, -, -, -, htouch, -, hways⟩ := invalidation_spec hT hp h
    exact hp.touched htouch hways
  | adapt a =>
    obtain ⟨t₁, ha, h⟩ := of_bind h
    cases h
    exact hp.reordered (adaptTags_reordered hT ha)

/-! ## Stacks -/

/-- The blocks of set `n` are reordered, those of the other sets are not. -/
structure Moves (move : List Nat → List Nat → Prop) (t t' : Tags σ) (n : Nat) : Prop where
  here : move (t.setAt n).blks (t'.setAt n).blks
  others : ∀ m, m ≠ n → (t'.setAt m).blks = (t.setAt m).blks

variable {f : List Nat → Except Stop (List Nat)}

theorem reorder_moves {n : Nat} (h : t.reorder n f = .ok t') : Moves (fun l l' => f l = .ok l') t t' n := by
  obtain ⟨s, hs, h⟩ := of_bind h
  obtain ⟨l, hl, h⟩ := of_bind h
  cases h
  rw [index_eq_ok] at hs
  have hlt := (List.getElem?_eq_some_iff.mp hs).1
  have hold : t.setAt n = s := by simp [setAt, hs]
  refine ⟨?_, fun m hm => ?_⟩
  · rw [hold]
    simpa [setAt, hlt] using hl
  · simp [setAt, getElem?_set_ne (Ne.symm hm)]

theorem reorder_policy {n : Nat} (h : t.reorder n f = .ok t') : t'.policy = t.policy := by
  obtain ⟨s, -, h⟩ := of_bind h
  obtain ⟨l, -, h⟩ := of_bind h
  cases h
  rfl

variable {move : List Nat → List Nat → Prop}

theorem Moves.imp {move' : List Nat → List Nat → Prop} {n : Nat} (h : Moves move t t' n)
    (himp : ∀ l l', move l l' → move' l l') : Moves move' t t' n :=
  ⟨himp _ _ h.here, h.others⟩

theorem Moves.after {n : Nat} {t₀ : Tags σ} (h : Moves move t t' n) (h₀ : SameOrder t₀ t) : Moves move t₀ t' n :=
  ⟨by rw [← h₀ n]; exact h.here, fun m hm => (h.others m hm).trans (h₀ m)⟩

theorem Moves.setBlk {n : Nat} (h : Moves move t t' n) (i : Nat) (b : CacheBlk) : Moves move t (t'.setBlk i b) n :=
  ⟨h.here, h.others⟩

theorem Moves.before {n : Nat} (h : Moves move t t' n) (h₁ : SameOrder t' t'') : Moves move t t'' n :=
  ⟨by rw [h₁ n]; exact h.here, fun m hm => (h₁ m).trans (h.others m hm)⟩

/-- Block `i` goes to a way that `ok` allows. -/
def PromotesTo (ok : Nat → Prop) (i : Nat) (l l' : List Nat) : Prop := ∃ k, ok k ∧ Promotes i l l' k

theorem accessAndMove_hit {move : Tags σ → Nat → Except Stop (Tags σ)}
    (h : t.accessAndMove p move addr isSecure = .ok (t', some i)) : move t i = .ok t' := by
  unfold accessAndMove at h
  split at h
  · cases h
  · obtain ⟨t₁, hmove, h⟩ := of_bind h
    cases h
    exact hmove

theorem accessAndMove_miss {move : Tags σ → Nat → Except Stop (Tags σ)}
    (h : t.accessAndMove p move addr isSecure = .ok (t', none)) : t' = t := by
  unfold accessAndMove at h
  split at h
  · cases h
    rfl
  · obtain ⟨t₁, -, h⟩ := of_bind h
    cases h

theorem lastWay_eq_ok : t.lastWay p addr = .ok (t', i) ↔
    t' = t ∧ (t.setAt (p.extractSet addr)).blks[p.assoc - 1]? = some i := by
  constructor
  · intro h
    obtain ⟨j, hj, h⟩ := of_bind h
    cases h
    exact ⟨rfl, index_eq_ok.mp hj⟩
  · rintro ⟨rfl, hj⟩
    exact bind_eq_ok.mpr ⟨i, index_eq_ok.mpr hj, rfl⟩

theorem adaptTags_sameOrder (hu : ∀ lt, T.updateSomething t lt = .ok t)
    (hr : ∀ lt, T.setRecord t lt = .ok t) (h : adaptTags T t a = .ok t') : SameOrder t t' := by
  cases a with
  | setWarmUp =>
    cases h
    exact fun _ => rfl
  | updateSomething lt =>
    cases (hu lt).symm.trans h
    exact fun _ => rfl
  | setRecord lt =>
    cases (hr lt).symm.trans h
    exact fun _ => rfl

theorem Placed.lastWay (hp : Placed p t) (addr : Nat) :
    ∃ i, (t.setAt (p.extractSet addr)).blks[p.assoc - 1]? = some i := by
  have hlen := hp.ways_length (p.extractSet_lt addr)
  have hpos := p.assoc_pos
  exact ⟨_, getElem?_eq_getElem (by omega)⟩

theorem invalidateToTail_moves (h : t.invalidateToTail p i = .ok t') :
    Moves (fun l l' => moveToTail l i = .ok l') t t' (t.blk i).set := by
  obtain ⟨t₁, hinv, h⟩ := of_bind h
  obtain ⟨-, horder, htouch, -⟩ := invalidate_spec hinv
  have hmoves := (reorder_moves h).after horder
  rw [htouch.set] at hmoves
  exact hmoves

end Frame

/-- A tag store that orders the blocks of a set as a stack: a block that is hit goes to a way that `hitAt` allows, a
  new one to a way that `fillAt` allows, an invalidated one to the tail. -/
structure Stack {σ : Type} (p : TagParams) (T : TagStore σ) (hitAt : Nat → Prop)
    (fillAt : Tags σ → Packet → Nat → Nat → Prop) : Prop where
  lawful : Lawful p T
  miss : ∀ {t t' : Tags σ} {addr : Nat} {isSecure : Bool} {cmd : MemCmd} {portId : Int},
    T.accessBlock t addr isSecure cmd portId = .ok (t', none) → SameOrder t t'
  hit : ∀ {t t' : Tags σ} {addr : Nat} {isSecure : Bool} {cmd : MemCmd} {portId : Int} {i : Nat},
    T.accessBlock t addr isSecure cmd portId = .ok (t', some i) →
    Moves (PromotesTo hitAt i) t t' (t.blk i).set
  fill : ∀ {t t₁ t₂ : Tags σ} {pkt : Packet} {rand i : Nat}, Placed p t →
    T.findVictim t pkt.addr rand = .ok (t₁, i) → T.insertBlock t₁ pkt i = .ok t₂ →
    Moves (PromotesTo (fillAt t pkt i) i) t t₂ (p.extractSet pkt.addr)
  invalidate : ∀ {t t' : Tags σ} {i : Nat}, T.invalidate t i = .ok t' →
    Moves (fun l l' => moveToTail l i = .ok l') t t' (t.blk i).set
  adapt : ∀ {t t' : Tags σ} {a : Adapt}, adaptTags T t a = .ok t' → SameOrder t t'

/-- What a step does to the stack of one set, before and after, and to the validity of its blocks. `used` is the block
  that was accessed or inserted. -/
inductive SetStep (hitAt : Nat → Prop) (fillAt : Nat → Nat → Prop) (valid valid' : Nat → Bool)
    (l l' : List Nat) (used : Option Nat) : Prop where
  | idle (order : l' = l) (same : ∀ i ∈ l, valid' i = valid i) (unused : ∀ i ∈ l, used ≠ some i)
  | hit (i k : Nat) (at_way : hitAt k) (order : Promotes i l l' k) (same : ∀ j, valid' j = valid j)
      (isValid : valid i = true) (isUsed : used = some i)
  | fill (i k : Nat) (at_way : fillAt i k) (order : Promotes i l l' k)
      (same : ∀ j, j ≠ i → valid' j = valid j) (isValid : valid' i = true) (isUsed : used = some i)
  | invalidate (i : Nat) (mem : i ∈ l) (order : l' = demote i l) (same : ∀ j, j ≠ i → valid' j = valid j)
      (isInvalid : valid' i = false) (unused : used = none)

section Steps
variable {σ : Type} {p : TagParams} {T : TagStore σ} {t t' : Tags σ} {hitAt : Nat → Prop}
  {fillAt : Tags σ → Packet → Nat → Nat → Prop} {op : TagOp} {used : Option Nat} {n : Nat}

/-- The way a step may put a new block at. -/
def TagOp.fillsAt (fillAt : Tags σ → Packet → Nat → Nat → Prop) (t : Tags σ) : TagOp → Nat → Nat → Prop
  | .fill pkt _ => fillAt t pkt
  | _ => fun _ _ => False

/-- A step that moves block `i` in its set leaves the other sets alone. -/
theorem setStep_other {move : List Nat → List Nat → Prop} {i m : Nat} {hitAt : Nat → Prop}
    {fillAt : Nat → Nat → Prop} (hp : Placed p t) (hn : n < p.numSets) (hm : Moves move t t' m)
    (hmem : i < p.numBlocks ∧ i / p.assoc = m) (hne : n ≠ m) (same : ∀ j, j ≠ i → (t'.blk j).valid = (t.blk j).valid)
    (hused : used = none ∨ used = some i) :
    SetStep hitAt fillAt (fun i => (t.blk i).valid) (fun i => (t'.blk i).valid) (t.setAt n).blks (t'.setAt n).blks
      used := by
  have hout (j : Nat) (hj : j ∈ (t.setAt n).blks) : j ≠ i := by
    rintro rfl
    exact hne (((hp.mem_ways hn).mp hj).2.symm.trans hmem.2)
  refine SetStep.idle (hm.others n hne) (fun j hj => same j (hout j hj)) fun j hj => ?_
  rcases hused with h | h
  · simp [h]
  · rw [h]
    exact fun heq => hout j hj (Option.some.inj heq).symm

theorem Stack.step (hS : Stack p T hitAt fillAt) (hp : Placed p t) (hn : n < p.numSets)
    (h : tagOp p T t op = .ok (t', used)) :
    SetStep hitAt (op.fillsAt fillAt t) (fun i => (t.blk i).valid) (fun i => (t'.blk i).valid)
      (t.setAt n).blks (t'.setAt n).blks used := by
  cases op with
  | access addr isSecure cmd portId =>
    obtain ⟨hr, hfound⟩ := hS.lawful.accessBlock h
    have hsame (j : Nat) : (t'.blk j).valid = (t.blk j).valid := by rw [hr.blk]
    cases used with
    | none => exact SetStep.idle (hS.miss h n) (fun j _ => hsame j) (by simp)
    | some i =>
      obtain ⟨hlt, hset, hvalid⟩ := hp.findBlock hfound.symm
      have hmoves := hS.hit h
      by_cases hni : n = (t.blk i).set
      · subst hni
        obtain ⟨k, hk, hprom⟩ := hmoves.here
        exact SetStep.hit i k hk hprom hsame hvalid rfl
      · exact setStep_other hp hn hmoves ⟨hlt, (hp.set i hlt).symm⟩ hni (fun j _ => hsame j) (.inr rfl)
  | fill pkt rand =>
    obtain ⟨i, t₁, t₂, hv, hins, rfl, rfl, hmem, htouch, hvalid, -⟩ := fill_spec hS.lawful hp h
    have hway := (hp.mem_ways (p.extractSet_lt pkt.addr)).mp hmem
    have hmoves := (hS.fill hp hv hins).setBlk i ((t₂.blk i).fill pkt.isSecure)
    have hsame (j : Nat) (hj : j ≠ i) := congrArg CacheBlk.valid (htouch.others j hj)
    by_cases hni : n = p.extractSet pkt.addr
    · subst hni
      obtain ⟨k, hk, hprom⟩ := hmoves.here
      exact SetStep.fill i k hk hprom hsame hvalid rfl
    · exact setStep_other hp hn hmoves hway hni hsame (.inr rfl)
  | invalidate i =>
    obtain ⟨t₁, hinv, rfl, rfl, hlt, -, htouch, hinvalid, -⟩ := invalidation_spec hS.lawful hp h
    have hmoves := (hS.invalidate hinv).setBlk i (t₁.blk i).invalidate
    have hsame (j : Nat) (hj : j ≠ i) := congrArg CacheBlk.valid (htouch.others j hj)
    by_cases hni : n = (t.blk i).set
    · subst hni
      obtain ⟨hmem, horder⟩ := moveToTail_demotes (hp.ways_nodup hn) hmoves.here
      exact SetStep.invalidate i hmem horder hsame hinvalid rfl
    · exact setStep_other hp hn hmoves ⟨hlt, (hp.set i hlt).symm⟩ hni hsame (.inl rfl)
  | adapt a =>
    obtain ⟨t₁, ha, h⟩ := of_bind h
    cases h
    have hr := adaptTags_reordered hS.lawful ha
    exact SetStep.idle (hS.adapt ha n) (fun j _ => by rw [hr.blk]) (by simp)

end Steps

end Gem5.Cache
