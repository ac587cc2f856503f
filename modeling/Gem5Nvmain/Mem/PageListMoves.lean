import Gem5Nvmain.Mem.PageListShape

/- One operation on the page lists.

  `Inv s L`: every page is on one list, the one its record calls for, and every list is linked. An operation moves a
  few pages, one after the other. During a move the page is `Held` where it was, then `Freed`, then `Placed` on its
  new list; once its record calls for that list the invariant is back (`Placed.listed`). -/
namespace Gem5.Mem.XBarControl
open Lib List

variable {s t : XBarControl} {L : PageList → List Nat} {id : PageList} {x y q i now masterId pcm dram : Nat}

/-! ## Labels -/

/-- The record calls for the list. -/
def At (s : XBarControl) : PageList → Nat → Prop
  | .MQ q, x => (s.page x).queue_number = q ∧ 0 < (s.page x).access_counter
  | .DRAM_victim, x => (s.page x).access_counter = 0 ∧ s.numPcmPages ≤ x
  | .PCM_unranked, x => (s.page x).access_counter = 0 ∧ x < s.numPcmPages

/-- Every page is on one list, the one its record calls for, and each list is well linked. -/
structure Inv (s : XBarControl) (L : PageList → List Nat) : Prop where
  shape : Shape s L none
  labels : ∀ id x, x ∈ L id → At s id x
  number : ∀ x < s.numPcmPages + s.numDramPages, (s.page x).page_number = x
  counter : ∀ x, (s.page x).access_counter < 2 ^ 16

/-- Nothing but the record of `x` changes, apart from pointers. -/
structure Only (x : Nat) (s t : XBarControl) : Prop where
  pcm : t.numPcmPages = s.numPcmPages
  dram : t.numDramPages = s.numDramPages
  number : ∀ y, (t.page y).page_number = (s.page y).page_number
  label : ∀ y, y ≠ x → t.label y = s.label y

theorem queue_number_eq (hl : t.label x = s.label x) : (t.page x).queue_number = (s.page x).queue_number := by
  have h : (t.label x).queue_number = (s.label x).queue_number := by rw [hl]
  exact h

theorem access_counter_eq (hl : t.label x = s.label x) : (t.page x).access_counter = (s.page x).access_counter := by
  have h : (t.label x).access_counter = (s.label x).access_counter := by rw [hl]
  exact h

theorem At.of_eq (hpcm : t.numPcmPages = s.numPcmPages) (hq : (t.page x).queue_number = (s.page x).queue_number)
    (hc : (t.page x).access_counter = (s.page x).access_counter) (h : At s id x) : At t id x := by
  cases id <;> simpa only [At, hq, hc, hpcm] using h

theorem At.congr (hpcm : t.numPcmPages = s.numPcmPages) (hl : t.label x = s.label x) (h : At s id x) : At t id x :=
  h.of_eq hpcm (queue_number_eq hl) (access_counter_eq hl)

theorem Only.refl : Only x s s := ⟨rfl, rfl, fun _ => rfl, fun _ _ => rfl⟩

theorem Only.trans {u : XBarControl} (h : Only x s t) (h' : Only x t u) : Only x s u where
  pcm := h'.pcm.trans h.pcm
  dram := h'.dram.trans h.dram
  number y := (h'.number y).trans (h.number y)
  label y hy := (h'.label y hy).trans (h.label y hy)

theorem Only.linked (h : Heap Nat) (e : Ends Nat) : Only x s ((s.relink h).setEnds id e) :=
  ⟨rfl, rfl, fun _ => rfl, fun _ _ => rfl⟩

theorem page_setPage_self (f : PageInfo → PageInfo) : (s.setPage x f).page x = f (s.page x) := by
  simp [setPage]

theorem page_setPage_ne (f : PageInfo → PageInfo) (hne : y ≠ x) : (s.setPage x f).page y = s.page y := by
  simp [setPage, hne]

variable {f : PageInfo → PageInfo}

theorem Only.setPage (hf : ∀ p, (f p).page_number = p.page_number) : Only x s (s.setPage x f) where
  pcm := rfl
  dram := rfl
  number := by
    intro y
    by_cases hy : y = x
    · rw [hy, page_setPage_self, hf]
    · rw [page_setPage_ne f hy]
  label := by
    intro y hy
    unfold XBarControl.label
    rw [page_setPage_ne f hy]

/-! ## Moving one page -/

/-- The lists after the page `x` went to `id'`, or to no list. -/
def Went (L : PageList → List Nat) (x : Nat) (id' : Option PageList) (L' : PageList → List Nat) : Prop :=
  ∀ id y, y ∈ L' id → (y = x ∧ some id = id') ∨ (y ≠ x ∧ y ∈ L id)

/-- The page `x` is on no list, and the others are where they were in `s`. -/
structure Freed (s : XBarControl) (L : PageList → List Nat) (x : Nat) (t : XBarControl) : Prop where
  shape : ∃ L', Shape t L' (some x) ∧ Went L x none L'
  only : Only x s t

/-- The page `x` is on the list `id`, and the others are where they were in `s`. -/
structure Placed (s : XBarControl) (L : PageList → List Nat) (x : Nat) (id : PageList) (t : XBarControl) : Prop where
  shape : ∃ L', Shape t L' none ∧ Went L x (some id) L'
  only : Only x s t

/-- The memory has `pcm` and `dram` pages, and some lists satisfy the invariant. -/
structure Listed (pcm dram : Nat) (s : XBarControl) : Prop where
  numPcmPages : s.numPcmPages = pcm
  numDramPages : s.numDramPages = dram
  lists : ∃ L, Inv s L

variable {a b : List Nat}

theorem Freed.takeOut (ht : Shape t L none) (ho : Only x s t) (hx : L id = a ++ x :: b) :
    Freed s L x (t.takeOut id x) where
  shape := by
    refine ⟨_, ht.takeOut hx, ?_⟩
    intro id' y hy
    have hfree := ((ht.takeOut hx).free x rfl).2 id'
    refine .inr ⟨fun h => hfree (h ▸ hy), ?_⟩
    by_cases hid : id' = id
    · subst hid
      rw [Function.update_self] at hy
      rw [hx]
      simp only [mem_append, mem_cons] at hy ⊢
      tauto
    · rwa [Function.update_of_ne hid] at hy
  only := ho.trans (Only.linked _ _)

/-- A change of the record of `x` that leaves its pointers and its number alone. -/
def KeepsLinks (f : PageInfo → PageInfo) : Prop :=
  ∀ p, ((f p).pre = p.pre ∧ (f p).next = p.next) ∧ (f p).page_number = p.page_number

theorem keeps_reset : KeepsLinks fun i => { i with flag := 0, access_counter := 0 } := fun _ => ⟨⟨rfl, rfl⟩, rfl⟩

variable {v : Nat}

theorem keeps_queue : KeepsLinks fun i => { i with queue_number := v } := fun _ => ⟨⟨rfl, rfl⟩, rfl⟩

theorem keeps_flag : KeepsLinks fun i => { i with flag := v } := fun _ => ⟨⟨rfl, rfl⟩, rfl⟩

theorem keeps_counter {g : PageInfo → Nat} : KeepsLinks fun i => { i with access_counter := g i } :=
  fun _ => ⟨⟨rfl, rfl⟩, rfl⟩

theorem keeps_time : KeepsLinks fun i => { i with last_access_time := v } := fun _ => ⟨⟨rfl, rfl⟩, rfl⟩

theorem keeps_chosen {w : Nat} : KeepsLinks fun i => { i with access_counter := v, last_access_time := w } :=
  fun _ => ⟨⟨rfl, rfl⟩, rfl⟩

theorem Freed.setPage (h : Freed s L x t) (hf : KeepsLinks f) : Freed s L x (t.setPage x f) where
  shape := by
    obtain ⟨L', hs, hw⟩ := h.shape
    exact ⟨L', hs.setPage fun p => (hf p).1, hw⟩
  only := h.only.trans (Only.setPage fun p => (hf p).2)

theorem Placed.setPage (h : Placed s L x id t) (hf : KeepsLinks f) : Placed s L x id (t.setPage x f) where
  shape := by
    obtain ⟨L', hs, hw⟩ := h.shape
    exact ⟨L', hs.setPage fun p => (hf p).1, hw⟩
  only := h.only.trans (Only.setPage fun p => (hf p).2)

theorem Went.update {L₁ : PageList → List Nat} {k : List Nat} (hw : Went L x none L₁)
    (hk : ∀ y, y ∈ k ↔ y = x ∨ y ∈ L₁ id) : Went L x (some id) (Function.update L₁ id k) := by
  have hrest : ∀ id' y, y ∈ L₁ id' → y ≠ x ∧ y ∈ L id' := by
    intro id' y hy
    rcases hw id' y hy with ⟨-, h⟩ | h
    · cases h
    · exact h
  intro id' y hy
  by_cases hid : id' = id
  · subst hid
    rw [Function.update_self, hk] at hy
    rcases hy with rfl | hy
    · exact .inl ⟨rfl, rfl⟩
    · exact .inr (hrest _ _ hy)
  · rw [Function.update_of_ne hid] at hy
    exact .inr (hrest _ _ hy)

theorem Freed.putFront (h : Freed s L x t) (hid : ∀ q, id = .MQ q → q < numQueues) :
    Placed s L x id (t.putFront id x) where
  shape := by
    obtain ⟨L', hs, hw⟩ := h.shape
    exact ⟨_, hs.putFront hid, hw.update fun y => mem_cons⟩
  only := h.only.trans (Only.linked _ _)

theorem Freed.insert_into_MQ (h : Freed s L x t) (hq : q < numQueues) :
    ∃ u, t.insert_into_MQ x q = .ok u ∧ Placed s L x (.MQ q) u ∧ u.label x = { t.label x with queue_number := q } := by
  obtain ⟨L', hs, -⟩ := h.shape
  have hset : Freed s L x (t.setPage x fun i => { i with queue_number := q }) := h.setPage keeps_queue
  refine ⟨_, insert_into_MQ_eq hs hq, hset.putFront fun _ hid => PageList.MQ.inj hid ▸ hq, ?_⟩
  unfold XBarControl.putFront
  rw [label_setEnds, label_relink]
  unfold XBarControl.label
  rw [page_setPage_self]

theorem Freed.insertLast (id : PageList) (h : Freed s L x t) (hid : ∀ q, id = .MQ q → q < numQueues) :
    Placed s L x id (t.insertLast id x) ∧ (t.insertLast id x).label x = t.label x := by
  obtain ⟨L', hs, hw⟩ := h.shape
  rw [insertLast_eq hs]
  refine ⟨⟨?_, ?_⟩, rfl⟩
  · refine ⟨_, hs.putBack hid, ?_⟩
    exact hw.update fun y => by rw [mem_append, mem_singleton, or_comm]
  · exact h.only.trans (Only.linked _ _)

/-- A page on the list that its record calls for completes the lists. -/
theorem Placed.listed (hi : Inv s L) (h : Placed s L x id t) (hat : At t id x)
    (hcount : (t.page x).access_counter < 2 ^ 16) : Listed s.numPcmPages s.numDramPages t := by
  obtain ⟨L', hs, hw⟩ := h.shape
  refine ⟨h.only.pcm, h.only.dram, L', hs, ?_, ?_, ?_⟩
  · intro id' y hy
    rcases hw id' y hy with ⟨rfl, hid⟩ | ⟨hne, hy⟩
    · rw [Option.some.inj hid]
      exact hat
    · exact (hi.labels id' y hy).congr h.only.pcm (h.only.label y hne)
  · intro y hy
    rw [h.only.pcm, h.only.dram] at hy
    rw [h.only.number]
    exact hi.number y hy
  · intro y
    by_cases hne : y = x
    · rw [hne]
      exact hcount
    · rw [access_counter_eq (h.only.label y hne)]
      exact hi.counter y

/-! ## One move -/

/-- The page `x` of the last place of its queue, with a record that may have changed. -/
structure Held (s : XBarControl) (L : PageList → List Nat) (x : Nat) (t : XBarControl) : Prop where
  shape : Shape t L none
  only : Only x s t

theorem Held.setPage (h : Held s L x t) (hf : KeepsLinks f) : Held s L x (t.setPage x f) where
  shape := h.shape.setPage fun p => (hf p).1
  only := h.only.trans (Only.setPage fun p => (hf p).2)

theorem Inv.held (hi : Inv s L) : Held s L x s := ⟨hi.shape, .refl⟩

theorem Held.placed (h : Held s L x t) (hi : Inv s L) (hx : x ∈ L id) : Placed s L x id t where
  shape := by
    refine ⟨L, h.shape, ?_⟩
    intro id' y hy
    by_cases hyx : y = x
    · subst hyx
      exact .inl ⟨rfl, congrArg some (hi.shape.apart _ _ _ hy hx)⟩
    · exact .inr ⟨hyx, hy⟩
  only := h.only

theorem Only.isPcm (hi : Inv s L) (h : Only x s t) (hx : x ∈ L id) : t.isPcm x = decide (x < s.numPcmPages) := by
  have hnum := hi.number x (hi.shape.bound id x hx)
  unfold XBarControl.isPcm
  rw [h.number, hnum, h.pcm, Bool.eq_iff_iff]
  simp

theorem label_takeOut : (t.takeOut id x).label y = t.label y := rfl

/-- The last page of a queue finds its place one queue down, or among the unaccessed pages. -/
theorem Held.move_to_low (hi : Inv s L) (h : Held s L x t) (hx : L (.MQ q) = a ++ [x])
    (hq : (t.page x).queue_number = q) (hlt : q < numQueues) (hcount : 0 < q → 0 < (t.page x).access_counter)
    (hsmall : (t.page x).access_counter < 2 ^ 16) :
    ∃ u, t.move_to_low x = .ok u ∧ Listed s.numPcmPages s.numDramPages u := by
  have hmem : x ∈ L (.MQ q) := by simp [hx]
  have hfreed : Freed s L x (t.takeOut (.MQ q) x) := Freed.takeOut h.shape h.only hx
  have hpcm := h.only.isPcm hi hmem
  unfold XBarControl.move_to_low
  simp only [hq, decide_eq_true hlt, require, if_true, bind_ok, hpcm]
  rw [cutLast_eq h.shape hx, bind_ok]
  split
  · -- out of the queues
    by_cases hkind : x < s.numPcmPages
    · obtain ⟨hplaced, hlabel⟩ := Freed.insertLast .PCM_unranked hfreed (by simp)
      refine ⟨_, by rw [decide_eq_true hkind]; rfl, ?_⟩
      apply (hplaced.setPage keeps_reset).listed hi
      · refine ⟨by rw [page_setPage_self], ?_⟩
        rw [(hplaced.setPage keeps_reset).only.pcm]
        exact hkind
      · rw [page_setPage_self]
        exact Nat.two_pow_pos 16
    · obtain ⟨hplaced, hlabel⟩ := Freed.insertLast .DRAM_victim hfreed (by simp)
      refine ⟨_, by rw [decide_eq_false hkind]; rfl, ?_⟩
      apply (hplaced.setPage keeps_reset).listed hi
      · refine ⟨by rw [page_setPage_self], ?_⟩
        rw [(hplaced.setPage keeps_reset).only.pcm]
        exact Nat.le_of_not_lt hkind
      · rw [page_setPage_self]
        exact Nat.two_pow_pos 16
  · -- one queue down
    rename_i hstay
    have hpos : 0 < q := by
      apply Nat.pos_of_ne_zero
      rintro rfl
      exact hstay rfl
    obtain ⟨u, hu, hplaced, hlabel⟩ := hfreed.insert_into_MQ (q := q - 1) (by omega)
    rw [hu]
    refine ⟨_, rfl, ?_⟩
    have hcounter : (u.page x).access_counter = (t.page x).access_counter := by
      have hl : (u.label x).access_counter = (t.label x).access_counter := by rw [hlabel, label_takeOut]
      exact hl
    have hqueue : (u.page x).queue_number = q - 1 := by
      have hl : (u.label x).queue_number = q - 1 := by rw [hlabel]
      exact hl
    apply (hplaced.setPage keeps_flag).listed hi
    · refine ⟨?_, ?_⟩
      · rw [page_setPage_self]
        exact hqueue
      · rw [page_setPage_self]
        rw [hcounter]
        exact hcount hpos
    · rw [page_setPage_self]
      rw [hcounter]
      exact hsmall

/-- The first page of a queue finds its place one queue up. -/
theorem Held.move_to_up (hi : Inv s L) (h : Held s L x t) (hx : L (.MQ q) = x :: b)
    (hq : (t.page x).queue_number = q) (hlt : q + 1 < numQueues) (hcount : 0 < (t.page x).access_counter)
    (hsmall : (t.page x).access_counter < 2 ^ 16) :
    ∃ u, t.move_to_up x = .ok u ∧ Listed s.numPcmPages s.numDramPages u := by
  have hfreed : Freed s L x (t.takeOut (.MQ q) x) := Freed.takeOut h.shape h.only (a := []) hx
  unfold XBarControl.move_to_up
  have hlt' : q < numQueues := by omega
  simp only [hq, decide_eq_true hlt', require, if_true, bind_ok]
  rw [cutFirst_eq h.shape hx, bind_ok]
  obtain ⟨u, hu, hplaced, hlabel⟩ := hfreed.insert_into_MQ hlt
  have hcounter : (u.page x).access_counter = (t.page x).access_counter := by
    have hl : (u.label x).access_counter = (t.label x).access_counter := by rw [hlabel, label_takeOut]
    exact hl
  have hqueue : (u.page x).queue_number = q + 1 := by
    have hl : (u.label x).queue_number = q + 1 := by rw [hlabel]
    exact hl
  refine ⟨u, hu, hplaced.listed hi ⟨hqueue, ?_⟩ ?_⟩
  · rw [hcounter]
    exact hcount
  · rw [hcounter]
    exact hsmall

theorem expire_listed (hl : Listed pcm dram s) (hi : i < numQueues) :
    ∃ t, expire now s i = .ok t ∧ Listed pcm dram t := by
  obtain ⟨rfl, rfl, L, hinv⟩ := hl
  have hc := hinv.shape.chain (.MQ i)
  unfold expire
  cases htail : s.tail (.MQ i) with
  | none => exact ⟨s, rfl, rfl, rfl, L, hinv⟩
  | some x =>
    dsimp only
    split
    · have hlast : (L (.MQ i)).getLast? = some x := by rw [← htail]; exact hc.tail.symm
      obtain ⟨a, ha⟩ := getLast?_eq_some_iff.mp hlast
      obtain ⟨hq, hcount⟩ := hinv.labels (.MQ i) x (by simp [ha])
      have hsmall := hinv.counter x
      -- the counter is lowered below the queue's bound
      have hlow : ∃ t, (if (s.page x).access_counter > 2 ^ i then s.setPage x fun p => { p with access_counter := 2 ^ i - 1 }
          else s) = t ∧ Held s L x t ∧ (t.page x).queue_number = i ∧ (0 < i → 0 < (t.page x).access_counter) ∧
          (t.page x).access_counter < 2 ^ 16 := by
        split
        · refine ⟨_, rfl, hinv.held.setPage keeps_counter, ?_, ?_, ?_⟩
          · rw [page_setPage_self]
            exact hq
          · intro hpos
            rw [page_setPage_self]
            have hone := Nat.one_lt_two_pow (Nat.pos_iff_ne_zero.mp hpos)
            dsimp only
            omega
          · rw [page_setPage_self]
            dsimp only
            omega
        · exact ⟨s, rfl, hinv.held, hq, fun _ => hcount, hsmall⟩
      obtain ⟨t, ht, hheld, htq, htcount, htsmall⟩ := hlow
      rw [ht]
      apply (hheld.setPage keeps_time).move_to_low hinv ha _ hi
      · intro hpos
        rw [page_setPage_self]
        exact htcount hpos
      · rw [page_setPage_self]
        exact htsmall
      · rw [page_setPage_self]
        exact htq
    · exact ⟨s, rfl, rfl, rfl, L, hinv⟩

theorem MQ_expiration_listed (hs : Listed pcm dram s) : ∃ t, s.MQ_expiration now = .ok t ∧ Listed pcm dram t :=
  foldlM_keeps (fun _ _ hi hl => expire_listed hl (mem_range.mp hi)) hs

/-! ## MQ_upgrade -/

theorem Listed.setMigrating (m : List (Int × Nat)) (h : Listed pcm dram s) :
    Listed pcm dram { s with migratingPage := m } := by
  obtain ⟨hpcm, hdram, L, hi⟩ := h
  exact ⟨hpcm, hdram, L, hi.shape.congr rfl rfl rfl rfl, hi.labels, hi.number, hi.counter⟩

/-- A page that is alone in queue 4 goes to the end of the unranked pages. -/
theorem toMigrating_listed (hi : Inv s L) (hx : L (.MQ 4) = [x]) (hpcm : x < s.numPcmPages) :
    Listed s.numPcmPages s.numDramPages (s.toMigrating masterId x) := by
  have hc : Chain s.heap (s.ends (.MQ 4)) ([] ++ x :: []) := hx ▸ hi.shape.chain (.MQ 4)
  obtain ⟨hpre, hnext⟩ := hc.split
  have hpre' : (s.page x).pre = none := hpre
  have hnext' : (s.page x).next = none := hnext
  have hfreed : Freed s L x (s.takeOut (.MQ 4) x) := Freed.takeOut hi.shape .refl (a := []) hx
  have hfreed : Freed s L x ((s.takeOut (.MQ 4) x).setPage x fun p => { p with access_counter := 0 }) :=
    hfreed.setPage keeps_counter
  have htail : some x = s.tail (.MQ 4) := hc.tail.symm
  have hcut : (s.setHead (.MQ 4) none).setTail (.MQ 4) none = s.takeOut (.MQ 4) x := by
    unfold takeOut Heap.unlink Ends.unlink
    rw [hpre, hnext]
    rfl
  unfold toMigrating
  rw [if_pos htail, hcut]
  dsimp only
  generalize hu : ((s.takeOut (.MQ 4) x).setPage x fun p => { p with access_counter := 0 }) = u at hfreed
  have hupre : (u.page x).pre = none := by
    rw [← hu, page_setPage_self]
    unfold takeOut Heap.unlink
    rw [hpre, hnext]
    exact hpre'
  have hunext : (u.page x).next = none := by
    rw [← hu, page_setPage_self]
    unfold takeOut Heap.unlink
    rw [hpre, hnext]
    exact hnext'
  have hucount : (u.page x).access_counter = 0 := by rw [← hu, page_setPage_self]
  obtain ⟨hplaced, hlabel⟩ := Freed.insertLast .PCM_unranked hfreed (by simp)
  have hlisted : Listed s.numPcmPages s.numDramPages (u.insertLast .PCM_unranked x) := by
    have hcount : ((u.insertLast .PCM_unranked x).page x).access_counter = 0 := by
      rw [access_counter_eq hlabel, hucount]
    apply hplaced.listed hi
    · refine ⟨hcount, ?_⟩
      rw [hplaced.only.pcm]
      exact hpcm
    · rw [hcount]
      exact Nat.two_pow_pos 16
  -- the pointers of a page that was alone need not be cleared
  have hlast : u.appendUnranked x = u.insertLast .PCM_unranked x := by
    unfold insertLast appendUnranked
    cases ht : u.tail .PCM_unranked with
    | none =>
      rw [setPre_same hupre, setNext_same hunext]
    | some t =>
      have hsame : (u.setNext t (some x)).tail .PCM_unranked = some t := ht
      dsimp only
      rw [hsame]
  rw [hlast]
  exact hlisted.setMigrating _

theorem upgrade_listed (hl : Listed pcm dram s) (hi : i < 14)
    (halone : i = 4 → ∀ x, s.head (.MQ 4) = some x → s.isHot 4 x = true → s.migrates 4 x = true →
      s.tail (.MQ 4) = some x) :
    ∃ t, upgrade masterId s i = .ok t ∧ Listed pcm dram t := by
  obtain ⟨rfl, rfl, L, hinv⟩ := hl
  have hc := hinv.shape.chain (.MQ i)
  unfold upgrade
  cases hhead : s.head (.MQ i) with
  | none => exact ⟨s, rfl, rfl, rfl, L, hinv⟩
  | some x =>
    dsimp only
    have hfirst : (L (.MQ i)).head? = some x := by rw [← hhead]; exact hc.head.symm
    obtain ⟨b, hb⟩ : ∃ b, L (.MQ i) = x :: b := by
      cases hL : L (.MQ i) with
      | nil =>
        rw [hL] at hfirst
        cases hfirst
      | cons y b =>
        rw [hL] at hfirst
        exact ⟨b, by rw [Option.some.inj hfirst]⟩
    have hmem : x ∈ L (.MQ i) := by simp [hb]
    obtain ⟨hq, hcount⟩ := hinv.labels (.MQ i) x hmem
    split
    · rename_i hhot
      split
      · rename_i hmig
        have hfour : i = 4 := by
          unfold migrates at hmig
          rw [Bool.and_eq_true, beq_iff_eq] at hmig
          exact hmig.1
        subst hfour
        have htail := halone rfl x hhead hhot hmig
        have hone : L (.MQ 4) = [x] := by
          have hlast : (x :: b).getLast? = some x := by
            rw [← hb, ← htail]
            exact hc.tail.symm
          have hnd : (x :: b).Nodup := hb ▸ hc.nodup
          cases b with
          | nil => exact hb
          | cons y b =>
            rw [getLast?_cons_cons] at hlast
            exact absurd (mem_of_getLast? hlast) (nodup_cons.mp hnd).1
        have hpcm : x < s.numPcmPages := by
          unfold migrates at hmig
          rw [Bool.and_eq_true, decide_eq_true_eq, hinv.number x (hinv.shape.bound _ x hmem)] at hmig
          exact hmig.2
        exact ⟨_, rfl, toMigrating_listed hinv hone hpcm⟩
      · exact hinv.held.move_to_up hinv hb hq (by unfold numQueues; omega) hcount (hinv.counter x)
    · exact ⟨s, rfl, rfl, rfl, L, hinv⟩

theorem MQ_upgrade_eq : s.MQ_upgrade masterId =
    (range 4).foldlM (upgrade masterId) s >>= (range' 4 10).foldlM (upgrade masterId) := by
  unfold MQ_upgrade
  rw [show range 14 = range 4 ++ range' 4 10 by decide, foldlM_append]

theorem MQ_upgrade_listed (hl : Listed pcm dram s) (halone : s.upgradesAlone masterId = true) :
    ∃ t, s.MQ_upgrade masterId = .ok t ∧ Listed pcm dram t := by
  have hbefore : ∃ t, (range 4).foldlM (upgrade masterId) s = .ok t ∧ Listed pcm dram t := by
    apply foldlM_keeps _ hl
    intro s i hi hl
    have hlt := mem_range.mp hi
    exact upgrade_listed hl (by omega) (by omega)
  obtain ⟨t, ht, hlt⟩ := hbefore
  rw [MQ_upgrade_eq, ht, bind_ok]
  unfold upgradesAlone at halone
  rw [ht] at halone
  have hfour : ∃ u, upgrade masterId t 4 = .ok u ∧ Listed pcm dram u := by
    apply upgrade_listed hlt (by omega)
    intro _ x hhead hhot hmig
    dsimp only at halone
    rw [hhead] at halone
    dsimp only at halone
    rw [hhot, hmig] at halone
    simpa using halone
  obtain ⟨u, hu, hlu⟩ := hfour
  rw [show range' 4 10 = 4 :: range' 5 9 by decide, foldlM_cons, hu, bind_ok]
  apply foldlM_keeps _ hlu
  intro s i hi hl
  have hmem := mem_range'_1.mp hi
  exact upgrade_listed hl (by omega) (by omega)

/-! ## Accesses -/

theorem change_queue_head (hq : (s.page x).queue_number = q) (hlt : q < numQueues) (hhead : s.head (.MQ q) = some x) :
    s.change_queue x = .ok s := by
  unfold change_queue
  simp only [hq, decide_eq_true hlt, require, if_true, bind_ok, hhead, pure_eq_ok]

/-- The page of an access gets in front of a queue. -/
theorem Held.toFront (hi : Inv s L) (h : Held s L x t) (hx : x ∈ L id) (hat : At t id x) :
    ∃ u q, t.toFront (decide (x < s.numPcmPages)) x = .ok u ∧ Placed s L x (.MQ q) u ∧
      (u.page x).queue_number = q ∧ (u.page x).access_counter = (t.page x).access_counter := by
  obtain ⟨a, b, hsplit⟩ := append_of_mem hx
  have hfreed : Freed s L x (t.takeOut id x) := Freed.takeOut h.shape h.only hsplit
  -- a page that was not accessed goes to queue 0
  have hfirst : (t.page x).access_counter = 0 →
      (if decide (x < s.numPcmPages) then PageList.PCM_unranked else .DRAM_victim) = id →
      ∃ u q, t.toFront (decide (x < s.numPcmPages)) x = .ok u ∧ Placed s L x (.MQ q) u ∧
        (u.page x).queue_number = q ∧ (u.page x).access_counter = (t.page x).access_counter := by
    intro hzero hid
    obtain ⟨u, hu, hplaced, hlabel⟩ := hfreed.insert_into_MQ (q := 0) (by decide)
    refine ⟨u, 0, ?_, hplaced, ?_, ?_⟩
    · unfold XBarControl.toFront
      rw [hid, takeUnaccessed_eq h.shape hsplit, hu]
      exact if_pos (beq_iff_eq.mpr hzero)
    · have hl : (u.label x).queue_number = 0 := by rw [hlabel]
      exact hl
    · have hl : (u.label x).access_counter = (t.label x).access_counter := by rw [hlabel, label_takeOut]
      exact hl
  cases id with
  | MQ q =>
    obtain ⟨hq, hcount⟩ := hat
    have hlt : q < numQueues := by
      by_contra hge
      rw [hi.shape.queues q (Nat.le_of_not_lt hge)] at hx
      cases hx
    have hback : t.toFront (decide (x < s.numPcmPages)) x = t.change_queue x := by
      unfold XBarControl.toFront
      rw [if_neg]
      rw [beq_iff_eq]
      exact Nat.pos_iff_ne_zero.mp hcount
    rw [hback]
    rcases eq_nil_or_concat a with rfl | ⟨a, p, rfl⟩
    · have hhead : t.head (.MQ q) = some x := by
        rw [show t.head (.MQ q) = (L (.MQ q)).head? from (h.shape.chain (.MQ q)).head, hsplit]
        rfl
      exact ⟨t, q, change_queue_head hq hlt hhead, h.placed hi hx, hq, rfl⟩
    · refine ⟨_, q, change_queue_eq h.shape hsplit (by simp) hq hlt, ?_, hq, rfl⟩
      exact hfreed.putFront fun _ hid => PageList.MQ.inj hid ▸ hlt
  | DRAM_victim =>
    apply hfirst hat.1
    have hdram : ¬x < s.numPcmPages := by
      rw [← h.only.pcm]
      exact Nat.not_lt_of_le hat.2
    rw [decide_eq_false hdram]
    rfl
  | PCM_unranked =>
    apply hfirst hat.1
    have hpcm : x < s.numPcmPages := by
      rw [← h.only.pcm]
      exact hat.2
    rw [decide_eq_true hpcm]
    rfl

theorem touch_listed (now : Nat) (hl : Listed pcm dram s) (hx : x < s.numPcmPages + s.numDramPages)
    (hmax : (s.page x).access_counter ≠ 2 ^ 16 - 1) :
    ∃ t, s.touch (decide (x < s.numPcmPages)) x now = .ok t ∧ Listed pcm dram t := by
  obtain ⟨rfl, rfl, L, hi⟩ := hl
  obtain ⟨id, hid⟩ := hi.shape.all x hx (Option.some_ne_none x)
  have hheld : Held s L x (s.setPage x fun p => { p with last_access_time := now }) := hi.held.setPage keeps_time
  have hat : At (s.setPage x fun p => { p with last_access_time := now }) id x := by
    refine At.of_eq (s := s) rfl ?_ ?_ (hi.labels id x hid)
    · rw [page_setPage_self]
    · rw [page_setPage_self]
  obtain ⟨u, q, hu, hplaced, hqueue, hcount⟩ := hheld.toFront hi hid hat
  unfold touch
  dsimp only
  rw [hu, bind_ok]
  refine ⟨_, rfl, ?_⟩
  have hcount : (u.page x).access_counter = (s.page x).access_counter := by
    rw [hcount, page_setPage_self]
  have hsmall := hi.counter x
  -- the counter does not wrap
  have hnext : ((u.page x).access_counter + 1) % 2 ^ 16 = (s.page x).access_counter + 1 := by
    rw [hcount]
    exact Nat.mod_eq_of_lt (by omega)
  apply (hplaced.setPage keeps_counter).listed hi
  · refine ⟨?_, ?_⟩
    · rw [page_setPage_self]
      exact hqueue
    · rw [page_setPage_self]
      rw [hnext]
      exact Nat.succ_pos _
  · rw [page_setPage_self]
    exact Nat.mod_lt _ (Nat.two_pow_pos 16)

theorem lt_shiftLeft_iff {a n : Nat} : a < n <<< 12 ↔ a >>> 12 < n := by
  rw [Nat.shiftLeft_eq, Nat.shiftRight_eq_div_pow, Nat.div_lt_iff_lt_mul (Nat.two_pow_pos 12)]

variable {addr : Nat}

theorem access_page_eq (hmem : addr >>> 12 < s.numPcmPages + s.numDramPages) (hmig : s.isMigrating addr = false) :
    s.access_page addr now masterId = s.touch (decide (addr < s.numPcmPages <<< 12)) (addr >>> 12) now >>=
      fun s => s.MQ_upgrade masterId >>= fun s => s.MQ_expiration now := by
  unfold access_page
  simp only [decide_eq_true hmem, require, if_true, bind_ok, hmig]
  rfl

theorem access_page_migrating (hmem : addr >>> 12 < s.numPcmPages + s.numDramPages)
    (hmig : s.isMigrating addr = true) : s.access_page addr now masterId = .ok s := by
  unfold access_page
  simp only [decide_eq_true hmem, require, if_true, bind_ok, hmig, pure_eq_ok]

/-- The page of an access gets in front of its queue, and then the condition holds of `MQ_upgrade`. -/
theorem touch_kept (hl : Listed pcm dram s)
    (hkeeps : s.keepsLists (.access_page addr now masterId) = true) (hmig : s.isMigrating addr = false) :
    ∃ t, s.touch (decide (addr < s.numPcmPages <<< 12)) (addr >>> 12) now = .ok t ∧ Listed pcm dram t ∧
      t.upgradesAlone masterId = true := by
  unfold keepsLists inMemory at hkeeps
  rw [Bool.and_eq_true, hmig, Bool.false_or, Bool.and_eq_true, bne_iff_ne] at hkeeps
  obtain ⟨hmem, hmax, halone⟩ := hkeeps
  have hkind : decide (addr < s.numPcmPages <<< 12) = decide (addr >>> 12 < s.numPcmPages) := by
    rw [decide_eq_decide]
    exact lt_shiftLeft_iff
  rw [hkind] at halone ⊢
  obtain ⟨t, ht, hlt⟩ := touch_listed now hl (of_decide_eq_true hmem) hmax
  rw [ht] at halone
  exact ⟨t, ht, hlt, halone⟩

theorem access_page_listed (hl : Listed pcm dram s) (hkeeps : s.keepsLists (.access_page addr now masterId) = true) :
    ∃ t, s.access_page addr now masterId = .ok t ∧ Listed pcm dram t := by
  have hmem : addr >>> 12 < s.numPcmPages + s.numDramPages :=
    of_decide_eq_true (Bool.and_eq_true_iff.mp hkeeps).1
  cases hmig : s.isMigrating addr with
  | true => exact ⟨s, access_page_migrating hmem hmig, hl⟩
  | false =>
    obtain ⟨t, ht, hlt, halone⟩ := touch_kept hl hkeeps hmig
    obtain ⟨u, hu, hlu⟩ := MQ_upgrade_listed hlt halone
    rw [access_page_eq hmem hmig, ht, bind_ok, hu, bind_ok]
    exact MQ_expiration_listed hlu

/-! ## Migrations -/

theorem migratingFunc_listed (hl : Listed pcm dram s) : ∃ t, s.migratingFunc = .ok t ∧ Listed pcm dram t := by
  obtain ⟨rfl, rfl, L, hi⟩ := hl
  unfold migratingFunc
  split
  · rename_i rest x _ hhead
    have hfirst : (L .DRAM_victim).head? = some x := by
      rw [← hhead]
      exact (hi.shape.chain .DRAM_victim).head.symm
    obtain ⟨hzero, -⟩ := hi.labels _ x (mem_of_mem_head? hfirst)
    rw [hzero]
    exact ⟨_, rfl, Listed.setMigrating rest ⟨rfl, rfl, L, hi⟩⟩
  · exact ⟨s, rfl, rfl, rfl, L, hi⟩

theorem page_setHead (v : Option Nat) : (s.setHead id v).page = s.page := rfl

/-- A victim that has a successor goes to queue 5. -/
theorem doSomeEndThing_listed (hl : Listed pcm dram s) (hne : s.head .DRAM_victim ≠ s.tail .DRAM_victim) :
    ∃ t, s.doSomeEndThing now = .ok t ∧ Listed pcm dram t := by
  obtain ⟨rfl, rfl, L, hi⟩ := hl
  have hc := hi.shape.chain .DRAM_victim
  have hhead : s.head .DRAM_victim = (L .DRAM_victim).head? := hc.head
  have htail : s.tail .DRAM_victim = (L .DRAM_victim).getLast? := hc.tail
  obtain ⟨x, n, b, hx⟩ : ∃ x n b, L .DRAM_victim = x :: n :: b := by
    cases hL : L .DRAM_victim with
    | nil =>
      rw [hL] at hhead htail
      exact absurd (hhead.trans htail.symm) hne
    | cons x l =>
      cases l with
      | nil =>
        rw [hL] at hhead htail
        exact absurd (hhead.trans htail.symm) hne
      | cons n b => exact ⟨x, n, b, rfl⟩
  have hfreed : Freed s L x (s.takeOut .DRAM_victim x) := Freed.takeOut hi.shape .refl (a := []) hx
  rw [hx] at hc
  obtain ⟨hpre, hnext⟩ := Chain.split (a := []) hc
  have hnext' : (s.page x).next = some n := hnext
  rw [hx, head?_cons] at hhead
  -- the lines of the function take the victim out
  have hcut : (s.setHead .DRAM_victim (some n)).setPre n none = s.takeOut .DRAM_victim x := by
    unfold takeOut Heap.unlink Ends.unlink
    rw [hpre, hnext, setPre_eq]
    exact (setEnds_head (s := s.relink _) _).symm
  unfold doSomeEndThing
  simp only [hhead, deref, bind_ok, page_setHead, hnext', hcut]
  have hsome : (s.takeOut .DRAM_victim x).head .DRAM_victim ≠ none := by
    rw [← hcut]
    simp [setPre, setPage, setHead]
  rw [if_neg hsome]
  have hchosen := hfreed.setPage (keeps_chosen (v := 32) (w := now))
  obtain ⟨u, hu, hplaced, hlabel⟩ := hchosen.insert_into_MQ (q := 5) (by decide)
  refine ⟨u, hu, ?_⟩
  have hcount : (u.page x).access_counter = 32 := by
    have hl : (u.label x).access_counter = 32 := by
      rw [hlabel]
      unfold label
      rw [page_setPage_self]
    exact hl
  have hqueue : (u.page x).queue_number = 5 := by
    have hl : (u.label x).queue_number = 5 := by rw [hlabel]
    exact hl
  apply hplaced.listed hi
  · refine ⟨hqueue, ?_⟩
    rw [hcount]
    decide
  · rw [hcount]
    decide

theorem Listed.step {op : ListOp} (hl : Listed pcm dram s) (hkeeps : s.keepsLists op = true) :
    ∃ t, s.step op = .ok t ∧ Listed pcm dram t := by
  cases op with
  | access_page addr now masterId => exact access_page_listed hl hkeeps
  | MQ_upgrade masterId => exact MQ_upgrade_listed hl hkeeps
  | MQ_expiration now => exact MQ_expiration_listed hl
  | migratingFunc => exact migratingFunc_listed hl
  | doSomeEndThing now => exact doSomeEndThing_listed hl (bne_iff_ne.mp hkeeps)

end Gem5.Mem.XBarControl
