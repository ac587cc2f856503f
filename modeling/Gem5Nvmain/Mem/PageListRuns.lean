import Gem5Nvmain.Mem.PageListMoves

/- Runs of the page lists.

  `System::init` links all DRAM pages into the victim list and all PCM pages into the list of unranked pages: every
  pass of its loops puts a page at the back of a chain (`initPage_eq`). From there on the lists stay in order in every
  run whose operations meet `keepsLists`, and none of these operations meets a null page (`lists_kept`). -/
namespace Gem5.Mem.XBarControl
open Lib List

variable {s t u : XBarControl} {id : PageList} {x first count numPcmPages numDramPages : Nat} {pre : Option Nat}

/-! ## System::init -/

/-- The pages of the list are chained, and nothing else has changed. -/
structure Built (s t : XBarControl) (l : List Nat) : Prop where
  chain : Chain t.heap ⟨l.head?, l.getLast?⟩ l
  others : ∀ y, y ∉ l → t.page y = s.page y
  label : ∀ y ∈ l, t.label y = newPage y none
  head : t.head = s.head
  tail : t.tail = s.tail
  pcm : t.numPcmPages = s.numPcmPages
  dram : t.numDramPages = s.numDramPages

/-- One pass puts a page with a new record at the back. -/
theorem initPage_eq (v : Option Nat) (hne : pre ≠ some x) :
    s.initPage pre x = (s.setPage x fun _ => newPage x none).relink (s.heap.pushBack ⟨v, pre⟩ x) := by
  unfold initPage relink Heap.pushBack
  cases pre with
  | none =>
    unfold setPage
    dsimp only
    congr 1
    funext y
    by_cases hy : y = x
    · subst hy
      simp [newPage, Heap.setNext, Heap.setPre]
    · simp [hy, heap, Heap.setNext, Heap.setPre, Heap.setNext?]
  | some z =>
    have hzx : z ≠ x := fun h => hne (congrArg some h)
    unfold setNext setPage
    dsimp only
    congr 1
    funext y
    by_cases hy : y = x
    · subst hy
      rw [Function.update_of_ne (Ne.symm hzx)]
      simp [newPage, Heap.setNext, Heap.setPre]
    · by_cases hyz : y = z
      · subst hyz
        simp [hy, heap, Heap.setNext, Heap.setPre, Heap.setNext?]
      · simp [hy, hyz, heap, Heap.setNext, Heap.setPre, Heap.setNext?]

theorem Built.initPage {l : List Nat} (h : Built s t l) (hx : x ∉ l) : Built s (t.initPage l.getLast? x) (l ++ [x]) := by
  have hne : l.getLast? ≠ some x := getLast?_ne_of_notMem hx
  rw [initPage_eq l.head? hne]
  have hc := h.chain.pushBack hx
  have hends : (⟨l.head?, l.getLast?⟩ : Ends Nat).pushBack x = ⟨(l ++ [x]).head?, (l ++ [x]).getLast?⟩ :=
    Ends.ext hc.head hc.tail
  refine ⟨hends ▸ hc, ?_, ?_, h.head, h.tail, h.pcm, h.dram⟩
  · intro y hy
    have hyl : y ∉ l := fun hmem => hy (mem_append_left _ hmem)
    have hyx : y ≠ x := fun heq => hy (mem_append_right _ (mem_singleton.mpr heq))
    obtain ⟨hnext, hpre⟩ := h.chain.pushBack_elsewhere hyl hyx
    unfold relink
    dsimp only
    rw [hnext, hpre, page_setPage_ne _ hyx]
    exact h.others y hyl
  · intro y hy
    rw [label_relink]
    unfold XBarControl.label
    by_cases hyx : y = x
    · rw [hyx, page_setPage_self]
      rfl
    · rw [page_setPage_ne _ hyx]
      rcases mem_append.mp hy with hyl | hy
      · exact h.label y hyl
      · exact absurd (mem_singleton.mp hy) hyx

theorem initPages_built : Built s (s.initPages first count) (range' first count) := by
  induction count with
  | zero => exact ⟨Chain.nil, fun _ _ => rfl, fun y hy => absurd hy not_mem_nil, rfl, rfl, rfl, rfl⟩
  | succ count ih =>
    rw [range'_1_concat]
    unfold initPages
    have hlast : (if count = 0 then none else some (first + count - 1)) = (range' first count).getLast? :=
      getLast?_range'.symm
    rw [hlast]
    apply ih.initPage
    intro hmem
    have hlt := (mem_range'_1.mp hmem).2
    omega

theorem initList_built (h : s.initList id first count = .ok u) : ∃ t, Built s t (range' first count) ∧
      u = t.setEnds id ⟨(range' first count).head?, (range' first count).getLast?⟩ := by
  unfold initList at h
  split at h
  · cases h
  · rename_i hcount
    have hb : Built s (s.initPages first count) (range' first count) := initPages_built
    refine ⟨_, hb, ?_⟩
    have hfirst : ((s.initPages first count).page first).pre = none := by
      obtain ⟨n, rfl⟩ := Nat.exists_eq_succ_of_ne_zero hcount
      have hc := hb.chain
      exact (Chain.split (a := []) hc).1
    rw [setPre_same hfirst] at h
    rw [← Except.ok.inj h, head?_range', getLast?_range', if_neg hcount, if_neg hcount]
    rfl

/-- The lists of `System::init`. -/
def initLists (numPcmPages numDramPages : Nat) : PageList → List Nat
  | .MQ _ => []
  | .DRAM_victim => range' numPcmPages numDramPages
  | .PCM_unranked => range' 0 numPcmPages

theorem init_inv (hsize : numPcmPages + numDramPages ≤ 2 ^ 20) (h : init numPcmPages numDramPages = .ok s) :
    Inv s (initLists numPcmPages numDramPages) ∧ s.numPcmPages = numPcmPages ∧ s.numDramPages = numDramPages := by
  obtain ⟨v, hv, h⟩ := of_bind h
  obtain ⟨t, ht, rfl⟩ := initList_built hv
  obtain ⟨u, hu, rfl⟩ := initList_built h
  -- the second loop leaves the records of the DRAM pages alone
  have hapart : ∀ y ∈ range' numPcmPages numDramPages, y ∉ range' 0 numPcmPages := by
    intro y hy hy'
    have hge := (mem_range'_1.mp hy).1
    have hlt := (mem_range'_1.mp hy').2
    omega
  have hpage : ∀ y ∈ range' numPcmPages numDramPages, u.page y = t.page y :=
    fun y hy => hu.others y (hapart y hy)
  have hnew : ∀ y, (u.label y) = newPage y none := by
    intro y
    by_cases hpcm : y ∈ range' 0 numPcmPages
    · exact hu.label y hpcm
    · have hut : u.label y = t.label y := by
        unfold label
        rw [hu.others y hpcm]
        rfl
      rw [hut]
      by_cases hdram : y ∈ range' numPcmPages numDramPages
      · exact ht.label y hdram
      · unfold label
        rw [ht.others y hdram]
        rfl
  have hpcmPages : u.numPcmPages = numPcmPages := hu.pcm.trans ht.pcm
  have hdramPages : u.numDramPages = numDramPages := hu.dram.trans ht.dram
  have hzero : ∀ y, (u.page y).access_counter = 0 := by
    intro y
    have hl : (u.label y).access_counter = 0 := by rw [hnew]; rfl
    exact hl
  have hnumber : ∀ y < numPcmPages + numDramPages, (u.page y).page_number = y := by
    intro y hy
    have hl : (u.label y).page_number = y := by
      rw [hnew]
      exact Nat.mod_eq_of_lt (by omega)
    exact hl
  refine ⟨⟨⟨?_, ?_, ?_, ?_, ?_, ?_⟩, ?_, ?_, ?_⟩, hpcmPages, hdramPages⟩
  · intro id
    rw [heap_setEnds]
    cases id with
    | MQ q =>
      rw [ends_setEnds_ne _ (by simp)]
      have hnone : u.ends (.MQ q) = ⟨none, none⟩ := by
        unfold ends
        rw [hu.head, hu.tail]
        unfold setEnds setHead setTail
        dsimp only
        rw [Function.update_of_ne (by simp), Function.update_of_ne (by simp), ht.head, ht.tail]
      rw [hnone]
      exact Chain.nil
    | DRAM_victim =>
      rw [ends_setEnds_ne _ (by simp)]
      have hends : u.ends .DRAM_victim =
          ⟨(range' numPcmPages numDramPages).head?, (range' numPcmPages numDramPages).getLast?⟩ := by
        unfold ends
        rw [hu.head, hu.tail]
        exact ends_setEnds_self _
      rw [hends]
      apply ht.chain.congr
      · intro y hy
        exact congrArg PageInfo.next (hpage y hy)
      · intro y hy
        exact congrArg PageInfo.pre (hpage y hy)
    | PCM_unranked =>
      exact hu.chain
  · intro id id' y hy hy'
    cases id <;> cases id' <;> first | rfl | cases hy | cases hy' |
      exact absurd hy' (hapart y hy) | exact absurd hy (hapart y hy')
  · intro id y hy
    show y < u.numPcmPages + u.numDramPages
    rw [hpcmPages, hdramPages]
    cases id with
    | MQ q => cases hy
    | DRAM_victim => exact (mem_range'_1.mp hy).2
    | PCM_unranked =>
      have hlt := (mem_range'_1.mp hy).2
      omega
  · intro y hy _
    replace hy : y < u.numPcmPages + u.numDramPages := hy
    by_cases hpcm : y < numPcmPages
    · exact ⟨.PCM_unranked, mem_range'_1.mpr (by omega)⟩
    · exact ⟨.DRAM_victim, mem_range'_1.mpr (by omega)⟩
  · intro q _
    rfl
  · intro y hy
    cases hy
  · intro id y hy
    cases id with
    | MQ q => cases hy
    | DRAM_victim =>
      refine ⟨hzero y, ?_⟩
      show u.numPcmPages ≤ y
      rw [hpcmPages]
      exact (mem_range'_1.mp hy).1
    | PCM_unranked =>
      refine ⟨hzero y, ?_⟩
      show y < u.numPcmPages
      have hlt := (mem_range'_1.mp hy).2
      omega
  · intro y hy
    replace hy : y < u.numPcmPages + u.numDramPages := hy
    rw [hpcmPages, hdramPages] at hy
    exact hnumber y hy
  · intro y
    show (u.page y).access_counter < 2 ^ 16
    rw [hzero]
    exact Nat.two_pow_pos 16

/-! ## Runs -/

/-- In every run from the lists of `System::init` whose operations meet the condition, each page is on one list, the
  one its record calls for, each list is linked, and an operation that meets the condition has a result. -/
theorem lists_kept {h : List ListOp} (hsize : numPcmPages + numDramPages ≤ 2 ^ 20)
    (hinit : init numPcmPages numDramPages = .ok s) (hr : Exec (StepIf keepsLists step) s h t) :
    (∃ L : PageList → List Nat, (∀ id, Chain t.heap (t.ends id) (L id)) ∧
        (∀ x < numPcmPages + numDramPages, ∃! id, x ∈ L id) ∧
        (∀ id, ∀ x ∈ L id, x < numPcmPages + numDramPages ∧ At t id x) ∧
        ∀ q, numQueues ≤ q → L (.MQ q) = []) ∧
      ∀ op, t.keepsLists op = true → ∃ u, t.step op = .ok u := by
  have hlisted : Listed numPcmPages numDramPages t := by
    refine hr.invariant ?_ ?_
    · obtain ⟨hi, hpcm, hdram⟩ := init_inv hsize hinit
      exact ⟨hpcm, hdram, _, hi⟩
    · rintro t op u ht ⟨hkeeps, hstep⟩
      obtain ⟨v, hv, hl⟩ := ht.step hkeeps
      rw [hstep] at hv
      exact Except.ok.inj hv ▸ hl
  constructor
  · obtain ⟨rfl, rfl, L, hi⟩ := hlisted
    refine ⟨L, hi.shape.chain, ?_, ?_, hi.shape.queues⟩
    · intro x hx
      obtain ⟨id, hid⟩ := hi.shape.all x hx (Option.some_ne_none x)
      exact ⟨id, hid, fun id' hid' => hi.shape.apart _ _ _ hid' hid⟩
    · intro id x hx
      exact ⟨hi.shape.bound id x hx, hi.labels id x hx⟩
  · intro op hkeeps
    obtain ⟨u, hu, -⟩ := hlisted.step hkeeps
    exact ⟨u, hu⟩

/-- Accesses to both pages of the PCM and to a page of the DRAM, and the end of a migration. -/
def someAccesses : List ListOp :=
  [.access_page 0 1 7, .access_page 0x3000 2 7, .access_page 0 3 7, .access_page 0x1000 4 7, .doSomeEndThing 5]

theorem lists_kept_five : ∃ s, init 2 3 = .ok s ∧ ∃ t, Exec (StepIf keepsLists step) s someAccesses t ∧
    ∃ L : PageList → List Nat, (∀ id, Chain t.heap (t.ends id) (L id)) ∧ ∀ x < 2 + 3, ∃! id, x ∈ L id := by
  obtain ⟨s, hs⟩ : ∃ s, init 2 3 = .ok s := ⟨_, rfl⟩
  refine ⟨s, hs, ?_⟩
  have hrun : endsInIf keepsLists step s someAccesses (fun _ => true) = true := by
    rw [← Except.ok.inj hs]
    decide +kernel
  obtain ⟨t, hr, -⟩ := Exec.of_endsInIf hrun
  obtain ⟨⟨L, hchain, hone, -⟩, -⟩ := lists_kept (by decide) hs hr
  exact ⟨t, hr, L, hchain, hone⟩

/-- Of two DRAM pages one is accessed; then the PCM page is accessed until it is to be migrated. -/
def oneVictim : List ListOp :=
  .access_page 0x1000 0 7 :: (range 32).map (fun now => .access_page 0 now 7) ++ [.migratingFunc]

/-- Two PCM pages reach queue 4, and the second is accessed until it is to be migrated. -/
def sharedQueue : List ListOp :=
  (range 16).map (fun now => .access_page 0 now 7) ++ (range 32).map fun now => .access_page 0x1000 now 7

/-- Ending a migration dereferences the successor of the last victim; and a page that is to be migrated stays the
  predecessor of the page behind it in queue 4. -/
theorem null_page_dereferenced : (∃ s, init 1 2 = .ok s ∧ ∃ t, Exec (StepOf step) s oneVictim t ∧
      t.step (.doSomeEndThing 32) = .error (.fatal "null page")) ∧
    ∃ s, init 2 2 = .ok s ∧ ∃ t, Exec (StepOf step) s sharedQueue t ∧ ¬∃ l, Chain t.heap (t.ends (.MQ 4)) l := by
  constructor
  · obtain ⟨s, hs⟩ : ∃ s, init 1 2 = .ok s := ⟨_, rfl⟩
    refine ⟨s, hs, ?_⟩
    have hrun : endsIn step s oneVictim (fun t => match t.step (.doSomeEndThing 32) with
        | .error e => e == .fatal "null page"
        | .ok _ => false) = true := by
      rw [← Except.ok.inj hs]
      decide
    obtain ⟨t, hr, ht⟩ := Exec.of_endsIn hrun
    refine ⟨t, hr, ?_⟩
    split at ht
    · rename_i e he
      rw [he, beq_iff_eq.mp ht]
    · cases ht
  · obtain ⟨s, hs⟩ : ∃ s, init 2 2 = .ok s := ⟨_, rfl⟩
    refine ⟨s, hs, ?_⟩
    have hrun : endsIn step s sharedQueue (fun t => t.head (.MQ 4) == some 0 && (t.page 0).pre == some 1) = true := by
      rw [← Except.ok.inj hs]
      decide +kernel
    obtain ⟨t, hr, ht⟩ := Exec.of_endsIn hrun
    refine ⟨t, hr, ?_⟩
    rintro ⟨l, hc⟩
    rw [Bool.and_eq_true, beq_iff_eq, beq_iff_eq] at ht
    obtain ⟨hhead, hpre⟩ := ht
    -- the head of a chain has no predecessor
    have hfirst : l.head? = some 0 := hc.head.symm.trans hhead
    cases l with
    | nil => cases hfirst
    | cons x l =>
      cases hfirst
      have hnone : t.heap.pre 0 = none := (Chain.split (a := []) hc).1
      cases hpre.symm.trans hnone

end Gem5.Mem.XBarControl
