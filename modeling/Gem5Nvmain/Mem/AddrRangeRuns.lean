import Mathlib.Data.Nat.Basic
import Gem5Nvmain.Lib.Cursor
import Gem5Nvmain.Lib.Intervals
import Gem5Nvmain.Mem.AddrRangeMap

/- The address map as an interval map.

  Along every run of insertions and erasures the entries stay sorted and apart from each other (`Inv`), as long as
  each inserted range is `seen`: a query inspects only the last entry that starts no later than the query does, so a
  range that misses this entry and reaches into the next one is taken for free. In a map that keeps the invariant a
  query is answered rightly exactly when its range is seen (`found_iff`), and a single address always is
  (`seen_addr`). -/
namespace Gem5.Mem.AddrRangeMap
open Lib AddrRange Bool

variable {V : Type} {m : AddrRangeMap V} {r s : AddrRange} {e f : AddrRange × V} {i j : Nat} {d : V}

/-- A valid range without interleaving. -/
def Plain (r : AddrRange) : Prop := r._start ≤ r._end ∧ r.intlvBits = 0

/-- The entries are plain ranges without an interleaving match, each ending before the next begins. -/
structure Inv (m : AddrRangeMap V) : Prop where
  plain : ∀ e ∈ m.tree, Plain e.1
  noMatch : ∀ e ∈ m.tree, e.1.intlvMatch = 0
  apart : Apart (fun e => e.1._start) (fun e => e.1._end) m.tree

theorem Plain.contains_iff (hr : Plain r) {a : Nat} : r.contains a = true ↔ r._start ≤ a ∧ a ≤ r._end := by
  simp [contains, interleaved, hr.2]

theorem Plain.intersects_eq (hs : Plain s) :
    s.intersects r = .ok (decide (s._start ≤ r._end) && decide (r._start ≤ s._end)) := by
  simp [intersects, interleaved, hs.2]

theorem share_iff (hs : Plain s) (hr : Plain r) : Share s r ↔ s._start ≤ r._end ∧ r._start ≤ s._end := by
  rw [← shared_point_iff hs.1 hr.1]
  apply exists_congr
  intro a
  rw [hs.contains_iff, hr.contains_iff]

/-! ## What a query finds -/

/-- Entry `i` has an address in common with `r`. -/
def overlaps (m : AddrRangeMap V) (r : AddrRange) (i : Nat) : Bool :=
  m.tree[i]?.any fun e => decide (e.1._start ≤ r._end) && decide (r._start ≤ e.1._end)

/-- The one entry a query for `r` looks at. -/
def looksAt (m : AddrRangeMap V) (r : AddrRange) : Nat := m.upper_bound r - 1

def found (m : AddrRangeMap V) (r : AddrRange) : Option Nat :=
  if m.overlaps r (m.looksAt r) then some (m.looksAt r) else none

section
variable (hm : Inv m)
include hm

theorem Inv.upper_bound_eq : m.upper_bound r = m.tree.findIdx fun e => decide (r._start < e.1._start) := by
  have hsame : ∀ e ∈ m.tree, r.lt e.1 = decide (r._start < e.1._start) := by
    intro e he
    by_cases heq : r._start = e.1._start
    · simp [lt, heq, hm.noMatch e he]
    · simp [lt, heq]
  apply Nat.le_antisymm
  · exact List.findIdx_le_findIdx fun e he h => by rwa [hsame e he]
  · exact List.findIdx_le_findIdx fun e he h => by rwa [hsame e he] at h

theorem Inv.check_eq (he : m.tree[i]? = some e) : m.check r i = .ok (if m.overlaps r i then some i else none) := by
  have hplain := hm.plain e (List.mem_of_getElem? he)
  simp only [check, index, he, bind_ok, hplain.intersects_eq, overlaps, Option.any_some]
  split <;> rfl

theorem Inv.find_eq : m.find r = .ok (m.found r) := by
  unfold find found looksAt
  by_cases hempty : m.tree = []
  · simp [hempty, overlaps]
  · have hpos : 0 < m.tree.length := List.length_pos_iff.mpr hempty
    have hnot : m.tree.isEmpty = false := by simpa using hempty
    rw [hnot, if_neg Bool.false_ne_true]
    have hle : m.upper_bound r ≤ m.tree.length := List.findIdx_le_length
    match hub : m.upper_bound r with
    | 0 =>
      obtain ⟨e, he⟩ : ∃ e, m.tree[0]? = some e := ⟨_, List.getElem?_eq_getElem hpos⟩
      exact hm.check_eq he
    | i + 1 =>
      obtain ⟨e, he⟩ : ∃ e, m.tree[i]? = some e := ⟨_, List.getElem?_eq_getElem (by omega)⟩
      have hnotIntlv : e.1.interleaved = false := by simp [interleaved, (hm.plain e (List.mem_of_getElem? he)).2]
      simp only [hm.check_eq he, bind_ok, Nat.add_sub_cancel]
      by_cases ho : m.overlaps r i = true
      · simp [ho]
      · simp [ho, index, he, hnotIntlv]

theorem overlaps_iff (hr : Plain r) : m.overlaps r i = true ↔ ∃ e, m.tree[i]? = some e ∧ Share e.1 r := by
  unfold overlaps
  rw [Option.any_eq_true]
  apply exists_congr
  intro e
  constructor
  · rintro ⟨he, ho⟩
    rw [and_eq_true, decide_eq_true_eq, decide_eq_true_eq] at ho
    exact ⟨he, (share_iff (hm.plain e (List.mem_of_getElem? he)) hr).mpr ho⟩
  · rintro ⟨he, hs⟩
    have ho := (share_iff (hm.plain e (List.mem_of_getElem? he)) hr).mp hs
    exact ⟨he, by simp [ho.1, ho.2]⟩

theorem found_share (hr : Plain r) (hf : m.found r = some i) : ∃ e, m.tree[i]? = some e ∧ Share e.1 r := by
  unfold found at hf
  split at hf
  · rename_i ho
    rw [← Option.some_inj.mp hf]
    exact (overlaps_iff hm hr).mp ho
  · cases hf

theorem found_of_before (hr : Plain r) (he : m.tree[j]? = some e) (hs : Share e.1 r)
    (hle : e.1._start ≤ r._start) : m.found r = some j := by
  have hends := ((share_iff (hm.plain e (List.mem_of_getElem? he)) hr).mp hs).2
  have hlast := hm.apart.reaches_last (fun e he => (hm.plain e he).1) he hle hends
  have hat : m.looksAt r = j := by
    unfold looksAt
    rw [hm.upper_bound_eq, hlast, Nat.add_sub_cancel]
  unfold found
  rw [hat, if_pos ((overlaps_iff hm hr).mpr ⟨e, he, hs⟩)]

theorem first_behind (hr : Plain r) (he : m.tree[j]? = some e) (hs : Share e.1 r) (hlt : r._start < e.1._start) :
    ∃ f, m.tree[m.upper_bound r]? = some f ∧ f.1._start ≤ r._end := by
  have hstart := ((share_iff (hm.plain e (List.mem_of_getElem? he)) hr).mp hs).1
  rw [hm.upper_bound_eq]
  exact hm.apart.meets_first (fun e he => (hm.plain e he).1) he hlt hstart

theorem share_first_behind (hr : Plain r) (hf : m.tree[m.upper_bound r]? = some f)
    (hstart : f.1._start ≤ r._end) : Share f.1 r := by
  have hplain := hm.plain f (List.mem_of_getElem? hf)
  rw [hm.upper_bound_eq] at hf
  have hbehind := lt_of_findIdx hf
  exact (share_iff hplain hr).mpr ⟨hstart, Nat.le_trans (Nat.le_of_lt hbehind) hplain.1⟩

/-- A query finds nothing exactly when there is nothing to be found, if and only if its range is seen. -/
theorem found_iff (hr : Plain r) : (m.found r = none ↔ ¬∃ e ∈ m.tree, Share e.1 r) ↔ m.seen r = true := by
  have hsound : (¬∃ e ∈ m.tree, Share e.1 r) → m.found r = none := by
    intro hnone
    match hf : m.found r with
    | none => rfl
    | some i =>
      obtain ⟨e, he, hs⟩ := found_share hm hr hf
      exact absurd ⟨e, List.mem_of_getElem? he, hs⟩ hnone
  have honly : (m.found r = none ↔ ¬∃ e ∈ m.tree, Share e.1 r) ↔
      (m.found r = none → ¬∃ e ∈ m.tree, Share e.1 r) := ⟨Iff.mp, fun h => ⟨h, hsound⟩⟩
  rw [honly]
  constructor
  · intro hright
    unfold seen
    match hub : m.upper_bound r with
    | 0 => rfl
    | i + 1 =>
      rw [or_eq_true, or_iff_not_imp_left]
      intro hmissed
      rw [Option.all_eq_true]
      intro f hf
      rw [decide_eq_true_eq]
      apply Nat.lt_of_not_le
      intro hreach
      have hshare := share_first_behind hm hr (by rwa [hub]) hreach
      apply hright _ ⟨f, List.mem_of_getElem? hf, hshare⟩
      unfold found looksAt
      rw [hub, if_neg]
      intro ho
      apply hmissed
      unfold overlaps at ho
      rw [Option.any_eq_true] at ho ⊢
      obtain ⟨e, he, ho⟩ := ho
      exact ⟨e, he, (and_eq_true_iff.mp ho).2⟩
  · rintro hseen hnone ⟨e, hmem, hs⟩
    obtain ⟨j, he⟩ := List.getElem?_of_mem hmem
    rcases Nat.lt_or_ge r._start e.1._start with hlt | hge
    · obtain ⟨f, hf, hstart⟩ := first_behind hm hr he hs hlt
      unfold seen at hseen
      split at hseen
      · -- no entry starts before `r`, and the first one is looked at
        rename_i hub
        have hshare := share_first_behind hm hr hf hstart
        rw [hub] at hf
        unfold found looksAt at hnone
        rw [hub, if_pos ((overlaps_iff hm hr).mpr ⟨f, hf, hshare⟩)] at hnone
        cases hnone
      · rename_i i hub
        rw [hub] at hf
        rcases or_eq_true_iff.mp hseen with hreach | hends
        · rw [Option.any_eq_true] at hreach
          obtain ⟨e', he', hreach⟩ := hreach
          rw [decide_eq_true_eq] at hreach
          have hbefore : e'.1._start ≤ r._start := by
            apply le_of_lt_findIdx _ he'
            rw [← hm.upper_bound_eq, hub]
            exact Nat.lt_succ_self i
          have hshare := (share_iff (hm.plain e' (List.mem_of_getElem? he')) hr).mpr
            ⟨Nat.le_trans hbefore hr.1, hreach⟩
          rw [found_of_before hm hr he' hshare hbefore] at hnone
          cases hnone
        · rw [Option.all_eq_true] at hends
          have hends := hends f hf
          rw [decide_eq_true_eq] at hends
          exact absurd hstart (Nat.not_le_of_lt hends)
    · rw [found_of_before hm hr he hs hge] at hnone
      cases hnone

end

/-! ## What the operations keep -/

theorem Inv.init : Inv (init : AddrRangeMap V) where
  plain := by intro e he; cases he
  noMatch := by intro e he; cases he
  apart := List.Pairwise.nil

theorem Inv.sublist (hm : Inv m) {l : List (AddrRange × V)} (hl : l.Sublist m.tree) : Inv { tree := l } where
  plain := fun e he => hm.plain e (hl.subset he)
  noMatch := fun e he => hm.noMatch e (hl.subset he)
  apart := hm.apart.sublist hl

theorem Inv.insert_eq (hm : Inv m) : m.insert r d = .ok (match m.found r with
      | some _ => (m, none)
      | none => ((m.treeInsert r d).1, some (m.treeInsert r d).2)) := by
  unfold AddrRangeMap.insert intersect
  rw [hm.find_eq]
  cases m.found r <;> rfl

theorem Inv.beside (hm : Inv m) (hr : Plain r) (hnone : ¬∃ e ∈ m.tree, Share e.1 r) (he : e ∈ m.tree) :
    if e.1.lt r then e.1._end < r._start else r._end < e.1._start := by
  have hplain := hm.plain e he
  have hns : ¬Share e.1 r := fun hs => hnone ⟨e, he, hs⟩
  rw [share_iff hplain hr] at hns
  have hends := hplain.1
  have hrends := hr.1
  have hne : e.1._start ≠ r._start := by omega
  have hlt : e.1.lt r = decide (e.1._start < r._start) := by
    unfold lt
    rw [if_pos (bne_iff_ne.mpr hne)]
  rw [hlt]
  split
  · rename_i hbefore
    rw [decide_eq_true_eq] at hbefore
    omega
  · rename_i hbehind
    rw [decide_eq_true_eq] at hbehind
    omega

theorem Inv.treeInsert (hm : Inv m) (hr : Plain r) (hmatch : r.intlvMatch = 0)
    (hnone : ¬∃ e ∈ m.tree, Share e.1 r) : Inv (m.treeInsert r d).1 := by
  -- no entry has an equivalent key, so the entry goes in
  have htree : (m.treeInsert r d).1 = { tree := m.tree.insertIdx (m.lower_bound r) (r, d) } := by
    unfold AddrRangeMap.treeInsert
    dsimp only
    split
    · rename_i e he
      have hmem := List.mem_of_getElem? he
      have hnot : e.1.lt r = false := by
        simpa using List.findIdx_of_getElem?_eq_some he
      have hbeside := hm.beside hr hnone hmem
      rw [hnot, if_neg Bool.false_ne_true] at hbeside
      have hlt : r.lt e.1 = true := by
        have hrends := hr.1
        have hne : r._start ≠ e.1._start := by omega
        simp only [lt, bne_iff_ne, ne_eq, hne, not_false_eq_true, if_true, decide_eq_true_eq]
        omega
      rw [hlt]
      rfl
    · rfl
  rw [htree]
  refine ⟨?_, ?_, ?_⟩
  · intro e he
    rcases List.eq_or_mem_of_mem_insertIdx he with rfl | he
    · exact hr
    · exact hm.plain e he
  · intro e he
    rcases List.eq_or_mem_of_mem_insertIdx he with rfl | he
    · exact hmatch
    · exact hm.noMatch e he
  · apply pairwise_insertIdx _ _ _ hm.apart
    · intro b hb c hab hbc
      have hends := (hm.plain b hb).1
      dsimp only at hab hbc ⊢
      omega
    · intro b hb hp
      have hbeside := hm.beside hr hnone hb
      rw [not_eq_true'] at hp
      rwa [hp, if_neg Bool.false_ne_true] at hbeside
    · intro b hb hp
      have hbeside := hm.beside hr hnone hb
      rw [not_eq_false'] at hp
      rwa [hp, if_pos rfl] at hbeside

theorem plain_of (h : (r.valid && !r.interleaved) = true) : Plain r := by
  rw [and_eq_true_iff] at h
  obtain ⟨hvalid, hintlv⟩ := h
  exact ⟨by simpa [valid] using hvalid, by simpa [interleaved] using hintlv⟩

theorem Inv.step {o : MapOp V} {m' : AddrRangeMap V} (hm : Inv m) (hc : m.seenPlain o = true)
    (hs : m.step o = .ok m') : Inv m' := by
  cases o with
  | insert r d =>
    simp only [seenPlain, and_eq_true, beq_iff_eq] at hc
    obtain ⟨⟨hplain, hmatch⟩, hseen⟩ := hc
    have hr : Plain r := plain_of hplain
    simp only [AddrRangeMap.step, hm.insert_eq, bind_ok, pure_eq_ok, Except.ok.injEq] at hs
    rw [← hs]
    match hf : m.found r with
    | some i => exact hm
    | none => exact hm.treeInsert hr hmatch (((found_iff hm hr).mpr hseen).mp hf)
  | erase p =>
    obtain ⟨e, -, hs⟩ := of_bind hs
    cases hs
    exact hm.sublist (List.eraseIdx_sublist m.tree p)
  | eraseRange p q =>
    simp only [AddrRangeMap.step, eraseRange] at hs
    split at hs
    · cases hs
      apply hm.sublist
      have hdrop : (m.tree.drop q).Sublist (m.tree.drop p) := by
        rw [show q = p + (q - p) by omega, ← List.drop_drop]
        exact List.drop_sublist _ _
      calc m.tree.take p ++ m.tree.drop q
        _ |>.Sublist (m.tree.take p ++ m.tree.drop p) := hdrop.append_left _
        _ = m.tree := List.take_append_drop p m.tree
    · cases hs
  | clear =>
    cases hs
    exact Inv.init

theorem Inv.of_run {h : List (MapOp V)} (hr : Exec (StepIf seenPlain AddrRangeMap.step) AddrRangeMap.init h m) : Inv m :=
  hr.invariant Inv.init fun _ _ _ hm hs => hm.step hs.1 hs.2

/-! ## Single addresses -/

variable {a : Nat}

theorem RangeSize_one (ha : a < 2 ^ 64) : RangeSize a 1 = RangeIn a a := by
  unfold RangeSize
  rw [show (a + 1 + (2 ^ 64 - 1)) % 2 ^ 64 = a by omega]

theorem seen_addr (hm : Inv m) : m.seen (RangeIn a a) = true := by
  unfold seen
  split
  · rfl
  · rename_i i hub
    rw [or_eq_true]
    right
    rw [Option.all_eq_true]
    intro e he
    rw [hm.upper_bound_eq] at hub
    rw [show i + 1 = _ from hub.symm] at he
    have hbehind := lt_of_findIdx he
    exact decide_eq_true hbehind

theorem share_addr : Share s (RangeIn a a) ↔ s.contains a = true := by
  have hplain : Plain (RangeIn a a) := ⟨Nat.le_refl a, rfl⟩
  constructor
  · rintro ⟨b, hs, hb⟩
    rw [hplain.contains_iff] at hb
    rwa [Nat.le_antisymm hb.2 hb.1] at hs
  · intro hs
    exact ⟨a, hs, hplain.contains_iff.mpr ⟨Nat.le_refl a, Nat.le_refl a⟩⟩

theorem Inv.apart_share (hm : Inv m) : m.tree.Pairwise fun e f => ¬Share e.1 f.1 := by
  apply hm.apart.imp_of_mem
  intro e f he hf hlt
  rw [share_iff (hm.plain e he) (hm.plain f hf)]
  dsimp only at hlt
  omega

theorem Inv.unique (hm : Inv m) (he : m.tree[i]? = some e) (hf : m.tree[j]? = some f)
    (hae : e.1.contains a = true) (haf : f.1.contains a = true) : j = i := by
  rw [(hm.plain e (List.mem_of_getElem? he)).contains_iff] at hae
  rw [(hm.plain f (List.mem_of_getElem? hf)).contains_iff] at haf
  exact (hm.apart.unique he hf hae haf).symm

/-! ## The interval map -/

/-- Along every run whose insertions are seen, the stored ranges share no address with each other; an insertion then
  fails exactly on a shared address if and only if its range is seen; and looking up an address gives the one stored
  range that contains it. -/
theorem interval_map {h : List (MapOp V)} (hr : Exec (StepIf seenPlain step) AddrRangeMap.init h m) :
    (m.tree.Pairwise fun e f => ¬Share e.1 f.1) ∧
    (∀ r d, (r.valid && !r.interleaved) = true → ∃ m' o, m.insert r d = .ok (m', o) ∧
      ((o = none ↔ ∃ e ∈ m.tree, Share e.1 r) ↔ m.seen r = true)) ∧
    ∀ a < 2 ^ 64, ∃ o, m.findAddr a = .ok o ∧
      (∀ i, o = some i → ∃ e, m.tree[i]? = some e ∧ e.1.contains a = true ∧
        ∀ j f, m.tree[j]? = some f → f.1.contains a = true → j = i) ∧
      (o = none → ∀ e ∈ m.tree, e.1.contains a = false) := by
  have hm := Inv.of_run hr
  refine ⟨hm.apart_share, ?_, ?_⟩
  · intro r d hplain
    have hr := plain_of hplain
    refine ⟨_, _, hm.insert_eq, ?_⟩
    rw [← found_iff hm hr]
    match m.found r with
    | some i => simp
    | none => simp
  · intro a ha
    have hplain : Plain (RangeIn a a) := ⟨Nat.le_refl a, rfl⟩
    refine ⟨m.found (RangeIn a a), ?_, ?_, ?_⟩
    · unfold findAddr
      rw [RangeSize_one ha]
      exact hm.find_eq
    · intro i hf
      obtain ⟨e, he, hs⟩ := found_share hm hplain hf
      have hae := share_addr.mp hs
      exact ⟨e, he, hae, fun j f hf haf => hm.unique he hf hae haf⟩
    · intro hf e he
      have hnone := ((found_iff hm hplain).mpr (seen_addr hm)).mp hf
      rw [← not_eq_true]
      intro hae
      exact hnone ⟨e, he, share_addr.mpr hae⟩

/-- The map of two ranges that `rangemaptest.cc` builds. -/
theorem interval_map_two : ∃ m : AddrRangeMap Nat,
    Exec (StepIf seenPlain step) AddrRangeMap.init [.insert (RangeIn 10 40) 5, .insert (RangeIn 60 90) 3] m ∧
    (m.tree.Pairwise fun e f => ¬Share e.1 f.1) := by
  refine Exec.ends_withIf (p := fun _ => true) (by decide) fun m hr _ => ?_
  exact (interval_map hr).1

/-- A range that starts between them and covers the second is stored too. -/
theorem range_covered : ¬∀ (h : List (MapOp Nat)) (m : AddrRangeMap Nat),
    Exec (StepIf plain step) AddrRangeMap.init h m → m.tree.Pairwise fun e f => ¬Share e.1 f.1 := by
  intro hall
  obtain ⟨m, hr, hm⟩ := Exec.of_endsInIf (c := plain) (f := step) (s := (AddrRangeMap.init : AddrRangeMap Nat))
    (l := [.insert (RangeIn 10 40) 5, .insert (RangeIn 60 90) 3, .insert (RangeIn 50 95) 1])
    (p := fun m => decide (m.tree = [(RangeIn 10 40, 5), (RangeIn 50 95, 1), (RangeIn 60 90, 3)])) (by decide)
  have hapart := hall _ m hr
  rw [of_decide_eq_true hm] at hapart
  exact (List.pairwise_cons.mp (List.pairwise_cons.mp hapart).2).1 (RangeIn 60 90, 3) (by decide) ⟨70, by decide⟩

end Gem5.Mem.AddrRangeMap
