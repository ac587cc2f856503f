import Gem5Nvmain.Mem.PageTableRuns

/- `FuncPageTable::changePhyNumber` (mem/page_table.cc).

  The loop goes over the hash map in its own order, here the list of the keys in that order, and counts the entries
  that it has rewritten. With `exchange` it compares an entry with the DRAM page right after it has compared it with
  the PCM page, so an entry that has just been given the DRAM page is given the PCM page back. -/
namespace Gem5.Mem
open Lib List

def TlbEntry.pageNumber (e : TlbEntry) : Addr := e.pfn

def TlbEntry.updatePfn (e : TlbEntry) (newPfn : Addr) : TlbEntry := { e with pfn := newPfn }

namespace PageTable

/-- `if (entry.pageNumber() == old) { entry.updatePfn(new); flag = flag - 1; }`, with the table and the flag. -/
def changeEntry (old new : Addr) (k : Addr) (st : PageTable × Nat) : PageTable × Nat :=
  if (st.1.entryAt k).pageNumber = old then (st.1.setEntry k ((st.1.entryAt k).updatePfn new), st.2 - 1) else st

/-- The loop over the keys that are left. -/
def changeLoop (pcm dram : Addr) (exchange : Bool) : List Addr → PageTable × Nat → PageTable × Nat
  | [], st => st
  | k :: order, st =>
    let st := changeEntry pcm dram k st
    if st.2 = 0 then st
    else
      let st := if exchange then changeEntry dram pcm k st else st
      if st.2 = 0 then st else changeLoop pcm dram exchange order st

def changePhyNumber (s : PageTable) (order : List Addr) (pcm dram : Addr) (exchange : Bool) : Except Stop PageTable := do
  let st := changeLoop pcm dram exchange order (s, if exchange then 2 else 1)
  require (st.2 == 0)
  return st.1

section Exchange
variable {s : PageTable} {order l rest : List Addr} {k a b p d old new : Addr} {e x y : TlbEntry} {flag : Nat}

theorem entryAt_of_lookup (h : s.pTable.lookup k = some e) : s.entryAt k = e := by
  unfold entryAt
  rw [h]
  rfl

theorem lookup_setEntry_self (s : PageTable) (k : Addr) (e : TlbEntry) : (s.setEntry k e).pTable.lookup k = some e :=
  AList.lookup_insert _

theorem lookup_setEntry_ne (s : PageTable) (e : TlbEntry) (h : k ≠ a) :
    (s.setEntry a e).pTable.lookup k = s.pTable.lookup k :=
  AList.lookup_insert_ne h

theorem changeEntry_hit (h : s.pTable.lookup k = some e) (hp : e.pfn = old) :
    changeEntry old new k (s, flag) = (s.setEntry k { e with pfn := new }, flag - 1) := by
  have he := entryAt_of_lookup h
  unfold changeEntry
  rw [if_pos (by rw [he]; exact hp), he]
  rfl

theorem changeEntry_miss (h : s.pTable.lookup k = some e) (hp : e.pfn ≠ old) :
    changeEntry old new k (s, flag) = (s, flag) := by
  have he := entryAt_of_lookup h
  unfold changeEntry
  rw [if_neg (by rw [he]; exact hp)]

/-- The entry at `k` has another page than the two. -/
def Other (s : PageTable) (p d k : Addr) : Prop := ∃ e, s.pTable.lookup k = some e ∧ e.pfn ≠ p ∧ e.pfn ≠ d

theorem changeLoop_skip (hflag : flag ≠ 0) (h : ∀ k ∈ l, s.Other p d k) :
    changeLoop p d true (l ++ rest) (s, flag) = changeLoop p d true rest (s, flag) := by
  induction l with
  | nil => rfl
  | cons k l ih =>
    obtain ⟨e, he, hp, hd⟩ := h k mem_cons_self
    rw [cons_append, changeLoop]
    simp only [changeEntry_miss he hp, changeEntry_miss he hd, if_true, if_neg hflag]
    apply ih
    intro j hj
    exact h j (mem_cons_of_mem _ hj)

theorem changeLoop_pcm_first (ha : s.pTable.lookup a = some x) (hx : x.pfn = p) :
    changeLoop p d true (a :: rest) (s, 2) = ((s.setEntry a { x with pfn := d }).setEntry a x, 0) := by
  have hagain := lookup_setEntry_self s a { x with pfn := d }
  have hback : ({ x with pfn := p } : TlbEntry) = x := by rw [← hx]
  rw [changeLoop]
  simp only [changeEntry_hit ha hx, changeEntry_hit hagain rfl, if_true, hback]
  rfl

theorem changeLoop_dram_first (hpd : p ≠ d) (hb : s.pTable.lookup b = some y) (hy : y.pfn = d) :
    changeLoop p d true (b :: rest) (s, 2) = changeLoop p d true rest (s.setEntry b { y with pfn := p }, 1) := by
  have hp : y.pfn ≠ p := by
    rw [hy]
    exact hpd.symm
  rw [changeLoop]
  simp only [changeEntry_miss hb hp, changeEntry_hit hb hy, if_true]
  rfl

theorem changeLoop_last (ha : s.pTable.lookup a = some x) (hx : x.pfn = p) :
    changeLoop p d true (a :: rest) (s, 1) = (s.setEntry a { x with pfn := d }, 0) := by
  rw [changeLoop]
  simp only [changeEntry_hit ha hx]
  rfl

/-- Entry `a` alone has page `p`, and entry `b` alone has page `d`. -/
structure Pair (s : PageTable) (a b : Addr) (x y : TlbEntry) (p d : Addr) : Prop where
  pcm : s.pTable.lookup a = some x
  dram : s.pTable.lookup b = some y
  pcmPage : x.pfn = p
  dramPage : y.pfn = d
  ne : a ≠ b
  onlyPcm : ∀ k e, s.pTable.lookup k = some e → e.pfn = p → k = a
  onlyDram : ∀ k e, s.pTable.lookup k = some e → e.pfn = d → k = b

theorem Pair.pages_ne (h : s.Pair a b x y p d) : p ≠ d := by
  rintro rfl
  exact h.ne (h.onlyDram a x h.pcm h.pcmPage)

theorem Pair.other (h : s.Pair a b x y p d) (hk : k ∈ s.pTable) (hka : k ≠ a) (hkb : k ≠ b) : s.Other p d k := by
  obtain ⟨e, he⟩ := Option.isSome_iff_exists.mp (AList.lookup_isSome.mpr hk)
  exact ⟨e, he, fun hp => hka (h.onlyPcm k e he hp), fun hd => hkb (h.onlyDram k e he hd)⟩

/-- The two entries have each other's page, and every other entry is as before. -/
def Exchanged (s s' : PageTable) (a b : Addr) (x y : TlbEntry) (p d : Addr) : Prop :=
  ∀ k, s'.pTable.lookup k =
    if k = a then some { x with pfn := d } else if k = b then some { y with pfn := p } else s.pTable.lookup k

theorem changePhyNumber_pcm_first (hs : s.Pair a b x y p d) (hl : ∀ k ∈ l, s.Other p d k) :
    ∃ s', s.changePhyNumber (l ++ a :: rest) p d true = .ok s' ∧ s'.pTable.lookup a = some x := by
  refine ⟨(s.setEntry a { x with pfn := d }).setEntry a x, ?_, lookup_setEntry_self _ _ _⟩
  unfold changePhyNumber
  simp only [if_true]
  rw [changeLoop_skip (by decide) hl, changeLoop_pcm_first hs.pcm hs.pcmPage]
  rfl

/-- The entry of the DRAM page is met first. -/
theorem changePhyNumber_dram_first {l' : List Addr} (hs : s.Pair a b x y p d) (hl : ∀ k ∈ l, s.Other p d k)
    (hl' : ∀ k ∈ l', s.Other p d k ∧ k ≠ b) :
    ∃ s', s.changePhyNumber (l ++ b :: (l' ++ a :: rest)) p d true = .ok s' ∧ s.Exchanged s' a b x y p d := by
  have ha : (s.setEntry b { y with pfn := p }).pTable.lookup a = some x := by
    rw [lookup_setEntry_ne s _ hs.ne]
    exact hs.pcm
  have hskip : ∀ k ∈ l', (s.setEntry b { y with pfn := p }).Other p d k := by
    intro k hk
    obtain ⟨⟨e, he, hp⟩, hkb⟩ := hl' k hk
    refine ⟨e, ?_, hp⟩
    rw [lookup_setEntry_ne s _ hkb]
    exact he
  refine ⟨(s.setEntry b { y with pfn := p }).setEntry a { x with pfn := d }, ?_, fun k => ?_⟩
  · unfold changePhyNumber
    simp only [if_true]
    rw [changeLoop_skip (by decide) hl, changeLoop_dram_first hs.pages_ne hs.dram hs.dramPage,
      changeLoop_skip (by decide) hskip, changeLoop_last ha hs.pcmPage]
    rfl
  · by_cases hka : k = a
    · rw [if_pos hka, hka]
      exact lookup_setEntry_self _ _ _
    · rw [if_neg hka, lookup_setEntry_ne _ _ hka]
      by_cases hkb : k = b
      · rw [if_pos hkb, hkb]
        exact lookup_setEntry_self _ _ _
      · rw [if_neg hkb]
        exact lookup_setEntry_ne s _ hkb

/-- The pages are exchanged exactly when the iteration meets the entry of the DRAM page first. -/
theorem changePhyNumber_exchanges_iff (hs : s.Pair a b x y p d) (horder : s.pTable.keys.Perm order) :
    (∃ s', s.changePhyNumber order p d true = .ok s' ∧ s.Exchanged s' a b x y p d) ↔
      order.idxOf b < order.idxOf a := by
  have hnodup : order.Nodup := horder.nodup_iff.mp (AList.keys_nodup _)
  have hmem : ∀ {k}, k ∈ order ↔ k ∈ s.pTable := fun {k} => (horder.mem_iff).symm
  have ha : a ∈ order := hmem.mpr (AList.lookup_isSome.mp (by rw [hs.pcm]; rfl))
  have hother : ∀ k ∈ order, k ≠ a → k ≠ b → s.Other p d k := fun k hk => hs.other (hmem.mp hk)
  obtain ⟨l, rest, horder, hal⟩ := eq_append_cons_of_mem ha
  have hidx : order.idxOf a = l.length := by
    rw [horder, idxOf_append_of_notMem hal, idxOf_cons_self]
    rfl
  by_cases hbl : b ∈ l
  · obtain ⟨l₁, l₂, rfl, hbl₁⟩ := eq_append_cons_of_mem hbl
    have horder' : order = l₁ ++ b :: (l₂ ++ a :: rest) := by
      rw [horder, append_assoc, cons_append]
    refine iff_of_true ?_ ?_
    · rw [horder']
      apply changePhyNumber_dram_first hs
      · intro k hk
        apply hother k (horder' ▸ mem_append_left _ hk)
        · rintro rfl
          exact hal (mem_append_left _ hk)
        · rintro rfl
          exact hbl₁ hk
      · intro k hk
        have hkb : k ≠ b := by
          rintro rfl
          rw [horder'] at hnodup
          have hnot := (nodup_cons.mp (nodup_append.mp hnodup).2.1).1
          exact hnot (mem_append_left _ hk)
        have hka : k ≠ a := by
          rintro rfl
          exact hal (mem_append_right _ (mem_cons_of_mem _ hk))
        refine ⟨hother k ?_ hka hkb, hkb⟩
        rw [horder']
        exact mem_append_right _ (mem_cons_of_mem _ (mem_append_left _ hk))
    · rw [hidx, horder, idxOf_append_of_mem hbl]
      exact idxOf_lt_length_of_mem hbl
  · refine iff_of_false ?_ ?_
    · have hothers : ∀ k ∈ l, s.Other p d k := by
        intro k hk
        apply hother k (horder ▸ mem_append_left _ hk)
        · rintro rfl
          exact hal hk
        · rintro rfl
          exact hbl hk
      obtain ⟨s', heq, hsame⟩ :
          ∃ s', s.changePhyNumber (l ++ a :: rest) p d true = .ok s' ∧ s'.pTable.lookup a = some x :=
        changePhyNumber_pcm_first hs hothers
      rw [horder]
      rintro ⟨t, ht, hex⟩
      rw [heq] at ht
      cases ht
      -- the entry still has the PCM page
      have hnew := hex a
      rw [if_pos rfl, hsame] at hnew
      have hpage := congrArg TlbEntry.pfn (Option.some.inj hnew)
      rw [hs.pcmPage] at hpage
      exact hs.pages_ne hpage
    · rw [hidx, horder, idxOf_append_of_notMem hbl]
      omega

/-- Two pages: one in the fifth physical page, one in the ninth. -/
def twoPages : PageTable where
  pTable := ((∅ : PTable).insert 4096 { pfn := 5, vpn := 1 }).insert 8192 { pfn := 9, vpn := 2 }
  process := ⟨0, 0, 0, 0, 0, 0⟩
  system := ⟨⟨32768, 32768, 12⟩, ⟨replicate 8 false, 0⟩, ⟨replicate 8 false, 0⟩, 0, 0⟩
  flag := 0

theorem twoPages_pair : twoPages.Pair 4096 8192 { pfn := 5, vpn := 1 } { pfn := 9, vpn := 2 } 5 9 := by
  have hkeys : ∀ k e, twoPages.pTable.lookup k = some e → k = 4096 ∨ k = 8192 := by
    intro k e hk
    have hmem : k ∈ twoPages.pTable := AList.lookup_isSome.mp (by rw [hk]; rfl)
    rw [twoPages, AList.mem_insert, AList.mem_insert] at hmem
    rcases hmem with h | h | h
    · exact .inr h
    · exact .inl h
    · cases h
  refine ⟨by decide, by decide, rfl, rfl, by decide, fun k e hk hp => ?_, fun k e hk hp => ?_⟩
  · rcases hkeys k e hk with rfl | rfl
    · rfl
    · cases hk
      cases hp
  · rcases hkeys k e hk with rfl | rfl
    · cases hk
      cases hp
    · rfl

theorem changePhyNumber_exchanges_two_pages : ∃ s', twoPages.changePhyNumber [8192, 4096] 5 9 true = .ok s' ∧
      twoPages.Exchanged s' 4096 8192 { pfn := 5, vpn := 1 } { pfn := 9, vpn := 2 } 5 9 :=
  (changePhyNumber_exchanges_iff twoPages_pair (by decide)).mpr (by decide)

/-- In the other order the loop ends with both pages where they were. -/
theorem twoPages_unchanged :
    twoPages.Pair 4096 8192 { pfn := 5, vpn := 1 } { pfn := 9, vpn := 2 } 5 9 ∧ twoPages.pTable.keys.Perm [4096, 8192] ∧
    ∃ s', twoPages.changePhyNumber [4096, 8192] 5 9 true = .ok s' ∧
      s'.pTable.lookup 4096 = some { pfn := 5, vpn := 1 } ∧ s'.pTable.lookup 8192 = some { pfn := 9, vpn := 2 } :=
  ⟨twoPages_pair, by decide, _, rfl, by decide, by decide⟩

end Exchange

end PageTable

end Gem5.Mem
