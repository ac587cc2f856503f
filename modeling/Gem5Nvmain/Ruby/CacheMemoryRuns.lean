import Gem5Nvmain.Ruby.CacheMemory

/- Lookups of the cache memory.

  `Indexed` ties the hash to the array: a key names the slot of the entry that was last allocated for its address, and
  every present entry has its key. It holds as long as no allocation takes a slot that the key of another address
  still names, and no entry that lost its key becomes present again (`keepsIndex`). Then lookups are `Exact`. -/
namespace Gem5.Ruby
open Lib Function CacheMemory

variable {g : CacheGeometry}

namespace CacheMemory
variable {s s' : CacheMemory} {a b : PhysAddress} {i : Nat} {e : CacheMemoryEntry}

/-! ## What a call does -/

theorem findTagInSet_none (ha : g.isLine a = true) (h : s.tagIndex a = none) (cacheSet : Nat) :
    s.findTagInSet g cacheSet a = .ok none := by
  unfold findTagInSet
  rw [ha, h]
  rfl

theorem findTagInSet_some {cacheSet : Nat} (ha : g.isLine a = true) (h : s.tagIndex a = some i)
    (he : s.cache (cacheSet, i) = some e) :
    s.findTagInSet g cacheSet a = .ok (if e.permission ≠ .notPresent then some i else none) := by
  unfold findTagInSet
  rw [ha, h]
  dsimp only
  rw [he]
  rfl

theorem lookup_none (ha : g.isLine a = true) (h : s.tagIndex a = none) : s.lookup g a = .ok none := by
  unfold lookup
  rw [ha, findTagInSet_none ha h]
  rfl

theorem lookup_some (ha : g.isLine a = true) (h : s.tagIndex a = some i) (he : s.cache (g.cacheSet a, i) = some e) :
    s.lookup g a = .ok (if e.permission ≠ .notPresent then some e else none) := by
  unfold lookup
  rw [ha, findTagInSet_some ha h he]
  by_cases hp : e.permission ≠ .notPresent
  · rw [if_pos hp, if_pos hp]
    rw [← he]
    rfl
  · rw [if_neg hp, if_neg hp]
    rfl

theorem allocate_spec (h : s.allocate g a = .ok s') : g.isLine a = true ∧ s.isTagPresent g a = .ok false ∧
    ∃ i, s.openSlot g a = some i ∧ s' = s.fill g a i := by
  obtain ⟨_, hline, hrest⟩ := of_bind h
  obtain ⟨present, hpresent, hrest⟩ := of_bind hrest
  obtain ⟨_, habsent, hrest⟩ := of_bind hrest
  obtain ⟨_, -, hfill⟩ := of_bind hrest
  rw [require_eq_ok] at hline habsent
  cases present with
  | true => cases habsent
  | false =>
    refine ⟨hline, hpresent, ?_⟩
    cases hslot : s.openSlot g a with
    | none =>
      rw [hslot] at hfill
      cases hfill
    | some i =>
      rw [hslot] at hfill
      cases hfill
      exact ⟨i, rfl, rfl⟩

theorem openSlot_spec (h : s.openSlot g a = some i) : i < g.assoc ∧ s.isOpen (g.cacheSet a) i = true :=
  ⟨List.mem_range.mp (List.mem_of_find?_eq_some h), List.find?_some h⟩

theorem absent (h : s.isTagPresent g a = .ok false) (ha : g.isLine a = true) (hkey : s.tagIndex a = some i)
    (he : s.cache (g.cacheSet a, i) = some e) : e.permission = .notPresent := by
  obtain ⟨loc, hloc, h⟩ := of_bind h
  rw [findTagInSet_some ha hkey he] at hloc
  by_contra hp
  rw [if_pos hp] at hloc
  cases hloc
  cases h

theorem deallocate_spec (h : s.deallocate g a = .ok s') : g.isLine a = true ∧
    ∃ i e, s.tagIndex a = some i ∧ s.cache (g.cacheSet a, i) = some e ∧ e.permission ≠ .notPresent ∧
      s' = { s with cache := update s.cache (g.cacheSet a, i) none, tagIndex := update s.tagIndex a none } := by
  obtain ⟨_, hline, h⟩ := of_bind h
  obtain ⟨present, hpresent, h⟩ := of_bind h
  obtain ⟨_, hin, h⟩ := of_bind h
  obtain ⟨loc, hloc, h⟩ := of_bind h
  rw [require_eq_ok] at hline hin
  subst hin
  refine ⟨hline, ?_⟩
  obtain ⟨loc', hloc', hpresent⟩ := of_bind hpresent
  cases hloc.symm.trans hloc'
  cases hkey : s.tagIndex a with
  | none =>
    rw [findTagInSet_none hline hkey] at hloc
    cases hloc
    cases hpresent
  | some i =>
    cases he : s.cache (g.cacheSet a, i) with
    | none =>
      unfold findTagInSet at hloc
      rw [hline, hkey] at hloc
      dsimp only at hloc
      rw [he] at hloc
      cases hloc
    | some e =>
      rw [findTagInSet_some hline hkey he] at hloc
      by_cases hp : e.permission ≠ .notPresent
      · rw [if_pos hp] at hloc
        cases hloc
        cases h
        exact ⟨i, e, rfl, he, hp, rfl⟩
      · rw [if_neg hp] at hloc
        cases hloc
        cases hpresent

end CacheMemory

namespace CacheMemoryRun
variable {s s' : CacheMemoryRun} {a b : PhysAddress} {i : Nat} {e : CacheMemoryEntry} {op : CacheMemoryOp}

/-- Lookups return the entry last allocated for the address while it is stored and present, and an address is present once. -/
structure Exact (g : CacheGeometry) (s : CacheMemoryRun) : Prop where
  lookup : ∀ a, g.isLine a = true → ∃ r, s.mem.lookup g a = .ok r ∧ (∀ e, r = some e → e.address = a) ∧
    ∀ e, r = some e ↔ s.last a = some e.object ∧ (∃ k, s.mem.cache k = some e) ∧ e.permission ≠ .notPresent
  distinct : ∀ k k' e e', s.mem.cache k = some e → s.mem.cache k' = some e' → e.permission ≠ .notPresent →
    e'.permission ≠ .notPresent → e.address = e'.address → k = k'
  deallocate : ∀ a m, s.mem.deallocate g a = .ok m → ∃ k e, s.mem.lookup g a = .ok (some e) ∧
    (∀ k', s.mem.cache k' = some e ↔ k' = k) ∧ m.cache = update s.mem.cache k none

structure Indexed (g : CacheGeometry) (s : CacheMemoryRun) : Prop where
  placed : ∀ n w e, s.mem.cache (n, w) = some e → g.cacheSet e.address = n ∧ w < g.assoc
  line : ∀ a i, s.mem.tagIndex a = some i → g.isLine a = true
  key : ∀ a i, s.mem.tagIndex a = some i →
    ∃ e, s.mem.cache (g.cacheSet a, i) = some e ∧ e.address = a ∧ s.last a = some e.object
  present : ∀ n w e, s.mem.cache (n, w) = some e → e.permission ≠ .notPresent → s.mem.tagIndex e.address = some w
  last : ∀ n w e a, s.mem.cache (n, w) = some e → s.last a = some e.object → e.address = a ∧ s.mem.tagIndex a = some w
  objects : ∀ k e, s.mem.cache k = some e → e.object < s.mem.objects
  lastObjects : ∀ a n, s.last a = some n → n < s.mem.objects

/-- The step takes no slot that the key of another address names, and makes no entry without a key present. -/
def keepsIndex (g : CacheGeometry) (s : CacheMemoryRun) : CacheMemoryOp → Bool
  | .allocate a =>
    match s.mem.openSlot g a with
    | none => true
    | some i =>
      match s.mem.cache (g.cacheSet a, i) with
      | none => true
      | some e => e.address = a || s.mem.tagIndex e.address ≠ some i
  | .deallocate _ => true
  | .changePermission slot newPerm =>
    match s.mem.cache slot with
    | none => true
    | some e => e.permission ≠ .notPresent || newPerm = .notPresent || s.mem.tagIndex e.address = some slot.2

theorem keepsIndex_allocate (hslot : s.mem.openSlot g a = some i) (he : s.mem.cache (g.cacheSet a, i) = some e) :
    keepsIndex g s (.allocate a) = (e.address = a || s.mem.tagIndex e.address ≠ some i) := by
  simp only [keepsIndex, hslot, he]

theorem keepsIndex_allocate_empty (hslot : s.mem.openSlot g a = some i) (he : s.mem.cache (g.cacheSet a, i) = none) :
    keepsIndex g s (.allocate a) = true := by
  simp only [keepsIndex, hslot, he]

theorem keepsIndex_changePermission {slot : Nat × Nat} {newPerm : AccessPermission} (he : s.mem.cache slot = some e) :
    keepsIndex g s (.changePermission slot newPerm) =
      (e.permission ≠ .notPresent || newPerm = .notPresent || s.mem.tagIndex e.address = some slot.2) := by
  simp only [keepsIndex, he]

namespace Indexed

theorem exact (h : Indexed g s) : Exact g s where
  lookup a ha := by
    cases hkey : s.mem.tagIndex a with
    | none =>
      refine ⟨none, lookup_none ha hkey, nofun, fun e => iff_of_false nofun ?_⟩
      rintro ⟨hlast, ⟨⟨n, w⟩, he⟩, -⟩
      rw [(h.last n w e a he hlast).2] at hkey
      cases hkey
    | some i =>
      obtain ⟨x, hx, haddr, hlast⟩ := h.key a i hkey
      -- the entry that was last allocated for the address is the one that the key names
      have honly : ∀ e, s.last a = some e.object → (∃ k, s.mem.cache k = some e) → e = x := by
        rintro e hobj ⟨⟨n, w⟩, he⟩
        obtain ⟨headdr, hw⟩ := h.last n w e a he hobj
        obtain ⟨hn, -⟩ := h.placed n w e he
        cases hkey.symm.trans hw
        rw [← hn, headdr, hx] at he
        exact (Option.some.inj he).symm
      refine ⟨_, lookup_some ha hkey hx, ?_, fun e => ?_⟩
      · intro e he
        split at he
        · cases he
          exact haddr
        · cases he
      · by_cases hp : x.permission ≠ .notPresent
        · rw [if_pos hp]
          constructor
          · rintro ⟨⟩
            exact ⟨hlast, ⟨_, hx⟩, hp⟩
          · rintro ⟨hobj, hstored, -⟩
            rw [honly e hobj hstored]
        · rw [if_neg hp]
          refine iff_of_false nofun ?_
          rintro ⟨hobj, hstored, hpe⟩
          rw [honly e hobj hstored] at hpe
          exact hp hpe
  distinct := by
    rintro ⟨n, w⟩ ⟨n', w'⟩ e e' he he' hp hp' haddr
    have hw := h.present n w e he hp
    have hw' := h.present n' w' e' he' hp'
    rw [haddr, hw'] at hw
    cases hw
    rw [← (h.placed n _ e he).1, ← (h.placed n' _ e' he').1, haddr]
  deallocate a m hm := by
    obtain ⟨ha, i, e, hkey, he, hp, rfl⟩ := deallocate_spec hm
    refine ⟨(g.cacheSet a, i), e, ?_, fun k => ⟨?_, ?_⟩, rfl⟩
    · rw [lookup_some ha hkey he, if_pos hp]
    · obtain ⟨n, w⟩ := k
      intro hk
      have hw := h.present n w e hk hp
      have hi := h.present _ _ e he hp
      cases hi.symm.trans hw
      rw [← (h.placed n _ e hk).1, (h.placed _ _ e he).1]
    · rintro rfl
      exact he

theorem init : Indexed g CacheMemoryRun.init where
  placed _ _ _ h := nomatch h
  line _ _ h := nomatch h
  key _ _ h := nomatch h
  present _ _ _ h := nomatch h
  last _ _ _ _ h := nomatch h
  objects _ _ h := nomatch h
  lastObjects _ _ h := nomatch h

theorem allocate {m : CacheMemory} (h : Indexed g s) (hm : s.mem.allocate g a = .ok m)
    (hkeep : keepsIndex g s (.allocate a) = true) : Indexed g ⟨m, update s.last a (some s.mem.objects)⟩ := by
  obtain ⟨hline, habsent, i, hslot, rfl⟩ := allocate_spec hm
  obtain ⟨hi, -⟩ := openSlot_spec hslot
  -- no key of another address names the slot that is taken
  have hfree : ∀ e, s.mem.cache (g.cacheSet a, i) = some e → s.mem.tagIndex e.address = some i → e.address = a := by
    intro e he hkey
    rw [keepsIndex_allocate hslot he] at hkeep
    simpa [hkey] using hkeep
  -- an entry of the address that is still there is not present
  have hgone : ∀ n w e, s.mem.cache (n, w) = some e → e.address = a → e.permission = .notPresent := by
    intro n w e he haddr
    by_contra hp
    have hkey := h.present n w e he hp
    have hn := (h.placed n w e he).1
    rw [haddr] at hkey hn
    rw [← hn] at he
    exact hp (absent habsent hline hkey he)
  constructor
  case placed =>
    intro n w e he
    by_cases hk : (n, w) = (g.cacheSet a, i)
    · cases hk
      simp only [fill, update_self] at he
      cases he
      exact ⟨rfl, hi⟩
    · simp only [fill, update_of_ne hk] at he
      exact h.placed n w e he
  case line =>
    intro b j hb
    by_cases hba : b = a
    · rw [hba]
      exact hline
    · simp only [fill, update_of_ne hba] at hb
      exact h.line b j hb
  case key =>
    intro b j hb
    by_cases hba : b = a
    · subst hba
      simp only [fill, update_self] at hb
      cases hb
      exact ⟨_, update_self .., rfl, update_self ..⟩
    · simp only [fill, update_of_ne hba] at hb
      obtain ⟨e, he, haddr, hlast⟩ := h.key b j hb
      refine ⟨e, ?_, haddr, ?_⟩
      · by_cases hk : (g.cacheSet b, j) = (g.cacheSet a, i)
        · rw [hk] at he
          obtain rfl : j = i := (Prod.mk.inj hk).2
          rw [← haddr] at hb
          exact absurd (haddr.symm.trans (hfree e he hb)) hba
        · simp only [fill, update_of_ne hk]
          exact he
      · rw [← hlast]
        exact update_of_ne hba ..
  case present =>
    intro n w e he hp
    by_cases hk : (n, w) = (g.cacheSet a, i)
    · cases hk
      simp only [fill, update_self] at he
      cases he
      exact update_self ..
    · simp only [fill, update_of_ne hk] at he
      have hne : e.address ≠ a := fun haddr => hp (hgone n w e he haddr)
      simp only [fill, update_of_ne hne]
      exact h.present n w e he hp
  case last =>
    intro n w e b he hb
    by_cases hk : (n, w) = (g.cacheSet a, i)
    · cases hk
      simp only [fill, update_self] at he
      cases he
      by_cases hba : b = a
      · subst hba
        exact ⟨rfl, update_self ..⟩
      · dsimp only at hb
        rw [update_of_ne hba] at hb
        exact absurd (h.lastObjects b _ hb) (Nat.lt_irrefl _)
    · simp only [fill, update_of_ne hk] at he
      have hold := h.objects _ e he
      by_cases hba : b = a
      · subst hba
        dsimp only at hb
        rw [update_self] at hb
        have hobj := Option.some.inj hb
        omega
      · dsimp only at hb
        rw [update_of_ne hba] at hb
        simp only [fill, update_of_ne hba]
        exact h.last n w e b he hb
  case objects =>
    intro k e he
    by_cases hk : k = (g.cacheSet a, i)
    · subst hk
      simp only [fill, update_self] at he
      cases he
      exact Nat.lt_succ_self _
    · simp only [fill, update_of_ne hk] at he
      exact Nat.lt_succ_of_lt (h.objects k e he)
  case lastObjects =>
    intro b n hb
    dsimp only at hb
    by_cases hba : b = a
    · subst hba
      rw [update_self] at hb
      cases hb
      exact Nat.lt_succ_self _
    · rw [update_of_ne hba] at hb
      exact Nat.lt_succ_of_lt (h.lastObjects b n hb)

theorem deallocate {m : CacheMemory} (h : Indexed g s) (hm : s.mem.deallocate g a = .ok m) :
    Indexed g ⟨m, update s.last a none⟩ := by
  obtain ⟨ha, i, x, hkey, hx, hp, rfl⟩ := deallocate_spec hm
  obtain ⟨y, hy, hxa, -⟩ := h.key a i hkey
  obtain rfl : x = y := Option.some.inj (hx.symm.trans hy)
  have hcache : ∀ k e, update s.mem.cache (g.cacheSet a, i) none k = some e →
      k ≠ (g.cacheSet a, i) ∧ s.mem.cache k = some e := by
    intro k e he
    by_cases hk : k = (g.cacheSet a, i)
    · rw [hk, update_self] at he
      cases he
    · rw [update_of_ne hk] at he
      exact ⟨hk, he⟩
  have hkeys : ∀ b j, update s.mem.tagIndex a none b = some j → b ≠ a ∧ s.mem.tagIndex b = some j := by
    intro b j hb
    by_cases hba : b = a
    · rw [hba, update_self] at hb
      cases hb
    · rw [update_of_ne hba] at hb
      exact ⟨hba, hb⟩
  have hlasts : ∀ b n, update s.last a none b = some n → b ≠ a ∧ s.last b = some n := by
    intro b n hb
    by_cases hba : b = a
    · rw [hba, update_self] at hb
      cases hb
    · rw [update_of_ne hba] at hb
      exact ⟨hba, hb⟩
  constructor
  case placed =>
    intro n w e he
    exact h.placed n w e (hcache _ e he).2
  case line =>
    intro b j hb
    exact h.line b j (hkeys b j hb).2
  case key =>
    intro b j hb
    obtain ⟨hba, hb⟩ := hkeys b j hb
    obtain ⟨e, he, haddr, hlast⟩ := h.key b j hb
    refine ⟨e, ?_, haddr, ?_⟩
    · by_cases hk : (g.cacheSet b, j) = (g.cacheSet a, i)
      · rw [hk, hx] at he
        cases he
        exact absurd (haddr.symm.trans hxa) hba
      · dsimp only
        rw [update_of_ne hk]
        exact he
    · dsimp only
      rw [update_of_ne hba]
      exact hlast
  case present =>
    intro n w e he hpe
    obtain ⟨hk, he⟩ := hcache _ e he
    have hw := h.present n w e he hpe
    have hne : e.address ≠ a := by
      intro haddr
      have hn := (h.placed n w e he).1
      rw [haddr] at hw hn
      cases hkey.symm.trans hw
      exact hk (by rw [← hn])
    dsimp only
    rw [update_of_ne hne]
    exact hw
  case last =>
    intro n w e b he hb
    obtain ⟨-, he⟩ := hcache _ e he
    obtain ⟨hba, hb⟩ := hlasts b _ hb
    dsimp only
    rw [update_of_ne hba]
    exact h.last n w e b he hb
  case objects =>
    intro k e he
    exact h.objects k e (hcache k e he).2
  case lastObjects =>
    intro b n hb
    exact h.lastObjects b n (hlasts b n hb).2

theorem changePermission {slot : Nat × Nat} {newPerm : AccessPermission} (h : Indexed g s)
    (hs : s.step g (.changePermission slot newPerm) = .ok s')
    (hkeep : keepsIndex g s (.changePermission slot newPerm) = true) : Indexed g s' := by
  obtain rfl := Except.ok.inj hs
  -- an entry keeps its object and its address
  have hback : ∀ k e', update s.mem.cache slot ((s.mem.cache slot).map fun e => e.changePermission newPerm) k = some e' →
      ∃ e, s.mem.cache k = some e ∧ e.address = e'.address ∧ e.object = e'.object ∧
        (k = slot ∧ e'.permission = newPerm ∨ e' = e) := by
    intro k e' he'
    by_cases hk : k = slot
    · subst hk
      rw [update_self] at he'
      obtain ⟨e, he, rfl⟩ := Option.map_eq_some_iff.mp he'
      exact ⟨e, he, rfl, rfl, .inl ⟨rfl, rfl⟩⟩
    · rw [update_of_ne hk] at he'
      exact ⟨e', he', rfl, rfl, .inr rfl⟩
  constructor
  case placed =>
    intro n w e' he'
    obtain ⟨e, he, haddr, -⟩ := hback _ e' he'
    rw [← haddr]
    exact h.placed n w e he
  case line => exact h.line
  case key =>
    intro b j hb
    obtain ⟨e, he, haddr, hlast⟩ := h.key b j hb
    by_cases hk : (g.cacheSet b, j) = slot
    · refine ⟨e.changePermission newPerm, ?_, haddr, hlast⟩
      subst hk
      dsimp only
      rw [update_self, he]
      rfl
    · refine ⟨e, ?_, haddr, hlast⟩
      dsimp only
      rw [update_of_ne hk]
      exact he
  case present =>
    intro n w e' he' hp'
    obtain ⟨e, he, haddr, -, ⟨hk, hperm⟩ | rfl⟩ := hback _ e' he'
    · rw [← haddr]
      subst hk
      rw [keepsIndex_changePermission he] at hkeep
      simp only [Bool.or_eq_true, decide_eq_true_eq] at hkeep
      obtain (hp | hnew) | hkey := hkeep
      · exact h.present n w e he hp
      · exact absurd (hperm.trans hnew) hp'
      · exact hkey
    · exact h.present n w e' he hp'
  case last =>
    intro n w e' b he' hb
    obtain ⟨e, he, haddr, hobj, -⟩ := hback _ e' he'
    rw [← haddr]
    rw [← hobj] at hb
    exact h.last n w e b he hb
  case objects =>
    intro k e' he'
    obtain ⟨e, he, -, hobj, -⟩ := hback k e' he'
    rw [← hobj]
    exact h.objects k e he
  case lastObjects => exact h.lastObjects

theorem step (h : Indexed g s) (hkeep : keepsIndex g s op = true) (hs : s.step g op = .ok s') : Indexed g s' := by
  cases op with
  | allocate a =>
    obtain ⟨m, hm, hs⟩ := of_bind hs
    cases hs
    exact h.allocate hm hkeep
  | deallocate a =>
    obtain ⟨m, hm, hs⟩ := of_bind hs
    cases hs
    exact h.deallocate hm
  | changePermission slot newPerm => exact h.changePermission hs hkeep

/-- The key that still names the slot finds the entry of the other address there. -/
theorem not_exact (h : Indexed g s) (hs : s.step g (.allocate a) = .ok s')
    (hkeep : keepsIndex g s (.allocate a) = false) : ¬ Exact g s' := by
  obtain ⟨m, hm, hs⟩ := of_bind hs
  cases hs
  obtain ⟨hline, -, i, hslot, rfl⟩ := allocate_spec hm
  intro hexact
  cases he : s.mem.cache (g.cacheSet a, i) with
  | none =>
    rw [keepsIndex_allocate_empty hslot he] at hkeep
    cases hkeep
  | some e =>
    rw [keepsIndex_allocate hslot he] at hkeep
    simp only [Bool.or_eq_false_iff, decide_eq_false_iff_not, Decidable.not_not] at hkeep
    obtain ⟨hne, hkey⟩ := hkeep
    obtain ⟨r, hr, haddr, -⟩ := hexact.lookup e.address (h.line _ i hkey)
    have hset := (h.placed _ i e he).1
    rw [lookup_some (i := i) (e := ⟨s.mem.objects, a, .invalid, -1⟩) (h.line _ i hkey)
      (by simp only [fill, update_of_ne hne, hkey]) (by simp only [fill, hset, update_self]),
      if_pos nofun] at hr
    cases hr
    exact hne (haddr _ rfl).symm

end Indexed

/-! ## Runs -/

/-- Lookups are exact as long as the steps keep the index, and an allocation that does not ends that. -/
theorem lookups_are_exact {ops : List CacheMemoryOp}
    (hr : Exec (StepIf (keepsIndex g) (CacheMemoryRun.step g)) CacheMemoryRun.init ops s) :
    Exact g s ∧ ∀ a s', s.step g (.allocate a) = .ok s' → keepsIndex g s (.allocate a) = false → ¬ Exact g s' := by
  have h : Indexed g s := by
    apply hr.invariant Indexed.init
    rintro t op u ht ⟨hkeep, hu⟩
    exact ht.step hkeep hu
  exact ⟨h.exact, fun a s' => h.not_exact⟩

/-- Two sets of one way, and blocks of 64 bytes. -/
def twoSets : CacheGeometry := ⟨6, 1, 6, 1⟩

/-- An entry that became NotPresent, and its slot used again for its own address. -/
theorem lookups_are_exact_after_reuse :
    ∃ s, Exec (StepIf (keepsIndex twoSets) (CacheMemoryRun.step twoSets)) CacheMemoryRun.init
        [.allocate 0, .changePermission (0, 0) .notPresent, .allocate 0] s ∧ s.mem.objects = 2 ∧ Exact twoSets s := by
  refine Exec.ends_withIf (p := fun s => s.mem.objects = 2) (by decide) fun s hr hs => ?_
  exact ⟨of_decide_eq_true hs, (lookups_are_exact hr).1⟩

/-- The slot is used again for another address, and a lookup of the first one returns the entry of the second. -/
theorem lookup_finds_another_address : ∃ s, Exec (StepOf (CacheMemoryRun.step twoSets)) CacheMemoryRun.init
        [.allocate 0, .changePermission (0, 0) .notPresent, .allocate 128] s ∧
      s.mem.lookup twoSets 0 = .ok (some ⟨1, 128, .invalid, -1⟩) ∧ ¬ Exact twoSets s := by
  refine Exec.ends_with (p := fun s => s.mem.lookup twoSets 0 = .ok (some ⟨1, 128, .invalid, -1⟩))
    (by decide) fun s hr hs => ?_
  have hlookup := of_decide_eq_true hs
  refine ⟨hlookup, fun hexact => ?_⟩
  obtain ⟨r, hr, haddr, -⟩ := hexact.lookup 0 rfl
  rw [hlookup] at hr
  cases hr
  cases haddr _ rfl

end CacheMemoryRun

end Gem5.Ruby
