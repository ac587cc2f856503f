import Gem5Nvmain.Mem.PageTable

/- The keys of the page table.

  Every key that `map`, `remap` and `unmap` leave in `pTable` is page-aligned. `lookup` keeps that, and touches no
  entry but the one of its own page, unless it is the first access to the page, a write, and not at the start of the
  page (`FirstWriteOffStart`): then `pTable[vaddr]` inserts an entry under the unaligned address. -/
namespace Gem5.Mem
open Lib

/-! ## Page arithmetic -/

theorem pageOffset_add (a : Addr) : pageOffset (a + PageBytes) = pageOffset a := by
  apply BitVec.eq_of_toNat_eq
  simp only [pageOffset, offsetMask, PageBytes, BitVec.toNat_and, BitVec.toNat_add]
  rw [show BitVec.toNat (4095 : Addr) = 2 ^ 12 - 1 by decide, Nat.and_two_pow_sub_one_eq_mod,
    Nat.and_two_pow_sub_one_eq_mod, show BitVec.toNat (4096 : Addr) = 2 ^ 12 by decide]
  omega

theorem pageAlign_of_offset {a : Addr} (h : pageOffset a = 0) : pageAlign a = a := by
  have hsplit : pageAlign a ||| pageOffset a = a := by
    rw [pageAlign, pageOffset, ← BitVec.and_or_distrib_left, BitVec.not_or_self]
    exact BitVec.and_allOnes
  rw [h] at hsplit
  simpa using hsplit

namespace PageTable
variable {s t u : PageTable} {k page vaddr paddr newVaddr : Addr} {e : TlbEntry}

/-! ## Entries -/

/-- Only the entry of `page` may differ; the keys are the same. -/
def SameElsewhere (page : Addr) (s t : PageTable) : Prop :=
  (∀ k, k ∈ t.pTable ↔ k ∈ s.pTable) ∧ ∀ k, k ≠ page → t.pTable.lookup k = s.pTable.lookup k

theorem SameElsewhere.refl (page : Addr) (s : PageTable) : SameElsewhere page s s :=
  ⟨fun _ => .rfl, fun _ _ => rfl⟩

theorem SameElsewhere.trans (h₁ : SameElsewhere page s t) (h₂ : SameElsewhere page t u) : SameElsewhere page s u :=
  ⟨fun k => (h₂.1 k).trans (h₁.1 k), fun k hk => (h₂.2 k hk).trans (h₁.2 k hk)⟩

theorem sameElsewhere_of_table (h : t.pTable = s.pTable) : SameElsewhere page s t :=
  ⟨fun k => by rw [h], fun k _ => by rw [h]⟩

theorem subscript_of_mem (h : k ∈ s.pTable) : s.subscript k = s := if_pos h

theorem mem_subscript : k ∈ (s.subscript k).pTable := by
  unfold subscript
  split
  · assumption
  · simp [setEntry]

theorem setEntry_same (h : page ∈ s.pTable) : SameElsewhere page s (s.setEntry page e) := by
  refine ⟨fun k => ?_, fun k hk => AList.lookup_insert_ne hk⟩
  rw [setEntry, AList.mem_insert]
  exact ⟨fun hor => hor.elim (fun heq => heq ▸ h) id, .inr⟩

/-! ## Moving a page -/

theorem pageCount_page : pageCount 4096 = 1 := by decide

theorem allocateMem_same (hp : page ∈ s.pTable) (h : s.allocateMem page 4096 = .ok t) : SameElsewhere page s t := by
  obtain ⟨⟨system, addr⟩, -, h⟩ := of_bind h
  obtain ⟨-, -, h⟩ := of_bind h
  rw [pageCount_page, mapLoop] at h
  split at h
  · cases h
  · cases h
    exact (sameElsewhere_of_table rfl).trans (setEntry_same hp)

theorem clearPhysPages_same {isPcm : Bool} {index : Addr} (h : s.clearPhysPages isPcm index = .ok t) :
    t.pTable = s.pTable := by
  obtain ⟨-, -, h⟩ := of_bind h
  split at h
  · cases h
  · obtain ⟨system, -, h⟩ := of_bind h
    cases h
    rfl

theorem freePage_same {start : Addr} (h : s.freePage start = .ok t) : t.pTable = s.pTable := by
  simp only [freePage] at h
  split at h
  · exact clearPhysPages_same h
  · exact clearPhysPages_same h

theorem movePage_same (hp : page ∈ s.pTable) (h : s.movePage page = .ok t) : SameElsewhere page s t := by
  unfold movePage at h
  split at h
  · cases h
    exact sameElsewhere_of_table rfl
  · -- the page is freed, marked not valid and mapped again
    rw [subscript_of_mem (s := { s with flag := s.flag + 1 }) hp] at h
    obtain ⟨m, hm, h⟩ := of_bind h
    have htable : m.pTable = s.pTable := freePage_same (s := { s with flag := s.flag + 1 }) hm
    have hmp : page ∈ m.pTable := htable ▸ hp
    refine (sameElsewhere_of_table htable).trans ((setEntry_same hmp).trans (allocateMem_same ?_ h))
    exact ((setEntry_same hmp).1 page).mpr hmp

theorem transFromPtoD_same (hp : page ∈ s.pTable) (h : s.transFromPtoD page = .ok t) : SameElsewhere page s t := by
  unfold transFromPtoD at h
  split at h
  · obtain ⟨m, hm, h⟩ := of_bind h
    have hsm := movePage_same hp hm
    have hmp : page ∈ m.pTable := (hsm.1 page).mpr hp
    rw [subscript_of_mem hmp] at h
    cases h
    exact hsm.trans (setEntry_same hmp)
  · cases h
    exact .refl _ _

/-! ## What a lookup does -/

/-- A write that is the first access to a mapped page, at an address that is not the start of the page. -/
def FirstWriteOffStart (s : PageTable) (vaddr : Addr) (isCheck isWrite : Bool) : Prop :=
  pageAlign vaddr ∈ s.pTable ∧ isCheck = false ∧ isWrite = true ∧
  (s.entryAt (pageAlign vaddr)).isFirstAccess = true ∧ pageOffset vaddr ≠ 0

variable {isWrite : Bool}

theorem firstAccess_same (hp : pageAlign vaddr ∈ s.pTable)
    (hgood : ¬FirstWriteOffStart s vaddr false isWrite) (h : s.firstAccess vaddr isWrite = .ok t) :
    SameElsewhere (pageAlign vaddr) s t := by
  simp only [firstAccess, subscript_of_mem hp] at h
  split at h
  · rename_i hfirst
    have hset := setEntry_same (e := { s.entryAt (pageAlign vaddr) with isFirstAccess := false }) hp
    split at h
    · rename_i hw
      have hoff : pageOffset vaddr = 0 := by
        by_contra hne
        exact hgood ⟨hp, rfl, hw, hfirst, hne⟩
      have hkey := pageAlign_of_offset hoff
      rw [hkey] at h hset hp ⊢
      have hp' := (hset.1 vaddr).mpr hp
      rw [subscript_of_mem hp'] at h
      split at h
      · exact hset.trans (transFromPtoD_same hp' h)
      · cases h
        exact hset
    · cases h
      exact hset
  · cases h
    exact .refl _ _

variable {isCheck : Bool} {r : Option TlbEntry}

theorem lookup_same (hgood : ¬FirstWriteOffStart s vaddr isCheck isWrite)
    (h : s.lookup vaddr isCheck isWrite = .ok (t, r)) : SameElsewhere (pageAlign vaddr) s t := by
  simp only [lookup] at h
  split at h
  · rename_i hp
    obtain ⟨m, hm, h⟩ := of_bind h
    have hsm : SameElsewhere (pageAlign vaddr) s m := by
      split at hm
      · cases hm
        exact .refl _ _
      · rename_i hc
        rw [Bool.not_eq_true] at hc
        exact firstAccess_same hp (hc ▸ hgood) hm
    rw [subscript_of_mem ((hsm.1 _).mpr hp)] at h
    cases h
    exact hsm
  · cases h
    exact .refl _ _

/-- In the remaining case the unaligned address becomes a key. -/
theorem lookup_inserts (hbad : FirstWriteOffStart s vaddr isCheck isWrite)
    (h : s.lookup vaddr isCheck isWrite = .ok (t, r)) : vaddr ∈ t.pTable := by
  obtain ⟨hp, rfl, rfl, hfirst, -⟩ := hbad
  simp only [lookup, if_pos hp] at h
  obtain ⟨m, hm, h⟩ := of_bind h
  simp only [Bool.false_eq_true, if_false, firstAccess, subscript_of_mem hp, hfirst, if_true] at hm
  have hset := setEntry_same (e := { s.entryAt (pageAlign vaddr) with isFirstAccess := false }) hp
  generalize hs₁ : s.setEntry (pageAlign vaddr) _ = s₁ at hm hset
  have hin : vaddr ∈ (s₁.subscript vaddr).pTable := mem_subscript
  have hpage : pageAlign vaddr ∈ (s₁.subscript vaddr).pTable := by
    have := (hset.1 _).mpr hp
    unfold subscript
    split
    · exact this
    · exact (AList.mem_insert _).mpr (.inr this)
  have hm' : SameElsewhere (pageAlign vaddr) (s₁.subscript vaddr) m := by
    split at hm
    · exact transFromPtoD_same hpage hm
    · cases hm
      exact .refl _ _
  rw [subscript_of_mem ((hm'.1 _).mpr hpage)] at h
  cases h
  exact (hm'.1 _).mpr hin

/-! ## Keys -/

def KeysAligned (s : PageTable) : Prop := ∀ k ∈ s.pTable, pageOffset k = 0

theorem KeysAligned.of_same (hk : KeysAligned s) (h : SameElsewhere page s t) : KeysAligned t :=
  fun k hm => hk k ((h.1 k).mp hm)

theorem KeysAligned.setEntry (hs : KeysAligned s) (hk : pageOffset k = 0) : KeysAligned (s.setEntry k e) := by
  intro j hj
  rw [PageTable.setEntry, AList.mem_insert] at hj
  rcases hj with rfl | hj
  · exact hk
  · exact hs j hj

theorem KeysAligned.subscript (hs : KeysAligned s) (hk : pageOffset k = 0) : KeysAligned (s.subscript k) := by
  unfold PageTable.subscript
  split
  · exact hs
  · exact hs.setEntry hk

theorem KeysAligned.erase (hs : KeysAligned s) : KeysAligned { s with pTable := s.pTable.erase k } :=
  fun j hj => hs j (AList.mem_erase.mp hj).2

variable {n : Nat}

theorem mapLoop_aligned {clobber : Bool} (hs : KeysAligned s) (hv : pageOffset vaddr = 0)
    (h : s.mapLoop clobber n vaddr paddr = .ok t) : KeysAligned t := by
  induction n generalizing s vaddr paddr with
  | zero => cases h; exact hs
  | succ n ih =>
    rw [mapLoop] at h
    split at h
    · cases h
    · exact ih (hs.setEntry hv) (by rw [pageOffset_add]; exact hv) h

theorem remapLoop_aligned (hs : KeysAligned s) (hv : pageOffset newVaddr = 0)
    (h : s.remapLoop n vaddr newVaddr = .ok t) : KeysAligned t := by
  induction n generalizing s vaddr newVaddr with
  | zero => cases h; exact hs
  | succ n ih =>
    obtain ⟨-, -, h⟩ := of_bind h
    refine ih ?_ (by rw [pageOffset_add]; exact hv) h
    exact (((hs.setEntry hv).erase).subscript hv).setEntry hv

theorem unmapLoop_aligned (hs : KeysAligned s) (h : s.unmapLoop n vaddr = .ok t) : KeysAligned t := by
  induction n generalizing s vaddr with
  | zero => cases h; exact hs
  | succ n ih =>
    obtain ⟨-, -, h⟩ := of_bind h
    exact ih hs.erase h

/-! ## Runs -/

/-- A call on the page table. `other` is anything else the simulator does: it may change the process bounds, the
  physical pages and `flag`, not the table. -/
inductive Call where
  | map (vaddr paddr : Addr) (size : Int) (clobber : Bool)
  | remap (vaddr : Addr) (size : Int) (newVaddr : Addr)
  | unmap (vaddr : Addr) (size : Int)
  | lookup (vaddr : Addr) (isCheck isWrite : Bool)
  | translate (vaddr : Addr) (isCheck isWrite : Bool)
  | other

/-- A call that returned. -/
inductive Step : PageTable → Call → PageTable → Prop where
  | map {s t : PageTable} {vaddr paddr : Addr} {size : Int} {clobber : Bool}
      (h : s.map vaddr paddr size clobber = .ok t) : Step s (.map vaddr paddr size clobber) t
  | remap {s t : PageTable} {vaddr newVaddr : Addr} {size : Int}
      (h : s.remap vaddr size newVaddr = .ok t) : Step s (.remap vaddr size newVaddr) t
  | unmap {s t : PageTable} {vaddr : Addr} {size : Int} (h : s.unmap vaddr size = .ok t) :
      Step s (.unmap vaddr size) t
  | lookup {s t : PageTable} {vaddr : Addr} {isCheck isWrite : Bool} {r : Option TlbEntry}
      (h : s.lookup vaddr isCheck isWrite = .ok (t, r)) : Step s (.lookup vaddr isCheck isWrite) t
  | translate {s t : PageTable} {vaddr : Addr} {isCheck isWrite : Bool} {r : Option Addr}
      (h : s.translate vaddr isCheck isWrite = .ok (t, r)) : Step s (.translate vaddr isCheck isWrite) t
  | other {s t : PageTable} (h : t.pTable = s.pTable) : Step s .other t

/-- The address and flags of a call that looks up an address. -/
def Call.looksUp : Call → Option (Addr × Bool × Bool)
  | .lookup vaddr isCheck isWrite => some (vaddr, isCheck, isWrite)
  | .translate vaddr isCheck isWrite => some (vaddr, isCheck, isWrite)
  | _ => none

/-- The call is not a first write off the start of its page. -/
def Call.Good (c : Call) (s : PageTable) : Prop :=
  ∀ vaddr isCheck isWrite, c.looksUp = some (vaddr, isCheck, isWrite) →
    ¬FirstWriteOffStart s vaddr isCheck isWrite

def GoodStep (s : PageTable) (c : Call) (t : PageTable) : Prop := Step s c t ∧ c.Good s

variable {c : Call}

theorem step_lookup (hs : Step s c t) (hc : c.looksUp = some (vaddr, isCheck, isWrite)) :
    ∃ r, s.lookup vaddr isCheck isWrite = .ok (t, r) := by
  cases hs with
  | lookup h => cases hc; exact ⟨_, h⟩
  | translate h =>
    cases hc
    obtain ⟨⟨m, r⟩, hl, h⟩ := of_bind h
    cases h
    exact ⟨r, hl⟩
  | map _ => cases hc
  | remap _ => cases hc
  | unmap _ => cases hc
  | other _ => cases hc

theorem goodStep_aligned (hk : KeysAligned s) (hs : GoodStep s c t) : KeysAligned t := by
  obtain ⟨hs, hgood⟩ := hs
  cases hs with
  | map h =>
    obtain ⟨_, hv, h⟩ := of_bind h
    exact mapLoop_aligned hk (by simpa using hv) h
  | remap h =>
    obtain ⟨-, -, h⟩ := of_bind h
    obtain ⟨_, hv, h⟩ := of_bind h
    exact remapLoop_aligned hk (by simpa using hv) h
  | unmap h =>
    obtain ⟨-, -, h⟩ := of_bind h
    exact unmapLoop_aligned hk h
  | lookup h => exact hk.of_same (lookup_same (hgood _ _ _ rfl) h)
  | translate h =>
    obtain ⟨r, hl⟩ := step_lookup (.translate h) rfl
    exact hk.of_same (lookup_same (hgood _ _ _ rfl) hl)
  | other h => exact hk.of_same (sameElsewhere_of_table h : SameElsewhere 0 _ _)

/-- From an empty table, as long as no lookup is a first write off the start of its page, all keys are aligned; and a
  lookup then keeps the keys aligned, the set of mapped pages and the entries of other pages exactly when it is not
  one. -/
theorem lookup_keeps_keys_iff {s₀ s : PageTable} {h : List Call} (h0 : s₀.pTable = ∅) (hr : Exec GoodStep s₀ h s) :
    KeysAligned s ∧ ∀ c t vaddr isCheck isWrite, Step s c t → c.looksUp = some (vaddr, isCheck, isWrite) →
      ((KeysAligned t ∧ SameElsewhere (pageAlign vaddr) s t) ↔
        ¬FirstWriteOffStart s vaddr isCheck isWrite) := by
  have hk : KeysAligned s := by
    refine hr.invariant ?_ fun t c u hk hs => goodStep_aligned hk hs
    intro k hm
    rw [h0] at hm
    cases hm
  refine ⟨hk, fun c t vaddr isCheck isWrite hs hc => ?_⟩
  obtain ⟨r, hl⟩ := step_lookup hs hc
  constructor
  · intro ⟨hkt, _⟩ hbad
    exact hbad.2.2.2.2 (hkt vaddr (lookup_inserts hbad hl))
  · intro hgood
    have hsame := lookup_same hgood hl
    exact ⟨hk.of_same hsame, hsame⟩

/-- The process of the runs below: its heap is the page at 0x1000. -/
def heapPage : Process := ⟨0x1000, 0x1fff, 0, 0, 0, 0⟩

/-- An empty table; PCM page 0 is allocated, for the page mapped below. -/
def emptyTable : PageTable :=
  ⟨∅, heapPage, ⟨⟨8192, 8192, 12⟩, ⟨[false, false], 0⟩, ⟨[true, false], 1⟩, 0, 1⟩, 0⟩

/-- A first write at the start of its page moves the page and keeps the keys. -/
theorem lookup_keeps_keys_at_start : ∃ s, Exec GoodStep emptyTable [.map 0x1000 0 4096 false] s ∧
      ∃ t, Step s (.lookup 0x1000 false true) t ∧ (t.entryAt 0x1000).pageStart = 8192 ∧
        KeysAligned t ∧ SameElsewhere 0x1000 s t := by
  refine ⟨_, .one ⟨Step.map rfl, nofun⟩,
    _, Step.lookup rfl, by decide, ?_⟩
  refine ((lookup_keeps_keys_iff (h := [.map 0x1000 0 4096 false]) (show emptyTable.pTable = ∅ from rfl)
    (.one ⟨Step.map rfl, nofun⟩)).2 (.lookup 0x1000 false true) _ 0x1000 false
    true (Step.lookup rfl) rfl).mpr fun hbad => ?_
  exact hbad.2.2.2.2 rfl

/-- A first write at 0x1004 leaves 0x1004 as a key of the table. -/
theorem lookup_inserts_unaligned_key : ∃ s, Exec Step emptyTable [.map 0x1000 0 4096 false] s ∧ 0x1004 ∉ s.pTable ∧
      ∃ t, Step s (.lookup 0x1004 false true) t ∧ 0x1004 ∈ t.pTable ∧ ¬KeysAligned t := by
  refine ⟨_, .one (Step.map rfl), by decide, _, Step.lookup rfl, by decide,
    fun hk => ?_⟩
  cases hk 0x1004 (by decide)

end PageTable

end Gem5.Mem
