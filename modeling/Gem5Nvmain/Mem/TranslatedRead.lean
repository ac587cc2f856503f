import Gem5Nvmain.Mem.PageTableRuns

/- What a translated read returns after a write access has been translated.

  The first write access to a page of the heap, of a mapping or of the stack that is in PCM moves the page: its frame
  is freed and another one is mapped, without a copy. The loaders and the system calls write through
  `SETranslatingPortProxy`, which translates with `is_check`, so a page may hold data before its first access. -/
namespace Gem5.Mem
open Lib

/-- The contents of the physical memory. -/
abbrev PhysMem := Addr → UInt8

namespace PageTable

/-- `tryReadBlob` of one byte. -/
def readByte (mem : PhysMem) (s : PageTable) (vaddr : Addr) : Except Stop (Option UInt8) := do
  let (_, paddr) ← s.translate vaddr true false
  return paddr.map mem

/-- `tryWriteBlob` of one byte at an address that is mapped. -/
def writeByte (mem : PhysMem) (s : PageTable) (vaddr : Addr) (value : UInt8) : Except Stop (PageTable × Option PhysMem) := do
  let (s, paddr) ← s.translate vaddr true false
  return (s, paddr.map fun a => Function.update mem a value)

/-- A write access to the address moves its page. -/
def movesPage (s : PageTable) (vaddr : Addr) : Bool :=
  decide (pageAlign vaddr ∈ s.pTable) && (s.entryAt (pageAlign vaddr)).isFirstAccess &&
    decide ((s.entryAt vaddr).pageStart < BitVec.ofNat 64 s.system.mem.pcmSize) &&
    Process.moves s.process (pageAlign vaddr) && decide (s.flag ≤ 11)

/-- Where the frame starts that the allocator gives when the frame of a page has been freed. -/
def nextFrame (s : PageTable) (page : Addr) : Except Stop Addr := do
  let s ← s.freePage (s.entryAt page).pageStart
  let (_, paddr) ← s.system.allocPhysPages 1
  return (TlbEntry.mk3 page (BitVec.ofNat 64 paddr)).pageStart

/-- Two frames hold the same bytes. -/
def SameBytes (mem : PhysMem) (a b : Addr) : Prop := ∀ v, mem (pageOffset v + a) = mem (pageOffset v + b)

section TranslatedRead
variable {s t u : PageTable} {page k vaddr start : Addr} {mem : PhysMem} {e : TlbEntry}

theorem readByte_eq (mem : PhysMem) (s : PageTable) (vaddr : Addr) :
    s.readByte mem vaddr = .ok (if pageAlign vaddr ∈ s.pTable then
      some (mem (pageOffset vaddr + (s.entryAt (pageAlign vaddr)).pageStart)) else none) := by
  unfold readByte translate lookup
  by_cases hp : pageAlign vaddr ∈ s.pTable
  · simp only [if_pos hp, if_true, bind_ok, pure_eq_ok, subscript_of_mem hp, Option.map_some]
  · simp only [if_neg hp, bind_ok, pure_eq_ok, Option.map_none]

theorem pageOffset_pageAlign (a : Addr) : pageOffset (pageAlign a) = 0 := by
  unfold pageOffset pageAlign
  rw [BitVec.and_assoc, BitVec.and_comm (~~~offsetMask), BitVec.and_not_self]
  exact BitVec.and_zero

theorem entryAt_setEntry_self (s : PageTable) (k : Addr) (e : TlbEntry) : (s.setEntry k e).entryAt k = e := by
  unfold entryAt setEntry
  rw [AList.lookup_insert]
  rfl

theorem entryAt_setEntry_ne (s : PageTable) (e : TlbEntry) (h : k ≠ page) : (s.setEntry page e).entryAt k = s.entryAt k := by
  unfold entryAt setEntry
  rw [AList.lookup_insert_ne h]

theorem entryAt_subscript (s : PageTable) (k j : Addr) : (s.subscript k).entryAt j = s.entryAt j := by
  unfold subscript
  split
  · rfl
  · rename_i hk
    by_cases hj : j = k
    · rw [hj, entryAt_setEntry_self, entryAt, AList.lookup_eq_none.mpr hk]
      rfl
    · exact entryAt_setEntry_ne s _ hj

/-! ## Frames -/

/-- The page has its frame at `start`, and every other page the frame that it had. -/
structure Remapped (s t : PageTable) (page start : Addr) : Prop where
  keys : ∀ k, pageOffset k = 0 → (k ∈ t.pTable ↔ k ∈ s.pTable)
  others : ∀ k, k ≠ page → (t.entryAt k).pageStart = (s.entryAt k).pageStart
  page : (t.entryAt page).pageStart = start

theorem Remapped.refl (s : PageTable) (page : Addr) : s.Remapped s page (s.entryAt page).pageStart :=
  ⟨fun _ _ => .rfl, fun _ _ => rfl, rfl⟩

theorem Remapped.setEntry (h : s.Remapped t page start) (hp : page ∈ s.pTable) (ho : pageOffset page = 0) :
    s.Remapped (t.setEntry page e) page e.pageStart := by
  refine ⟨fun k hk => ?_, fun k hk => ?_, ?_⟩
  · have hin := (h.keys page ho).mpr hp
    rw [PageTable.setEntry, AList.mem_insert, ← h.keys k hk]
    constructor
    · rintro (rfl | h)
      · exact hin
      · exact h
    · exact .inr
  · rw [entryAt_setEntry_ne t e hk]
    exact h.others k hk
  · rw [entryAt_setEntry_self]

theorem Remapped.subscript (h : s.Remapped t page start) (hk : pageOffset k ≠ 0) :
    s.Remapped (t.subscript k) page start := by
  refine ⟨fun j hj => ?_, fun j hj => ?_, ?_⟩
  · rw [← h.keys j hj]
    unfold PageTable.subscript
    split
    · exact .rfl
    · rw [PageTable.setEntry, AList.mem_insert]
      refine or_iff_right ?_
      rintro rfl
      exact hk hj
  · rw [entryAt_subscript]
    exact h.others j hj
  · rw [entryAt_subscript]
    exact h.page

theorem Remapped.of_table (h : s.Remapped t page start) (ht : u.pTable = t.pTable) : s.Remapped u page start := by
  have hentry : ∀ k, u.entryAt k = t.entryAt k := by
    intro k
    unfold entryAt
    rw [ht]
  refine ⟨fun k hk => ?_, fun k hk => ?_, ?_⟩
  · rw [ht]
    exact h.keys k hk
  · rw [hentry]
    exact h.others k hk
  · rw [hentry]
    exact h.page

theorem freePage_congr (hsys : t.system = s.system) (h : s.freePage start = .ok u) :
    t.freePage start = .ok { t with system := u.system } := by
  unfold freePage clearPhysPages at h ⊢
  dsimp only at h ⊢
  rw [hsys]
  split
  · rename_i hstart
    rw [if_pos hstart] at h
    cases h
  · rename_i hstart
    rw [if_neg hstart] at h
    obtain ⟨x, hreq, h⟩ := of_bind h
    split at h
    · cases h
    · rename_i hneg
      obtain ⟨y, hy, h⟩ := of_bind h
      cases h
      rw [hreq, bind_ok, if_neg hneg, hy]
      rfl

/-! ## Moving a page -/

/-- A page that is marked not valid is mapped to the next free frame. -/
theorem allocateMem_eq_ok (hvalid : (s.entryAt page).valid = false) (ho : pageOffset page = 0) :
    s.allocateMem page 4096 = .ok t ↔ ∃ system paddr, s.system.allocPhysPages 1 = .ok (system, paddr) ∧
      t = PageTable.setEntry { s with system := system } page (.mk3 page (BitVec.ofNat 64 paddr)) := by
  have hmap : ∀ (system : Sim.System) (paddr : Nat),
      PageTable.map { s with system := system } page (BitVec.ofNat 64 paddr) 4096 false =
        .ok (PageTable.setEntry { s with system := system } page (.mk3 page (BitVec.ofNat 64 paddr))) := by
    intro system paddr
    have hentry : (entryAt { s with system := system } page).valid = false := hvalid
    unfold PageTable.map
    rw [ho, pageCount_page, mapLoop, hentry, Bool.and_false]
    rfl
  constructor
  · intro h
    obtain ⟨⟨system, paddr⟩, hal, h⟩ := of_bind h
    dsimp only at h
    rw [hmap] at h
    cases h
    exact ⟨system, paddr, hal, rfl⟩
  · rintro ⟨system, paddr, hal, rfl⟩
    exact bind_eq_ok.mpr ⟨_, hal, hmap system paddr⟩

/-- A frame is freed and another one is mapped. -/
theorem movePage_eq_ok (hflag : s.flag ≤ 11) (hp : page ∈ s.pTable) (ho : pageOffset page = 0) :
    s.movePage page = .ok t ↔ ∃ u system paddr, s.freePage (s.entryAt page).pageStart = .ok u ∧
      u.system.allocPhysPages 1 = .ok (system, paddr) ∧
      t = PageTable.setEntry { (s.setEntry page { s.entryAt page with valid := false }) with
        flag := s.flag + 1, system := system } page (.mk3 page (BitVec.ofNat 64 paddr)) := by
  have hsub : PageTable.subscript { s with flag := s.flag + 1 } page = { s with flag := s.flag + 1 } :=
    subscript_of_mem hp
  have hvalid : ∀ v : PageTable, ((v.setEntry page { v.entryAt page with valid := false }).entryAt page).valid = false := by
    intro v
    rw [entryAt_setEntry_self]
  unfold movePage
  rw [if_neg (Nat.not_lt.mpr hflag)]
  rw [hsub]
  constructor
  · intro h
    obtain ⟨v, hv, h⟩ := of_bind h
    have hu := freePage_congr (s := { s with flag := s.flag + 1 }) (t := s) rfl hv
    have hv' := freePage_congr (s := s) (t := { s with flag := s.flag + 1 }) rfl hu
    have hvu : v = { s with flag := s.flag + 1, system := v.system } := Except.ok.inj (hv.symm.trans hv')
    obtain ⟨system, paddr, hal, rfl⟩ := (allocateMem_eq_ok (hvalid v) ho).mp h
    refine ⟨_, system, paddr, hu, hal, ?_⟩
    rw [hvu]
    rfl
  · rintro ⟨u, system, paddr, hu, hal, rfl⟩
    have hv := freePage_congr (s := s) (t := { s with flag := s.flag + 1 }) rfl hu
    refine bind_eq_ok.mpr ⟨_, hv, ?_⟩
    exact (allocateMem_eq_ok (hvalid _) ho).mpr ⟨system, paddr, hal, rfl⟩

/-! ## A write access -/

/-- The state in which `transFromPtoD` is called. -/
def touched (s : PageTable) (vaddr : Addr) : PageTable :=
  (s.setEntry (pageAlign vaddr) { s.entryAt (pageAlign vaddr) with isFirstAccess := false }).subscript vaddr

theorem touched_remapped (hp : pageAlign vaddr ∈ s.pTable) :
    s.Remapped (s.touched vaddr) (pageAlign vaddr) (s.entryAt (pageAlign vaddr)).pageStart := by
  have hset : s.Remapped (s.setEntry (pageAlign vaddr) { s.entryAt (pageAlign vaddr) with isFirstAccess := false })
      (pageAlign vaddr) (s.entryAt (pageAlign vaddr)).pageStart :=
    (Remapped.refl s _).setEntry hp (pageOffset_pageAlign vaddr)
  by_cases ho : pageOffset vaddr = 0
  · have hkey := pageAlign_of_offset ho
    have hin : vaddr ∈ (s.setEntry (pageAlign vaddr) { s.entryAt (pageAlign vaddr) with isFirstAccess := false }).pTable := by
      rw [hkey]
      exact (AList.mem_insert _).mpr (.inl rfl)
    unfold touched
    rw [subscript_of_mem hin]
    exact hset
  · exact hset.subscript ho

theorem pageStart_touched (s : PageTable) (vaddr k : Addr) : ((s.touched vaddr).entryAt k).pageStart = (s.entryAt k).pageStart := by
  unfold touched
  rw [entryAt_subscript]
  by_cases hk : k = pageAlign vaddr
  · rw [hk, entryAt_setEntry_self]
    rfl
  · rw [entryAt_setEntry_ne s _ hk]

theorem mem_touched (hp : pageAlign vaddr ∈ s.pTable) : pageAlign vaddr ∈ (s.touched vaddr).pTable :=
  ((touched_remapped hp).keys _ (pageOffset_pageAlign vaddr)).mpr hp

@[simp] theorem touched_system (s : PageTable) (vaddr : Addr) : (s.touched vaddr).system = s.system := by
  unfold touched subscript
  split
  · rfl
  · rfl

@[simp] theorem touched_process (s : PageTable) (vaddr : Addr) : (s.touched vaddr).process = s.process := by
  unfold touched subscript
  split
  · rfl
  · rfl

@[simp] theorem touched_flag (s : PageTable) (vaddr : Addr) : (s.touched vaddr).flag = s.flag := by
  unfold touched subscript
  split
  · rfl
  · rfl

section
variable (hp : pageAlign vaddr ∈ s.pTable)
include hp

theorem translate_eq_ok :
    (∃ r, s.translate vaddr false true = .ok (t, r)) ↔ ∃ u, s.firstAccess vaddr true = .ok u ∧ u.subscript (pageAlign vaddr) = t := by
  unfold translate lookup
  rw [if_pos hp, if_neg Bool.false_ne_true]
  constructor
  · rintro ⟨r, h⟩
    obtain ⟨⟨v, e⟩, h, hr⟩ := of_bind h
    obtain ⟨u, hu, h⟩ := of_bind h
    cases h
    cases hr
    exact ⟨u, hu, rfl⟩
  · rintro ⟨u, hu, rfl⟩
    exact ⟨_, bind_eq_ok.mpr ⟨_, bind_eq_ok.mpr ⟨u, hu, rfl⟩, rfl⟩⟩

theorem firstAccess_eq : s.firstAccess vaddr true = if (s.entryAt (pageAlign vaddr)).isFirstAccess then
      if (s.entryAt vaddr).pageStart < BitVec.ofNat 64 s.system.mem.pcmSize then (s.touched vaddr).transFromPtoD (pageAlign vaddr)
      else .ok (s.touched vaddr)
    else .ok s := by
  have hstart := pageStart_touched s vaddr vaddr
  unfold firstAccess
  dsimp only
  rw [subscript_of_mem hp, if_pos rfl, ← hstart, ← touched_system s vaddr]
  rfl

theorem movesPage_eq_true : s.movesPage vaddr = true ↔ (s.entryAt (pageAlign vaddr)).isFirstAccess = true ∧
      (s.entryAt vaddr).pageStart < BitVec.ofNat 64 s.system.mem.pcmSize ∧
      Process.moves s.process (pageAlign vaddr) = true ∧ s.flag ≤ 11 := by
  unfold movesPage
  simp only [Bool.and_eq_true, decide_eq_true_eq, hp, true_and, and_assoc]

/-- A page that is not moved keeps its frame. -/
theorem firstAccess_kept (hm : s.movesPage vaddr = false) :
    ∃ t, s.firstAccess vaddr true = .ok t ∧ s.Remapped t (pageAlign vaddr) (s.entryAt (pageAlign vaddr)).pageStart := by
  have hpage := mem_touched hp
  have htouched := touched_remapped hp
  rw [firstAccess_eq hp]
  split
  · rename_i hfirst
    split
    · rename_i hpcm
      unfold transFromPtoD
      rw [touched_process]
      split
      · rename_i hregion
        -- one of the calls that leave the page where it is
        have hflag : s.flag > 11 := by
          by_contra hle
          rw [(movesPage_eq_true hp).mpr ⟨hfirst, hpcm, hregion, Nat.le_of_not_lt hle⟩] at hm
          cases hm
        unfold movePage
        rw [touched_flag, if_pos hflag, bind_ok]
        have hsub := subscript_of_mem (s := { (s.touched vaddr) with
          flag := if s.flag + 1 > 26 then 0 else s.flag + 1 }) hpage
        rw [hsub]
        refine ⟨_, rfl, ?_⟩
        have hset := (htouched.of_table (u := { (s.touched vaddr) with
          flag := if s.flag + 1 > 26 then 0 else s.flag + 1 }) rfl).setEntry
            (e := { (s.touched vaddr).entryAt (pageAlign vaddr) with isFirstAccess := false }) hp (pageOffset_pageAlign vaddr)
        have hsame := pageStart_touched s vaddr (pageAlign vaddr)
        rw [← hsame]
        exact hset
      · exact ⟨_, rfl, htouched⟩
    · exact ⟨_, rfl, htouched⟩
  · exact ⟨s, rfl, .refl s _⟩

/-- A page that is moved gets the next free frame. -/
theorem firstAccess_moved (hm : s.movesPage vaddr = true) : (∀ t, s.firstAccess vaddr true = .ok t →
      ∃ start, s.nextFrame (pageAlign vaddr) = .ok start ∧ s.Remapped t (pageAlign vaddr) start) ∧
    (∀ start, s.nextFrame (pageAlign vaddr) = .ok start → ∃ t, s.firstAccess vaddr true = .ok t) := by
  obtain ⟨hfirst, hpcm, hregion, hflag⟩ := (movesPage_eq_true hp).mp hm
  have hpage := mem_touched hp
  have ho := pageOffset_pageAlign vaddr
  have hflag' : (s.touched vaddr).flag ≤ 11 := by
    rw [touched_flag]
    exact hflag
  have hregion' : Process.moves (s.touched vaddr).process (pageAlign vaddr) = true := by
    rw [touched_process]
    exact hregion
  have hstart := pageStart_touched s vaddr (pageAlign vaddr)
  have hsys := touched_system s vaddr
  rw [firstAccess_eq hp, if_pos hfirst, if_pos hpcm]
  unfold transFromPtoD
  rw [if_pos hregion']
  constructor
  · intro t h
    obtain ⟨m, hmove, h⟩ := of_bind h
    obtain ⟨u, system, paddr, hfree, hal, rfl⟩ := (movePage_eq_ok hflag' hpage ho).mp hmove
    refine ⟨(TlbEntry.mk3 (pageAlign vaddr) (BitVec.ofNat 64 paddr)).pageStart, ?_, ?_⟩
    · have hfree' := freePage_congr hsys.symm hfree
      rw [hstart] at hfree'
      exact bind_eq_ok.mpr ⟨_, hfree', bind_eq_ok.mpr ⟨_, hal, rfl⟩⟩
    · have hset := (touched_remapped hp).setEntry
        (e := { (s.touched vaddr).entryAt (pageAlign vaddr) with valid := false }) hp ho
      have hmap := (hset.of_table (u := { ((s.touched vaddr).setEntry (pageAlign vaddr)
        { (s.touched vaddr).entryAt (pageAlign vaddr) with valid := false }) with
          flag := (s.touched vaddr).flag + 1, system := system }) rfl).setEntry
            (e := .mk3 (pageAlign vaddr) (BitVec.ofNat 64 paddr)) hp ho
      have hin := (hmap.keys _ ho).mpr hp
      rw [subscript_of_mem hin] at h
      cases h
      have hlast := hmap.setEntry (e := { (entryAt (PageTable.setEntry { ((s.touched vaddr).setEntry (pageAlign vaddr)
        { (s.touched vaddr).entryAt (pageAlign vaddr) with valid := false }) with
          flag := (s.touched vaddr).flag + 1, system := system } (pageAlign vaddr)
            (.mk3 (pageAlign vaddr) (BitVec.ofNat 64 paddr))) (pageAlign vaddr)) with isFirstAccess := false }) hp ho
      rw [entryAt_setEntry_self] at hlast
      rw [entryAt_setEntry_self]
      exact hlast
  · intro start h
    obtain ⟨u, hfree, h⟩ := of_bind h
    obtain ⟨⟨system, paddr⟩, hal, -⟩ := of_bind h
    have hfree' := freePage_congr hsys hfree
    rw [← hstart] at hfree'
    exact ⟨_, bind_eq_ok.mpr ⟨_, (movePage_eq_ok hflag' hpage ho).mpr ⟨_, system, paddr, hfree', hal, rfl⟩, rfl⟩⟩

end

/-! ## Reads afterwards -/

/-- Reads are as before when the page is where it was, or its new frame has the bytes of the old one. -/
theorem Remapped.reads_iff (h : s.Remapped t page start) (hp : page ∈ s.pTable) (ho : pageOffset page = 0) :
    (∀ v, pageAlign v ∈ s.pTable → t.readByte mem v = s.readByte mem v) ↔
      ∀ v, pageAlign v = page → mem (pageOffset v + start) = mem (pageOffset v + (s.entryAt page).pageStart) := by
  constructor
  · rintro hread v rfl
    have hv := hread v hp
    rw [readByte_eq, readByte_eq, if_pos hp, if_pos ((h.keys _ ho).mpr hp), h.page] at hv
    exact Option.some.inj (Except.ok.inj hv)
  · intro hbytes v hv
    rw [readByte_eq, readByte_eq, if_pos hv, if_pos ((h.keys _ (pageOffset_pageAlign v)).mpr hv)]
    by_cases hpage : pageAlign v = page
    · rw [hpage, h.page, hbytes v hpage]
    · rw [h.others _ hpage]

theorem page_or_offset (ho : pageOffset page = 0) (v : Addr) :
    pageAlign (page ||| pageOffset v) = page ∧ pageOffset (page ||| pageOffset v) = pageOffset v := by
  have hpage := pageAlign_of_offset ho
  unfold pageAlign pageOffset at *
  constructor
  · rw [BitVec.and_or_distrib_right, hpage, BitVec.and_assoc, BitVec.and_not_self]
    simp
  · rw [BitVec.and_or_distrib_right, ho, BitVec.and_assoc, BitVec.and_self]
    simp

theorem sameBytes_iff {a b : Addr} (ho : pageOffset page = 0) :
    (∀ v, pageAlign v = page → mem (pageOffset v + a) = mem (pageOffset v + b)) ↔ SameBytes mem a b := by
  constructor
  · intro h v
    obtain ⟨halign, hoff⟩ := page_or_offset ho v
    have hv := h (page ||| pageOffset v) halign
    rwa [hoff] at hv
  · exact fun h v _ => h v

/-- Translating a write access leaves every read as it was exactly when the page is not moved, or is moved to a frame
  that has the same bytes. -/
theorem write_access_keeps_reads_iff (mem : PhysMem) (s : PageTable) (vaddr : Addr) :
    (∀ t r, s.translate vaddr false true = .ok (t, r) →
      ∀ v, pageAlign v ∈ s.pTable → t.readByte mem v = s.readByte mem v) ↔
    (s.movesPage vaddr = true → ∀ start, s.nextFrame (pageAlign vaddr) = .ok start →
      SameBytes mem start (s.entryAt (pageAlign vaddr)).pageStart) := by
  have ho := pageOffset_pageAlign vaddr
  by_cases hp : pageAlign vaddr ∈ s.pTable
  · -- what the translation leaves is what the first access leaves
    have hkept : ∀ {u : PageTable} {start : Addr}, s.Remapped u (pageAlign vaddr) start →
        u.subscript (pageAlign vaddr) = u := by
      intro u start hu
      exact subscript_of_mem ((hu.keys _ ho).mpr hp)
    cases hm : s.movesPage vaddr with
    | false =>
      obtain ⟨u, hu, hre⟩ := firstAccess_kept hp hm
      refine iff_of_true (fun t r ht => ?_) nofun
      obtain ⟨w, hw, rfl⟩ := (translate_eq_ok hp).mp ⟨r, ht⟩
      cases hu.symm.trans hw
      rw [hkept hre]
      exact (hre.reads_iff hp ho).mpr fun v _ => rfl
    | true =>
      obtain ⟨hmoved, hreturns⟩ := firstAccess_moved hp hm
      constructor
      · intro h _ start hstart
        obtain ⟨u, hu⟩ := hreturns start hstart
        obtain ⟨start', hstart', hre⟩ := hmoved u hu
        cases hstart.symm.trans hstart'
        obtain ⟨r, hr⟩ := (translate_eq_ok hp).mpr ⟨u, hu, rfl⟩
        have hreads := h _ r hr
        rw [hkept hre] at hreads
        exact (sameBytes_iff ho).mp ((hre.reads_iff hp ho).mp hreads)
      · intro h t r ht
        obtain ⟨u, hu, rfl⟩ := (translate_eq_ok hp).mp ⟨r, ht⟩
        obtain ⟨start, hstart, hre⟩ := hmoved u hu
        rw [hkept hre]
        exact (hre.reads_iff hp ho).mpr ((sameBytes_iff ho).mpr (h rfl start hstart))
  · -- an address that is not mapped changes nothing
    have hm : s.movesPage vaddr = false := by
      unfold movesPage
      simp only [hp, decide_false, Bool.false_and]
    rw [hm]
    refine iff_of_true (fun t r ht v _ => ?_) nofun
    have hsame : s.translate vaddr false true = .ok (s, none) := by
      unfold translate lookup
      rw [if_neg hp]
      rfl
    cases hsame.symm.trans ht
    rfl

/-- A heap page in the first PCM frame, and a free DRAM frame. -/
def brkPage : PageTable where
  pTable := (∅ : PTable).insert 4096 { pfn := 0, vpn := 1 }
  process := ⟨4096, 8192, 0, 0, 0, 0⟩
  system := ⟨⟨4096, 4096, 12⟩, ⟨[false], 0⟩, ⟨[true], 1⟩, 0, 1⟩
  flag := 0

/-- A system call writes a 7 to the page; after the first write access of the program to the page the 7 is gone. -/
theorem written_byte_is_lost : ∃ mem t r, brkPage.writeByte (fun _ => 0) 4096 7 = .ok (brkPage, some mem) ∧
      brkPage.readByte mem 4096 = .ok (some 7) ∧
      brkPage.translate 4096 false true = .ok (t, r) ∧ t.readByte mem 4096 = .ok (some 0) :=
  ⟨Function.update (fun _ => 0) 0 7, _, _, rfl, by decide, rfl, by decide⟩

end TranslatedRead

end PageTable

end Gem5.Mem
