import Gem5Nvmain.Nvm.CacheBankRuns

/- What the cache bank keeps of the data that is written.

  `owed` is what the responses so far say of an address: the data of the last write that has not been evicted since,
  and whether that write hit. A line is installed clean, so only a write that hits leaves it dirty. Where no write
  finds its line behind the front of the set, the bank holds exactly that (`holds_owed`). A write to a full set evicts
  the last line first, also when it is the one to be written. -/
namespace Nvm
open Lib Function List

variable {addr a : Nat} {data : NVMDataBlock} {set set' pre post : List CacheEntry} {e : CacheEntry}

/-! ## Looking an address up -/

/-- The data of the address and whether it is dirty. -/
def lookupIn (addr : Nat) (set : List CacheEntry) : Option (NVMDataBlock × Bool) :=
  (set.find? (·.hits addr)).map fun e => (e.data, e.dirty)

theorem lookupIn_live (addr : Nat) (set : List CacheEntry) :
    lookupIn addr set = ((live set).find? (·.address = addr)).map fun e => (e.data, e.dirty) := by
  unfold lookupIn live
  rw [find?_filter]
  congr 2
  funext e
  rw [Bool.eq_iff_iff, hits_iff]
  simp only [decide_eq_true_eq]
  exact and_comm

theorem lookupIn_others (h : a ≠ addr) : lookupIn a set = ((others addr set).find? (·.address = a)).map fun e => (e.data, e.dirty) := by
  rw [lookupIn_live]
  unfold others
  rw [find?_filter]
  congr 2
  funext e
  rw [Bool.eq_iff_iff]
  simp only [decide_eq_true_eq]
  exact ⟨fun he => ⟨fun heq => h (he.symm.trans heq), he⟩, fun he => he.2⟩

theorem lookupIn_congr (h : a ≠ addr) (ho : others addr set' = others addr set) : lookupIn a set' = lookupIn a set := by
  rw [lookupIn_others h, lookupIn_others h, ho]

theorem lookupIn_front (haddr : e.address = addr) (hlive : live set = e :: others addr set') :
    lookupIn addr set = some (e.data, e.dirty) := by
  rw [lookupIn_live, hlive, find?_cons_of_pos (by simpa using haddr)]
  rfl

theorem lookupIn_none (h : presentIn addr set = false) : lookupIn addr set = none := by
  unfold lookupIn
  rw [find?_eq_none.mpr fun e he hhit => ?_]
  · rfl
  · rw [presentIn, any_eq_false] at h
    exact h e he hhit

theorem lookupIn_of_mem (hu : (addresses set).Nodup) (he : e ∈ live set) : lookupIn e.address set = some (e.data, e.dirty) := by
  obtain ⟨hmem, hvalid⟩ := mem_filter.mp he
  have hhit : e.hits e.address = true := hits_iff.mpr ⟨rfl, hvalid⟩
  obtain ⟨pre, x, post, rfl, hx, hpre, hpost⟩ := exists_split hu (any_eq_true.mpr ⟨e, hmem, hhit⟩)
  have hxe : e = x := by
    obtain hin | hin := mem_append.mp hmem
    · exact absurd hhit (by rw [hpre e hin]; decide)
    · obtain rfl | hin := mem_cons.mp hin
      · rfl
      · exact absurd hhit (by rw [hpost e hin]; decide)
  unfold lookupIn
  rw [find?_append, find?_eq_none.mpr fun y hy => by rw [hpre y hy]; decide, Option.none_or,
    find?_cons_of_pos hx, ← hxe]
  rfl

/-! ## Empty entries are clean -/

def Clean (set : List CacheEntry) : Prop := ∀ e ∈ set, e.valid = false → e.dirty = false

theorem Clean.replicate (n : Nat) : Clean (replicate n {}) := by
  intro e he _
  rw [eq_of_mem_replicate he]

theorem Clean.readIn (h : Clean set) (hu : (addresses set).Nodup) (hp : presentIn addr set = true) : Clean (readIn addr set).1 := by
  obtain ⟨pre, e, post, rfl, hhit, hpre, hpost⟩ := exists_split hu hp
  rw [readIn_eq hhit hpre hpost]
  intro x hx
  refine h x ?_
  obtain rfl | hx := mem_cons.mp hx
  · exact mem_append_right _ mem_cons_self
  · obtain hx | hx := mem_append.mp hx
    · exact mem_append_left _ hx
    · exact mem_append_right _ (mem_cons_of_mem _ hx)

theorem Clean.writeIn (h : Clean set) (data : NVMDataBlock) (hu : (addresses set).Nodup) (hp : presentIn addr set = true) :
    Clean (writeIn addr data set) := by
  obtain ⟨pre, e, post, rfl, hhit, hpre, hpost⟩ := exists_split hu hp
  have hvalid : (written data e).valid = true := (hits_iff.mp hhit).2
  have hwritten : (written data e).valid = false → (written data e).dirty = false := by
    rw [hvalid]
    exact nofun
  cases pre with
  | nil =>
    rw [nil_append, writeIn_front hhit hpost]
    intro x hx
    obtain rfl | hx := mem_cons.mp hx
    · exact hwritten
    · exact h x (mem_cons_of_mem _ hx)
  | cons p pre =>
    rw [cons_append, writeIn_behind hhit (hpre p mem_cons_self) (fun x hx => hpre x (mem_cons_of_mem p hx)) hpost]
    intro x hx
    obtain rfl | hx := mem_cons.mp hx
    · exact hwritten
    · obtain rfl | hx := mem_cons.mp hx
      · cases pre with
        | nil => exact hwritten
        | cons q pre => exact h q (mem_cons_of_mem _ mem_cons_self)
      · refine h x (mem_cons_of_mem _ ?_)
        obtain hx | hx := mem_append.mp hx
        · exact mem_append_left _ hx
        · exact mem_append_right _ (mem_cons_of_mem _ hx)

theorem Clean.installIn (h : Clean set) (addr : Nat) (data : NVMDataBlock) : Clean (installIn addr data set).1 := by
  obtain ⟨heq, -⟩ | ⟨pre, e, post, rfl, -, heq⟩ := installIn_eq addr data set
  · rw [heq]
    exact h
  · rw [heq]
    intro x hx hv
    obtain hx | hx := mem_append.mp hx
    · exact h x (mem_append_left _ hx) hv
    · obtain rfl | hx := mem_cons.mp hx
      · cases hv
      · exact h x (mem_append_right _ (mem_cons_of_mem _ hx)) hv

theorem Clean.evictIn (h : Clean set) (hu : (addresses set).Nodup) (hp : presentIn addr set = true) :
    Clean (evictIn addr set).1 := by
  obtain ⟨pre, e, post, rfl, hhit, hpre, -⟩ := exists_split hu hp
  rw [evictIn_eq hhit hpre]
  intro x hx hv
  obtain hx | hx := mem_append.mp hx
  · exact h x (mem_append_left _ hx) hv
  · obtain rfl | hx := mem_cons.mp hx
    · rfl
    · exact h x (mem_append_right _ (mem_cons_of_mem _ hx)) hv

theorem lookupIn_installIn (h : Clean set) (data : NVMDataBlock) (ha : presentIn addr set = false) (hroom : fullSet set = false) :
    lookupIn addr (installIn addr data set).1 = some (data, false) := by
  obtain ⟨-, hfull⟩ | ⟨pre, e, post, rfl, hv, heq⟩ := installIn_eq addr data set
  · rw [hfull] at hroom
    cases hroom
  · rw [presentIn, any_append, Bool.or_eq_false_iff, any_eq_false] at ha
    have hdirty : e.dirty = false := h e (mem_append_right _ mem_cons_self) hv
    unfold lookupIn
    rw [heq, find?_append, find?_eq_none.mpr ha.1, Option.none_or,
      find?_cons_of_pos (by simp [CacheEntry.hits])]
    exact congrArg (fun b => some (data, b)) hdirty

/-! ## The bank -/

namespace CacheBank
variable {c : CacheConfig} {s s' : CacheBank}

def lookup (c : CacheConfig) (s : CacheBank) (addr : Nat) : Option (NVMDataBlock × Bool) := lookupIn addr (s.findSet c addr)

/-- The bank has come about by operations that keep it a map, and its empty entries are clean. -/
structure Kept (c : CacheConfig) (s : CacheBank) : Prop where
  lru : ∃ h, Lru c h s
  clean : ∀ k, Clean (s.cacheEntry k)

theorem Kept.init (c : CacheConfig) : Kept c (init c) := ⟨⟨[], Lru.init c⟩, fun _ => Clean.replicate c.numAssoc⟩

theorem clean_putSet (h : ∀ k, Clean (s.cacheEntry k)) (hset : Clean set) (k : Nat) : Clean ((s.putSet c addr set).cacheEntry k) := by
  obtain rfl | hk := eq_or_ne k (c.decode addr)
  · rw [show (s.putSet c addr set).cacheEntry (c.decode addr) = set from update_self _ _ _]
    exact hset
  · rw [putSet_other s addr set hk]
    exact h k

theorem lookup_putSet (ho : others addr set = others addr (s.findSet c addr)) :
    (s.putSet c addr set).lookup c = update (s.lookup c) addr (lookupIn addr set) := by
  funext a
  unfold lookup
  obtain rfl | ha := eq_or_ne a addr
  · rw [update_self, findSet_putSet]
  · rw [update_of_ne ha]
    by_cases hk : c.decode a = c.decode addr
    · have hset : (s.putSet c addr set).findSet c a = set := by
        unfold findSet
        rw [hk]
        exact update_self _ _ _
      rw [hset, lookupIn_congr ha ho]
      unfold findSet
      rw [hk]
    · unfold findSet
      rw [putSet_other s addr set hk]

theorem Kept.read (h : Kept c s) (hp : s.present c addr = true) :
    ∃ s' d, s.read c addr = .ok (s', some d) ∧ Kept c s' ∧ s'.lookup c = s.lookup c := by
  obtain ⟨hist, hl⟩ := h.lru
  obtain ⟨e, he, haddr, hread, hlive⟩ := live_readIn (hl.nodup addr) hp
  have hs : s.read c addr = .ok (s.putSet c addr (readIn addr (s.findSet c addr)).1, some e.data) := by
    unfold CacheBank.read
    rw [hp, hread]
    rfl
  have hstep : s.step c (.read addr) = .ok (s.putSet c addr (readIn addr (s.findSet c addr)).1) := by
    show (s.read c addr >>= fun r => pure r.1) = _
    rw [hs]
    rfl
  refine ⟨_, _, hs, ⟨⟨_, hl.step rfl hstep⟩, clean_putSet h.clean ((h.clean _).readIn (hl.nodup addr) hp)⟩, ?_⟩
  rw [lookup_putSet (others_front haddr hlive), lookupIn_front haddr hlive, update_eq_self_iff]
  have hfound := lookupIn_of_mem (hl.nodup addr) he
  rw [haddr] at hfound
  exact hfound.symm

theorem Kept.write (h : Kept c s) (data : NVMDataBlock) (hp : s.present c addr = true) (hsafe : writeSafe addr (s.findSet c addr) = true) :
    ∃ s', s.write c addr data = .ok s' ∧ Kept c s' ∧ s'.lookup c = update (s.lookup c) addr (some (data, true)) := by
  obtain ⟨hist, hl⟩ := h.lru
  obtain ⟨e, -, haddr, hlive⟩ := live_writeIn data (hl.nodup addr) hp hsafe
  have hs : s.write c addr data = .ok (s.putSet c addr (writeIn addr data (s.findSet c addr))) := by
    unfold CacheBank.write
    rw [hp]
    rfl
  have hmeets : (Op.write addr data).meets c s = true := hsafe
  have hstep : s.step c (.write addr data) = .ok (s.putSet c addr (writeIn addr data (s.findSet c addr))) := hs
  refine ⟨_, hs, ⟨⟨_, hl.step hmeets hstep⟩, clean_putSet h.clean ((h.clean _).writeIn data (hl.nodup addr) hp)⟩, ?_⟩
  rw [lookup_putSet (others_front (e := written data e) haddr hlive), lookupIn_front (e := written data e) haddr hlive]
  rfl

theorem Kept.install (h : Kept c s) (data : NVMDataBlock) (hp : s.present c addr = false) (hroom : s.setFull c addr = false) :
    Kept c (s.install c addr data) ∧ (s.install c addr data).lookup c = update (s.lookup c) addr (some (data, false)) := by
  obtain ⟨hist, hl⟩ := h.lru
  have hmeets : (Op.install addr data).meets c s = true := by
    show (!s.present c addr && true) = true
    rw [hp]
    rfl
  refine ⟨⟨⟨_, hl.step hmeets rfl⟩, clean_putSet h.clean ((h.clean _).installIn addr data)⟩, ?_⟩
  have hnew : lookupIn addr (installIn addr data (s.findSet c addr)).1 = some (data, false) :=
    lookupIn_installIn (h.clean _) data hp hroom
  unfold CacheBank.install
  rw [lookup_putSet others_installIn, hnew]

/-- What is evicted goes out with its data, and leaves a place. -/
theorem Kept.evict (h : Kept c s) (hp : s.present c addr = true) : ∃ s' d dirty, s.evict c addr = .ok (s', some (d, dirty)) ∧
    s.lookup c addr = some (d, dirty) ∧ Kept c s' ∧ s'.lookup c = update (s.lookup c) addr none ∧
      fullSet (s'.cacheEntry (c.decode addr)) = false := by
  obtain ⟨hist, hl⟩ := h.lru
  obtain ⟨e, he, haddr, hout, hlive⟩ := live_evictIn (hl.nodup addr) hp
  have hs : s.evict c addr = .ok (s.putSet c addr (evictIn addr (s.findSet c addr)).1, some (e.data, e.dirty)) := by
    unfold CacheBank.evict
    rw [hp, ← hout]
    rfl
  have hstep : s.step c (.evict addr) = .ok (s.putSet c addr (evictIn addr (s.findSet c addr)).1) := by
    show (s.evict c addr >>= fun r => pure r.1) = _
    rw [hs]
    rfl
  have hothers : others addr (evictIn addr (s.findSet c addr)).1 = others addr (s.findSet c addr) := by
    show (live _).filter (·.address ≠ addr) = _
    rw [hlive]
    exact filter_eq_self.mpr fun x hx => (mem_filter.mp hx).2
  have hfound := lookupIn_of_mem (hl.nodup addr) he
  rw [haddr] at hfound
  refine ⟨_, _, _, hs, hfound, ⟨⟨_, hl.step rfl hstep⟩,
    clean_putSet h.clean ((h.clean _).evictIn (hl.nodup addr) hp)⟩, ?_, ?_⟩
  · have hgone : presentIn addr (evictIn addr (s.findSet c addr)).1 = false := by
      rw [Bool.eq_false_iff, ne_eq, presentIn_iff]
      unfold addresses
      rw [hlive]
      exact notMem_addresses_others
    rw [lookup_putSet hothers, lookupIn_none hgone]
  · rw [show (s.putSet c addr _).cacheEntry (c.decode addr) = (evictIn addr (s.findSet c addr)).1 from update_self _ _ _]
    obtain ⟨pre, x, post, hset, hhit, hpre, -⟩ := exists_split (hl.nodup addr) hp
    rw [hset, evictIn_eq hhit hpre]
    unfold fullSet
    simp

end CacheBank

/-! ## Commands -/

namespace CacheController
open CacheBank
variable {c : CacheConfig} {s s' : CacheController} {bank : CacheBank} {cmds : List Command} {cmd : Command}
  {l : List CacheRequest} {r : CacheRequest}

/-- What a response says of its address. -/
def owes (owed : Nat → Option (NVMDataBlock × Bool)) (r : CacheRequest) : Nat → Option (NVMDataBlock × Bool) :=
  match r.optype with
  | .write => update owed r.address (some (r.data, r.hit))
  | .evict => update owed r.address none
  | .read => owed

/-- The data of the last write to an address that has not been evicted since, and whether that write hit. -/
def owed (l : List CacheRequest) : Nat → Option (NVMDataBlock × Bool) := l.foldl owes fun _ => none

theorem owed_append (l : List CacheRequest) (r : CacheRequest) : owed (l ++ [r]) = owes (owed l) r := foldl_append

/-- Each line that was evicted carries the data that was owed for it. -/
def EvictsLatest (l : List CacheRequest) : Prop :=
  ∀ (i : Nat) r, l[i]? = some r → r.optype = .evict → (owed (l.take i) r.address).map (·.1) = some r.data

theorem EvictsLatest.append (h : EvictsLatest l) (hr : r.optype = .evict → (owed l r.address).map (·.1) = some r.data) :
    EvictsLatest (l ++ [r]) := by
  intro i x hx hevict
  obtain hlt | hge := Nat.lt_or_ge i l.length
  · rw [getElem?_append_left hlt] at hx
    rw [take_append_of_le_length (Nat.le_of_lt hlt)]
    exact h i x hx hevict
  · rw [getElem?_append_right hge] at hx
    obtain hzero | hpos := Nat.eq_zero_or_pos (i - l.length)
    · rw [hzero] at hx
      obtain rfl := Option.some.inj hx
      have hi : i = l.length := by omega
      rw [hi, take_left]
      exact hr hevict
    · rw [getElem?_eq_none (by rw [length_singleton]; exact hpos)] at hx
      cases hx

structure Holds (c : CacheConfig) (s : CacheController) : Prop where
  kept : Kept c s.bank
  owed : s.bank.lookup c = owed s.responses
  evicts : EvictsLatest s.responses

theorem lookup_init (c : CacheConfig) : (CacheBank.init c).lookup c = fun _ => none := by
  funext a
  refine lookupIn_none (any_eq_false.mpr fun e he hhit => ?_)
  obtain rfl := eq_of_mem_replicate he
  cases (hits_iff.mp hhit).2

theorem Holds.init (c : CacheConfig) : Holds c (init c) :=
  ⟨Kept.init c, lookup_init c, nofun⟩

/-- Room is made by the last line of the set going out. -/
theorem makeRoom_spec (h : Kept c bank) {bank' : CacheBank} {out : Option CacheRequest}
    (hs : makeRoom c bank addr = .ok (bank', out)) : Kept c bank' ∧ bank'.setFull c addr = false ∧
    ((out = none ∧ bank' = bank) ∨ ∃ r dirty, out = some r ∧ r.optype = .evict ∧ bank.lookup c r.address = some (r.data, dirty) ∧
      bank'.lookup c = update (bank.lookup c) r.address none) := by
  unfold makeRoom at hs
  by_cases hfull : bank.setFull c addr = true
  · rw [if_pos hfull] at hs
    obtain ⟨⟨v, dirty⟩, hchoose, hs⟩ := of_bind hs
    obtain ⟨⟨bank₁, d⟩, hevict, hs⟩ := of_bind hs
    cases hs
    obtain ⟨_, _, hchoose⟩ := of_bind hchoose
    obtain ⟨e, hget, hchoose⟩ := of_bind hchoose
    obtain ⟨_, hvalid, hchoose⟩ := of_bind hchoose
    cases hchoose
    obtain ⟨hist, hl⟩ := h.lru
    have hmem : e ∈ bank.findSet c addr := mem_of_getElem? (index_eq_ok.mp hget)
    have hlive : e ∈ live (bank.findSet c addr) := mem_filter.mpr ⟨hmem, require_eq_ok.mp hvalid⟩
    have hhome : c.decode e.address = c.decode addr := hl.home _ e hlive
    have hpresent : bank.present c e.address = true := by
      unfold present findSet
      rw [hhome]
      exact presentIn_iff.mpr (mem_map_of_mem hlive)
    obtain ⟨bank₂, d₂, dirty₂, hevict₂, hfound, hkept, hlookup, hroom⟩ := h.evict hpresent
    have heq := Except.ok.inj (hevict.symm.trans hevict₂)
    obtain ⟨rfl, rfl⟩ := Prod.mk.inj heq
    rw [hhome] at hroom
    exact ⟨hkept, hroom, .inr ⟨_, dirty₂, rfl, rfl, hfound, hlookup⟩⟩
  · rw [if_neg hfull] at hs
    cases hs
    exact ⟨h, by rwa [Bool.not_eq_true] at hfull, .inl ⟨rfl, rfl⟩⟩

/-- When room has been made, a write finds its line absent, or where a write is safe. -/
def Command.meets (c : CacheConfig) (s : CacheController) : Command → Bool
  | .write addr _ =>
    match makeRoom c s.bank addr with
    | .ok r => !r.1.present c addr || writeSafe addr (r.1.findSet c addr)
    | .error _ => true
  | _ => true

theorem writeOrInstall_spec (h : Kept c bank) (data : NVMDataBlock) (hroom : bank.setFull c addr = false)
    (hsafe : (!bank.present c addr || writeSafe addr (bank.findSet c addr)) = true) :
    ∃ bank', writeOrInstall c bank (bank.present c addr) addr data = .ok bank' ∧ Kept c bank' ∧
      bank'.lookup c = update (bank.lookup c) addr (some (data, bank.present c addr)) := by
  cases hp : bank.present c addr with
  | true =>
    rw [hp, Bool.not_true, Bool.false_or] at hsafe
    exact h.write data hp hsafe
  | false =>
    obtain ⟨hkept, hlookup⟩ := h.install data hp hroom
    exact ⟨_, rfl, hkept, hlookup⟩

theorem Holds.issueRead (h : Holds c s) (hs : s.issueRead c addr = .ok s') : Holds c s' := by
  obtain ⟨_, _, hs⟩ := of_bind hs
  split at hs
  next hp =>
    obtain ⟨bank, d, hread, hkept, hlookup⟩ := h.kept.read hp
    rw [hread, bind_ok] at hs
    cases hs
    refine ⟨hkept, ?_, h.evicts.append nofun⟩
    rw [owed_append]
    exact hlookup.trans h.owed
  next hp =>
    cases hs
    refine ⟨h.kept, ?_, h.evicts.append nofun⟩
    rw [owed_append]
    exact h.owed

theorem Holds.issueWrite (h : Holds c s) (hm : (Command.write addr data).meets c s = true)
    (hs : s.issueWrite c addr data = .ok s') : Holds c s' := by
  obtain ⟨_, _, hs⟩ := of_bind hs
  obtain ⟨⟨bank, out⟩, hroom, hs⟩ := of_bind hs
  obtain ⟨hkept, hplace, hout⟩ := makeRoom_spec h.kept hroom
  simp only [Command.meets, hroom] at hm
  obtain ⟨bank', hwrite, hkept', hlookup⟩ := writeOrInstall_spec hkept data hplace hm
  simp only [hwrite] at hs
  cases hs
  -- What is owed once the victim is out.
  have howed : bank.lookup c = CacheController.owed (s.responses ++ out.toList) ∧ EvictsLatest (s.responses ++ out.toList) := by
    obtain ⟨rfl, rfl⟩ | ⟨r, dirty, rfl, hevict, hfound, hgone⟩ := hout
    · rw [show s.responses ++ (none : Option CacheRequest).toList = s.responses from append_nil _]
      exact ⟨h.owed, h.evicts⟩
    · have hlatest : (CacheController.owed s.responses r.address).map (·.1) = some r.data := by
        rw [← h.owed, hfound]
        rfl
      refine ⟨?_, h.evicts.append fun _ => hlatest⟩
      rw [show s.responses ++ (some r).toList = s.responses ++ [r] from rfl, owed_append, hgone, h.owed]
      unfold owes
      rw [hevict]
  refine ⟨hkept', ?_, howed.2.append nofun⟩
  rw [owed_append, hlookup, howed.1]
  rfl

theorem Holds.step (h : Holds c s) (hm : cmd.meets c s = true) (hs : s.step c cmd = .ok s') : Holds c s' := by
  cases cmd with
  | read addr => exact h.issueRead hs
  | write addr data => exact h.issueWrite hm hs
  | complete =>
    simp only [CacheController.step, requestComplete] at hs
    split at hs
    · cases hs
      exact ⟨h.kept, h.owed, h.evicts⟩
    · cases hs

/-- In every run in which no write finds its line behind the front of the set, the bank holds what is owed, and what
  is evicted goes out with its latest data. -/
theorem holds_owed (hr : Exec (StepIf (fun s cmd => cmd.meets c s) (step c)) (init c) cmds s) :
    (∀ addr, s.bank.lookup c addr = owed s.responses addr) ∧ EvictsLatest s.responses := by
  have h : Holds c s := hr.invariant (Holds.init c) fun _ _ _ ht hs => ht.step hs.1 hs.2
  exact ⟨congrFun h.owed, h.evicts⟩

theorem holds_owed_evict : ∃ s, Exec (StepIf (fun s cmd => cmd.meets twoWays s) (step twoWays)) (init twoWays)
    [.write 1 ⟨[1], true⟩, .complete, .write 2 ⟨[2], true⟩, .complete, .write 3 ⟨[3], true⟩] s ∧
    (∀ addr, s.bank.lookup twoWays addr = owed s.responses addr) ∧ EvictsLatest s.responses := by
  refine Exec.ends_withIf (p := fun _ => true) (by decide) fun s hs _ => ?_
  exact holds_owed hs

/-- A line that a write installs is not dirty. -/
theorem installed_clean : ∃ s, Exec (StepOf (step twoWays)) (init twoWays) [.write 1 ⟨[1], true⟩] s ∧
    (owed s.responses 1).map (·.1) = some ⟨[1], true⟩ ∧ s.bank.lookup twoWays 1 = some (⟨[1], true⟩, false) := by
  refine Exec.ends_with (p := fun s => decide ((owed s.responses 1).map (·.1) = some ⟨[1], true⟩ ∧
      s.bank.lookup twoWays 1 = some (⟨[1], true⟩, false))) (by decide) fun s hs hp => ?_
  exact of_decide_eq_true hp

end CacheController

end Nvm
