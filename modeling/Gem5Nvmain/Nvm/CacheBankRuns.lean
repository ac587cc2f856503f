import Gem5Nvmain.Nvm.CacheBank
import Mathlib.Data.List.Induction
import Mathlib.Data.List.Nodup

/- The cache bank as an LRU map.

  The entries of a set that are valid (`live`) hold each address once, and those that were used since they were
  installed stand in the order of their last use, the history's `recent`. A read takes its entry out and puts it in
  front. A write does so only if the entry is in front already, or the first two places are empty (`writeSafe`); else
  it loses the entry in front or leaves one in two places (`write_iff`). -/
namespace Nvm
open Lib Function List Bool

variable {addr : Nat} {data : NVMDataBlock} {set pre post : List CacheEntry} {e p : CacheEntry}

/-! ## Sets -/

def live (set : List CacheEntry) : List CacheEntry := set.filter (·.valid)

def addresses (set : List CacheEntry) : List Nat := (live set).map (·.address)

/-- The valid entries of the other addresses. -/
def others (addr : Nat) (set : List CacheEntry) : List CacheEntry := (live set).filter (·.address ≠ addr)

theorem live_append (l₁ l₂ : List CacheEntry) : live (l₁ ++ l₂) = live l₁ ++ live l₂ := filter_append _ _

theorem live_cons_valid (h : e.valid = true) : live (e :: set) = e :: live set := filter_cons_of_pos h

theorem live_cons_invalid (h : e.valid = false) : live (e :: set) = live set :=
  filter_cons_of_neg (by rw [h]; decide)

theorem hits_iff : e.hits addr = true ↔ e.address = addr ∧ e.valid = true := by
  simp [CacheEntry.hits]

theorem presentIn_iff : presentIn addr set = true ↔ addr ∈ addresses set := by
  unfold presentIn addresses live
  simp only [any_eq_true, hits_iff, mem_map, mem_filter]
  exact exists_congr fun e => by tauto

/-- The place of an address that is present once. -/
theorem exists_split (hu : (addresses set).Nodup) (hp : presentIn addr set = true) :
    ∃ pre e post, set = pre ++ e :: post ∧ e.hits addr = true ∧ (∀ x ∈ pre, x.hits addr = false) ∧
      ∀ x ∈ post, x.hits addr = false := by
  obtain ⟨e, he, hhit⟩ := any_eq_true.mp hp
  obtain ⟨pre, post, rfl⟩ := append_of_mem he
  obtain ⟨haddr, hvalid⟩ := hits_iff.mp hhit
  have hnd : addr ∉ addresses pre ∧ addr ∉ addresses post := by
    unfold addresses at hu
    rw [live_append, live_cons_valid hvalid, map_append, map_cons, haddr] at hu
    obtain ⟨-, hpost, hdisj⟩ := nodup_append.mp hu
    exact ⟨fun h => hdisj _ h _ mem_cons_self rfl, (nodup_cons.mp hpost).1⟩
  refine ⟨pre, e, post, rfl, hhit, fun x hx => ?_, fun x hx => ?_⟩
  · rw [eq_false_iff]
    exact fun h => hnd.1 (presentIn_iff.mp (any_eq_true.mpr ⟨x, hx, h⟩))
  · rw [eq_false_iff]
    exact fun h => hnd.2 (presentIn_iff.mp (any_eq_true.mpr ⟨x, hx, h⟩))

theorem others_of_no_hit (h : ∀ x ∈ set, x.hits addr = false) : others addr set = live set := by
  unfold others
  rw [filter_eq_self]
  intro x hx
  obtain ⟨hmem, hvalid⟩ := mem_filter.mp hx
  have hhit := h x hmem
  rw [decide_eq_true_eq]
  intro haddr
  rw [hits_iff.mpr ⟨haddr, hvalid⟩] at hhit
  cases hhit

theorem others_append (l₁ l₂ : List CacheEntry) : others addr (l₁ ++ l₂) = others addr l₁ ++ others addr l₂ := by
  unfold others
  rw [live_append, filter_append]

theorem others_cons_self (h : e.address = addr) : others addr (e :: set) = others addr set := by
  unfold others live
  rw [filter_filter, filter_filter]
  exact filter_cons_of_neg (by simp [h])

theorem others_split (hhit : e.hits addr = true) (hpre : ∀ x ∈ pre, x.hits addr = false)
    (hpost : ∀ x ∈ post, x.hits addr = false) : others addr (pre ++ e :: post) = live (pre ++ post) := by
  rw [others_append, others_cons_self (hits_iff.mp hhit).1, others_of_no_hit hpre, others_of_no_hit hpost, live_append]

/-! ## The copies -/

theorem copyBack_cons (stop i : Nat) (p : CacheEntry) (l : List CacheEntry) :
    copyBack (stop + 1) (i + 1) (p :: l) = p :: copyBack stop i l := by
  induction i generalizing l with
  | zero => rfl
  | succ i ih =>
    unfold copyBack
    rw [getElem?_cons_succ]
    by_cases hi : i + 1 > stop
    · rw [if_pos (by omega), if_pos hi]
      cases l[i]? with
      | none => rfl
      | some e => exact ih _
    · rw [if_neg (by omega), if_neg hi]

/-- All entries before the place go one back; the first one stays where it was too. -/
theorem copyBack_zero (pre post : List CacheEntry) (e : CacheEntry) :
    copyBack 0 pre.length (pre ++ e :: post) = pre.head?.getD e :: (pre ++ post) := by
  induction pre using reverseRecOn generalizing e post with
  | nil => rfl
  | append_singleton pre x ih =>
    have hget : (pre ++ [x] ++ e :: post)[pre.length]? = some x := by simp
    have hset : (pre ++ [x] ++ e :: post).set (pre.length + 1) x = pre ++ x :: (x :: post) := by simp
    rw [length_append, length_singleton]
    unfold copyBack
    rw [if_pos (Nat.succ_pos _), hget]
    show copyBack 0 pre.length ((pre ++ [x] ++ e :: post).set (pre.length + 1) x) = _
    rw [hset, ih, append_assoc]
    cases pre <;> rfl

/-- A read puts the entry in front of the others. -/
theorem readIn_eq (hhit : e.hits addr = true) (hpre : ∀ x ∈ pre, x.hits addr = false)
    (hpost : ∀ x ∈ post, x.hits addr = false) : readIn addr (pre ++ e :: post) = (e :: (pre ++ post), some e.data) := by
  refine foldl_range_single (i := pre.length) (fun j hj => ?_) ?_ (fun j hij hj => ?_) (by simp)
  · have hget : (pre ++ e :: post)[j]? = some pre[j] := by
      rw [getElem?_append_left hj, getElem?_eq_getElem hj]
    unfold readAt
    simp only [hget, hpre _ (getElem_mem hj), false_eq_true, if_false]
  · have hget : (pre ++ e :: post)[pre.length]? = some e := by simp
    unfold readAt
    simp only [hget, hhit]
    unfold toFront
    rw [copyBack_zero]
    rfl
  · have hget : (e :: (pre ++ post))[j]? = post[j - pre.length - 1]? := by
      cases j with
      | zero => cases hij
      | succ j =>
        rw [getElem?_cons_succ, getElem?_append_right (by omega)]
        congr 1
        omega
    unfold readAt
    simp only [hget]
    cases hp : post[j - pre.length - 1]? with
    | none => rfl
    | some x => simp only [hpost x (mem_of_getElem? hp), false_eq_true, if_false]

/-- The entry after a write. -/
def written (data : NVMDataBlock) (e : CacheEntry) : CacheEntry := { e with data, dirty := true }

theorem writeIn_front (hhit : e.hits addr = true) (hpost : ∀ x ∈ post, x.hits addr = false) :
    writeIn addr data (e :: post) = written data e :: post := by
  refine foldl_range_single (fun j hj => absurd hj (Nat.not_lt_zero j)) ?_ (fun j hij hj => ?_) (by simp)
  · unfold writeAt
    simp only [getElem?_cons_zero, hhit]
    rfl
  · cases j with
    | zero => cases hij
    | succ j =>
      unfold writeAt
      simp only [getElem?_cons_succ]
      cases hp : post[j]? with
      | none => rfl
      | some x => simp only [hpost x (mem_of_getElem? hp), false_eq_true, if_false]

/-- A write of an entry behind the front: the front is overwritten, and the second place keeps what it had. -/
theorem writeIn_behind (hhit : e.hits addr = true) (hp : p.hits addr = false) (hpre : ∀ x ∈ pre, x.hits addr = false)
    (hpost : ∀ x ∈ post, x.hits addr = false) : writeIn addr data (p :: (pre ++ e :: post)) =
      written data e :: pre.head?.getD (written data e) :: (pre ++ post) := by
  refine foldl_range_single (i := pre.length + 1) (fun j hj => ?_) ?_ (fun j hij hj => ?_) (by simp)
  · unfold writeAt
    cases j with
    | zero => simp only [getElem?_cons_zero, hp, false_eq_true, if_false]
    | succ j =>
      have hlt : j < pre.length := Nat.lt_of_succ_lt_succ hj
      have hget : (pre ++ e :: post)[j]? = some pre[j] := by
        rw [getElem?_append_left hlt, getElem?_eq_getElem hlt]
      simp only [getElem?_cons_succ, hget, hpre _ (getElem_mem hlt), false_eq_true, if_false]
  · have hget : (pre ++ e :: post)[pre.length]? = some e := by simp
    have hset : (p :: (pre ++ e :: post)).set (pre.length + 1) (written data e) = p :: (pre ++ written data e :: post) := by
      simp
    unfold writeAt
    simp only [getElem?_cons_succ, hget, hhit]
    show toFront 1 (pre.length + 1) (written data e) ((p :: (pre ++ e :: post)).set (pre.length + 1) (written data e)) = _
    rw [hset, toFront, copyBack_cons, copyBack_zero]
    rfl
  · have hget : (written data e :: pre.head?.getD (written data e) :: (pre ++ post))[j]? = post[j - pre.length - 2]? := by
      obtain ⟨j, rfl⟩ : ∃ k, j = k + 2 := ⟨j - 2, by omega⟩
      rw [getElem?_cons_succ, getElem?_cons_succ, getElem?_append_right (by omega)]
      congr 1
      omega
    unfold writeAt
    simp only [hget]
    cases hx : post[j - pre.length - 2]? with
    | none => rfl
    | some x => simp only [hpost x (mem_of_getElem? hx), false_eq_true, if_false]

/-! ## What an operation does to the valid entries -/

/-- The entry is in front, or the first two places are empty. -/
def writeSafe (addr : Nat) : List CacheEntry → Bool
  | p :: q :: _ => p.hits addr || !p.valid && !q.valid
  | _ => true

theorem live_readIn (hu : (addresses set).Nodup) (hp : presentIn addr set = true) : ∃ e ∈ live set, e.address = addr ∧
    readIn addr set = ((readIn addr set).1, some e.data) ∧ live (readIn addr set).1 = e :: others addr set := by
  obtain ⟨pre, e, post, rfl, hhit, hpre, hpost⟩ := exists_split hu hp
  obtain ⟨haddr, hvalid⟩ := hits_iff.mp hhit
  refine ⟨e, mem_filter.mpr ⟨mem_append_right _ mem_cons_self, hvalid⟩, haddr, ?_, ?_⟩
  · rw [readIn_eq hhit hpre hpost]
  · rw [readIn_eq hhit hpre hpost, live_cons_valid hvalid, others_split hhit hpre hpost]

/-- A write that is safe puts the new entry in front of the others. -/
theorem live_writeIn (data : NVMDataBlock) (hu : (addresses set).Nodup) (hp : presentIn addr set = true) (hs : writeSafe addr set = true) :
    ∃ e ∈ live set, e.address = addr ∧ live (writeIn addr data set) = written data e :: others addr set := by
  obtain ⟨pre, e, post, rfl, hhit, hpre, hpost⟩ := exists_split hu hp
  obtain ⟨haddr, hvalid⟩ := hits_iff.mp hhit
  have hwritten : (written data e).valid = true := hvalid
  refine ⟨e, mem_filter.mpr ⟨mem_append_right _ mem_cons_self, hvalid⟩, haddr, ?_⟩
  rw [others_split hhit hpre hpost]
  cases pre with
  | nil => rw [nil_append, writeIn_front hhit hpost, live_cons_valid hwritten, nil_append]
  | cons p pre =>
    have hpf := hpre p mem_cons_self
    have hpref : ∀ x ∈ pre, x.hits addr = false := fun x hx => hpre x (mem_cons_of_mem p hx)
    cases pre with
    | nil =>
      -- The entry is in the second place, which is then not empty.
      simp [writeSafe, hpf, hvalid] at hs
    | cons q pre =>
      simp only [cons_append, writeSafe, hpf, Bool.false_or, Bool.and_eq_true, Bool.not_eq_true'] at hs
      rw [cons_append, writeIn_behind hhit hpf hpref hpost, live_cons_valid hwritten]
      show written data e :: live (q :: (q :: pre ++ post)) = written data e :: live (p :: (q :: pre ++ post))
      rw [live_cons_invalid hs.2, live_cons_invalid hs.1]

theorem updateEntry_valid (addr : Nat) (data : NVMDataBlock) (e : CacheEntry) : (updateEntry addr data e).valid = e.valid := by
  unfold updateEntry
  split <;> rfl

theorem updateEntry_address (addr : Nat) (data : NVMDataBlock) (e : CacheEntry) :
    (updateEntry addr data e).address = e.address := by
  unfold updateEntry
  split <;> rfl

theorem live_updateIn (addr : Nat) (data : NVMDataBlock) (set : List CacheEntry) :
    live (updateIn addr data set) = (live set).map (updateEntry addr data) := by
  unfold live updateIn
  rw [filter_map]
  congr 2
  funext e
  exact updateEntry_valid addr data e

theorem addresses_updateIn : addresses (updateIn addr data set) = addresses set := by
  unfold addresses
  rw [live_updateIn, map_map]
  congr 1
  funext e
  exact updateEntry_address addr data e

theorem others_updateIn : others addr (updateIn addr data set) = others addr set := by
  have hmap : ∀ l : List CacheEntry, (l.map (updateEntry addr data)).filter (·.address ≠ addr) = l.filter (·.address ≠ addr) := by
    intro l
    induction l with
    | nil => rfl
    | cons e l ih =>
      rw [map_cons]
      by_cases haddr : e.address = addr
      · rw [filter_cons_of_neg (by simp [updateEntry_address, haddr]), filter_cons_of_neg (by simp [haddr]), ih]
      · have hmiss : ¬ e.hits addr = true := fun h => haddr (hits_iff.mp h).1
        rw [show updateEntry addr data e = e from if_neg hmiss, filter_cons_of_pos (by simp [haddr]),
          filter_cons_of_pos (by simp [haddr]), ih]
  unfold others
  rw [live_updateIn, hmap]

theorem mem_updateIn (he : e ∈ live (updateIn addr data set)) :
    (e.address = addr ∧ e.data = data) ∨ (e.address ≠ addr ∧ e ∈ live set) := by
  rw [live_updateIn] at he
  obtain ⟨x, hx, rfl⟩ := mem_map.mp he
  have hvalid : x.valid = true := (mem_filter.mp hx).2
  unfold updateEntry
  by_cases hhit : x.hits addr = true
  · rw [if_pos hhit]
    exact .inl ⟨(hits_iff.mp hhit).1, rfl⟩
  · rw [if_neg hhit]
    exact .inr ⟨fun haddr => hhit (hits_iff.mpr ⟨haddr, hvalid⟩), hx⟩

/-- A new line goes to the first place that is empty. -/
theorem installIn_eq (addr : Nat) (data : NVMDataBlock) (set : List CacheEntry) :
    (installIn addr data set = (set, false) ∧ fullSet set = true) ∨
    ∃ pre e post, set = pre ++ e :: post ∧ e.valid = false ∧
      installIn addr data set = (pre ++ { e with address := addr, data, valid := true } :: post, true) := by
  induction set with
  | nil => exact .inl ⟨rfl, rfl⟩
  | cons e set ih =>
    unfold installIn
    cases hv : e.valid with
    | false => exact .inr ⟨[], e, set, rfl, hv, rfl⟩
    | true =>
      obtain ⟨heq, hfull⟩ | ⟨pre, x, post, rfl, hx, heq⟩ := ih
      · refine .inl ⟨by rw [heq]; rfl, ?_⟩
        unfold fullSet at hfull ⊢
        rw [all_cons, hv, hfull]
        rfl
      · exact .inr ⟨e :: pre, x, post, rfl, hx, by rw [heq]; rfl⟩

theorem others_installIn : others addr (installIn addr data set).1 = others addr set := by
  obtain ⟨heq, -⟩ | ⟨pre, e, post, rfl, hv, heq⟩ := installIn_eq addr data set
  · rw [heq]
  · have hempty : others addr (e :: post) = others addr post := by
      unfold others
      rw [live_cons_invalid hv]
    have hnew : others addr ({ e with address := addr, data, valid := true } :: post) = others addr post := others_cons_self rfl
    rw [heq, others_append, others_append, hnew, hempty]

theorem mem_installIn (he : e ∈ live (installIn addr data set).1) : (e.address = addr ∧ e.data = data) ∨ e ∈ live set := by
  obtain ⟨heq, -⟩ | ⟨pre, x, post, rfl, -, heq⟩ := installIn_eq addr data set
  · rw [heq] at he
    exact .inr he
  · rw [heq] at he
    obtain ⟨hmem, hvalid⟩ := mem_filter.mp he
    obtain hmem | hmem := mem_append.mp hmem
    · exact .inr (mem_filter.mpr ⟨mem_append_left _ hmem, hvalid⟩)
    · obtain rfl | hmem := mem_cons.mp hmem
      · exact .inl ⟨rfl, rfl⟩
      · exact .inr (mem_filter.mpr ⟨mem_append_right _ (mem_cons_of_mem _ hmem), hvalid⟩)

theorem evictIn_eq (hhit : e.hits addr = true) (hpre : ∀ x ∈ pre, x.hits addr = false) :
    evictIn addr (pre ++ e :: post) = (pre ++ { e with valid := false, dirty := false } :: post, some (e.data, e.dirty)) := by
  induction pre with
  | nil =>
    exact if_pos hhit
  | cons p pre ih =>
    have hp := hpre p mem_cons_self
    rw [cons_append, evictIn, hp, if_neg (by decide), ih fun x hx => hpre x (mem_cons_of_mem p hx)]
    rfl

theorem live_evictIn (hu : (addresses set).Nodup) (hp : presentIn addr set = true) : ∃ e ∈ live set, e.address = addr ∧
    (evictIn addr set).2 = some (e.data, e.dirty) ∧ live (evictIn addr set).1 = others addr set := by
  obtain ⟨pre, e, post, rfl, hhit, hpre, hpost⟩ := exists_split hu hp
  obtain ⟨haddr, hvalid⟩ := hits_iff.mp hhit
  refine ⟨e, mem_filter.mpr ⟨mem_append_right _ mem_cons_self, hvalid⟩, haddr, ?_, ?_⟩
  · rw [evictIn_eq hhit hpre]
  · rw [evictIn_eq hhit hpre, others_split hhit hpre hpost, live_append, live_cons_invalid rfl, ← live_append]

theorem addresses_others (addr : Nat) (set : List CacheEntry) :
    (others addr set).map (·.address) = (addresses set).filter (· ≠ addr) := by
  unfold others addresses
  rw [filter_map]
  rfl

theorem notMem_addresses_others : addr ∉ (others addr set).map (·.address) := by
  rw [addresses_others]
  simp

/-! ## The length of a set -/

theorem length_copyBack (stop i : Nat) (set : List CacheEntry) : (copyBack stop i set).length = set.length := by
  induction i generalizing set with
  | zero => rfl
  | succ i ih =>
    unfold copyBack
    split
    · split
      · rw [ih, length_set]
      · rfl
    · rfl

theorem foldl_length {α : Type} {f : List CacheEntry → α → List CacheEntry} (h : ∀ set a, (f set a).length = set.length)
    (l : List α) (set : List CacheEntry) : (l.foldl f set).length = set.length := by
  induction l generalizing set with
  | nil => rfl
  | cons a l ih => exact (ih _).trans (h set a)

theorem length_writeIn : (writeIn addr data set).length = set.length := by
  refine foldl_length (fun set i => ?_) _ _
  unfold writeAt
  split
  · split
    · show ((copyBack 1 i (set.set i _)).set 0 _).length = _
      rw [length_set, length_copyBack, length_set]
    · rfl
  · rfl

theorem length_readIn (hu : (addresses set).Nodup) (hp : presentIn addr set = true) :
    (readIn addr set).1.length = set.length := by
  obtain ⟨pre, e, post, rfl, hhit, hpre, hpost⟩ := exists_split hu hp
  rw [readIn_eq hhit hpre hpost]
  simp only [length_cons, length_append]
  omega

theorem length_installIn : (installIn addr data set).1.length = set.length := by
  obtain ⟨heq, -⟩ | ⟨pre, e, post, rfl, -, heq⟩ := installIn_eq addr data set
  · rw [heq]
  · rw [heq]
    simp only [length_append, length_cons]

theorem length_evictIn (hu : (addresses set).Nodup) (hp : presentIn addr set = true) :
    (evictIn addr set).1.length = set.length := by
  obtain ⟨pre, e, post, rfl, hhit, hpre, -⟩ := exists_split hu hp
  rw [evictIn_eq hhit hpre]
  simp only [length_append, length_cons]

/-! ## The history -/

namespace CacheBank
variable {c : CacheConfig} {s s' : CacheBank} {op : Op} {h h' : List Op} {k : Nat}

/-- The addresses in the order of their last use, the most recent one first, when an operation has been done. -/
def use (used : List Nat) : Op → List Nat
  | .read addr | .write addr _ => addr :: used.filter (· ≠ addr)
  | .install addr _ | .evict addr => used.filter (· ≠ addr)
  | .updateData _ _ | .chooseVictim _ => used

/-- The addresses that were read or written since they were installed, the most recent one first. -/
def recent (h : List Op) : List Nat := h.foldl use []

def dataAfter (addr : Nat) (last : Option NVMDataBlock) : Op → Option NVMDataBlock
  | .install a data | .write a data | .updateData a data => if a = addr then some data else last
  | .read _ | .evict _ | .chooseVictim _ => last

/-- The data that was last installed or written for the address. -/
def lastData (h : List Op) (addr : Nat) : Option NVMDataBlock := h.foldl (dataAfter addr) none

theorem recent_append (h : List Op) (op : Op) : recent (h ++ [op]) = use (recent h) op := foldl_append

theorem lastData_append (h : List Op) (op : Op) (addr : Nat) : lastData (h ++ [op]) addr = dataAfter addr (lastData h addr) op :=
  foldl_append

/-- The bank after the operations of a history. -/
structure Lru (c : CacheConfig) (h : List Op) (s : CacheBank) : Prop where
  length : ∀ k, (s.cacheEntry k).length = c.numAssoc
  home : ∀ k, ∀ e ∈ live (s.cacheEntry k), c.decode e.address = k
  unique : ∀ k, (addresses (s.cacheEntry k)).Nodup
  data : ∀ k, ∀ e ∈ live (s.cacheEntry k), lastData h e.address = some e.data
  order : ∀ k, (addresses (s.cacheEntry k)).filter (· ∈ recent h) = (recent h).filter (c.decode · = k)

theorem live_replicate (n : Nat) : live (replicate n {}) = [] := by
  induction n with
  | zero => rfl
  | succ n ih => exact (live_cons_invalid rfl).trans ih

theorem Lru.init (c : CacheConfig) : Lru c [] (init c) := by
  have hempty : ∀ k, live ((CacheBank.init c).cacheEntry k) = [] := fun _ => live_replicate c.numAssoc
  refine ⟨fun _ => length_replicate, fun k e he => ?_, fun k => ?_, fun k e he => ?_, fun k => ?_⟩
  · rw [hempty] at he
    cases he
  · rw [addresses, hempty]
    exact nodup_nil
  · rw [hempty] at he
    cases he
  · rw [addresses, hempty]
    rfl

theorem filter_other {l l' : List Nat} {addr : Nat} (hl : l'.filter (· ≠ addr) = l.filter (· ≠ addr)) (hk : k ≠ c.decode addr) :
    l'.filter (c.decode · = k) = l.filter (c.decode · = k) := by
  have hdrop : ∀ l : List Nat, l.filter (c.decode · = k) = (l.filter (· ≠ addr)).filter (c.decode · = k) := by
    intro l
    rw [filter_filter]
    refine filter_congr fun a _ => ?_
    rw [Bool.eq_iff_iff, Bool.and_eq_true, decide_eq_true_eq, decide_eq_true_eq]
    refine ⟨fun ha => ⟨ha, ?_⟩, fun ha => ha.1⟩
    rintro rfl
    exact hk ha.symm
  rw [hdrop l', hl, ← hdrop]

theorem mem_of_filter_ne {l l' : List Nat} {addr a : Nat} (hl : l'.filter (· ≠ addr) = l.filter (· ≠ addr)) (ha : a ≠ addr) :
    a ∈ l' ↔ a ∈ l := by
  have hmem : ∀ l : List Nat, a ∈ l ↔ a ∈ l.filter (· ≠ addr) := by
    intro l
    rw [mem_filter, decide_eq_true_eq]
    exact ⟨fun h => ⟨h, ha⟩, fun h => h.1⟩
  rw [hmem l', hl, ← hmem]

/-- An operation that replaces the set of an address and keeps the entries of the other addresses. -/
theorem Lru.put (hl : Lru c h s) {addr : Nat} {set : List CacheEntry} (hlen : set.length = (s.findSet c addr).length)
    (hothers : others addr set = others addr (s.findSet c addr)) (hunique : (addresses set).Nodup)
    (hlast : ∀ a, a ≠ addr → lastData h' a = lastData h a)
    (hdata : ∀ e ∈ live set, e.address = addr → lastData h' addr = some e.data)
    (hrecent : (recent h').filter (· ≠ addr) = (recent h).filter (· ≠ addr))
    (horder : (addresses set).filter (· ∈ recent h') = (recent h').filter (c.decode · = c.decode addr)) :
    Lru c h' (s.putSet c addr set) := by
  have hmem : ∀ e ∈ live set, e.address ≠ addr → e ∈ live (s.findSet c addr) := by
    intro e he hne
    have hin : e ∈ others addr set := mem_filter.mpr ⟨he, decide_eq_true hne⟩
    rw [hothers] at hin
    exact (mem_filter.mp hin).1
  have hset : ∀ k, (s.putSet c addr set).cacheEntry k = if k = c.decode addr then set else s.cacheEntry k := by
    intro k
    exact update_apply _ _ _ _
  refine ⟨fun k => ?_, fun k e he => ?_, fun k => ?_, fun k e he => ?_, fun k => ?_⟩
  · rw [hset]
    split
    · exact hlen.trans (hl.length _)
    · exact hl.length k
  · rw [hset] at he
    split at he
    next hk =>
      obtain haddr | hne := eq_or_ne e.address addr
      · rw [haddr, hk]
      · rw [hk]
        exact hl.home _ e (hmem e he hne)
    · exact hl.home k e he
  · rw [hset]
    split
    · exact hunique
    · exact hl.unique k
  · rw [hset] at he
    split at he
    next hk =>
      obtain haddr | hne := eq_or_ne e.address addr
      · rw [haddr]
        exact hdata e he haddr
      · rw [hlast _ hne]
        exact hl.data _ e (hmem e he hne)
    next hk =>
      have hne : e.address ≠ addr := fun haddr => hk ((hl.home k e he).symm.trans (congrArg c.decode haddr))
      rw [hlast _ hne]
      exact hl.data k e he
  · rw [hset]
    split
    next hk =>
      rw [hk]
      exact horder
    next hk =>
      rw [filter_other hrecent hk, ← hl.order k]
      refine filter_congr fun a ha => ?_
      obtain ⟨e, he, rfl⟩ := mem_map.mp ha
      have hne : e.address ≠ addr := fun haddr => hk ((hl.home k e he).symm.trans (congrArg c.decode haddr))
      rw [decide_eq_decide]
      exact mem_of_filter_ne hrecent hne

/-- The other addresses of the set are in the order of their last use. -/
theorem Lru.order_others (hl : Lru c h s) {addr : Nat} {used : List Nat} (hu : used.filter (· ≠ addr) = (recent h).filter (· ≠ addr)) :
    ((addresses (s.findSet c addr)).filter (· ≠ addr)).filter (· ∈ used) =
      (used.filter (· ≠ addr)).filter (c.decode · = c.decode addr) := by
  have hused : ∀ a, a ≠ addr → (a ∈ used ↔ a ∈ recent h) := fun a ha => mem_of_filter_ne hu ha
  calc
    ((addresses (s.findSet c addr)).filter (· ≠ addr)).filter (· ∈ used)
        = ((addresses (s.findSet c addr)).filter (· ≠ addr)).filter (· ∈ recent h) := by
      refine filter_congr fun a ha => ?_
      rw [decide_eq_decide]
      exact hused a (of_decide_eq_true (mem_filter.mp ha).2)
    _ = ((addresses (s.findSet c addr)).filter (· ∈ recent h)).filter (· ≠ addr) := filter_comm _ _ _
    _ = ((recent h).filter (c.decode · = c.decode addr)).filter (· ≠ addr) := by rw [findSet, hl.order]
    _ = ((recent h).filter (· ≠ addr)).filter (c.decode · = c.decode addr) := filter_comm _ _ _
    _ = (used.filter (· ≠ addr)).filter (c.decode · = c.decode addr) := by rw [hu]

theorem filter_ne_twice (addr : Nat) (l : List Nat) : (l.filter (· ≠ addr)).filter (· ≠ addr) = l.filter (· ≠ addr) := by
  simp

theorem filter_ne_front (addr : Nat) (l : List Nat) :
    (addr :: l.filter (· ≠ addr)).filter (· ≠ addr) = l.filter (· ≠ addr) := by
  rw [filter_cons_of_neg (by simp), filter_ne_twice]

/-- An operation that puts an entry of the address in front of the others. -/
theorem Lru.front (hl : Lru c h s) {addr : Nat} {set : List CacheEntry} {e : CacheEntry}
    (hlen : set.length = (s.findSet c addr).length) (haddr : e.address = addr)
    (hlive : live set = e :: others addr (s.findSet c addr)) (hlast : ∀ a, a ≠ addr → lastData h' a = lastData h a)
    (hdata : lastData h' addr = some e.data) (hrecent : recent h' = addr :: (recent h).filter (· ≠ addr)) :
    Lru c h' (s.putSet c addr set) := by
  have haddresses : addresses set = addr :: (addresses (s.findSet c addr)).filter (· ≠ addr) := by
    unfold addresses
    rw [hlive, map_cons, haddr, addresses_others]
    rfl
  have hfront : (addr :: (recent h).filter (· ≠ addr)).filter (· ≠ addr) = (recent h).filter (· ≠ addr) := filter_ne_front _ _
  refine hl.put hlen ?_ ?_ hlast (fun x hx hxa => ?_) (by rw [hrecent, hfront]) ?_
  · show (live set).filter (·.address ≠ addr) = _
    rw [hlive, filter_cons_of_neg (by simp [haddr])]
    exact filter_eq_self.mpr fun x hx => (mem_filter.mp hx).2
  · rw [haddresses, nodup_cons]
    exact ⟨by simp, (hl.unique _).filter _⟩
  · rw [hlive] at hx
    obtain rfl | hx := mem_cons.mp hx
    · exact hdata
    · exact absurd hxa (of_decide_eq_true (mem_filter.mp hx).2)
  · rw [haddresses, hrecent, filter_cons_of_pos (by simp), filter_cons_of_pos (by simp), hl.order_others hfront,
      hfront]

/-- An operation after which the address is not among those in use. -/
theorem Lru.unused (hl : Lru c h s) {addr : Nat} {set : List CacheEntry} (hlen : set.length = (s.findSet c addr).length)
    (hothers : others addr set = others addr (s.findSet c addr)) (hunique : (addresses set).Nodup)
    (hlast : ∀ a, a ≠ addr → lastData h' a = lastData h a)
    (hdata : ∀ e ∈ live set, e.address = addr → lastData h' addr = some e.data)
    (hrecent : recent h' = (recent h).filter (· ≠ addr)) : Lru c h' (s.putSet c addr set) := by
  have htwice : ((recent h).filter (· ≠ addr)).filter (· ≠ addr) = (recent h).filter (· ≠ addr) := filter_ne_twice _ _
  refine hl.put hlen hothers hunique hlast hdata (by rw [hrecent, htwice]) ?_
  have hsame : (addresses set).filter (· ≠ addr) = (addresses (s.findSet c addr)).filter (· ≠ addr) := by
    rw [← addresses_others, hothers, addresses_others]
  have horder := hl.order_others htwice
  rw [← hsame, htwice, filter_filter] at horder
  rw [hrecent, ← horder]
  refine filter_congr fun a _ => ?_
  rw [Bool.eq_iff_iff, Bool.and_eq_true]
  refine ⟨fun ha => ⟨ha, ?_⟩, fun ha => ha.1⟩
  exact (mem_filter.mp (of_decide_eq_true ha)).2

/-- Only an address that is absent is installed. -/
def Op.absent (c : CacheConfig) (s : CacheBank) : Op → Bool
  | .install addr _ => !s.present c addr
  | _ => true

/-- And a write finds its entry in front, or the first two places empty. -/
def Op.meets (c : CacheConfig) (s : CacheBank) (op : Op) : Bool :=
  op.absent c s &&
    match op with
    | .write addr _ => writeSafe addr (s.findSet c addr)
    | _ => true

theorem nodup_installIn {set : List CacheEntry} {addr : Nat} {data : NVMDataBlock} (hu : (addresses set).Nodup)
    (ha : presentIn addr set = false) : (addresses (installIn addr data set).1).Nodup := by
  have habsent : addr ∉ addresses set := fun h => by
    rw [presentIn_iff.mpr h] at ha
    cases ha
  obtain ⟨heq, -⟩ | ⟨pre, e, post, rfl, hv, heq⟩ := installIn_eq addr data set
  · rw [heq]
    exact hu
  · have hold : addresses (pre ++ e :: post) = addresses pre ++ addresses post := by
      unfold addresses
      rw [live_append, live_cons_invalid hv, map_append]
    have hnew : addresses (pre ++ { e with address := addr, data, valid := true } :: post) = addresses pre ++ addr :: addresses post := by
      unfold addresses
      rw [live_append, live_cons_valid rfl, map_append]
      rfl
    rw [heq, hnew, nodup_middle, nodup_cons, ← hold]
    exact ⟨habsent, hu⟩

theorem Lru.nodup (hl : Lru c h s) (addr : Nat) : (addresses (s.findSet c addr)).Nodup := hl.unique _

theorem Lru.step (hl : Lru c h s) (hm : op.meets c s = true) (hs : s.step c op = .ok s') : Lru c (h ++ [op]) s' := by
  cases op with
  | install addr data =>
    cases hs
    have habsent : presentIn addr (s.findSet c addr) = false := by
      rw [← not_eq_true']
      exact (and_eq_true_iff.mp hm).1
    refine hl.unused length_installIn others_installIn (nodup_installIn (hl.unique _) habsent) (fun a ha => ?_)
      (fun e he haddr => ?_) (recent_append h _)
    · exact (lastData_append h _ a).trans (if_neg ha.symm)
    · obtain ⟨-, hdata⟩ | hold := mem_installIn he
      · rw [lastData_append, hdata]
        exact if_pos rfl
      · have hin : addr ∈ addresses (s.findSet c addr) := mem_map.mpr ⟨e, hold, haddr⟩
        rw [presentIn_iff.mpr hin] at habsent
        cases habsent
  | read addr =>
    obtain ⟨⟨s₁, d⟩, hread, hs⟩ := of_bind hs
    cases hs
    obtain ⟨_, hpresent, hread⟩ := of_bind hread
    have hpresent : presentIn addr (s.findSet c addr) = true := require_eq_ok.mp hpresent
    cases hread
    obtain ⟨e, he, haddr, -, hlive⟩ := live_readIn (hl.nodup addr) hpresent
    refine hl.front (length_readIn (hl.unique _) hpresent) haddr hlive (fun a _ => lastData_append h _ a) ?_ (recent_append h _)
    exact (lastData_append h _ addr).trans (haddr ▸ hl.data _ e he)
  | write addr data =>
    obtain ⟨_, hpresent, hs⟩ := of_bind hs
    have hpresent : presentIn addr (s.findSet c addr) = true := require_eq_ok.mp hpresent
    cases hs
    obtain ⟨e, he, haddr, hlive⟩ := live_writeIn data (hl.nodup addr) hpresent hm
    refine hl.front (e := written data e) length_writeIn haddr hlive (fun a ha => ?_) ?_ (recent_append h _)
    · exact (lastData_append h _ a).trans (if_neg ha.symm)
    · exact (lastData_append h _ addr).trans (if_pos rfl)
  | updateData addr data =>
    obtain ⟨_, hpresent, hs⟩ := of_bind hs
    cases hs
    have hsame : recent (h ++ [Op.updateData addr data]) = recent h := recent_append h _
    refine hl.put (length_map _) others_updateIn ?_ (fun a ha => ?_) (fun e he haddr => ?_) (by rw [hsame]) ?_
    · rw [addresses_updateIn]
      exact hl.unique _
    · exact (lastData_append h _ a).trans (if_neg ha.symm)
    · obtain ⟨-, hdata⟩ | ⟨hne, -⟩ := mem_updateIn he
      · rw [lastData_append, hdata]
        exact if_pos rfl
      · exact absurd haddr hne
    · rw [hsame, addresses_updateIn]
      exact hl.order _
  | evict addr =>
    obtain ⟨⟨s₁, d⟩, hevict, hs⟩ := of_bind hs
    cases hs
    obtain ⟨_, hpresent, hevict⟩ := of_bind hevict
    have hpresent : presentIn addr (s.findSet c addr) = true := require_eq_ok.mp hpresent
    cases hevict
    obtain ⟨e, he, haddr, -, hlive⟩ := live_evictIn (hl.nodup addr) hpresent
    refine hl.unused (length_evictIn (hl.unique _) hpresent) ?_ ?_ (fun a _ => lastData_append h _ a) (fun x hx hxa => ?_)
      (recent_append h _)
    · show (live _).filter (·.address ≠ addr) = _
      rw [hlive]
      exact filter_eq_self.mpr fun x hx => (mem_filter.mp hx).2
    · unfold addresses
      rw [hlive, addresses_others]
      exact (hl.nodup addr).filter _
    · rw [hlive] at hx
      exact absurd hxa (of_decide_eq_true (mem_filter.mp hx).2)
  | chooseVictim addr =>
    obtain ⟨_, _, hs⟩ := of_bind hs
    cases hs
    have hsame : recent (h ++ [Op.chooseVictim addr]) = recent h := recent_append h _
    refine ⟨hl.length, hl.home, hl.unique, fun k e he => ?_, fun k => ?_⟩
    · exact (lastData_append h _ _).trans (hl.data k e he)
    · rw [hsame]
      exact hl.order k

theorem Lru.of_run (hr : Exec (StepIf (fun s op => op.meets c s) (CacheBank.step c)) (CacheBank.init c) h s) : Lru c h s :=
  hr.history_invariant (Lru.init c) fun _ _ _ _ hl hs => hl.step hs.1 hs.2

/-- The address whose entry the operation reads or writes. -/
def Op.accesses : Op → Option Nat
  | .read addr | .write addr _ | .updateData addr _ => some addr
  | _ => none

/-- The bank is a map with LRU replacement. -/
structure LruMap (c : CacheConfig) (h : List Op) (s : CacheBank) : Prop where
  unique : ∀ k, (addresses (s.cacheEntry k)).Nodup
  others : ∀ op s' addr, op.accesses = some addr → op.meets c s = true → s.step c op = .ok s' →
    (others addr (s'.findSet c addr)).Perm (others addr (s.findSet c addr)) ∧
      ∀ k, k ≠ c.decode addr → s'.cacheEntry k = s.cacheEntry k
  reads : ∀ addr, s.present c addr = true → ∃ s' data, s.read c addr = .ok (s', some data) ∧ lastData h addr = some data
  victim : ∀ addr, 0 < c.numAssoc → s.setFull c addr = true → (∀ a ∈ addresses (s.findSet c addr), a ∈ recent h) →
    ∃ v dirty, s.chooseVictim c addr = .ok (v, dirty) ∧ ((recent h).filter (c.decode · = c.decode addr)).getLast? = some v

theorem findSet_putSet (s : CacheBank) (addr : Nat) (set : List CacheEntry) : (s.putSet c addr set).findSet c addr = set :=
  update_self _ _ _

theorem putSet_other (s : CacheBank) (addr : Nat) (set : List CacheEntry) (hk : k ≠ c.decode addr) :
    (s.putSet c addr set).cacheEntry k = s.cacheEntry k := update_of_ne hk _ _

theorem others_front {addr : Nat} {set old : List CacheEntry} {e : CacheEntry} (haddr : e.address = addr)
    (hlive : live set = e :: others addr old) : others addr set = others addr old := by
  show (live set).filter (·.address ≠ addr) = _
  rw [hlive, filter_cons_of_neg (by simp [haddr])]
  exact filter_eq_self.mpr fun x hx => (mem_filter.mp hx).2

/-- The set after an operation that reads or writes an entry, and what it keeps. -/
theorem Lru.keeps (hl : Lru c h s) {addr : Nat} (ha : op.accesses = some addr) (hm : op.meets c s = true)
    (hs : s.step c op = .ok s') : ∃ set, s' = s.putSet c addr set ∧ others addr set = others addr (s.findSet c addr) := by
  cases op with
  | read a =>
    obtain rfl := Option.some.inj ha
    obtain ⟨⟨s₁, d⟩, hread, hs⟩ := of_bind hs
    cases hs
    obtain ⟨_, hpresent, hread⟩ := of_bind hread
    cases hread
    obtain ⟨e, -, haddr, -, hlive⟩ := live_readIn (hl.nodup a) (require_eq_ok.mp hpresent)
    exact ⟨_, rfl, others_front haddr hlive⟩
  | write a data =>
    obtain rfl := Option.some.inj ha
    obtain ⟨_, hpresent, hs⟩ := of_bind hs
    cases hs
    obtain ⟨e, -, haddr, hlive⟩ := live_writeIn data (hl.nodup a) (require_eq_ok.mp hpresent) hm
    exact ⟨_, rfl, others_front (e := written data e) haddr hlive⟩
  | updateData a data =>
    obtain rfl := Option.some.inj ha
    obtain ⟨_, _, hs⟩ := of_bind hs
    cases hs
    exact ⟨_, rfl, others_updateIn⟩
  | install _ _ | evict _ | chooseVictim _ => cases ha

/-- The last entry of a full set that has been used all over is the one least recently used. -/
theorem Lru.victim (hl : Lru c h s) {addr : Nat} (hpos : 0 < c.numAssoc) (hfull : s.setFull c addr = true)
    (hused : ∀ a ∈ addresses (s.findSet c addr), a ∈ recent h) :
    ∃ v dirty, s.chooseVictim c addr = .ok (v, dirty) ∧ ((recent h).filter (c.decode · = c.decode addr)).getLast? = some v := by
  have hlen : (s.findSet c addr).length = c.numAssoc := hl.length _
  have hlt : c.numAssoc - 1 < (s.findSet c addr).length := by omega
  have hvalid : ∀ e ∈ s.findSet c addr, e.valid = true := all_eq_true.mp hfull
  have hlive : addresses (s.findSet c addr) = (s.findSet c addr).map (·.address) := by
    unfold addresses live
    rw [filter_eq_self.mpr hvalid]
  have horder : (recent h).filter (c.decode · = c.decode addr) = (s.findSet c addr).map (·.address) := by
    rw [← hlive, ← hl.order]
    exact filter_eq_self.mpr fun a ha => decide_eq_true (hused a ha)
  obtain ⟨e, he⟩ : ∃ e, (s.findSet c addr)[c.numAssoc - 1]? = some e := ⟨_, getElem?_eq_getElem hlt⟩
  refine ⟨e.address, e.dirty, ?_, ?_⟩
  · unfold chooseVictim
    rw [hfull, index_eq_ok.mpr he]
    show (require e.valid >>= fun _ => _) = _
    rw [hvalid e (mem_of_getElem? he)]
    rfl
  · rw [horder, getLast?_map, getLast?_eq_getElem?, hlen, he]
    rfl

/-- In every run in which each write finds its entry in front, or the first two places empty, the bank is an LRU map. -/
theorem lru_map (hr : Exec (StepIf (fun s op => op.meets c s) (step c)) (init c) h s) : LruMap c h s := by
  have hl : Lru c h s := Lru.of_run hr
  refine ⟨hl.unique, fun op s' addr ha hm hs => ?_, fun addr hpresent => ?_, fun addr hpos hfull hused =>
    hl.victim hpos hfull hused⟩
  · obtain ⟨set, rfl, hset⟩ := hl.keeps ha hm hs
    refine ⟨?_, fun k hk => putSet_other s addr set hk⟩
    rw [findSet_putSet, hset]
  · obtain ⟨e, he, haddr, hread, -⟩ := live_readIn (hl.nodup addr) hpresent
    refine ⟨s.putSet c addr (readIn addr (s.findSet c addr)).1, e.data, ?_, haddr ▸ hl.data _ e he⟩
    unfold read
    rw [hpresent, show readIn addr (s.findSet c addr) = ((readIn addr (s.findSet c addr)).1, some e.data) from hread]
    rfl

/-! ## Writes behind the front -/

/-- A write keeps the addresses apart and the other entries exactly if it is safe. -/
theorem write_iff {set : List CacheEntry} {addr : Nat} (data : NVMDataBlock) (hu : (addresses set).Nodup)
    (hp : presentIn addr set = true) : ((addresses (writeIn addr data set)).Nodup ∧
      (Nvm.others addr (writeIn addr data set)).Perm (Nvm.others addr set)) ↔ writeSafe addr set = true := by
  refine ⟨fun hkept => ?_, fun hs => ?_⟩
  · obtain ⟨pre, e, post, rfl, hhit, hpre, hpost⟩ := exists_split hu hp
    obtain ⟨haddr, hvalid⟩ := hits_iff.mp hhit
    have hwritten : (written data e).valid = true := hvalid
    cases pre with
    | nil =>
      cases post with
      | nil => rfl
      | cons q post => simp [writeSafe, hhit]
    | cons p pre =>
      have hpf := hpre p mem_cons_self
      have hpref : ∀ x ∈ pre, x.hits addr = false := fun x hx => hpre x (mem_cons_of_mem p hx)
      rw [cons_append, writeIn_behind hhit hpf hpref hpost] at hkept
      obtain ⟨hnd, hperm⟩ := hkept
      cases pre with
      | nil =>
        -- The entry stands in the first two places.
        unfold addresses at hnd
        simp [live_cons_valid hwritten] at hnd
      | cons q pre =>
        have hqf := hpref q mem_cons_self
        change (addresses (written data e :: q :: (q :: pre ++ post))).Nodup at hnd
        change (Nvm.others addr (written data e :: q :: (q :: pre ++ post))).Perm _ at hperm
        cases hq : q.valid with
        | true =>
          -- The entry of the second place stands in the third one too.
          unfold addresses at hnd
          simp [live_cons_valid hwritten, live_cons_valid hq] at hnd
        | false =>
          cases hpv : p.valid with
          | true =>
            -- The entry in front is lost.
            have hlost := hperm.length_eq
            have hset : Nvm.others addr (p :: (q :: pre ++ e :: post)) = live (p :: (q :: pre ++ post)) :=
              others_split hhit hpre hpost
            rw [others_cons_self (show (written data e).address = addr from haddr), hset] at hlost
            have hothers : Nvm.others addr (q :: (q :: pre ++ post)) = live (pre ++ post) := by
              rw [others_of_no_hit, live_cons_invalid hq, cons_append, live_cons_invalid hq]
              intro x hx
              obtain rfl | hx := mem_cons.mp hx
              · exact hqf
              · obtain hx | hx := mem_append.mp hx
                · exact hpref x hx
                · exact hpost x hx
            rw [cons_append] at hlost
            rw [show Nvm.others addr (q :: q :: (pre ++ post)) = live (pre ++ post) from hothers, live_cons_valid hpv,
              live_cons_invalid hq, length_cons] at hlost
            omega
          | false => simp [writeSafe, hpv, hq]
  · obtain ⟨e, -, haddr, hlive⟩ := live_writeIn data hu hp hs
    have hothers := others_front (e := written data e) haddr hlive
    refine ⟨?_, by rw [hothers]⟩
    unfold addresses
    rw [hlive, map_cons, nodup_cons, addresses_others]
    exact ⟨by rw [show (written data e).address = addr from haddr]; simp, hu.filter _⟩

theorem write_iff_second : ∃ set : List CacheEntry, ¬ ((addresses (writeIn 2 ⟨[3], true⟩ set)).Nodup ∧
    (Nvm.others 2 (writeIn 2 ⟨[3], true⟩ set)).Perm (Nvm.others 2 set)) := by
  refine ⟨[{ address := 1, valid := true }, { address := 2, valid := true }], fun h => ?_⟩
  exact absurd ((write_iff _ (by decide) (by decide)).mp h) (by decide)

/-- One set of two entries. -/
def twoWays : CacheConfig where
  numAssoc := 2
  decode := fun _ => 0

theorem lru_map_front : ∃ s, Exec (StepIf (fun s op => op.meets twoWays s) (step twoWays)) (init twoWays)
    [.install 1 ⟨[1], true⟩, .install 2 ⟨[2], true⟩, .read 2, .write 2 ⟨[3], true⟩] s ∧
    LruMap twoWays [.install 1 ⟨[1], true⟩, .install 2 ⟨[2], true⟩, .read 2, .write 2 ⟨[3], true⟩] s := by
  refine Exec.ends_withIf (p := fun _ => true) (by decide) fun s hs _ => ?_
  exact lru_map hs

/-- A write of the second entry: it stands in both places then, and the first entry is lost. -/
theorem second_entry_doubled : ∃ s, Exec (StepIf (fun s op => op.absent twoWays s) (step twoWays)) (init twoWays)
    [.install 1 ⟨[1], true⟩, .install 2 ⟨[2], true⟩, .write 2 ⟨[3], true⟩] s ∧
    ¬ LruMap twoWays [.install 1 ⟨[1], true⟩, .install 2 ⟨[2], true⟩, .write 2 ⟨[3], true⟩] s := by
  refine Exec.ends_withIf (p := fun s => decide (addresses (s.cacheEntry 0) = [2, 2])) (by decide) fun s hs hp => ?_
  refine fun hmap => ?_
  have hnd := hmap.unique 0
  rw [of_decide_eq_true hp] at hnd
  revert hnd
  decide

end CacheBank

end Nvm
