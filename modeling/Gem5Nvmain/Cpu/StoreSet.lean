import Mathlib.Logic.Function.Basic
import Gem5Nvmain.Lib.Exec

/- The store set predictor (src/cpu/o3/store_set.cc), which names the stores of a thread that a load or a store may
  depend on.

  `storeList` has the stores that were inserted and not yet issued, the youngest first, each with its set. The loop of
  `squash` goes on to the next of them only when `LFST` of its set is younger than the number of the squash, whatever
  `validLFST` says. It ends because `LFST` of a set is never older than a listed store of the set (`Inv`): the stores
  come in order, and `LFST` is only written for a store that is listed. -/
namespace Gem5.Cpu
open Lib Function List

structure StoreSetParams where
  clearPeriod : Nat
  SSITSize : Nat
  LFSTSize : Nat

namespace StoreSetParams

def offsetBits : Nat := 2

def calcIndex (p : StoreSetParams) (PC : Nat) : Nat := (PC >>> offsetBits) &&& (p.SSITSize - 1)

def calcSSID (p : StoreSetParams) (PC : Nat) : Nat := (PC ^^^ (PC >>> 10)) % p.LFSTSize

end StoreSetParams

structure StoreSet where
  SSIT : Nat → Nat := fun _ => 0
  validSSIT : Nat → Bool := fun _ => false
  LFST : Nat → Nat := fun _ => 0
  validLFST : Nat → Bool := fun _ => false
  /-- In the order of `ltseqnum`: the highest number first. -/
  storeList : List (Nat × Nat) := []
  memOpsPred : BitVec 32 := 0

namespace StoreSet

/-- `storeList[seqNum] = ssid`. -/
def put (seqNum ssid : Nat) : List (Nat × Nat) → List (Nat × Nat)
  | [] => [(seqNum, ssid)]
  | e :: l =>
    if seqNum > e.1 then (seqNum, ssid) :: e :: l
    else if seqNum = e.1 then (seqNum, ssid) :: l
    else e :: put seqNum ssid l

def clear (s : StoreSet) : StoreSet :=
  { s with validSSIT := fun _ => false, validLFST := fun _ => false, storeList := [] }

/-- The count is an `int`, compared with an unsigned number of 64 bits. -/
def checkClear (p : StoreSetParams) (s : StoreSet) : StoreSet :=
  let memOpsPred := s.memOpsPred + 1
  if (memOpsPred.signExtend 64).toNat > p.clearPeriod then clear { s with memOpsPred := 0 }
  else { s with memOpsPred := memOpsPred }

def violation (p : StoreSetParams) (s : StoreSet) (store_PC load_PC : Nat) : Except Stop StoreSet := do
  let load_index := p.calcIndex load_PC
  let store_index := p.calcIndex store_PC
  require (decide (load_index < p.SSITSize) && decide (store_index < p.SSITSize))
  match s.validSSIT load_index, s.validSSIT store_index with
  | false, false =>
    let new_set := p.calcSSID load_PC
    require (decide (new_set < p.LFSTSize))
    pure { s with
      validSSIT := update (update s.validSSIT load_index true) store_index true
      SSIT := update (update s.SSIT load_index new_set) store_index new_set }
  | true, false =>
    let load_SSID := s.SSIT load_index
    require (decide (load_SSID < p.LFSTSize))
    pure { s with validSSIT := update s.validSSIT store_index true, SSIT := update s.SSIT store_index load_SSID }
  | false, true =>
    pure { s with validSSIT := update s.validSSIT load_index true, SSIT := update s.SSIT load_index (s.SSIT store_index) }
  | true, true =>
    let load_SSID := s.SSIT load_index
    let store_SSID := s.SSIT store_index
    require (decide (load_SSID < p.LFSTSize) && decide (store_SSID < p.LFSTSize))
    if store_SSID > load_SSID then pure { s with SSIT := update s.SSIT store_index load_SSID }
    else pure { s with SSIT := update s.SSIT load_index store_SSID }

def insertLoad (p : StoreSetParams) (s : StoreSet) : StoreSet := s.checkClear p

def insertStore (p : StoreSetParams) (s : StoreSet) (store_PC store_seq_num : Nat) : Except Stop StoreSet := do
  let index := p.calcIndex store_PC
  let s := s.checkClear p
  require (decide (index < p.SSITSize))
  if s.validSSIT index then
    let store_SSID := s.SSIT index
    require (decide (store_SSID < p.LFSTSize))
    pure { s with
      LFST := update s.LFST store_SSID store_seq_num
      validLFST := update s.validLFST store_SSID true
      storeList := put store_seq_num store_SSID s.storeList }
  else pure s

def issued (p : StoreSetParams) (s : StoreSet) (issued_PC issued_seq_num : Nat) (is_store : Bool) : Except Stop StoreSet :=
  if is_store then do
    let index := p.calcIndex issued_PC
    require (decide (index < p.SSITSize))
    let s := { s with storeList := s.storeList.filter (·.1 != issued_seq_num) }
    if s.validSSIT index then
      let store_SSID := s.SSIT index
      require (decide (store_SSID < p.LFSTSize))
      if s.validLFST store_SSID && s.LFST store_SSID == issued_seq_num then
        pure { s with validLFST := update s.validLFST store_SSID false }
      else pure s
    else pure s
  else pure s

/-- The loop of `squash`; its iterator is at the begin of the list in each turn. -/
def squash (squashed_num : Nat) : Nat → StoreSet → Except Stop StoreSet
  | fuel, s =>
    match s.storeList with
    | [] => pure s
    | (seqNum, idx) :: rest =>
      if seqNum ≤ squashed_num then pure s
      else
        let younger := decide (s.LFST idx > squashed_num)
        match fuel with
        | 0 => .error .outOfFuel
        | fuel + 1 =>
          if s.validLFST idx && younger then
            squash squashed_num fuel { s with validLFST := update s.validLFST idx false, storeList := rest }
          else if !s.validLFST idx && younger then squash squashed_num fuel { s with storeList := rest }
          else squash squashed_num fuel s

end StoreSet

inductive StoreSetOp where
  | insertLoad (load_PC load_seq_num : Nat)
  | insertStore (store_PC store_seq_num : Nat)
  | issued (issued_PC issued_seq_num : Nat) (is_store : Bool)
  | violation (store_PC load_PC : Nat)
  | squash (squashed_num : Nat)
  | clear
  deriving DecidableEq, Repr

/-- The predictor, and the number of the last store that was inserted. -/
structure StoreSetRun extends StoreSet where
  last : Option Nat := none

namespace StoreSetRun

def step (p : StoreSetParams) (s : StoreSetRun) : StoreSetOp → Except Stop StoreSetRun
  | .insertLoad _ _ => pure { s with toStoreSet := s.toStoreSet.insertLoad p }
  | .insertStore store_PC store_seq_num => do
    let t ← s.toStoreSet.insertStore p store_PC store_seq_num
    pure { toStoreSet := t, last := some store_seq_num }
  | .issued issued_PC issued_seq_num is_store => do
    let t ← s.toStoreSet.issued p issued_PC issued_seq_num is_store
    pure { s with toStoreSet := t }
  | .violation store_PC load_PC => do
    let t ← s.toStoreSet.violation p store_PC load_PC
    pure { s with toStoreSet := t }
  | .squash squashed_num => do
    let t ← s.toStoreSet.squash squashed_num s.storeList.length
    pure { s with toStoreSet := t }
  | .clear => pure { s with toStoreSet := s.toStoreSet.clear }

/-- The numbers of the stores increase. -/
def ordered (s : StoreSetRun) : StoreSetOp → Bool
  | .insertStore _ store_seq_num => s.last.all (· < store_seq_num)
  | _ => true

end StoreSetRun

namespace StoreSet

variable {p : StoreSetParams} {s t : StoreSet} {last : Option Nat} {n fuel : Nat}

/-- The stores are listed from the youngest on, and the last fetched store of a set is not older than one that is listed. -/
structure Inv (s : StoreSet) (last : Option Nat) : Prop where
  sorted : s.storeList.Pairwise (·.1 > ·.1)
  fetched : ∀ e ∈ s.storeList, e.1 ≤ s.LFST e.2
  before : ∀ e ∈ s.storeList, ∃ l ∈ last, e.1 ≤ l

theorem Inv.sublist (h : Inv s last) (hlist : t.storeList.Sublist s.storeList) (hlfst : t.LFST = s.LFST) : Inv t last where
  sorted := h.sorted.sublist hlist
  fetched e he := by
    rw [hlfst]
    exact h.fetched e (hlist.subset he)
  before e he := h.before e (hlist.subset he)

theorem Inv.checkClear (h : Inv s last) : Inv (s.checkClear p) last := by
  unfold StoreSet.checkClear
  dsimp only
  split
  · exact h.sublist (nil_sublist _) rfl
  · exact h.sublist (List.Sublist.refl _) rfl

theorem put_of_gt {l : List (Nat × Nat)} {ssid : Nat} (h : ∀ e ∈ l, e.1 < n) : put n ssid l = (n, ssid) :: l := by
  cases l with
  | nil => rfl
  | cons e l => exact if_pos (h e mem_cons_self)

/-- A younger store becomes the first of the list, and the last fetched one of its set. -/
theorem Inv.insertStore {PC : Nat} (h : Inv s last) (hn : ∀ l ∈ last, l < n) (hs : s.insertStore p PC n = .ok t) : Inv t (some n) := by
  obtain ⟨_, -, hs⟩ := of_bind hs
  have hc := h.checkClear (p := p)
  generalize s.checkClear p = c at hc hs
  have hold : ∀ e ∈ c.storeList, e.1 < n := by
    intro e he
    obtain ⟨l, hl, hle⟩ := hc.before e he
    exact Nat.lt_of_le_of_lt hle (hn l hl)
  split at hs
  · obtain ⟨_, -, hs⟩ := of_bind hs
    rw [put_of_gt hold] at hs
    cases hs
    refine ⟨pairwise_cons.mpr ⟨hold, hc.sorted⟩, fun e he => ?_, fun e he => ⟨n, rfl, ?_⟩⟩
    · show e.1 ≤ update c.LFST (c.SSIT (p.calcIndex PC)) n e.2
      rcases mem_cons.mp he with heq | he
      · apply Nat.le_of_eq
        rw [heq, update_self]
      · rw [update_apply]
        split
        · exact Nat.le_of_lt (hold e he)
        · exact hc.fetched e he
    · rcases mem_cons.mp he with heq | he
      · exact Nat.le_of_eq (congrArg Prod.fst heq)
      · exact Nat.le_of_lt (hold e he)
  · cases hs
    exact ⟨hc.sorted, hc.fetched, fun e he => ⟨n, rfl, Nat.le_of_lt (hold e he)⟩⟩

theorem Inv.issued {PC : Nat} {is_store : Bool} (h : Inv s last) (hs : s.issued p PC n is_store = .ok t) : Inv t last := by
  unfold StoreSet.issued at hs
  split at hs
  · obtain ⟨_, -, hs⟩ := of_bind hs
    dsimp only at hs
    split at hs
    · obtain ⟨_, -, hs⟩ := of_bind hs
      split at hs <;> cases hs <;> exact h.sublist filter_sublist rfl
    · cases hs
      exact h.sublist filter_sublist rfl
  · cases hs
    exact h

theorem violation_keeps {store_PC load_PC : Nat} (hs : s.violation p store_PC load_PC = .ok t) :
    t.storeList = s.storeList ∧ t.LFST = s.LFST := by
  obtain ⟨_, -, hs⟩ := of_bind hs
  split at hs
  · obtain ⟨_, -, hs⟩ := of_bind hs
    cases hs
    exact ⟨rfl, rfl⟩
  · obtain ⟨_, -, hs⟩ := of_bind hs
    cases hs
    exact ⟨rfl, rfl⟩
  · cases hs
    exact ⟨rfl, rfl⟩
  · obtain ⟨_, -, hs⟩ := of_bind hs
    split at hs <;> cases hs <;> exact ⟨rfl, rfl⟩

/-- Each turn of the loop takes a store off the list, and leaves the entry of its set invalid. -/
theorem Inv.squash (h : Inv s last) (n : Nat) (hfuel : s.storeList.length ≤ fuel) : ∃ t, s.squash n fuel = .ok t ∧
    t.storeList = s.storeList.filter (fun e => decide (e.1 ≤ n)) ∧ t.LFST = s.LFST ∧
    (∀ ssid, s.validLFST ssid = false → t.validLFST ssid = false) ∧ ∀ e ∈ s.storeList, n < e.1 → t.validLFST e.2 = false := by
  induction fuel generalizing s with
  | zero =>
    have hnil : s.storeList = [] := length_eq_zero_iff.mp (Nat.le_zero.mp hfuel)
    unfold StoreSet.squash
    rw [hnil]
    exact ⟨s, rfl, hnil, rfl, fun _ hv => hv, nofun⟩
  | succ fuel ih =>
    unfold StoreSet.squash
    cases hlist : s.storeList with
    | nil => exact ⟨s, rfl, hlist, rfl, fun _ hv => hv, nofun⟩
    | cons e rest =>
      have hsorted := h.sorted
      rw [hlist] at hsorted hfuel
      obtain ⟨hhead, -⟩ := pairwise_cons.mp hsorted
      dsimp only
      by_cases hle : e.1 ≤ n
      · rw [if_pos hle]
        have hall : ∀ f ∈ e :: rest, f.1 ≤ n := by
          intro f hf
          rcases mem_cons.mp hf with rfl | hf
          · exact hle
          · exact Nat.le_trans (Nat.le_of_lt (hhead f hf)) hle
        refine ⟨s, rfl, ?_, rfl, fun _ hv => hv, fun f hf hlt => absurd (hall f hf) (Nat.not_le_of_lt hlt)⟩
        rw [hlist, filter_eq_self.mpr fun f hf => decide_eq_true (hall f hf)]
      · rw [if_neg hle]
        have hyounger : decide (s.LFST e.2 > n) = true := by
          have hfetched := h.fetched e (by rw [hlist]; exact mem_cons_self)
          exact decide_eq_true (Nat.lt_of_lt_of_le (Nat.lt_of_not_le hle) hfetched)
        have hrest : rest.Sublist s.storeList := by
          rw [hlist]
          exact sublist_cons_self e rest
        have hfilter : (e :: rest).filter (fun e => decide (e.1 ≤ n)) = rest.filter fun e => decide (e.1 ≤ n) :=
          filter_cons_of_neg (by simpa using hle)
        rw [hyounger, hfilter]
        cases hvalid : s.validLFST e.2 with
        | true =>
          obtain ⟨t, ht, hstores, hlfst, hinvalid, hgone⟩ := ih (s := { s with validLFST := update s.validLFST e.2 false, storeList := rest })
            (h.sublist hrest rfl) (Nat.le_of_succ_le_succ hfuel)
          refine ⟨t, ht, hstores, hlfst, fun ssid hv => hinvalid ssid ?_, fun f hf hlt => ?_⟩
          · show update s.validLFST e.2 false ssid = false
            rw [update_apply, hv, ite_self]
          · rcases mem_cons.mp hf with rfl | hf
            · exact hinvalid f.2 (update_self ..)
            · exact hgone f hf hlt
        | false =>
          obtain ⟨t, ht, hstores, hlfst, hinvalid, hgone⟩ := ih (s := { s with storeList := rest })
            (h.sublist hrest rfl) (Nat.le_of_succ_le_succ hfuel)
          refine ⟨t, ht, hstores, hlfst, hinvalid, fun f hf hlt => ?_⟩
          rcases mem_cons.mp hf with rfl | hf
          · exact hinvalid f.2 hvalid
          · exact hgone f hf hlt

end StoreSet

namespace StoreSetRun

variable {p : StoreSetParams} {s t : StoreSetRun} {op : StoreSetOp} {ops : List StoreSetOp}

theorem inv_step (h : s.Inv s.last) (hordered : s.ordered op = true) (hs : s.step p op = .ok t) : t.Inv t.last := by
  cases op with
  | insertLoad load_PC load_seq_num =>
    cases hs
    exact h.checkClear
  | insertStore store_PC store_seq_num =>
    obtain ⟨u, hu, hs⟩ := of_bind hs
    cases hs
    refine h.insertStore (fun l hl => ?_) hu
    unfold ordered at hordered
    rw [Option.mem_def.mp hl] at hordered
    exact of_decide_eq_true hordered
  | issued issued_PC issued_seq_num is_store =>
    obtain ⟨u, hu, hs⟩ := of_bind hs
    cases hs
    exact h.issued hu
  | violation store_PC load_PC =>
    obtain ⟨u, hu, hs⟩ := of_bind hs
    cases hs
    obtain ⟨hlist, hlfst⟩ := StoreSet.violation_keeps hu
    exact h.sublist (hlist ▸ List.Sublist.refl _) hlfst
  | squash squashed_num =>
    obtain ⟨u, hu, hs⟩ := of_bind hs
    cases hs
    obtain ⟨u', hu', hlist, hlfst, -⟩ := h.squash squashed_num (Nat.le_refl _)
    cases hu.symm.trans hu'
    exact h.sublist (hlist ▸ filter_sublist) hlfst
  | clear =>
    cases hs
    exact h.sublist (nil_sublist _) rfl

/-- A squash ends in every reachable state, keeps the stores up to its number, and leaves no set with a removed store as its last fetched one. -/
theorem squash_ends (hr : Exec (StepIf ordered (step p)) {} ops s) (squashed_num : Nat) :
    ∃ t, s.toStoreSet.squash squashed_num s.storeList.length = .ok t ∧
      t.storeList = s.storeList.filter (fun e => decide (e.1 ≤ squashed_num)) ∧
      ∀ e ∈ s.storeList, squashed_num < e.1 → s.LFST e.2 = e.1 → t.validLFST e.2 = false := by
  have hinv : s.Inv s.last := by
    apply hr.invariant
    · exact ⟨List.Pairwise.nil, nofun, nofun⟩
    · rintro s op t h ⟨hordered, hs⟩
      exact inv_step h hordered hs
  obtain ⟨t, ht, hlist, -, -, hgone⟩ := hinv.squash squashed_num (Nat.le_refl _)
  exact ⟨t, ht, hlist, fun e he hlt _ => hgone e he hlt⟩

/-- Of two stores of a set the younger one is squashed. -/
theorem squash_ends_two : ∃ s, Exec (StepIf ordered (step ⟨100, 4, 4⟩)) {} [.violation 0 4, .insertStore 0 5, .insertStore 0 7] s ∧
    s.storeList = [(7, 0), (5, 0)] ∧ ∃ t, s.toStoreSet.squash 5 s.storeList.length = .ok t ∧ t.storeList = [(5, 0)] ∧ t.validLFST 0 = false := by
  refine Exec.ends_withIf (p := fun s => decide (s.storeList = [(7, 0), (5, 0)] ∧ s.LFST 0 = 7))
    (by decide) fun s hr hend => ?_
  obtain ⟨hlist, hlfst⟩ := of_decide_eq_true hend
  obtain ⟨t, ht, hleft, hgone⟩ := squash_ends hr 5
  refine ⟨hlist, t, ht, ?_, ?_⟩
  · rw [hleft, hlist]
    rfl
  · exact hgone (7, 0) (by rw [hlist]; exact mem_cons_self) (by decide) hlfst

end StoreSetRun

end Gem5.Cpu
