import Gem5Nvmain.Cache.HapCounters

/- The end of an epoch of HAP (`HAP::updateSomething`), with the array `tmpki` as the code leaves it.

  The array starts without values, and gets one for each sample set that was accessed since the last epoch ended; the
  others keep none, and are asserted to have no cost. The search for the cheapest sample set then compares all five.
  `hapUpdateSomething` stops where the assertion fails or where a value that was not assigned is read; otherwise it
  does what `updateSomething` of the tag store does with the same comparison. A rate is whatever the division of the
  two counters gives, and rates are compared by any comparison.

  The access counters say how often each sample set was accessed in the epoch (`counted`). -/
namespace Gem5.Cache
open Lib Gem5.Mem Tags List

/-! ## The update -/

section Update
variable {ρ : Type} (div : BitVec 32 → BitVec 32 → ρ) (lt : ρ → ρ → Bool)

/-- The first loop: `tmpki` after it. -/
def hapRates : List SampleCounter → Except Stop (List (Option ρ))
  | [] => .ok []
  | s :: sc =>
    if s.accessCounter = 0 then do
      require (s.costCounter == 0)
      let tmpki ← hapRates sc
      pure (none :: tmpki)
    else do
      let tmpki ← hapRates sc
      pure (some (div s.costCounter s.accessCounter) :: tmpki)

def readAssigned : Option ρ → Except Stop ρ
  | some x => .ok x
  | none => .error (.fatal "tmpki has no value")

/-- `tmpki[i] < tmpki[j]`. -/
def rateLt (tmpki : List (Option ρ)) (i j : Nat) : Except Stop Bool := do
  let a ← index tmpki i
  let a ← readAssigned a
  let b ← index tmpki j
  let b ← readAssigned b
  pure (lt a b)

def hapFirst (tmpki : List (Option ρ)) : Except Stop Nat :=
  [1, 2, 3, 4].foldlM (fun first i => do
    let less ← rateLt lt tmpki i first
    pure (if less then i else first)) 0

def hapSecond (tmpki : List (Option ρ)) (first : Nat) : Except Stop Nat :=
  if first = 4 then .ok 3
  else if first = 0 then .ok 1
  else do
    let less ← rateLt lt tmpki (first + 1) (first - 1)
    pure (if less then first + 1 else first - 1)

/-- A sample set that was accessed starts again. -/
def SampleCounter.reset (s : SampleCounter) : SampleCounter :=
  if s.accessCounter = 0 then s else { s with costCounter := 0, accessCounter := 0 }

def hapUpdateSomething (p : TagParams) (bitsOfSets : Nat) (t : Tags HapState) : Except Stop (Tags HapState) := do
  let tmpki ← hapRates div t.policy.sc
  let first ← hapFirst lt tmpki
  let second ← hapSecond lt tmpki first
  pure { t with policy := { t.policy with
    sc := t.policy.sc.map SampleCounter.reset
    minPcmLineCounter := BitVec.ofInt 32 ((hapNormalLines p bitsOfSets * (min first second : Nat)).tdiv 4)
    maxPcmLineCounter := BitVec.ofInt 32 ((hapNormalLines p bitsOfSets * (max first second : Nat)).tdiv 4) } }

end Update

section Defined
variable {ρ : Type} {div : BitVec 32 → BitVec 32 → ρ} {lt : ρ → ρ → Bool} {sc : List SampleCounter}
  {tmpki : List (Option ρ)} {p : TagParams} {bitsOfSets : Nat} {t t' : Tags HapState}

/-- The value of one sample set. -/
def rateOf (div : BitVec 32 → BitVec 32 → ρ) (s : SampleCounter) : Option ρ :=
  if s.accessCounter = 0 then none else some (div s.costCounter s.accessCounter)

theorem hapRates_eq_ok : hapRates div sc = .ok tmpki ↔
    (∀ s ∈ sc, s.accessCounter = 0 → s.costCounter = 0) ∧ tmpki = sc.map (rateOf div) := by
  induction sc generalizing tmpki with
  | nil =>
    constructor
    · intro h
      cases h
      exact ⟨fun _ h => absurd h not_mem_nil, rfl⟩
    · rintro ⟨-, rfl⟩
      rfl
  | cons s sc ih =>
    rw [hapRates, forall_mem_cons, map_cons, rateOf]
    by_cases hzero : s.accessCounter = 0
    · rw [if_pos hzero, if_pos hzero]
      constructor
      · intro h
        obtain ⟨_, hcost, h⟩ := of_bind h
        obtain ⟨rest, hrest, h⟩ := of_bind h
        cases h
        obtain ⟨hall, rfl⟩ := ih.mp hrest
        exact ⟨⟨fun _ => by simpa using hcost, hall⟩, rfl⟩
      · rintro ⟨⟨hcost, hall⟩, rfl⟩
        refine bind_eq_ok.mpr ⟨(), ?_, bind_eq_ok.mpr ⟨_, ih.mpr ⟨hall, rfl⟩, rfl⟩⟩
        rw [require_eq_ok, beq_iff_eq]
        exact hcost hzero
    · rw [if_neg hzero, if_neg hzero]
      constructor
      · intro h
        obtain ⟨rest, hrest, h⟩ := of_bind h
        cases h
        obtain ⟨hall, rfl⟩ := ih.mp hrest
        exact ⟨⟨fun h => absurd h hzero, hall⟩, rfl⟩
      · rintro ⟨⟨-, hall⟩, rfl⟩
        exact bind_eq_ok.mpr ⟨_, ih.mpr ⟨hall, rfl⟩, rfl⟩

variable {j : Nat}

/-- Both values have been assigned. -/
theorem rateLt_eq_ok {i : Nat} {less : Bool} : rateLt lt tmpki i j = .ok less ↔
    ∃ a b, tmpki[i]? = some (some a) ∧ tmpki[j]? = some (some b) ∧ less = lt a b := by
  constructor
  · intro h
    obtain ⟨x, hx, h⟩ := of_bind h
    obtain ⟨a, ha, h⟩ := of_bind h
    obtain ⟨y, hy, h⟩ := of_bind h
    obtain ⟨b, hb, h⟩ := of_bind h
    cases h
    cases x <;> cases ha
    cases y <;> cases hb
    exact ⟨a, b, index_eq_ok.mp hx, index_eq_ok.mp hy, rfl⟩
  · rintro ⟨a, b, ha, hb, rfl⟩
    exact bind_eq_ok.mpr ⟨_, index_eq_ok.mpr ha, bind_eq_ok.mpr ⟨a, rfl, bind_eq_ok.mpr ⟨_, index_eq_ok.mpr hb,
      bind_eq_ok.mpr ⟨b, rfl, rfl⟩⟩⟩⟩

/-- The value of a sample set has been assigned. -/
def Assigned (tmpki : List (Option ρ)) (i : Nat) : Prop := ∃ a, tmpki[i]? = some (some a)

theorem rateLt_ok (lt : ρ → ρ → Bool) {i : Nat} (hi : Assigned tmpki i) (hj : Assigned tmpki j) :
    ∃ less, rateLt lt tmpki i j = .ok less := by
  obtain ⟨a, ha⟩ := hi
  obtain ⟨b, hb⟩ := hj
  exact ⟨_, rateLt_eq_ok.mpr ⟨a, b, ha, hb, rfl⟩⟩

variable {first first' : Nat} {is : List Nat}

theorem fold_assigned {i : Nat} (h : (i :: is).foldlM (fun first i => do
      let less ← rateLt lt tmpki i first
      pure (if less then i else first)) first = .ok first') :
    Assigned tmpki i ∧ Assigned tmpki first ∧ ∃ next, is.foldlM (fun first i => do
      let less ← rateLt lt tmpki i first
      pure (if less then i else first)) next = .ok first' := by
  obtain ⟨next, hnext, h⟩ := of_bind h
  obtain ⟨less, hless, -⟩ := of_bind hnext
  obtain ⟨a, b, ha, hb, -⟩ := rateLt_eq_ok.mp hless
  exact ⟨⟨a, ha⟩, ⟨b, hb⟩, next, h⟩

theorem hapFirst_assigned (h : hapFirst lt tmpki = .ok first) : ∀ i ≤ 4, Assigned tmpki i := by
  obtain ⟨h1, h0, n, h⟩ := fold_assigned h
  obtain ⟨h2, -, n, h⟩ := fold_assigned h
  obtain ⟨h3, -, n, h⟩ := fold_assigned h
  obtain ⟨h4, -, -, -⟩ := fold_assigned h
  intro i hi
  rcases (by omega : i = 0 ∨ i = 1 ∨ i = 2 ∨ i = 3 ∨ i = 4) with rfl | rfl | rfl | rfl | rfl
  · exact h0
  · exact h1
  · exact h2
  · exact h3
  · exact h4

theorem fold_ok_of_assigned (lt : ρ → ρ → Bool) (is : List Nat) (his : ∀ i ∈ is, Assigned tmpki i)
    (hfirst : Assigned tmpki first) : ∃ first', is.foldlM (fun first i => do
      let less ← rateLt lt tmpki i first
      pure (if less then i else first)) first = .ok first' ∧ (first' = first ∨ first' ∈ is) := by
  induction is generalizing first with
  | nil => exact ⟨first, rfl, .inl rfl⟩
  | cons i is ih =>
    obtain ⟨hi, hrest⟩ := forall_mem_cons.mp his
    obtain ⟨less, hless⟩ := rateLt_ok lt hi hfirst
    have hnext : Assigned tmpki (if less then i else first) := by
      split
      · exact hi
      · exact hfirst
    obtain ⟨first', hfold, hin⟩ := ih hrest hnext
    refine ⟨first', ?_, ?_⟩
    · exact bind_eq_ok.mpr ⟨_, bind_eq_ok.mpr ⟨less, hless, rfl⟩, hfold⟩
    · rcases hin with rfl | hin
      · split
        · exact .inr mem_cons_self
        · exact .inl rfl
      · exact .inr (mem_cons_of_mem i hin)

theorem hapFirst_ok (lt : ρ → ρ → Bool) (h : ∀ i ≤ 4, Assigned tmpki i) : ∃ first ≤ 4, hapFirst lt tmpki = .ok first := by
  have his : ∀ i ∈ [1, 2, 3, 4], Assigned tmpki i := by
    intro i hi
    apply h
    simp only [mem_cons, not_mem_nil, or_false] at hi
    omega
  obtain ⟨first, hfirst, hin⟩ := fold_ok_of_assigned lt [1, 2, 3, 4] his (h 0 (Nat.zero_le 4))
  refine ⟨first, ?_, hfirst⟩
  simp only [mem_cons, not_mem_nil, or_false] at hin
  omega

theorem hapSecond_ok (lt : ρ → ρ → Bool) (h : ∀ i ≤ 4, Assigned tmpki i) (hfirst : first ≤ 4) :
    ∃ second, hapSecond lt tmpki first = .ok second := by
  unfold hapSecond
  split
  · exact ⟨3, rfl⟩
  · split
    · exact ⟨1, rfl⟩
    · obtain ⟨less, hless⟩ := rateLt_ok lt (h (first + 1) (by omega)) (h (first - 1) (by omega))
      exact ⟨_, bind_eq_ok.mpr ⟨less, hless, rfl⟩⟩

/-- `sc[l].access_counter`. -/
def HapState.accesses (s : HapState) (l : Nat) : BitVec 32 := ((s.sc[l]?).getD {}).accessCounter

/-- The update is defined when every sample set was accessed. -/
theorem hapUpdateSomething_ok_iff (hsc : t.policy.sc.length = 5) :
    (∃ t', hapUpdateSomething div lt p bitsOfSets t = .ok t') ↔ ∀ l ≤ 4, t.policy.accesses l ≠ 0 := by
  have hget (l : Nat) (hl : l ≤ 4) : ∃ s, t.policy.sc[l]? = some s ∧ s.accessCounter = t.policy.accesses l := by
    refine ⟨_, getElem?_eq_getElem (by omega), ?_⟩
    rw [HapState.accesses, getElem?_eq_getElem (by omega), Option.getD_some]
  constructor
  · rintro ⟨t', h⟩ l hl
    obtain ⟨tmpki, hrates, h⟩ := of_bind h
    obtain ⟨first, hfirst, -⟩ := of_bind h
    obtain ⟨-, rfl⟩ := hapRates_eq_ok.mp hrates
    obtain ⟨a, ha⟩ := hapFirst_assigned hfirst l hl
    obtain ⟨s, hs, hacc⟩ := hget l hl
    rw [getElem?_map, hs, Option.map_some, rateOf, hacc] at ha
    intro hzero
    rw [if_pos hzero] at ha
    cases ha
  · intro h
    have hall : ∀ s ∈ t.policy.sc, s.accessCounter ≠ 0 := by
      intro s hs
      obtain ⟨l, hl, rfl⟩ := getElem_of_mem hs
      obtain ⟨s', hs', hacc⟩ := hget l (by omega)
      rw [getElem?_eq_getElem hl] at hs'
      cases hs'
      rw [hacc]
      exact h l (by omega)
    have hrates : hapRates div t.policy.sc = .ok (t.policy.sc.map (rateOf div)) :=
      hapRates_eq_ok.mpr ⟨fun s hs hzero => absurd hzero (hall s hs), rfl⟩
    have hassigned : ∀ i ≤ 4, Assigned (t.policy.sc.map (rateOf div)) i := by
      intro i hi
      obtain ⟨s, hs, hacc⟩ := hget i hi
      refine ⟨div s.costCounter s.accessCounter, ?_⟩
      rw [getElem?_map, hs, Option.map_some, rateOf, if_neg (by rw [hacc]; exact h i hi)]
    obtain ⟨first, hle, hfirst⟩ := hapFirst_ok lt hassigned
    obtain ⟨second, hsecond⟩ := hapSecond_ok lt hassigned hle
    exact ⟨_, bind_eq_ok.mpr ⟨_, hrates, bind_eq_ok.mpr ⟨first, hfirst, bind_eq_ok.mpr ⟨second, hsecond, rfl⟩⟩⟩⟩

/-- The comparison that the tag store is given. -/
def lessOf (lt : ρ → ρ → Bool) (tmpki : List (Option ρ)) (i j : Nat) : Bool :=
  match rateLt lt tmpki i j with
  | .ok less => less
  | .error _ => false

theorem fold_eq (h : is.foldlM (fun first i => do
      let less ← rateLt lt tmpki i first
      pure (if less then i else first)) first = .ok first') :
    is.foldl (fun first i => if lessOf lt tmpki i first then i else first) first = first' := by
  induction is generalizing first with
  | nil =>
    cases h
    rfl
  | cons i is ih =>
    obtain ⟨next, hnext, h⟩ := of_bind h
    obtain ⟨less, hless, hnext⟩ := of_bind hnext
    cases hnext
    rw [foldl_cons, lessOf, hless]
    exact ih h

/-- A defined update is that of the tag store, with this comparison. -/
theorem hapUpdateSomething_eq (h : hapUpdateSomething div lt p bitsOfSets t = .ok t') :
    (hap p bitsOfSets).updateSomething t (lessOf lt (t.policy.sc.map (rateOf div))) = .ok t' := by
  obtain ⟨tmpki, hrates, h⟩ := of_bind h
  obtain ⟨first, hfirst, h⟩ := of_bind h
  obtain ⟨second, hsecond, hresult⟩ := of_bind h
  obtain ⟨hcost, rfl⟩ := hapRates_eq_ok.mp hrates
  cases hresult
  have hmap : t.policy.sc.map (fun s => { s with accessCounter := 0, costCounter := 0 }) =
      t.policy.sc.map SampleCounter.reset := by
    apply map_congr_left
    intro s hs
    unfold SampleCounter.reset
    split
    · rename_i hzero
      have hc := hcost s hs hzero
      obtain ⟨access, cost, lines⟩ := s
      obtain rfl : access = 0 := hzero
      obtain rfl : cost = 0 := hc
      rfl
    · rfl
  have hreset : resetSamples t = .ok { t with policy := { t.policy with sc := t.policy.sc.map SampleCounter.reset } } := by
    rw [← hmap]
    refine bind_eq_ok.mpr ⟨(), ?_, rfl⟩
    rw [require_eq_ok, all_eq_true]
    intro s hs
    rw [Bool.or_eq_true, bne_iff_ne, beq_iff_eq]
    exact Decidable.or_iff_not_imp_left.mpr fun hzero => hcost s hs (Decidable.not_not.mp hzero)
  have hshares : hapShares (lessOf lt (t.policy.sc.map (rateOf div))) = (min first second, max first second) := by
    have hsecond' : (if first = 4 then 3 else if first = 0 then 1
        else if lessOf lt (t.policy.sc.map (rateOf div)) (first + 1) (first - 1) then first + 1 else first - 1) =
          second := by
      unfold hapSecond at hsecond
      by_cases h4 : first = 4
      · rw [if_pos h4] at hsecond ⊢
        exact Except.ok.inj hsecond
      · rw [if_neg h4] at hsecond ⊢
        by_cases h0 : first = 0
        · rw [if_pos h0] at hsecond ⊢
          exact Except.ok.inj hsecond
        · rw [if_neg h0] at hsecond ⊢
          obtain ⟨less, hless, hsecond⟩ := of_bind hsecond
          rw [lessOf, hless]
          exact Except.ok.inj hsecond
    unfold hapShares
    rw [fold_eq hfirst]
    simp only [hsecond']
    split
    · rw [Nat.min_eq_right (by omega), Nat.max_eq_left (by omega)]
    · rw [Nat.min_eq_left (by omega), Nat.max_eq_right (by omega)]
  refine bind_eq_ok.mpr ⟨_, hreset, ?_⟩
  rw [hshares]
  rfl

end Defined

/-! ## Epochs -/

/-- A call of the tag store, or the end of an epoch. -/
inductive HapCall where
  | call (c : TagCall)
  | updateSomething

def hapCall {ρ : Type} (div : BitVec 32 → BitVec 32 → ρ) (lt : ρ → ρ → Bool) (p : TagParams) (bitsOfSets : Nat)
    (t : Tags HapState) : HapCall → Except Stop (Tags HapState)
  | .call c => callStep p (hap p bitsOfSets) t c
  | .updateSomething => hapUpdateSomething div lt p bitsOfSets t

/-- A call that counts an access of sample set `l`. -/
def counts (p : TagParams) (bitsOfSets l : Nat) : HapCall → Bool
  | .call (.accessBlock addr _ cmd _) => cmd != .writeback && hapLow p bitsOfSets (p.extractSet addr) == l
  | _ => false

/-- The accesses of sample set `l` since the last epoch ended. -/
def counted (p : TagParams) (bitsOfSets l : Nat) (calls : List HapCall) : Nat :=
  calls.foldl (fun n c => match c with
    | .updateSomething => 0
    | .call _ => if counts p bitsOfSets l c then n + 1 else n) 0

section Epochs
variable {ρ : Type} {div : BitVec 32 → BitVec 32 → ρ} {lt : ρ → ρ → Bool} {p : TagParams} {bitsOfSets : Nat}
  {t t' : Tags HapState} {i : Nat}

/-- The access counters are the same. -/
def SameAccesses (s s' : HapState) : Prop := s'.sc.length = s.sc.length ∧ ∀ l, s'.accesses l = s.accesses l

theorem SameAccesses.refl (s : HapState) : SameAccesses s s := ⟨rfl, fun _ => rfl⟩

variable {s s' : HapState}

theorem SameAccesses.trans {s'' : HapState} (h : SameAccesses s s') (h' : SameAccesses s' s'') : SameAccesses s s'' :=
  ⟨h'.1.trans h.1, fun l => (h'.2 l).trans (h.2 l)⟩

theorem SameAccesses.of_eq (h : s' = s) : SameAccesses s s' := by
  rw [h]
  exact .refl s

theorem modifySample_accesses {low : Nat} {f : SampleCounter → SampleCounter} (t : Tags HapState)
    (hf : ∀ s, (f s).accessCounter = s.accessCounter) : SameAccesses t.policy (modifySample t low f).policy := by
  refine ⟨length_modify .., fun l => ?_⟩
  simp only [modifySample, HapState.accesses, getElem?_modify]
  cases t.policy.sc[l]? with
  | none => rfl
  | some s =>
    split
    · exact hf s
    · rfl

theorem hapAddPcmLine_accesses (t : Tags HapState) (numSet : Nat) (n : Int) :
    SameAccesses t.policy (hapAddPcmLine p bitsOfSets t numSet n).policy := by
  unfold hapAddPcmLine
  simp only
  split
  · exact modifySample_accesses t fun _ => rfl
  · exact ⟨rfl, fun _ => rfl⟩

theorem addCost_accesses (pcmCost : BitVec 32) (t : Tags HapState) (pkt : Packet) (i : Nat) :
    SameAccesses t.policy (addCost p bitsOfSets pcmCost t pkt i).policy := by
  unfold addCost
  simp only
  split
  · exact modifySample_accesses t fun _ => rfl
  · exact .refl _

variable {pkt : Packet}

theorem insertBlock_policy {σ : Type} {t t' : Tags σ} (h : t.insertBlock p pkt i = .ok t') :
    t'.policy = t.policy := by
  obtain ⟨u, hevict, h⟩ := of_bind h
  obtain ⟨_, -, h⟩ := of_bind h
  cases h
  obtain ⟨-, -, -, hpolicy, -⟩ := evict_spec hevict
  show u.policy = t.policy
  rw [hpolicy]
  split <;> rfl

theorem hap_insert_accesses (h : (hap p bitsOfSets).insertBlock t pkt i = .ok t') :
    SameAccesses t.policy t'.policy := by
  have hcounted {u : Tags HapState} (h : insertCounted p (hapAddPcmLine p bitsOfSets) u pkt i = .ok t') :
      SameAccesses u.policy t'.policy := by
    obtain ⟨v, hins, h⟩ := of_bind h
    have hevicted : SameAccesses u.policy v.policy := by
      rw [insertBlock_policy hins]
      split
      · exact hapAddPcmLine_accesses ..
      · exact .refl _
    refine hevicted.trans ?_
    rw [reorder_policy h]
    split
    · exact hapAddPcmLine_accesses ..
    · exact .refl _
  dsimp only [hap] at h
  split at h
  · exact hcounted h
  · exact (addCost_accesses 4 t pkt i).trans (hcounted h)

theorem hap_invalidate_accesses (h : (hap p bitsOfSets).invalidate t i = .ok t') : SameAccesses t.policy t'.policy := by
  obtain ⟨u, hinv, h⟩ := of_bind h
  obtain ⟨-, -, -, hpolicy⟩ := invalidate_spec hinv
  rw [reorder_policy h, hpolicy]
  split
  · exact hapAddPcmLine_accesses ..
  · exact .refl _

/-- An access counts one for its sample set. -/
theorem hap_access_accesses {addr : Nat} {isSecure : Bool} {cmd : MemCmd} {portId : Int} {b : Option Nat}
    (hsc : t.policy.sc.length = 5) (h : (hap p bitsOfSets).accessBlock t addr isSecure cmd portId = .ok (t', b)) :
    t'.policy.sc.length = 5 ∧ ∀ l ≤ 4, t'.policy.accesses l =
      t.policy.accesses l + if counts p bitsOfSets l (.call (.accessBlock addr isSecure cmd portId)) then 1 else 0 := by
  obtain ⟨⟨u, b'⟩, hacc, h⟩ := of_bind h
  have hpolicy : u.policy = t.policy := by
    cases b' with
    | none => rw [accessAndMove_miss hacc]
    | some i => exact reorder_policy (accessAndMove_hit hacc)
  cases h
  split
  · rename_i hcount
    refine ⟨?_, fun l hl => ?_⟩
    · show (u.policy.sc.modify _ _).length = 5
      rw [length_modify, hpolicy, hsc]
    · have hget : t.policy.sc[l]? = some t.policy.sc[l] := getElem?_eq_getElem (by omega)
      simp only [modifySample, HapState.accesses, counts, getElem?_modify, hpolicy, hget]
      by_cases hat : hapLow p bitsOfSets (p.extractSet addr) = l
      · simp [hat, hcount.1]
      · simp [hat]
  · rename_i hcount
    refine ⟨by rw [hpolicy, hsc], fun l hl => ?_⟩
    have hno : counts p bitsOfSets l (.call (.accessBlock addr isSecure cmd portId)) = false := by
      simp only [counts, Bool.and_eq_false_imp, bne_iff_ne, beq_eq_false_iff_ne]
      intro hcmd hat
      exact hcount ⟨hcmd, by omega⟩
    rw [hpolicy, hno]
    simp

/-- The access counters say what was counted. -/
structure Epoch (p : TagParams) (bitsOfSets : Nat) (calls : List HapCall) (t : Tags HapState) : Prop where
  samples : t.policy.sc.length = 5
  accesses : ∀ l ≤ 4, t.policy.accesses l = BitVec.ofNat 32 (counted p bitsOfSets l calls)

theorem Epoch.new (p : TagParams) (bitsOfSets : Nat) : Epoch p bitsOfSets [] (hap p bitsOfSets).new := by
  refine ⟨length_replicate, fun l hl => ?_⟩
  show (((replicate 5 ({} : SampleCounter))[l]?).getD {}).accessCounter = 0
  rw [getElem?_replicate, if_pos (by omega)]
  rfl

theorem counted_call (calls : List HapCall) (c : TagCall) (l : Nat) : counted p bitsOfSets l (calls ++ [.call c]) =
    counted p bitsOfSets l calls + if counts p bitsOfSets l (.call c) then 1 else 0 := by
  rw [counted, foldl_append, foldl_cons, foldl_nil]
  show (if counts p bitsOfSets l (.call c) then counted p bitsOfSets l calls + 1 else counted p bitsOfSets l calls) = _
  split <;> rfl

theorem counted_update (calls : List HapCall) (l : Nat) :
    counted p bitsOfSets l (calls ++ [.updateSomething]) = 0 := by
  rw [counted, foldl_append, foldl_cons, foldl_nil]

variable {calls : List HapCall}

theorem Epoch.same {c : TagCall} (h : Epoch p bitsOfSets calls t)
    (hsame : SameAccesses t.policy t'.policy) (hc : ∀ l, counts p bitsOfSets l (.call c) = false) :
    Epoch p bitsOfSets (calls ++ [.call c]) t' := by
  refine ⟨hsame.1.trans h.samples, fun l hl => ?_⟩
  rw [hsame.2, h.accesses l hl, counted_call, hc]
  rfl

theorem Epoch.step {c : HapCall} (h : Epoch p bitsOfSets calls t)
    (hs : hapCall div lt p bitsOfSets t c = .ok t') : Epoch p bitsOfSets (calls ++ [c]) t' := by
  cases c with
  | updateSomething =>
    obtain ⟨tmpki, -, hs⟩ := of_bind hs
    obtain ⟨first, -, hs⟩ := of_bind hs
    obtain ⟨second, -, hs⟩ := of_bind hs
    cases hs
    refine ⟨?_, fun l hl => ?_⟩
    · show (t.policy.sc.map SampleCounter.reset).length = 5
      rw [length_map, h.samples]
    · have hlen := h.samples
      have hget : t.policy.sc[l]? = some t.policy.sc[l] := getElem?_eq_getElem (by omega)
      rw [counted_update, HapState.accesses]
      show (((t.policy.sc.map SampleCounter.reset)[l]?).getD {}).accessCounter = 0
      rw [getElem?_map, hget, Option.map_some, Option.getD_some, SampleCounter.reset]
      split
      · assumption
      · rfl
  | call c =>
    cases c with
    | accessBlock addr isSecure cmd portId =>
      obtain ⟨⟨u, b⟩, hacc, hu⟩ := of_bind hs
      cases hu
      obtain ⟨hlen, hcount⟩ := hap_access_accesses h.samples hacc
      refine ⟨hlen, fun l hl => ?_⟩
      rw [hcount l hl, h.accesses l hl, counted_call, BitVec.ofNat_add]
      split <;> rfl
    | findVictim addr rand =>
      obtain ⟨⟨u, i⟩, hvictim, hu⟩ := of_bind hs
      cases hu
      exact h.same (.of_eq (by rw [hapFindVictim_same hvictim])) fun _ => rfl
    | insertBlock pkt i =>
      obtain ⟨_, -, hins⟩ := of_bind hs
      exact h.same (hap_insert_accesses hins) fun _ => rfl
    | invalidate i =>
      obtain ⟨_, -, hinv⟩ := of_bind hs
      exact h.same (hap_invalidate_accesses hinv) fun _ => rfl
    | setWarmUp =>
      cases hs
      exact h.same (.refl _) fun _ => rfl
    | block i b =>
      cases hs
      exact h.same (.refl _) fun _ => rfl

theorem epoch_of_run
    (hr : Exec (StepOf (hapCall div lt p bitsOfSets)) (hap p bitsOfSets).new calls t) : Epoch p bitsOfSets calls t := by
  apply hr.history_invariant (Epoch.new p bitsOfSets)
  intro calls t c u h hs
  exact h.step hs

theorem ofNat_eq_zero_iff (n : Nat) : BitVec.ofNat 32 n = 0 ↔ 2 ^ 32 ∣ n := by
  rw [← BitVec.toNat_inj, BitVec.toNat_ofNat, Nat.dvd_iff_mod_eq_zero]
  rfl

/-- Every update of a run is defined exactly when each of the five sample sets has been accessed since the one before
  it; the counters wrap at 2^32. -/
theorem hap_updates_defined_iff (div : BitVec 32 → BitVec 32 → ρ) (lt : ρ → ρ → Bool) (p : TagParams) (bitsOfSets : Nat)
    (calls : List HapCall) : (∀ h t, h ++ [.updateSomething] <+: calls →
      Exec (StepOf (hapCall div lt p bitsOfSets)) (hap p bitsOfSets).new h t →
      ∃ t', hapUpdateSomething div lt p bitsOfSets t = .ok t') ↔
    ∀ h t, h ++ [.updateSomething] <+: calls →
      Exec (StepOf (hapCall div lt p bitsOfSets)) (hap p bitsOfSets).new h t →
      ∀ l ≤ 4, ¬2 ^ 32 ∣ counted p bitsOfSets l h := by
  have hstate (h : List HapCall) (t : Tags HapState)
      (hr : Exec (StepOf (hapCall div lt p bitsOfSets)) (hap p bitsOfSets).new h t) :
      (∃ t', hapUpdateSomething div lt p bitsOfSets t = .ok t') ↔ ∀ l ≤ 4, ¬2 ^ 32 ∣ counted p bitsOfSets l h := by
    have hepoch := epoch_of_run hr
    rw [hapUpdateSomething_ok_iff hepoch.samples]
    apply forall₂_congr
    intro l hl
    rw [hepoch.accesses l hl, ne_eq, ofNat_eq_zero_iff]
  constructor
  · intro hall h t hh hr
    exact (hstate h t hr).mp (hall h t hh hr)
  · intro hall h t hh hr
    exact (hstate h t hr).mpr (hall h t hh hr)

end Epochs

/-- Eight sets of two ways; five of them are sample sets. -/
def eightSets : TagParams := { sixteenSets with setBits := 3 }

/-- A read of a line of sample set `l`. -/
def readOf (l : Nat) : HapCall := .call (.accessBlock (4 * l) false .readReq 0)

/-- The fill of the line of sample set 0. -/
def fillOf : HapCall :=
  .call (.insertBlock { cmd := .readResp, req := { paddr := 0, size := 4, masterId := 0 }, addr := 0, size := 4 } 1)

/-- The division is exact here. -/
def lateUpdate (t : Tags HapState) : Except Stop (Tags HapState) :=
  hapUpdateSomething (fun cost access => cost.toNat / access.toNat) (fun a b => decide (a < b)) eightSets 0 t

/-- Every sample set is read, and the fill for the first of them comes after the end of the epoch: it has a cost then
  and no access, and the assertion fails. -/
theorem late_fill_fails : ∃ t,
    Exec (StepOf (hapCall (fun cost access => cost.toNat / access.toNat) (fun a b => decide (a < b)) eightSets 0))
      (hap eightSets 0).new [readOf 0, readOf 1, readOf 2, readOf 3, readOf 4, .updateSomething, fillOf] t ∧
    lateUpdate t = .error .assertFailed := by
  refine Exec.ends_with (p := fun t => match lateUpdate t with
      | .ok _ => false
      | .error e => decide (e = .assertFailed)) (by decide) fun t hr ht => ?_
  refine ?_
  split at ht
  · cases ht
  · rename_i e he
    rw [he, of_decide_eq_true ht]

end Gem5.Cache
