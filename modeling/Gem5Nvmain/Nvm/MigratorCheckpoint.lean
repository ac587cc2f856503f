import Gem5Nvmain.Lib.Words
import Gem5Nvmain.Nvm.MigrationPages
import Mathlib.Data.Finset.Sort
import Mathlib.Data.Set.Finite.Basic

/- Checkpoints of the migrator.

  `createCheckpoint` writes the entries of the migration map, in the order of their keys, and `restoreCheckpoint`
  inserts what it reads. The states of the migrations are not written, as all are done when no migration is going on;
  but `restoreCheckpoint` does not enter them either. The map comes back as it was (`restore_map`), and no page of it
  is translated: the two migrators agree exactly if nothing has migrated (`checkpoint_agrees`).

  `translate` looks the state up with `operator[]`, which enters a state for a page of the map that has none
  (`lookedUp`). In a migrator that has not been restored all pages of the map have a state. -/
namespace Nvm
open Lib Function List Migrator

variable {g : Geometry} {p : Page}

namespace Migrator
variable {m m' : Migrator} {entries : List (Nat × Nat)} {file : List UInt8}

/-- The elements of the migration map, in the order of its iterator. -/
structure Elements (m : Migrator) (entries : List (Nat × Nat)) : Prop where
  sorted : entries.Pairwise (·.1 < ·.1)
  mem : ∀ k c, (k, c) ∈ entries ↔ m.migrationMap k = some c

def entryBytes (entry : Nat × Nat) : List UInt8 := toBytes 8 entry.1 ++ toBytes 8 entry.2

/-- The file that `CreateCheckpoint` writes. -/
def createCheckpoint (entries : List (Nat × Nat)) : List UInt8 := entries.flatMap entryBytes

/-- `migrationMap.insert`: an entry that is there stays. -/
def insertMapping (m : Migrator) (address channel : Nat) : Migrator :=
  match m.migrationMap address with
  | some _ => m
  | none => { m with migrationMap := update m.migrationMap address (some channel) }

def readMappings : Nat → List UInt8 → Migrator → Migrator
  | 0, _, m => m
  | mappings + 1, file, m =>
    let address := ofBytes (file.take 8)
    let channel := ofBytes ((file.drop 8).take 8)
    readMappings mappings (file.drop 16) (m.insertMapping address channel)

def restoreCheckpoint (m : Migrator) (file : List UInt8) : Migrator := readMappings (file.length / 16) file m

/-- The migrator after `Translate` of an address in the page `p`. -/
def lookedUp (g : Geometry) (m : Migrator) (p : Page) : Migrator :=
  if (m.migrationMap (p.key g)).isSome ∧ m.migrationState (p.key g) = none
  then { m with migrationState := update m.migrationState (p.key g) (some .unknown) } else m

/-- The answers of two migrators on a page. -/
def AgreeOn (g : Geometry) (m m' : Migrator) (p : Page) : Prop :=
  m'.translate g p = m.translate g p ∧ m'.isMigrated g p = m.isMigrated g p ∧ m'.isBuffered g p = m.isBuffered g p

/-! ## What a restored migrator knows -/

theorem insertMapping_state (m : Migrator) (k c : Nat) : (m.insertMapping k c).migrationState = m.migrationState := by
  unfold insertMapping
  split <;> rfl

theorem readMappings_state (n : Nat) (file : List UInt8) (m : Migrator) :
    (readMappings n file m).migrationState = m.migrationState := by
  induction n generalizing file m with
  | zero => rfl
  | succ n ih => exact (ih _ _).trans (insertMapping_state m _ _)

/-- No migration is known of. -/
def NoState (m : Migrator) : Prop := ∀ k, m.migrationState k = none ∨ m.migrationState k = some .unknown

theorem NoState.restored (file : List UInt8) : NoState (restoreCheckpoint {} file) :=
  fun k => .inl (congrFun (readMappings_state _ file {}) k)

theorem NoState.lookedUp (h : NoState m) (p : Page) : NoState (m.lookedUp g p) := by
  intro k
  unfold Migrator.lookedUp
  split
  · obtain rfl | hk := eq_or_ne k (p.key g)
    · exact .inr (update_self _ _ _)
    · exact (h k).imp (update_of_ne hk _ _).trans (update_of_ne hk _ _).trans
  · exact h k

theorem NoState.all (h : NoState m) (pages : List Page) : NoState (pages.foldl (Migrator.lookedUp g) m) := by
  induction pages generalizing m with
  | nil => exact h
  | cons p pages ih => exact ih (h.lookedUp p)

theorem NoState.translate (h : NoState m) (p : Page) : m.translate g p = p := by
  apply translate_of_ne
  intro hdone
  obtain hk | hk := h (p.key g) <;> rw [hk] at hdone <;> cases hdone

theorem NoState.isMigrated (h : NoState m) (p : Page) : m.isMigrated g p = false := by
  unfold Migrator.isMigrated
  obtain hk | hk := h (p.key g) <;> simp [hk]

theorem NoState.isBuffered (h : NoState m) (p : Page) : m.isBuffered g p = false := by
  unfold Migrator.isBuffered
  obtain hk | hk := h (p.key g) <;> simp [hk]

/-! ## The map comes back -/

theorem length_entryBytes (e : Nat × Nat) : (entryBytes e).length = 16 := by
  simp [entryBytes]

theorem length_createCheckpoint (entries : List (Nat × Nat)) : (createCheckpoint entries).length = 16 * entries.length := by
  induction entries with
  | nil => rfl
  | cons e entries ih =>
    show (entryBytes e ++ createCheckpoint entries).length = _
    rw [length_append, length_entryBytes, ih, length_cons]
    omega

/-- The entries that are read are those that were written, as far as they are words. -/
theorem readMappings_create (hlt : ∀ e ∈ entries, e.1 < 256 ^ 8 ∧ e.2 < 256 ^ 8) :
    readMappings entries.length (createCheckpoint entries) m = entries.foldl (fun m e => m.insertMapping e.1 e.2) m := by
  induction entries generalizing m with
  | nil => rfl
  | cons e entries ih =>
    obtain ⟨haddress, hchannel⟩ := hlt e mem_cons_self
    have hfile : createCheckpoint (e :: entries) = toBytes 8 e.1 ++ (toBytes 8 e.2 ++ createCheckpoint entries) := by
      show (toBytes 8 e.1 ++ toBytes 8 e.2) ++ createCheckpoint entries = _
      rw [append_assoc]
    have hdrop : (createCheckpoint (e :: entries)).drop 8 = toBytes 8 e.2 ++ createCheckpoint entries := by
      rw [hfile, drop_left' length_toBytes]
    have hread₁ : ofBytes ((createCheckpoint (e :: entries)).take 8) = e.1 := by
      rw [hfile, take_left' length_toBytes, ofBytes_toBytes_of_lt haddress]
    have hread₂ : ofBytes (((createCheckpoint (e :: entries)).drop 8).take 8) = e.2 := by
      rw [hdrop, take_left' length_toBytes, ofBytes_toBytes_of_lt hchannel]
    have hrest : (createCheckpoint (e :: entries)).drop 16 = createCheckpoint entries := by
      rw [show (16 : Nat) = 8 + 8 from rfl, ← drop_drop, hdrop, drop_left' length_toBytes]
    calc
      readMappings (e :: entries).length (createCheckpoint (e :: entries)) m
          = readMappings entries.length ((createCheckpoint (e :: entries)).drop 16)
              (m.insertMapping (ofBytes ((createCheckpoint (e :: entries)).take 8))
                (ofBytes (((createCheckpoint (e :: entries)).drop 8).take 8))) := rfl
      _ = readMappings entries.length (createCheckpoint entries) (m.insertMapping e.1 e.2) := by
        rw [hread₁, hread₂, hrest]
      _ = entries.foldl (fun m e => m.insertMapping e.1 e.2) (m.insertMapping e.1 e.2) :=
        ih fun e he => hlt e (mem_cons_of_mem _ he)

/-- The entries are new, and are all there in the end. -/
theorem foldl_insertMapping {k : Nat} (hs : entries.Pairwise (·.1 < ·.1)) (hnew : ∀ e ∈ entries, m.migrationMap e.1 = none) :
    (entries.foldl (fun m e => m.insertMapping e.1 e.2) m).migrationMap k =
      match entries.find? (·.1 = k) with
      | some e => some e.2
      | none => m.migrationMap k := by
  induction entries generalizing m with
  | nil => rfl
  | cons e entries ih =>
    obtain ⟨hlt, hs⟩ := pairwise_cons.mp hs
    have hinsert : (m.insertMapping e.1 e.2).migrationMap = update m.migrationMap e.1 (some e.2) := by
      unfold insertMapping
      rw [hnew e mem_cons_self]
    have hnew' : ∀ e' ∈ entries, (m.insertMapping e.1 e.2).migrationMap e'.1 = none := by
      intro e' he'
      rw [hinsert, update_of_ne (Nat.ne_of_gt (hlt e' he'))]
      exact hnew e' (mem_cons_of_mem _ he')
    rw [foldl_cons, ih hs hnew', hinsert, find?_cons]
    obtain rfl | hk := eq_or_ne e.1 k
    · have hnone : entries.find? (·.1 = e.1) = none := by
        rw [find?_eq_none]
        intro e' he'
        simpa using Nat.ne_of_gt (hlt e' he')
      rw [hnone]
      simp
    · rw [decide_eq_false hk, update_of_ne hk.symm]

/-- What is restored is the map. -/
theorem restore_map (he : m.Elements entries) (hlt : ∀ e ∈ entries, e.1 < 256 ^ 8 ∧ e.2 < 256 ^ 8) :
    (restoreCheckpoint {} (createCheckpoint entries)).migrationMap = m.migrationMap := by
  have hcount : (createCheckpoint entries).length / 16 = entries.length := by
    rw [length_createCheckpoint]
    omega
  unfold restoreCheckpoint
  rw [hcount, readMappings_create hlt]
  funext k
  rw [foldl_insertMapping he.sorted fun _ _ => rfl]
  cases hfind : entries.find? (·.1 = k) with
  | some e =>
    have hk : e.1 = k := by simpa using find?_some hfind
    have hmem := (he.mem e.1 e.2).mp (mem_of_find?_eq_some hfind)
    rw [← hk, hmem]
  | none =>
    rw [find?_eq_none] at hfind
    cases hmap : m.migrationMap k with
    | none => rfl
    | some c => simpa using hfind (k, c) ((he.mem k c).mpr hmap)

theorem restore_map_one : (restoreCheckpoint {} (createCheckpoint [(7, 1)])).migrationMap = update (fun _ => none) 7 (some 1) := by
  refine restore_map (m := { migrationMap := update (fun _ => none) 7 (some 1) }) ⟨pairwise_singleton .., fun k c => ?_⟩ (by decide)
  by_cases hk : k = 7 <;> simp [hk, eq_comm]

/-- A map of finitely many entries has its elements. -/
theorem exists_elements (hfin : {k | m.migrationMap k ≠ none}.Finite) : ∃ entries, m.Elements entries := by
  let keys := hfin.toFinset.sort (· ≤ ·)
  refine ⟨keys.filterMap fun k => (m.migrationMap k).map (k, ·), ?_, fun k c => ?_⟩
  · refine List.Pairwise.filterMap _ ?_ (Finset.sortedLT_sort hfin.toFinset).pairwise
    intro k j hkj e he f hf
    obtain ⟨c, -, rfl⟩ := Option.map_eq_some_iff.mp he
    obtain ⟨d, -, rfl⟩ := Option.map_eq_some_iff.mp hf
    exact hkj
  · rw [mem_filterMap]
    constructor
    · rintro ⟨j, -, hj⟩
      obtain ⟨d, hd, heq⟩ := Option.map_eq_some_iff.mp hj
      obtain ⟨rfl, rfl⟩ := Prod.mk.inj heq
      exact hd
    · intro hk
      refine ⟨k, ?_, by rw [hk]; rfl⟩
      rw [Finset.mem_sort, Set.Finite.mem_toFinset, Set.mem_ofPred_eq, hk]
      exact Option.some_ne_none c

end Migrator

namespace CoinMigrator
variable {s s' : CoinMigrator} {op : Op} {ops : List Op} {entries : List (Nat × Nat)}

/-- The map is finite, and when it is not empty a page of the memory is in it. -/
structure Occupied (g : Geometry) (s : CoinMigrator) : Prop where
  inv : s.Inv g
  finite : {k | s.migrator.migrationMap k ≠ none}.Finite
  page : (∀ k, s.migrator.migrationMap k = none) ∨ ∃ p : Page, p.Within g ∧ (s.migrator.migrationMap (p.key g)).isSome

theorem Occupied.init : Occupied g {} :=
  ⟨Inv.init, Set.Finite.subset Set.finite_empty fun _ h => absurd rfl h, .inl fun _ => rfl⟩

theorem Occupied.step (h : Occupied g s) (hs : s.step g op = .ok s') : Occupied g s' := by
  have hinv := h.inv.run (.one hs)
  have hmap := h.inv.step_map hs
  cases hstarts : op.starts g s with
  | none =>
    rw [hstarts] at hmap
    refine ⟨hinv, ?_, ?_⟩ <;> rw [hmap]
    · exact h.finite
    · exact h.page
  | some p =>
    rw [hstarts] at hmap
    obtain ⟨hstart, hmap⟩ := hmap
    rw [started_map] at hmap
    refine ⟨hinv, ?_, .inr ⟨p, hstart.within, ?_⟩⟩ <;> rw [hmap]
    · refine (((h.finite.insert (p.key g)).insert ((victim g s.currentPromotionPage).key g))).subset fun k hk => ?_
      by_contra hout
      simp only [Set.mem_insert_iff, not_or] at hout
      rw [Set.mem_ofPred_eq, update_of_ne hout.1, update_of_ne hout.2.1] at hk
      exact hout.2.2 hk
    · have hkeys : p.key g ≠ (victim g s.currentPromotionPage).key g :=
        Page.key_ne hstart.within.2.2.1 g.promotion_lt hstart.slow
      rw [update_of_ne hkeys, update_self]
      rfl

theorem Occupied.of_run (hr : Exec (StepOf (CoinMigrator.step g)) {} ops s) : Occupied g s :=
  hr.invariant Occupied.init fun _ _ _ h hs => h.step hs

/-- The migrator of a checkpoint, after `Translate` of addresses in the pages `looked`. -/
def restored (g : Geometry) (entries : List (Nat × Nat)) (looked : List Page) : Migrator :=
  looked.foldl (lookedUp g) (restoreCheckpoint {} (createCheckpoint entries))

theorem restored_noState (looked : List Page) : (restored g entries looked).NoState :=
  (Migrator.NoState.restored _).all looked

/-- When no migration is going on, the restored migrator agrees with the one that was saved exactly if no page has
  migrated. -/
theorem checkpoint_agrees (hr : Exec (StepOf (step g)) {} ops s) (hm : s.migrator.migrating = false)
    (_he : s.migrator.Elements entries) :
    (∀ looked p, p.Within g → s.migrator.AgreeOn g (restored g entries looked) p) ↔
      ∀ k, s.migrator.migrationMap k = none := by
  have h : Occupied g s := Occupied.of_run hr
  constructor
  · intro hagree
    obtain hempty | ⟨p, hp, hsome⟩ := h.page
    · exact hempty
    · have hfalse : s.migrator.isMigrated g p = false :=
        (hagree [] p hp).2.1.symm.trans ((restored_noState []).isMigrated p)
      obtain hrest | ⟨x, y, a, b, hbusy, -⟩ := h.inv.phase
      · rw [hrest.map_none h.inv.wf hfalse] at hsome
        cases hsome
      · rw [hbusy.migrating] at hm
        cases hm
  · intro hempty looked p _
    have hno : (restored g entries looked).NoState := restored_noState looked
    refine ⟨?_, ?_, ?_⟩
    · rw [hno.translate]
      unfold Migrator.translate
      rw [hempty]
    · rw [hno.isMigrated]
      unfold isMigrated
      rw [hempty]
      rfl
    · rw [hno.isBuffered]
      unfold isBuffered
      rw [hempty]
      rfl

theorem checkpoint_agrees_fresh : ∃ s entries, Exec (StepOf (step twoRows)) {} [] s ∧ s.migrator.migrating = false ∧
    s.migrator.Elements entries ∧ ∀ looked p, p.Within twoRows → s.migrator.AgreeOn twoRows (restored twoRows entries looked) p := by
  have he : ({} : Migrator).Elements [] := ⟨List.Pairwise.nil, fun _ _ => ⟨nofun, nofun⟩⟩
  exact ⟨{}, [], .nil, rfl, he, (checkpoint_agrees .nil rfl he).mpr fun _ => rfl⟩

/-- One page has migrated; after the restore it is not translated. -/
theorem checkpoint_forgets : ∃ s entries, Exec (StepOf (step twoRows)) {} [tossedRow 0] s ∧ s.migrator.migrating = false ∧
    s.migrator.Elements entries ∧ ¬ s.migrator.AgreeOn twoRows (restored twoRows entries []) ⟨0, 0, 0, 1, 0⟩ := by
  refine Exec.ends_with_two (p := fun s => !s.migrator.migrating && s.migrator.isMigrated twoRows ⟨0, 0, 0, 1, 0⟩)
    (by decide) fun s hs hp => ?_
  rw [Bool.and_eq_true, Bool.not_eq_true'] at hp
  obtain ⟨entries, he⟩ := exists_elements (Occupied.of_run hs).finite
  refine ⟨entries, hp.1, he, fun hagree => ?_⟩
  have hmigrated := hagree.2.1
  rw [hp.2, (restored_noState []).isMigrated] at hmigrated
  cases hmigrated

end CoinMigrator

end Nvm
