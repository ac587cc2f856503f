import Gem5Nvmain.Nvm.Migrator
import Mathlib.Tactic.Ring

/- The state machine of a migration.

  While a migration is going on, each of its two requests has a leg (`Leg`): its read is in flight or complete, then
  its write waits for the controller, is in flight or has landed. `Busy` says what the state of the migrator, the
  flags and the requests in flight are for the two legs, and `Rest` what they are when no migration is going on.

  From either, no assertion can fail, but for the one on the victim: the cursor circles round the fast memory, and
  comes back to pages that have already migrated. An assertion fails exactly if the coin asks for a migration when the
  page under the cursor is one of these (`no_assertion`, `victim_migrated`). -/
namespace Nvm
open Lib Function List Migrator

variable {g : Geometry} {p q : Page} {k : Nat}

theorem Page.key_mod (hp : p.channel < g.channels) : p.key g % g.channels = p.channel := by
  have hkey : p.key g = p.channel + g.channels * (p.row * g.banks * g.ranks * g.subarrays + p.bank * g.ranks * g.subarrays +
      p.rank * g.subarrays + p.subarray) := by
    unfold key
    ring
  rw [hkey, Nat.add_mul_mod_self_left, Nat.mod_eq_of_lt hp]

theorem Page.key_ne (hp : p.channel < g.channels) (hq : q.channel < g.channels) (h : p.channel ≠ q.channel) :
    p.key g ≠ q.key g := by
  intro hkey
  rw [← key_mod hp, ← key_mod hq, hkey] at h
  exact h rfl

namespace Migrator
variable {m m' : Migrator} {st : MigrationState}

/-- The pages of the map are those with a state, and the new channels are channels. -/
structure WF (g : Geometry) (m : Migrator) : Prop where
  domain : ∀ k, (m.migrationMap k).isSome = (m.migrationState k).isSome
  channel : ∀ k c, m.migrationMap k = some c → c < g.channels

theorem WF.init : WF g {} := ⟨fun _ => rfl, nofun⟩

theorem WF.translate_lt (h : m.WF g) (hp : p.channel < g.channels) : (m.translate g p).channel < g.channels := by
  unfold translate
  split
  next c hc =>
    split
    · exact h.channel _ c hc
    · exact hp
  · exact hp

theorem setMigrationState_eq {old : MigrationState} (st : MigrationState) (hold : m.migrationState (p.key g) = some old)
    (hne : old ≠ st) : m.setMigrationState g p st = .ok (m.enter (p.key g) st) := by
  unfold setMigrationState
  rw [hold]
  show (require (decide (old ≠ st)) >>= fun _ => _) = _
  rw [decide_eq_true hne]
  rfl

theorem enter_state (m : Migrator) (k : Nat) (st : MigrationState) :
    (m.enter k st).migrationState = update m.migrationState k (some st) := rfl

theorem WF.enter (h : m.WF g) (hk : (m.migrationState k).isSome) : (m.enter k st).WF g := by
  refine ⟨fun j => ?_, h.channel⟩
  rw [enter_state]
  obtain rfl | hne := eq_or_ne j k
  · rw [update_self]
    exact (h.domain j).trans hk
  · rw [update_of_ne hne]
    exact h.domain j

section Pages
variable {j : Nat} {other : MigrationState} (hkj : k ≠ j)
  (hpages : m.inputPage = k ∧ m.outputPage = j ∨ m.inputPage = j ∧ m.outputPage = k)
  (hj : m.migrationState j = some other)
include hkj hpages hj

theorem enter_migrating (h : ¬ (st = .done ∧ other = .done)) : (m.enter k st).migrating = m.migrating := by
  have hk : update m.migrationState k (some st) k = some st := update_self _ _ _
  have hother : update m.migrationState k (some st) j = some other := by rw [update_of_ne hkj.symm, hj]
  refine if_neg fun hboth => h ?_
  obtain ⟨hin, hout⟩ | ⟨hin, hout⟩ := hpages
  · rw [hin, hout, hk, hother] at hboth
    exact ⟨Option.some.inj hboth.1, Option.some.inj hboth.2⟩
  · rw [hin, hout, hk, hother] at hboth
    exact ⟨Option.some.inj hboth.2, Option.some.inj hboth.1⟩

theorem enter_done (h : other = .done) : (m.enter k .done).migrating = false := by
  have hk : update m.migrationState k (some .done) k = some .done := update_self _ _ _
  have hother : update m.migrationState k (some .done) j = some .done := by rw [update_of_ne hkj.symm, hj, h]
  refine if_pos ?_
  obtain ⟨hin, hout⟩ | ⟨hin, hout⟩ := hpages <;> rw [hin, hout]
  · exact ⟨hk, hother⟩
  · exact ⟨hother, hk⟩

/-- The answer to a write: its page goes from the buffer to the write, or stays. -/
theorem answered (hw : m.WF g) (hp : p.key g = k) (hk : m.migrationState k = some .buffered)
    (issued : Bool) : ∃ m', m.writingIf g issued p = .ok m' ∧ m'.WF g ∧
      m'.migrating = m.migrating ∧ m'.inputPage = m.inputPage ∧ m'.outputPage = m.outputPage ∧
      m'.migrationState = update m.migrationState k (some (if issued then .writing else .buffered)) := by
  subst hp
  cases issued with
  | true =>
    refine ⟨_, (if_pos rfl).trans (setMigrationState_eq _ hk (by decide)), hw.enter (by rw [hk]; rfl), ?_, rfl, rfl, rfl⟩
    exact enter_migrating hkj hpages hj fun hboth => nomatch hboth.1
  | false => exact ⟨m, rfl, hw, rfl, rfl, rfl, (update_eq_self_iff.mpr hk.symm).symm⟩

end Pages

theorem WF.isMigrated_iff (h : m.WF g) : m.isMigrated g p = true ↔ m.migrationState (p.key g) = some .done := by
  unfold isMigrated
  rw [h.domain]
  simp only [Bool.and_eq_true, decide_eq_true_eq]
  exact ⟨fun h => h.2, fun h => ⟨by rw [h]; rfl, h⟩⟩

theorem WF.isBuffered_iff (h : m.WF g) : m.isBuffered g p = true ↔
    m.migrationState (p.key g) = some .buffered ∨ m.migrationState (p.key g) = some .writing := by
  unfold isBuffered
  rw [h.domain]
  simp only [Bool.and_eq_true, Bool.or_eq_true, decide_eq_true_eq]
  refine ⟨fun h => h.2, fun h => ⟨?_, h⟩⟩
  obtain h | h := h <;> rw [h] <;> rfl

/-- The migrator after `StartMigration`. -/
def started (g : Geometry) (m : Migrator) (promotee demotee : Page) : Migrator where
  migrationMap := update (update m.migrationMap (promotee.key g) (some demotee.channel)) (demotee.key g) (some promotee.channel)
  migrationState := update (update m.migrationState (promotee.key g) (some .reading)) (demotee.key g) (some .reading)
  migrating := true
  inputPage := promotee.key g
  outputPage := demotee.key g

theorem started_map (m : Migrator) (p q : Page) : (m.started g p q).migrationMap =
    update (update m.migrationMap (p.key g) (some q.channel)) (q.key g) (some p.channel) := rfl

theorem started_state (m : Migrator) (p q : Page) : (m.started g p q).migrationState =
    update (update m.migrationState (p.key g) (some .reading)) (q.key g) (some .reading) := rfl

theorem startMigration_eq (h : m.migrating = false) : m.startMigration g p q = .ok (m.started g p q) := by
  unfold startMigration
  rw [h]
  rfl

theorem WF.started (h : m.WF g) (hp : p.channel < g.channels) (hq : q.channel < g.channels) : (m.started g p q).WF g := by
  refine ⟨fun k => ?_, fun k c hc => ?_⟩
  · rw [started_map, started_state]
    obtain rfl | hq := eq_or_ne k (q.key g)
    · rw [update_self, update_self]
      rfl
    · rw [update_of_ne hq, update_of_ne hq]
      obtain rfl | hp := eq_or_ne k (p.key g)
      · rw [update_self, update_self]
        rfl
      · rw [update_of_ne hp, update_of_ne hp]
        exact h.domain k
  · rw [started_map] at hc
    obtain rfl | hkq := eq_or_ne k (q.key g)
    · rw [update_self] at hc
      cases hc
      exact hp
    · rw [update_of_ne hkq] at hc
      obtain rfl | hkp := eq_or_ne k (p.key g)
      · rw [update_self] at hc
        cases hc
        exact hq
      · rw [update_of_ne hkp] at hc
        exact h.channel k c hc

theorem started_promotee (h : p.key g ≠ q.key g) : (m.started g p q).migrationState (p.key g) = some .reading := by
  rw [started_state, update_of_ne h, update_self]

theorem started_demotee : (m.started g p q).migrationState (q.key g) = some .reading := update_self _ _ _

theorem started_other (hp : k ≠ p.key g) (hq : k ≠ q.key g) : (m.started g p q).migrationState k = m.migrationState k := by
  rw [started_state, update_of_ne hq, update_of_ne hp]

theorem translate_of_ne (h : m.migrationState (p.key g) ≠ some .done) : m.translate g p = p := by
  unfold translate
  split
  · rw [if_neg h]
  · rfl

end Migrator

/-- How far a request of the migration has come. -/
inductive Leg where
  | unread
  | read
  | waiting
  | flying
  | landed
  deriving DecidableEq, Repr

namespace Leg

/-- The request of the leg is in the memory. -/
def inFlight : Leg → Bool
  | unread | flying => true
  | read | waiting | landed => false

/-- The request is a read, and its address is the page's own. -/
def tag : Leg → MigrationTag
  | unread | read => .read
  | waiting | flying | landed => .write

/-- The states of the page that the request reads or writes. -/
def allows : Leg → MigrationState → Prop
  | unread, st => st = .reading
  | read, st => st = .buffered
  | waiting, st => st = .buffered
  | flying, st => st = .buffered ∨ st = .writing
  | landed, st => st = .done

/-- Both legs are reads, or writes that have not both landed. -/
def Together (x y : Leg) : Prop := x.tag = y.tag ∧ ¬ (x = landed ∧ y = landed)

theorem allows_done {x : Leg} (h : x.allows .done) : x = landed := by
  cases x with
  | unread | read | waiting => cases h
  | flying => exact absurd h (by simp [allows])
  | landed => rfl

theorem eq_flying {x : Leg} (hx : x.inFlight = true) (ht : x.tag = .write) : x = flying := by
  cases x <;> simp_all [inFlight, tag]

theorem eq_unread {x : Leg} (hx : x.inFlight = true) (ht : x.tag = .read) : x = unread := by
  cases x <;> simp_all [inFlight, tag]

theorem unread_or_read {x : Leg} (ht : x.tag = .read) : x = unread ∨ x = read := by
  cases x <;> simp_all [tag]

/-- The leg of a write that the controller took or refused. -/
def written (issued : Bool) : Leg := if issued then flying else waiting

theorem written_allows (issued : Bool) : (written issued).allows (if issued then .writing else .buffered) := by
  cases issued
  · rfl
  · exact .inr rfl

/-- The leg when a write that waits is tried again. -/
def retried (issued : Bool) (x : Leg) : Leg := if x = waiting then written issued else x

theorem retried_tag (issued : Bool) (x : Leg) : (x.retried issued).tag = x.tag := by
  cases x <;> cases issued <;> rfl

variable {issued : Bool}

theorem retried_allows {x : Leg} {st : MigrationState} (h : x.allows st) : (x.retried issued).allows st := by
  cases x with
  | waiting =>
    cases issued
    · exact h
    · exact .inl h
  | unread | read | flying | landed => exact h

theorem retried_landed {x : Leg} (h : x.retried issued = landed) : x = landed := by
  cases x <;> cases issued <;> first | rfl | cases h

theorem retried_read {x : Leg} (h : x.retried issued = read) : x = read := by
  cases x <;> cases issued <;> first | rfl | cases h

theorem retried_waiting (issued : Bool) (x : Leg) :
    decide (x.retried issued = waiting) = (decide (x = waiting) && !issued) := by
  cases x <;> cases issued <;> rfl

theorem retried_flight (issued : Bool) (x : Leg) (r : MigrationRequest) :
    (if (x.retried issued).inFlight then [r] else []) =
      (if x.inFlight then [r] else []) ++ if decide (x = waiting) && issued then [r] else [] := by
  cases x <;> cases issued <;> rfl

end Leg

namespace CoinMigrator
variable {s s' : CoinMigrator} {x y : Leg} {a b r : MigrationRequest} {ops : List Op}

/-- The requests in flight, `a` with the leg `x` and `b` with the leg `y`. -/
def flights (x y : Leg) (a b : MigrationRequest) : List MigrationRequest :=
  (if x.inFlight then [a] else []) ++ (if y.inFlight then [b] else [])

/-- A migration is going on: `a` is the request of the promotion, and `b` the one of the demotion. -/
structure Busy (g : Geometry) (s : CoinMigrator) (x y : Leg) (a b : MigrationRequest) : Prop where
  migrating : s.migrator.migrating = true
  input : s.migrator.inputPage = s.promotee.key g
  output : s.migrator.outputPage = s.demotee.key g
  keys : s.promotee.key g ≠ s.demotee.key g
  others : ∀ k, k ≠ s.promotee.key g → k ≠ s.demotee.key g → ∀ st, s.migrator.migrationState k = some st → st = .done
  together : x.Together y
  promo : s.promoRequest = some a
  demo : s.demoRequest = some b
  ids : a.id ≠ b.id
  created : a.id < s.created ∧ b.id < s.created
  tags : a.tag = x.tag ∧ b.tag = y.tag
  addresses : (a.address, b.address) = if x.tag = .read then (s.promotee, s.demotee) else (s.demotee, s.promotee)
  promoState : ∃ st, s.migrator.migrationState (a.address.key g) = some st ∧ x.allows st
  demoState : ∃ st, s.migrator.migrationState (b.address.key g) = some st ∧ y.allows st
  inFlight : s.inFlight.Perm (flights x y a b)
  promoBuffered : s.promoBuffered = decide (x = .waiting)
  demoBuffered : s.demoBuffered = decide (y = .waiting)

/-- No migration is going on. -/
structure Rest (s : CoinMigrator) : Prop where
  migrating : s.migrator.migrating = false
  done : ∀ k st, s.migrator.migrationState k = some st → st = .done
  inFlight : s.inFlight = []
  promoBuffered : s.promoBuffered = false
  demoBuffered : s.demoBuffered = false

structure Inv (g : Geometry) (s : CoinMigrator) : Prop where
  wf : s.migrator.WF g
  phase : Rest s ∨ ∃ x y a b, Busy g s x y a b ∧ ¬ (x = .read ∧ y = .read)

theorem Inv.init : Inv g {} := ⟨Migrator.WF.init, .inl ⟨rfl, nofun, rfl, rfl, rfl⟩⟩

/-! ## Requests -/

/-- The coin does not ask for a migration when the victim has already migrated. -/
def Op.freshVictim (g : Geometry) (s : CoinMigrator) : Op → Bool
  | .request page .postIssue _ toss =>
    !(decide (page.Within g) && s.migrationPossible g (s.migrator.translate g page) && toss.coin &&
      s.migrator.isMigrated g (victim g s.currentPromotionPage))
  | _ => true

/-- The state when the pages of a migration are chosen. -/
def chosen (g : Geometry) (s : CoinMigrator) (address : Page) : CoinMigrator :=
  { s with
    promotee := address
    demotee := victim g s.currentPromotionPage
    currentPromotionPage := (s.currentPromotionPage + 1) % totalPromotionPages g }

variable {address : Page} {atomic : Bool} {toss : Toss}

theorem migrate_eq (hv : s.migrator.isMigrated g (victim g s.currentPromotionPage) = false)
    (hm : s.migrator.isMigrated g address = false) : s.migrate g address atomic toss =
      if atomic then do
        let m ← s.migrator.startMigration g address (victim g s.currentPromotionPage)
        let m ← m.setMigrationState g address .done
        let m ← m.setMigrationState g (victim g s.currentPromotionPage) .done
        pure { s.chosen g address with migrator := m }
      else if toss.promoIssuable && toss.demoIssuable then do
        let m ← s.migrator.startMigration g address (victim g s.currentPromotionPage)
        pure (issueReads g { s.chosen g address with migrator := m })
      else pure (s.chosen g address) := by
  unfold migrate
  simp only [hv, hm]
  rfl

theorem migrate_victim (hv : s.migrator.isMigrated g (victim g s.currentPromotionPage) = true) :
    s.migrate g address atomic toss = .error .assertFailed := by
  unfold migrate
  simp only [hv]
  rfl

/-- From rest, a migration starts with no assertion that fails. -/
theorem Rest.migrate (h : Rest s) (hw : s.migrator.WF g) (atomic : Bool) (toss : Toss)
    (ha : address.channel < g.channels) (hne : address.channel ≠ g.promotionChannel)
    (hv : s.migrator.isMigrated g (victim g s.currentPromotionPage) = false)
    (hm : s.migrator.isMigrated g address = false) : ∃ s', s.migrate g address atomic toss = .ok s' ∧ s'.Inv g := by
  set v := victim g s.currentPromotionPage
  have hvc : (v).channel < g.channels := g.promotion_lt
  have hkeys : address.key g ≠ (v).key g := Page.key_ne ha hvc hne
  have hwf := hw.started ha hvc
  have hpromo := started_promotee (m := s.migrator) hkeys
  have hdemo := started_demotee (m := s.migrator) (p := address) (q := v) (g := g)
  have hothers : ∀ k, k ≠ address.key g → k ≠ (v).key g → ∀ st,
      (s.migrator.started g address (v)).migrationState k = some st → st = .done := by
    intro k hp hd st hst
    rw [started_other hp hd] at hst
    exact h.done k st hst
  rw [migrate_eq hv hm]
  cases atomic with
  | true =>
    -- The promotee is done while the victim is still being read; then both are.
    have hsecond : ((s.migrator.started g address (v)).enter (address.key g) .done).migrationState
        ((v).key g) = some .reading := by
      rw [enter_state, update_of_ne hkeys.symm, hdemo]
    rw [if_pos rfl, startMigration_eq h.migrating, bind_ok, setMigrationState_eq _ hpromo (by decide), bind_ok,
      setMigrationState_eq _ hsecond (by decide), bind_ok]
    refine ⟨_, rfl, (hwf.enter (by rw [hpromo]; rfl)).enter (by rw [hsecond]; rfl), .inl ⟨?_, fun k st hst => ?_, h.inFlight,
      h.promoBuffered, h.demoBuffered⟩⟩
    · refine enter_done hkeys.symm (.inr ⟨rfl, rfl⟩) ?_ rfl
      exact update_self _ _ _
    · replace hst : update (update (s.migrator.started g address (v)).migrationState
          (address.key g) (some .done)) ((v).key g) (some .done) k = some st := hst
      obtain rfl | hd := eq_or_ne k ((v).key g)
      · rw [update_self] at hst
        cases hst
        rfl
      · rw [update_of_ne hd] at hst
        obtain rfl | hp := eq_or_ne k (address.key g)
        · rw [update_self] at hst
          cases hst
          rfl
        · rw [update_of_ne hp] at hst
          exact hothers k hp hd st hst
  | false =>
    rw [if_neg (by decide)]
    split
    · rw [startMigration_eq h.migrating, bind_ok]
      have htp : (s.migrator.started g address (v)).translate g address = address :=
        translate_of_ne (by rw [hpromo]; decide)
      have htd : (s.migrator.started g address (v)).translate g
          (v) = v :=
        translate_of_ne (by rw [hdemo]; decide)
      refine ⟨_, rfl, hwf, .inr ⟨.unread, .unread, ⟨s.created, address, .read⟩,
        ⟨s.created + 1, v, .read⟩, ?_, nofun⟩⟩
      refine ⟨rfl, rfl, rfl, hkeys, hothers, ⟨rfl, nofun⟩, ?_, ?_, Nat.ne_of_lt (Nat.lt_succ_self _),
        ⟨by show s.created < s.created + 2; omega, Nat.lt_succ_self _⟩, ⟨rfl, rfl⟩, rfl, ⟨_, hpromo, rfl⟩, ⟨_, hdemo, rfl⟩,
        ?_, h.promoBuffered, h.demoBuffered⟩
      · exact congrArg (fun q => some (MigrationRequest.mk s.created q .read)) htp
      · exact congrArg (fun q => some (MigrationRequest.mk (s.created + 1) q .read)) htd
      · show (s.inFlight ++
          [MigrationRequest.mk s.created
              ((s.migrator.started g address (v)).translate g address) .read,
            MigrationRequest.mk (s.created + 1)
              ((s.migrator.started g address (v)).translate g
                (v)) .read]).Perm _
        rw [h.inFlight, htp, htd]
        exact List.Perm.refl _
    · exact ⟨_, rfl, hw, .inl ⟨h.migrating, h.done, h.inFlight, h.promoBuffered, h.demoBuffered⟩⟩

theorem Inv.request (h : s.Inv g) {page : Page} (hook : HookType) (atomic : Bool) (toss : Toss) (hp : page.Within g) :
    ((Op.request page hook atomic toss).freshVictim g s = true →
      ∃ s', s.step g (.request page hook atomic toss) = .ok s' ∧ s'.Inv g) ∧
    ((Op.request page hook atomic toss).freshVictim g s = false →
      s.step g (.request page hook atomic toss) = .error .assertFailed) := by
  have hlt := h.wf.translate_lt hp.2.2.1
  unfold step
  simp only [if_pos hp]
  cases hook with
  | preIssue => exact ⟨fun _ => ⟨s, rfl, h⟩, nofun⟩
  | postIssue =>
    unfold tryMigration Op.freshVictim
    simp only [decide_eq_true hp]
    by_cases hposs : s.migrationPossible g (s.migrator.translate g page) = true
    · rw [if_pos hposs, hposs, Bool.true_and]
      unfold migrationPossible at hposs
      simp only [Bool.and_eq_true, Bool.not_eq_true', decide_eq_true_eq] at hposs
      obtain ⟨⟨hmig, hm⟩, hne⟩ := hposs
      have hrest : Rest s := by
        obtain hrest | ⟨x, y, a, b, hbusy, -⟩ := h.phase
        · exact hrest
        · rw [hbusy.migrating] at hmig
          cases hmig
      rw [hrest.promoBuffered, hrest.demoBuffered]
      by_cases hcoin : toss.coin = true
      · rw [if_pos hcoin, hcoin, Bool.true_and]
        cases hv : s.migrator.isMigrated g (victim g s.currentPromotionPage) with
        | true => exact ⟨nofun, fun _ => by rw [migrate_victim hv]; rfl⟩
        | false =>
          obtain ⟨s', hs', hinv⟩ := hrest.migrate h.wf atomic toss hlt hne hv hm
          exact ⟨fun _ => ⟨s', by rw [hs']; rfl, hinv⟩, nofun⟩
      · rw [Bool.not_eq_true] at hcoin
        rw [hcoin]
        exact ⟨fun _ => ⟨s, rfl, h⟩, nofun⟩
    · rw [Bool.not_eq_true] at hposs
      rw [hposs]
      exact ⟨fun _ => ⟨s, rfl, h⟩, nofun⟩

/-! ## Completions -/

namespace Busy
variable (h : Busy g s x y a b)
include h

theorem pages : a.address = s.promotee ∧ b.address = s.demotee ∨ a.address = s.demotee ∧ b.address = s.promotee := by
  have haddr := h.addresses
  split at haddr
  · exact .inl (Prod.mk.inj haddr)
  · exact .inr (Prod.mk.inj haddr)

theorem key_ne : a.address.key g ≠ b.address.key g := by
  obtain ⟨ha, hb⟩ | ⟨ha, hb⟩ := h.pages <;> rw [ha, hb]
  · exact h.keys
  · exact h.keys.symm

theorem migratorPages : s.migrator.inputPage = a.address.key g ∧ s.migrator.outputPage = b.address.key g ∨
    s.migrator.inputPage = b.address.key g ∧ s.migrator.outputPage = a.address.key g := by
  rw [h.input, h.output]
  obtain ⟨ha, hb⟩ | ⟨ha, hb⟩ := h.pages <;> rw [ha, hb]
  · exact .inl ⟨rfl, rfl⟩
  · exact .inr ⟨rfl, rfl⟩

theorem other {k : Nat} (ha : k ≠ a.address.key g) (hb : k ≠ b.address.key g) {st : MigrationState}
    (hst : s.migrator.migrationState k = some st) : st = .done := by
  obtain ⟨hp, hd⟩ | ⟨hp, hd⟩ := h.pages
  · exact h.others k (hp ▸ ha) (hd ▸ hb) st hst
  · exact h.others k (hd ▸ hb) (hp ▸ ha) st hst

theorem mem_inFlight (hr : r ∈ s.inFlight) : x.inFlight = true ∧ r = a ∨ y.inFlight = true ∧ r = b := by
  have hmem := h.inFlight.mem_iff.mp hr
  obtain hmem | hmem := mem_append.mp hmem
  · split at hmem
    next hx => exact .inl ⟨hx, mem_singleton.mp hmem⟩
    · cases hmem
  · split at hmem
    next hy => exact .inr ⟨hy, mem_singleton.mp hmem⟩
    · cases hmem

theorem erase_promo (hx : x.inFlight = true) (x' : Leg) (hx' : x'.inFlight = false) (a' : MigrationRequest) :
    (s.inFlight.erase a).Perm (flights x' y a' b) := by
  have hperm := h.inFlight.erase a
  unfold flights at hperm ⊢
  rw [hx] at hperm
  rw [hx']
  simpa using hperm

theorem erase_demo (hy : y.inFlight = true) (y' : Leg) (hy' : y'.inFlight = false) (b' : MigrationRequest) :
    (s.inFlight.erase b).Perm (flights x y' a b') := by
  have hperm := h.inFlight.erase b
  have hne : a ≠ b := fun hab => h.ids (congrArg MigrationRequest.id hab)
  unfold flights at hperm ⊢
  rw [hy] at hperm
  rw [hy']
  cases hx : x.inFlight with
  | true =>
    rw [hx] at hperm
    simpa [hne] using hperm
  | false =>
    rw [hx] at hperm
    simpa using hperm

/-- The request of the promotion goes on to another leg, and its page to another state. -/
theorem movePromo {x' : Leg} (st : MigrationState) {a' : MigrationRequest} (ht : x'.Together y) (htag : x'.tag = x.tag)
    (hallow : x'.allows st) (haddr : a'.address = a.address) (hatag : a'.tag = a.tag) (hid : a'.id ≠ b.id)
    (hm : s'.migrator = s.migrator.enter (a.address.key g) st) (hp : s'.promotee = s.promotee) (hd : s'.demotee = s.demotee)
    (hpr : s'.promoRequest = some a') (hdr : s'.demoRequest = s.demoRequest)
    (hc : a'.id < s'.created ∧ s.created ≤ s'.created) (hfl : s'.inFlight.Perm (flights x' y a' b))
    (hpb : s'.promoBuffered = decide (x' = .waiting)) (hdb : s'.demoBuffered = s.demoBuffered) : Busy g s' x' y a' b := by
  obtain ⟨other, hother, hyallow⟩ := h.demoState
  have hmig : s'.migrator.migrating = true := by
    rw [hm, enter_migrating h.key_ne h.migratorPages hother, h.migrating]
    rintro ⟨rfl, rfl⟩
    exact ht.2 ⟨Leg.allows_done hallow, Leg.allows_done hyallow⟩
  refine ⟨hmig, by rw [hm, hp]; exact h.input, by rw [hm, hd]; exact h.output, by rw [hp, hd]; exact h.keys, ?_, ht, hpr,
    hdr.trans h.demo, hid, ⟨hc.1, h.created.2.trans_le hc.2⟩, ⟨by rw [hatag, htag]; exact h.tags.1, h.tags.2⟩, ?_,
    ⟨st, ?_, hallow⟩, ⟨other, ?_, hyallow⟩, hfl, hpb, hdb.trans h.demoBuffered⟩
  · intro k hkp hkd st' hst'
    rw [hp] at hkp
    rw [hd] at hkd
    have hka : k ≠ a.address.key g := by
      obtain ⟨ha, -⟩ | ⟨ha, -⟩ := h.pages <;> rw [ha] <;> assumption
    rw [hm, enter_state, update_of_ne hka] at hst'
    exact h.others k hkp hkd st' hst'
  · rw [haddr, htag, hp, hd]
    exact h.addresses
  · rw [hm, haddr]
    exact update_self _ _ _
  · rw [hm, enter_state, update_of_ne h.key_ne.symm]
    exact hother

/-- The request of the demotion goes on to another leg, and its page to another state. -/
theorem moveDemo {y' : Leg} (st : MigrationState) {b' : MigrationRequest} (ht : x.Together y') (htag : y'.tag = y.tag)
    (hallow : y'.allows st) (haddr : b'.address = b.address) (hatag : b'.tag = b.tag) (hid : a.id ≠ b'.id)
    (hm : s'.migrator = s.migrator.enter (b.address.key g) st) (hp : s'.promotee = s.promotee) (hd : s'.demotee = s.demotee)
    (hpr : s'.promoRequest = s.promoRequest) (hdr : s'.demoRequest = some b')
    (hc : b'.id < s'.created ∧ s.created ≤ s'.created) (hfl : s'.inFlight.Perm (flights x y' a b'))
    (hpb : s'.promoBuffered = s.promoBuffered) (hdb : s'.demoBuffered = decide (y' = .waiting)) : Busy g s' x y' a b' := by
  obtain ⟨other, hother, hxallow⟩ := h.promoState
  have hmig : s'.migrator.migrating = true := by
    rw [hm, enter_migrating h.key_ne.symm h.migratorPages.symm hother, h.migrating]
    rintro ⟨rfl, rfl⟩
    exact ht.2 ⟨Leg.allows_done hxallow, Leg.allows_done hallow⟩
  refine ⟨hmig, by rw [hm, hp]; exact h.input, by rw [hm, hd]; exact h.output, by rw [hp, hd]; exact h.keys, ?_, ht,
    hpr.trans h.promo, hdr, hid, ⟨h.created.1.trans_le hc.2, hc.1⟩, ⟨h.tags.1, by rw [hatag, htag]; exact h.tags.2⟩, ?_,
    ⟨other, ?_, hxallow⟩, ⟨st, ?_, hallow⟩, hfl, hpb.trans h.promoBuffered, hdb⟩
  · intro k hkp hkd st' hst'
    rw [hp] at hkp
    rw [hd] at hkd
    have hkb : k ≠ b.address.key g := by
      obtain ⟨-, hb⟩ | ⟨-, hb⟩ := h.pages <;> rw [hb] <;> assumption
    rw [hm, enter_state, update_of_ne hkb] at hst'
    exact h.others k hkp hkd st' hst'
  · rw [haddr, hp, hd]
    exact h.addresses
  · rw [hm, enter_state, update_of_ne h.key_ne]
    exact hother
  · rw [hm, haddr]
    exact update_self _ _ _

/-- The second write lands: the migration is over. -/
theorem finish {k j : Nat} (hk : k = a.address.key g ∧ j = b.address.key g ∨ k = b.address.key g ∧ j = a.address.key g)
    (hj : s.migrator.migrationState j = some .done) (hm : s'.migrator = s.migrator.enter k .done) (hfl : s'.inFlight = [])
    (hpb : s'.promoBuffered = false) (hdb : s'.demoBuffered = false) : Rest s' := by
  have hkj : k ≠ j := by
    obtain ⟨rfl, rfl⟩ | ⟨rfl, rfl⟩ := hk
    · exact h.key_ne
    · exact h.key_ne.symm
  have hpages : s.migrator.inputPage = k ∧ s.migrator.outputPage = j ∨ s.migrator.inputPage = j ∧ s.migrator.outputPage = k := by
    obtain ⟨rfl, rfl⟩ | ⟨rfl, rfl⟩ := hk
    · exact h.migratorPages
    · exact h.migratorPages.symm
  refine ⟨by rw [hm, enter_done hkj hpages hj rfl], fun i st hst => ?_, hfl, hpb, hdb⟩
  rw [hm, enter_state] at hst
  obtain rfl | hik := eq_or_ne i k
  · rw [update_self] at hst
    cases hst
    rfl
  · rw [update_of_ne hik] at hst
    obtain rfl | hij := eq_or_ne i j
    · rw [hj] at hst
      cases hst
      rfl
    · obtain ⟨rfl, rfl⟩ | ⟨rfl, rfl⟩ := hk
      · exact h.other hik hij hst
      · exact h.other hij hik hst

end Busy

/-- A write completes: its page is done. -/
theorem Busy.writeComplete (h : Busy g s x y a b) (hw : s.migrator.WF g) (hr : r ∈ s.inFlight) (ht : r.tag = .write) :
    ∃ s', CoinMigrator.writeComplete g { s with inFlight := s.inFlight.erase r } r = .ok s' ∧ s'.Inv g := by
  obtain ⟨sta, hsta, hxallow⟩ := h.promoState
  obtain ⟨stb, hstb, hyallow⟩ := h.demoState
  unfold CoinMigrator.writeComplete
  obtain ⟨hx, rfl⟩ | ⟨hy, rfl⟩ := h.mem_inFlight hr
  · obtain rfl := Leg.eq_flying hx (h.tags.1.symm.trans ht)
    have hset := setMigrationState_eq .done hsta (by rintro rfl; cases Leg.allows_done hxallow)
    refine ⟨_, by rw [hset]; rfl, hw.enter (by rw [hsta]; rfl), ?_⟩
    by_cases hland : y = .landed
    · subst hland
      cases hyallow
      refine .inl (h.finish (.inl ⟨rfl, rfl⟩) hstb rfl ?_ h.promoBuffered h.demoBuffered)
      exact perm_nil.mp (h.erase_promo rfl .landed rfl r)
    · refine .inr ⟨.landed, y, r, b, ?_, nofun⟩
      exact h.movePromo .done ⟨h.together.1, fun hboth => hland hboth.2⟩ rfl rfl rfl rfl h.ids rfl rfl rfl h.promo rfl
        ⟨h.created.1, Nat.le_refl _⟩ (h.erase_promo rfl _ rfl _) h.promoBuffered rfl
  · obtain rfl := Leg.eq_flying hy (h.tags.2.symm.trans ht)
    have hset := setMigrationState_eq .done hstb (by rintro rfl; cases Leg.allows_done hyallow)
    refine ⟨_, by rw [hset]; rfl, hw.enter (by rw [hstb]; rfl), ?_⟩
    by_cases hland : x = .landed
    · subst hland
      cases hxallow
      refine .inl (h.finish (.inr ⟨rfl, rfl⟩) hsta rfl ?_ h.promoBuffered h.demoBuffered)
      exact perm_nil.mp (h.erase_demo rfl .landed rfl r)
    · refine .inr ⟨x, .landed, a, r, ?_, fun hboth => nomatch hboth.2⟩
      exact h.moveDemo .done ⟨h.together.1, fun hboth => hland hboth.1⟩ rfl rfl rfl rfl h.ids rfl rfl rfl rfl h.demo
        ⟨h.created.2, Nat.le_refl _⟩ (h.erase_demo rfl _ rfl _) rfl h.demoBuffered

/-- The state when the writes are issued, with the migrator `m` that both answers lead to. -/
def wrote (s : CoinMigrator) (m : Migrator) (a b : MigrationRequest) (dI pI : Bool) : CoinMigrator :=
  let promoWrite : MigrationRequest := { a with address := b.address, tag := .write }
  let demoWrite : MigrationRequest := { b with address := a.address, tag := .write }
  { s with
    migrator := m
    promoRequest := some promoWrite
    demoRequest := some demoWrite
    inFlight := s.inFlight ++ (if dI then [demoWrite] else []) ++ (if pI then [promoWrite] else [])
    promoBuffered := !pI
    demoBuffered := !dI }

/-- Both pages are in the buffer: the writes are issued with the addresses swapped, and each one flies or waits. -/
theorem Busy.issueWrites (h : Busy g s .read .read a b) (hw : s.migrator.WF g) (hfl : s.inFlight = []) (dI pI : Bool) :
    ∃ s', s.issueWrites g a b dI pI = .ok s' ∧ s'.Inv g := by
  obtain ⟨sta, hsta, rfl⟩ := h.promoState
  obtain ⟨stb, hstb, rfl⟩ := h.demoState
  obtain ⟨hap, hbd⟩ : a.address = s.promotee ∧ b.address = s.demotee := Prod.mk.inj h.addresses
  obtain ⟨m₁, hm₁, hw₁, hmig₁, hin₁, hout₁, hstate₁⟩ := answered h.key_ne h.migratorPages hstb hw rfl hsta dI
  have hstb₁ : m₁.migrationState (b.address.key g) = some .buffered := by rw [hstate₁, update_of_ne h.key_ne.symm, hstb]
  have hsta₁ : m₁.migrationState (a.address.key g) = some (if dI then .writing else .buffered) := by
    rw [hstate₁, update_self]
  have hpages₁ := h.migratorPages.symm
  rw [← hin₁, ← hout₁] at hpages₁
  obtain ⟨m₂, hm₂, hw₂, hmig₂, hin₂, hout₂, hstate₂⟩ :=
    answered h.key_ne.symm hpages₁ hsta₁ hw₁ rfl hstb₁ pI
  have hs : s.issueWrites g a b dI pI = .ok (s.wrote m₂ a b dI pI) := by
    show (s.migrator.writingIf g dI a.address >>= fun m => m.writingIf g pI b.address >>= fun m =>
      .ok (s.wrote m a b dI pI)) = _
    rw [hm₁, bind_ok, hm₂, bind_ok]
  refine ⟨_, hs, hw₂, .inr ⟨.written pI, .written dI, { a with address := b.address, tag := .write },
    { b with address := a.address, tag := .write }, ?_, ?_⟩⟩
  · refine ⟨hmig₂.trans (hmig₁.trans h.migrating), hin₂.trans (hin₁.trans h.input), hout₂.trans (hout₁.trans h.output), h.keys, fun k hp hd st hst => ?_, ?_, rfl, rfl, h.ids, h.created,
      ?_, ?_, ⟨_, ?_, Leg.written_allows pI⟩, ⟨_, ?_, Leg.written_allows dI⟩, ?_, ?_, ?_⟩
    · replace hst : m₂.migrationState k = some st := hst
      rw [hstate₂, hstate₁, update_of_ne (by rw [hbd]; exact hd), update_of_ne (by rw [hap]; exact hp)] at hst
      exact h.others k hp hd st hst
    · cases pI <;> cases dI <;> exact ⟨rfl, nofun⟩
    · cases pI <;> cases dI <;> exact ⟨rfl, rfl⟩
    · rw [hap, hbd]
      cases pI <;> rfl
    · show m₂.migrationState (b.address.key g) = _
      rw [hstate₂, update_self]
    · show m₂.migrationState (a.address.key g) = _
      rw [hstate₂, update_of_ne h.key_ne]
      exact hsta₁
    · show (s.inFlight ++ _ ++ _).Perm _
      rw [hfl]
      cases pI <;> cases dI
      · exact List.Perm.refl _
      · exact List.Perm.refl _
      · exact List.Perm.refl _
      · exact List.Perm.swap _ _ _
    · cases pI <;> rfl
    · cases dI <;> rfl
  · cases pI <;> exact fun hboth => nomatch hboth.1

theorem isBuffered_leg {m : Migrator} {st : MigrationState} (hw : m.WF g) (hst : m.migrationState (p.key g) = some st)
    (hx : x.allows st) (ht : x.tag = .read) : m.isBuffered g p = true ↔ x = .read := by
  rw [hw.isBuffered_iff, hst]
  obtain rfl | rfl := Leg.unread_or_read ht <;> cases hx <;> decide

/-- A page in the buffer: if the other one is too, the writes are issued. -/
theorem Busy.buffer {buffered : Bool} (h : Busy g s x y a b) (hw : s.migrator.WF g) (hiff : buffered = true ↔ x = .read ∧ y = .read)
    (hfl : x = .read → y = .read → s.inFlight = []) (dI pI : Bool) :
    ∃ s', (if buffered then s.issueWrites g a b dI pI else .ok s) = .ok s' ∧ s'.Inv g := by
  cases buffered with
  | false => exact ⟨_, rfl, hw, .inr ⟨_, _, _, _, h, fun hboth => nomatch hiff.mpr hboth⟩⟩
  | true =>
    obtain ⟨rfl, rfl⟩ := hiff.mp rfl
    exact h.issueWrites hw (hfl rfl rfl) dI pI

/-- A read completes: its page is in the buffer, and if the other one is too, the writes are issued. -/
theorem Busy.readComplete (h : Busy g s x y a b) (hw : s.migrator.WF g) (hr : r ∈ s.inFlight) (ht : r.tag = .read) (dI pI : Bool) :
    ∃ s', CoinMigrator.readComplete g { s with inFlight := s.inFlight.erase r } r dI pI = .ok s' ∧ s'.Inv g := by
  obtain ⟨sta, hsta, hxallow⟩ := h.promoState
  obtain ⟨stb, hstb, hyallow⟩ := h.demoState
  unfold CoinMigrator.readComplete
  obtain ⟨hx, rfl⟩ | ⟨hy, rfl⟩ := h.mem_inFlight hr
  · obtain rfl := Leg.eq_unread hx (h.tags.1.symm.trans ht)
    cases hxallow
    obtain ⟨hap, hbd⟩ : r.address = s.promotee ∧ b.address = s.demotee := Prod.mk.inj h.addresses
    have hset := setMigrationState_eq .buffered hsta (by decide)
    have hwf : (s.migrator.enter (r.address.key g) .buffered).WF g := hw.enter (by rw [hsta]; rfl)
    have hdemo : (s.migrator.enter (r.address.key g) .buffered).migrationState (s.demotee.key g) = some stb := by
      rw [enter_state, ← hbd, update_of_ne h.key_ne.symm, hstb]
    have hbusy : Busy g { s with
        inFlight := s.inFlight.erase r
        migrator := s.migrator.enter (r.address.key g) .buffered
        promoRequest := some { r with id := s.created }
        created := s.created + 1 } .read y { r with id := s.created } b :=
      h.movePromo .buffered ⟨h.together.1, nofun⟩ rfl rfl rfl rfl (Nat.ne_of_gt h.created.2) rfl rfl rfl rfl rfl
        ⟨Nat.lt_succ_self _, Nat.le_succ _⟩ (h.erase_promo rfl _ rfl _) h.promoBuffered rfl
    simp only [hset, bind_ok, h.promo, h.demo, Option.map_some, Option.some.injEq, h.ids.symm, decide_true, if_true]
    rw [h.demo] at hbusy
    refine hbusy.buffer hwf ?_ (fun _ hread => ?_) dI pI
    · simpa using isBuffered_leg hwf hdemo hyallow h.together.1.symm
    · subst hread
      exact perm_nil.mp (h.erase_promo rfl .read rfl r)
  · obtain rfl := Leg.eq_unread hy (h.tags.2.symm.trans ht)
    cases hyallow
    have hxtag : x.tag = .read := h.together.1
    obtain ⟨hap, hbd⟩ : a.address = s.promotee ∧ r.address = s.demotee := by
      have := h.addresses
      rw [if_pos hxtag] at this
      exact Prod.mk.inj this
    have hset := setMigrationState_eq .buffered hstb (by decide)
    have hwf : (s.migrator.enter (r.address.key g) .buffered).WF g := hw.enter (by rw [hstb]; rfl)
    have hpromo : (s.migrator.enter (r.address.key g) .buffered).migrationState (s.promotee.key g) = some sta := by
      rw [enter_state, ← hap, update_of_ne h.key_ne, hsta]
    have hbusy : Busy g { s with
        inFlight := s.inFlight.erase r
        migrator := s.migrator.enter (r.address.key g) .buffered
        demoRequest := some { r with id := s.created }
        created := s.created + 1 } x .read a { r with id := s.created } :=
      h.moveDemo .buffered ⟨h.together.1, fun hboth => nomatch hboth.2⟩ rfl rfl rfl rfl (Nat.ne_of_lt h.created.1) rfl
        rfl rfl rfl rfl ⟨Nat.lt_succ_self _, Nat.le_succ _⟩ (h.erase_demo rfl _ rfl _) rfl h.demoBuffered
    simp only [hset, bind_ok, h.promo, h.demo, Option.map_some, Option.some.injEq, h.ids, decide_false, Bool.false_eq_true, if_false]
    rw [h.promo] at hbusy
    refine hbusy.buffer hwf ?_ (fun hread _ => ?_) dI pI
    · simpa using isBuffered_leg hwf hpromo hxallow hxtag
    · subst hread
      exact perm_nil.mp (h.erase_demo rfl .read rfl r)

theorem Rest.otherComplete (h : Rest s) (pI dI : Bool) : s.otherComplete pI dI = s := by
  obtain ⟨-, -, -, hpromo, hdemo⟩ := h
  cases s
  cases hpromo
  cases hdemo
  simp [CoinMigrator.otherComplete]

/-- Some other request completes: a write that waits flies if the controller takes it now. -/
theorem Busy.otherComplete (h : Busy g s x y a b) (pI dI : Bool) :
    Busy g (s.otherComplete pI dI) (x.retried pI) (y.retried dI) a b := by
  obtain ⟨sta, hsta, hxallow⟩ := h.promoState
  obtain ⟨stb, hstb, hyallow⟩ := h.demoState
  have htogether : (x.retried pI).Together (y.retried dI) := by
    refine ⟨?_, fun hboth => h.together.2 ⟨Leg.retried_landed hboth.1, Leg.retried_landed hboth.2⟩⟩
    rw [Leg.retried_tag, Leg.retried_tag]
    exact h.together.1
  refine ⟨h.migrating, h.input, h.output, h.keys, h.others, htogether, h.promo, h.demo, h.ids, h.created, ?_, ?_,
    ⟨sta, hsta, Leg.retried_allows hxallow⟩, ⟨stb, hstb, Leg.retried_allows hyallow⟩, ?_, ?_, ?_⟩
  · rw [Leg.retried_tag, Leg.retried_tag]
    exact h.tags
  · rw [Leg.retried_tag]
    exact h.addresses
  · show (s.inFlight ++ (if s.promoBuffered && pI then s.promoRequest.toList else []) ++
      if s.demoBuffered && dI then s.demoRequest.toList else []).Perm _
    unfold flights
    rw [h.promoBuffered, h.demoBuffered, h.promo, h.demo, Leg.retried_flight, Leg.retried_flight, append_assoc,
      append_assoc]
    refine (h.inFlight.append_right _).trans ?_
    unfold flights
    rw [append_assoc]
    refine List.Perm.append_left _ ?_
    rw [← append_assoc, ← append_assoc]
    exact perm_append_comm.append_right _
  · rw [Leg.retried_waiting, ← h.promoBuffered]
    rfl
  · rw [Leg.retried_waiting, ← h.demoBuffered]
    rfl

theorem Inv.otherComplete (h : s.Inv g) (pI dI : Bool) : (s.otherComplete pI dI).Inv g := by
  obtain hrest | ⟨x, y, a, b, hbusy, hreads⟩ := h.phase
  · rw [hrest.otherComplete]
    exact h
  · refine ⟨h.wf, .inr ⟨_, _, a, b, hbusy.otherComplete pI dI, fun hboth => hreads ?_⟩⟩
    exact ⟨Leg.retried_read hboth.1, Leg.retried_read hboth.2⟩

theorem Inv.complete (h : s.Inv g) (hr : r ∈ s.inFlight) (dI pI : Bool) :
    ∃ s', CoinMigrator.complete g { s with inFlight := s.inFlight.erase r } r dI pI = .ok s' ∧ s'.Inv g := by
  obtain hrest | ⟨x, y, a, b, hbusy, hreads⟩ := h.phase
  · rw [hrest.inFlight] at hr
    cases hr
  · unfold CoinMigrator.complete
    cases ht : r.tag with
    | read => exact hbusy.readComplete h.wf hr ht dI pI
    | write => exact hbusy.writeComplete h.wf hr ht

/-! ## Runs -/

/-- A step keeps the invariant, cannot be taken, or is stopped by the assertion on the victim. -/
theorem Inv.step (h : s.Inv g) (op : Op) : (op.freshVictim g s = true →
      s.step g op = .error .outOfRange ∨ ∃ s', s.step g op = .ok s' ∧ s'.Inv g) ∧
    (op.freshVictim g s = false → s.step g op = .error .assertFailed) := by
  cases op with
  | request page hook atomic toss =>
    by_cases hp : page.Within g
    · obtain ⟨hok, hfail⟩ := h.request hook atomic toss hp
      exact ⟨fun hf => .inr (hok hf), hfail⟩
    · refine ⟨fun _ => .inl (if_neg hp), fun hf => ?_⟩
      cases hook <;> simp [Op.freshVictim, hp] at hf
  | complete r dI pI =>
    refine ⟨fun _ => ?_, nofun⟩
    by_cases hr : r ∈ s.inFlight
    · obtain ⟨s', hs', hinv⟩ := h.complete hr dI pI
      exact .inr ⟨s', (if_pos hr).trans hs', hinv⟩
    · exact .inl (if_neg hr)
  | otherComplete pI dI => exact ⟨fun _ => .inr ⟨_, rfl, h.otherComplete pI dI⟩, nofun⟩

theorem Inv.run (h : s.Inv g) (hr : Exec (StepOf (CoinMigrator.step g)) s ops s') : s'.Inv g := by
  refine hr.invariant h fun t op u ht hu => ?_
  obtain ⟨hok, hfail⟩ := ht.step op
  cases hf : op.freshVictim g t with
  | false =>
    have herr := (hfail hf).symm.trans hu
    cases herr
  | true =>
    obtain herr | ⟨u', hu', hinv⟩ := hok hf
    · cases herr.symm.trans hu
    · obtain rfl := Except.ok.inj (hu'.symm.trans hu)
      exact hinv

/-- `migrating` is true exactly while one of the two pages is not yet done. -/
def MigratingExactly (s : CoinMigrator) : Prop :=
  s.migrator.migrating = true ↔ ∃ a b, s.migrator.migrationState s.migrator.inputPage = some a ∧
    s.migrator.migrationState s.migrator.outputPage = some b ∧ (a ≠ .done ∨ b ≠ .done)

theorem Inv.migratingExactly (h : s.Inv g) : s.MigratingExactly := by
  obtain hrest | ⟨x, y, a, b, hbusy, -⟩ := h.phase
  · refine ⟨fun hm => (nomatch hrest.migrating.symm.trans hm), ?_⟩
    rintro ⟨a, b, ha, hb, hne⟩
    have hdone := hrest.done _ _ ha
    have hdone' := hrest.done _ _ hb
    exact absurd hne (by rw [hdone, hdone']; decide)
  · refine ⟨fun _ => ?_, fun _ => hbusy.migrating⟩
    obtain ⟨sta, hsta, hxallow⟩ := hbusy.promoState
    obtain ⟨stb, hstb, hyallow⟩ := hbusy.demoState
    have hne : sta ≠ .done ∨ stb ≠ .done := by
      by_contra hboth
      push Not at hboth
      rw [hboth.1] at hxallow
      rw [hboth.2] at hyallow
      exact hbusy.together.2 ⟨Leg.allows_done hxallow, Leg.allows_done hyallow⟩
    obtain ⟨hin, hout⟩ | ⟨hin, hout⟩ := hbusy.migratorPages
    · exact ⟨sta, stb, by rw [hin, hsta], by rw [hout, hstb], hne⟩
    · exact ⟨stb, sta, by rw [hin, hstb], by rw [hout, hsta], hne.symm⟩

/-- No assertion fails but the one on the victim, and `migrating` says whether a migration is going on. -/
theorem no_assertion (hr : Exec (StepOf (step g)) {} ops s) :
    (∀ op, s.step g op = .error .assertFailed ↔ op.freshVictim g s = false) ∧ s.MigratingExactly := by
  have h : s.Inv g := Inv.init.run hr
  refine ⟨fun op => ⟨fun herr => ?_, (h.step op).2⟩, h.migratingExactly⟩
  cases hf : op.freshVictim g s with
  | false => rfl
  | true =>
    obtain hout | ⟨s', hs', -⟩ := (h.step op).1 hf
    · cases herr.symm.trans hout
    · cases herr.symm.trans hs'

/-- Three channels, and a fast memory of one page. -/
def onePage : Geometry where
  channels := 3
  banks := 1
  ranks := 1
  subarrays := 1
  promotionChannel := 0
  promotion_lt := by decide
  promoRanks := 1
  promoBanks := 1
  promoRows := 1
  matHeight := 1
  ranks_pos := Nat.one_pos
  banks_pos := Nat.one_pos
  subarrays_pos := Nat.one_pos

/-- A request to the first page of a channel, and the coin asks for a migration. -/
def tossed (channel : Nat) : Op := .request ⟨0, 0, 0, channel, 0⟩ .postIssue true { coin := true }

theorem no_assertion_atomic : ∃ s, Exec (StepOf (step onePage)) {} [tossed 1] s ∧
    (∀ op, s.step onePage op = .error .assertFailed ↔ op.freshVictim onePage s = false) ∧ s.MigratingExactly := by
  refine Exec.ends_with (p := fun _ => true) (by decide) fun s hs _ => ?_
  exact no_assertion hs

/-- The page of the first channel migrates, and the cursor is back at the only page of the fast memory, which has
  migrated too. -/
theorem victim_migrated : ∃ s, Exec (StepOf (step onePage)) {} [tossed 1] s ∧
    s.step onePage (tossed 2) = .error .assertFailed := by
  refine Exec.ends_with (p := fun s => !(tossed 2).freshVictim onePage s) (by decide) fun s hs hp => ?_
  rw [Bool.not_eq_true'] at hp
  exact ((Inv.init.run hs).step (tossed 2)).2 hp

end CoinMigrator

end Nvm
