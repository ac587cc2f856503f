import Gem5Nvmain.Nvm.MigrationRuns

/- Where the pages are after a migration.

  A migration exchanges the channels of the promotee and of the victim, and moves the data of each to the place of the
  other. The two places differ in the channel only if the victim is the promotee's page in the promotion channel;
  nothing in `victim` looks for that. Where it is so for every migration that starts (`Op.aligned`), the entries of
  the migrator come in pairs (`Paired`), and the translation is injective whenever no migration is going on
  (`pages_apart`). Where it is not, the promotee comes to lie on another page (`unaligned_collide`, `pages_collide`). -/
namespace Nvm
open Lib Function Migrator

variable {g : Geometry} {p q : Page} {k c : Nat}

theorem Page.key_eq_pack (p : Page) : p.key g = p.channel + g.channels * (p.subarray + g.subarrays * (p.rank + g.ranks *
    (p.bank + g.banks * p.row))) := by
  unfold key
  ring

theorem Page.key_inj (hp : p.Within g) (hq : q.Within g) (h : p.key g = q.key g) : p = q := by
  obtain ⟨hpb, hpr, hpc, hps⟩ := hp
  obtain ⟨hqb, hqr, hqc, hqs⟩ := hq
  rw [key_eq_pack, key_eq_pack] at h
  obtain ⟨hc, h⟩ := digit_inj hpc hqc h
  obtain ⟨hs, h⟩ := digit_inj hps hqs h
  obtain ⟨hr, h⟩ := digit_inj hpr hqr h
  obtain ⟨hb, h⟩ := digit_inj hpb hqb h
  cases p
  cases hc
  cases hs
  cases hr
  cases hb
  cases h
  rfl

/-- The page of another channel. -/
def Page.inChannel (p : Page) (channel : Nat) : Page := { p with channel }

theorem Page.Within.inChannel (hp : p.Within g) (hc : c < g.channels) : (p.inChannel c).Within g :=
  ⟨hp.1, hp.2.1, hc, hp.2.2.2⟩

theorem Page.eq_of_inChannel (h : p.inChannel c = q.inChannel c) (hc : p.channel = q.channel) : p = q := by
  cases p
  cases hc
  injection h with hrow hbank hrank _ hsubarray
  cases hrow
  cases hbank
  cases hrank
  cases hsubarray
  rfl

namespace Migrator
variable {m m' : Migrator} {st : MigrationState}

theorem setMigrationState_map (h : m.setMigrationState g p st = .ok m') : m'.migrationMap = m.migrationMap := by
  unfold setMigrationState at h
  split at h
  · cases h
  · obtain ⟨_, _, h⟩ := of_bind h
    cases h
    rfl

theorem writingIf_map {issued : Bool} (h : m.writingIf g issued p = .ok m') : m'.migrationMap = m.migrationMap := by
  cases issued with
  | true => exact setMigrationState_map h
  | false =>
    cases h
    rfl

/-- The entries come in pairs: a page and its page in another channel. -/
def Paired (g : Geometry) (m : Migrator) : Prop :=
  ∀ p : Page, p.Within g → ∀ c, m.migrationMap (p.key g) = some c →
    c < g.channels ∧ c ≠ p.channel ∧ m.migrationMap ((p.inChannel c).key g) = some p.channel

theorem Paired.init : Paired g {} := fun _ _ _ h => nomatch h

theorem Paired.of_map (h : m.Paired g) (hmap : m'.migrationMap = m.migrationMap) : m'.Paired g := by
  intro p hp c hc
  rw [hmap] at hc ⊢
  exact h p hp c hc

theorem WF.translate_within (h : m.WF g) (hp : p.Within g) : (m.translate g p).Within g := by
  unfold translate
  split
  next c hc =>
    split
    · exact hp.inChannel (h.channel _ c hc)
    · exact hp
  · exact hp

/-- A migration between two pages that differ in the channel only keeps the entries in pairs. -/
theorem Paired.started (h : m.Paired g) (hp : p.Within g) (hc : c < g.channels) (hne : p.channel ≠ c)
    (hpn : m.migrationMap (p.key g) = none) (hqn : m.migrationMap ((p.inChannel c).key g) = none) :
    (m.started g p (p.inChannel c)).Paired g := by
  have hq : (p.inChannel c).Within g := hp.inChannel hc
  have hkeys : p.key g ≠ (p.inChannel c).key g := Page.key_ne hp.2.2.1 hc hne
  intro r hr d hd
  rw [started_map] at hd ⊢
  obtain hrq | hrq := eq_or_ne (r.key g) ((p.inChannel c).key g)
  · obtain rfl := Page.key_inj hr hq hrq
    rw [update_self] at hd
    obtain rfl := Option.some.inj hd
    refine ⟨hp.2.2.1, hne, ?_⟩
    rw [show (p.inChannel c).inChannel p.channel = p from rfl, update_of_ne hkeys, update_self]
  · rw [update_of_ne hrq] at hd
    obtain hrp | hrp := eq_or_ne (r.key g) (p.key g)
    · obtain rfl := Page.key_inj hr hp hrp
      rw [update_self] at hd
      obtain rfl := Option.some.inj hd
      exact ⟨hc, hne.symm, update_self _ _ _⟩
    · rw [update_of_ne hrp] at hd
      obtain ⟨hlt, hned, hback⟩ := h r hr d hd
      refine ⟨hlt, hned, ?_⟩
      -- The partner of an old entry is neither of the two pages, as these had no entry.
      rw [update_of_ne, update_of_ne, hback]
      · intro heq
        rw [heq, hpn] at hback
        cases hback
      · intro heq
        rw [heq, hqn] at hback
        cases hback

theorem translate_eq (hdone : ∀ k st, m.migrationState k = some st → st = .done) (hw : m.WF g) (p : Page) :
    m.translate g p = match m.migrationMap (p.key g) with
      | some c => p.inChannel c
      | none => p := by
  unfold translate
  have hdomain := hw.domain (p.key g)
  cases hmap : m.migrationMap (p.key g) with
  | none => rfl
  | some c =>
    rw [hmap] at hdomain
    obtain ⟨st, hst⟩ := Option.isSome_iff_exists.mp hdomain.symm
    exact if_pos (by rw [hst, hdone _ st hst])

theorem Paired.translate_inj (h : m.Paired g) (hdone : ∀ k st, m.migrationState k = some st → st = .done) (hw : m.WF g)
    (hp : p.Within g) (hq : q.Within g) (heq : m.translate g p = m.translate g q) : p = q := by
  rw [translate_eq hdone hw, translate_eq hdone hw] at heq
  cases hmp : m.migrationMap (p.key g) with
  | none =>
    cases hmq : m.migrationMap (q.key g) with
    | none =>
      simp only [hmp, hmq] at heq
      exact heq
    | some d =>
      simp only [hmp, hmq] at heq
      have hback := (h q hq d hmq).2.2
      rw [← heq, hmp] at hback
      cases hback
  | some c =>
    have hback := (h p hp c hmp).2.2
    cases hmq : m.migrationMap (q.key g) with
    | none =>
      simp only [hmp, hmq] at heq
      rw [heq, hmq] at hback
      cases hback
    | some d =>
      simp only [hmp, hmq] at heq
      obtain rfl : c = d := congrArg Page.channel heq
      have hback' := (h q hq c hmq).2.2
      rw [heq, hback'] at hback
      exact Page.eq_of_inChannel heq (Option.some.inj hback).symm

end Migrator

namespace CoinMigrator
variable {s s' : CoinMigrator} {op : Op} {ops : List Op}

/-- The page that the step promotes, if it starts a migration. -/
def Op.starts (g : Geometry) (s : CoinMigrator) : Op → Option Page
  | .request page .postIssue atomic toss =>
    let address := s.migrator.translate g page
    if page.Within g ∧ s.migrationPossible g address = true ∧ toss.coin = true ∧
        (atomic || toss.promoIssuable && toss.demoIssuable) = true
    then some address else none
  | _ => none

/-- The victim is the page to promote in the promotion channel. -/
def Op.aligned (g : Geometry) (s : CoinMigrator) (op : Op) : Bool :=
  match op.starts g s with
  | some p => decide (victim g s.currentPromotionPage = p.inChannel g.promotionChannel)
  | none => true

/-- What a step that starts a migration finds. -/
structure Starts (g : Geometry) (s : CoinMigrator) (p : Page) : Prop where
  rest : Rest s
  within : p.Within g
  slow : p.channel ≠ g.promotionChannel
  promotee : s.migrator.migrationMap (p.key g) = none
  victim : s.migrator.migrationMap ((CoinMigrator.victim g s.currentPromotionPage).key g) = none

theorem Rest.map_none (h : Rest s) (hw : s.migrator.WF g) (hp : s.migrator.isMigrated g p = false) :
    s.migrator.migrationMap (p.key g) = none := by
  rw [Bool.eq_false_iff, ne_eq, hw.isMigrated_iff] at hp
  have hdomain := hw.domain (p.key g)
  cases hst : s.migrator.migrationState (p.key g) with
  | none =>
    rw [hst] at hdomain
    exact Option.isSome_eq_false_iff.mp hdomain |> Option.isNone_iff_eq_none.mp
  | some st => exact absurd (hst.trans (congrArg some (h.done _ st hst))) hp

/-- A migration that starts finds both pages without an entry, and enters them; one that waits changes no entry. -/
theorem Rest.migrate_map (h : Rest s) (hw : s.migrator.WF g) {address : Page} {atomic : Bool} {toss : Toss}
    (hm : s.migrator.isMigrated g address = false) (hs : s.migrate g address atomic toss = .ok s') :
    s.migrator.migrationMap ((victim g s.currentPromotionPage).key g) = none ∧
    s'.migrator.migrationMap = if (atomic || toss.promoIssuable && toss.demoIssuable) = true then
      (s.migrator.started g address (victim g s.currentPromotionPage)).migrationMap else s.migrator.migrationMap := by
  cases hv : s.migrator.isMigrated g (victim g s.currentPromotionPage) with
  | true =>
    rw [migrate_victim hv] at hs
    cases hs
  | false =>
    refine ⟨h.map_none hw hv, ?_⟩
    rw [migrate_eq hv hm, startMigration_eq h.migrating] at hs
    cases atomic with
    | true =>
      rw [if_pos rfl, bind_ok] at hs
      obtain ⟨m₁, hm₁, hs⟩ := of_bind hs
      obtain ⟨m₂, hm₂, hs⟩ := of_bind hs
      cases hs
      exact (setMigrationState_map hm₂).trans (setMigrationState_map hm₁)
    | false =>
      rw [if_neg (by decide), bind_ok] at hs
      split at hs
      next hissuable =>
        cases hs
        exact (if_pos hissuable).symm
      next hissuable =>
        cases hs
        exact (if_neg hissuable).symm

theorem issueWrites_map {a b : MigrationRequest} {dI pI : Bool} (hs : s.issueWrites g a b dI pI = .ok s') :
    s'.migrator.migrationMap = s.migrator.migrationMap := by
  obtain ⟨m₁, hm₁, hs⟩ := of_bind hs
  obtain ⟨m₂, hm₂, hs⟩ := of_bind hs
  cases hs
  exact (writingIf_map hm₂).trans (writingIf_map hm₁)

theorem issueIf_map {complete dI pI : Bool} (hs : (if complete = true then
      match s.promoRequest, s.demoRequest with
      | some promo, some demo => s.issueWrites g promo demo dI pI
      | _, _ => .error .outOfRange
    else pure s) = .ok s') : s'.migrator.migrationMap = s.migrator.migrationMap := by
  split at hs
  · split at hs
    · exact issueWrites_map hs
    · cases hs
  · cases hs
    rfl

theorem complete_map {r : MigrationRequest} {dI pI : Bool} (hs : s.complete g r dI pI = .ok s') :
    s'.migrator.migrationMap = s.migrator.migrationMap := by
  unfold CoinMigrator.complete at hs
  split at hs
  · obtain ⟨m, hm, hs⟩ := of_bind hs
    obtain ⟨_, _, hs⟩ := of_bind hs
    exact (issueIf_map hs).trans (setMigrationState_map hm)
  · obtain ⟨m, hm, hs⟩ := of_bind hs
    cases hs
    exact setMigrationState_map hm

/-- The entries change where a migration starts, and nowhere else. -/
theorem Inv.step_map (h : s.Inv g) (hs : s.step g op = .ok s') :
    match op.starts g s with
    | some p => Starts g s p ∧
        s'.migrator.migrationMap = (s.migrator.started g p (victim g s.currentPromotionPage)).migrationMap
    | none => s'.migrator.migrationMap = s.migrator.migrationMap := by
  cases op with
  | complete r dI pI =>
    simp only [CoinMigrator.step] at hs
    split at hs
    · exact complete_map (s := { s with inFlight := s.inFlight.erase r }) hs
    · cases hs
  | otherComplete pI dI =>
    cases hs
    rfl
  | request page hook atomic toss =>
    simp only [CoinMigrator.step] at hs
    split at hs
    next hp =>
      obtain ⟨⟨s₁, rv⟩, hs₁, hs⟩ := of_bind hs
      cases hs
      cases hook with
      | preIssue =>
        cases hs₁
        rfl
      | postIssue =>
        unfold tryMigration at hs₁
        unfold Op.starts
        by_cases hposs : s.migrationPossible g (s.migrator.translate g page) = true
        · rw [if_pos hposs] at hs₁
          obtain ⟨_, _, hs₁⟩ := of_bind hs₁
          by_cases hcoin : toss.coin = true
          · rw [if_pos hcoin] at hs₁
            obtain ⟨s₂, hs₂, hs₁⟩ := of_bind hs₁
            cases hs₁
            have hparts := hposs
            unfold migrationPossible at hparts
            simp only [Bool.and_eq_true, Bool.not_eq_true', decide_eq_true_eq] at hparts
            obtain ⟨⟨hmig, hm⟩, hslow⟩ := hparts
            have hrest : Rest s := by
              obtain hrest | ⟨x, y, a, b, hbusy, -⟩ := h.phase
              · exact hrest
              · rw [hbusy.migrating] at hmig
                cases hmig
            obtain ⟨hvictim, hmap⟩ := hrest.migrate_map h.wf hm hs₂
            have hwithin : (s.migrator.translate g page).Within g := h.wf.translate_within hp
            by_cases hissue : (atomic || toss.promoIssuable && toss.demoIssuable) = true
            · simp only [hp, hposs, hcoin, hissue, and_self, if_true]
              rw [if_pos hissue] at hmap
              exact ⟨⟨hrest, hwithin, hslow, hrest.map_none h.wf hm, hvictim⟩, hmap⟩
            · simp only [hissue, Bool.false_eq_true, and_false]
              rw [if_neg hissue] at hmap
              exact hmap
          · rw [if_neg hcoin] at hs₁
            cases hs₁
            simp [hcoin]
        · rw [if_neg hposs] at hs₁
          cases hs₁
          simp [hposs]
    · cases hs

/-! ## Runs -/

structure Apart (g : Geometry) (s : CoinMigrator) : Prop where
  inv : s.Inv g
  paired : s.migrator.Paired g

theorem Apart.init : Apart g {} := ⟨Inv.init, Migrator.Paired.init⟩

theorem Apart.step (h : Apart g s) (ha : op.aligned g s = true) (hs : s.step g op = .ok s') : Apart g s' := by
  refine ⟨h.inv.run (.one hs), ?_⟩
  have hmap := h.inv.step_map hs
  unfold Op.aligned at ha
  cases hstarts : op.starts g s with
  | none =>
    rw [hstarts] at hmap
    exact h.paired.of_map hmap
  | some p =>
    rw [hstarts] at hmap ha
    obtain ⟨hstart, hmap⟩ := hmap
    have hv : victim g s.currentPromotionPage = p.inChannel g.promotionChannel := of_decide_eq_true ha
    have hnone := hstart.victim
    rw [hv] at hnone hmap
    exact (h.paired.started hstart.within g.promotion_lt hstart.slow hstart.promotee hnone).of_map hmap

theorem Apart.of_run (hr : Exec (StepIf (fun s op => op.aligned g s) (CoinMigrator.step g)) {} ops s) : Apart g s :=
  hr.invariant Apart.init fun _ _ _ h hs => h.step hs.1 hs.2

/-- In every run whose migrations are between pages that differ in the channel only, two pages are never translated to
  one when no migration is going on. -/
theorem pages_apart (hr : Exec (StepIf (fun s op => op.aligned g s) (step g)) {} ops s)
    (hm : s.migrator.migrating = false) (hp : p.Within g) (hq : q.Within g) (hne : p ≠ q) :
    s.migrator.translate g p ≠ s.migrator.translate g q := by
  have h : Apart g s := Apart.of_run hr
  intro heq
  obtain hrest | ⟨x, y, a, b, hbusy, -⟩ := h.inv.phase
  · exact hne (h.paired.translate_inj hrest.done h.inv.wf hp hq heq)
  · rw [hbusy.migrating] at hm
    cases hm

/-- Two channels with two rows in one bank. -/
def twoRows : Geometry where
  channels := 2
  banks := 1
  ranks := 1
  subarrays := 1
  promotionChannel := 0
  promotion_lt := Nat.two_pos
  promoRanks := 1
  promoBanks := 1
  promoRows := 2
  matHeight := 2
  ranks_pos := Nat.one_pos
  banks_pos := Nat.one_pos
  subarrays_pos := Nat.one_pos

def tossedRow (row : Nat) : Op := .request ⟨row, 0, 0, 1, 0⟩ .postIssue true { coin := true }

theorem pages_apart_aligned : ∃ s, Exec (StepIf (fun s op => op.aligned twoRows s) (step twoRows)) {} [tossedRow 0] s ∧
    s.migrator.translate twoRows ⟨0, 0, 0, 1, 0⟩ ≠ s.migrator.translate twoRows ⟨0, 0, 0, 0, 0⟩ := by
  refine Exec.ends_withIf (p := fun s => !s.migrator.migrating) (by decide) fun s hs hm => ?_
  rw [Bool.not_eq_true'] at hm
  exact pages_apart hs hm (by decide) (by decide) (by decide)

/-- The victim is in row 0 and the promotee in row 1: the promotee lies on row 1 of the fast memory, which has not moved. -/
theorem pages_collide : ∃ s, Exec (StepOf (step twoRows)) {} [tossedRow 1] s ∧ s.migrator.migrating = false ∧
    s.migrator.translate twoRows ⟨1, 0, 0, 1, 0⟩ = s.migrator.translate twoRows ⟨1, 0, 0, 0, 0⟩ := by
  refine Exec.ends_with (p := fun s => !s.migrator.migrating && decide (s.migrator.translate twoRows ⟨1, 0, 0, 1, 0⟩ =
      s.migrator.translate twoRows ⟨1, 0, 0, 0, 0⟩)) (by decide) fun s hs hp => ?_
  simp only [Bool.and_eq_true, Bool.not_eq_true', decide_eq_true_eq] at hp
  exact ⟨hp.1, hp.2⟩

/-- A migration between pages that differ in more than the channel lays the promotee on another page. -/
theorem unaligned_collide (h : s.migrator.Paired g) (hstart : Starts g s p)
    (hv : (victim g s.currentPromotionPage).Within g)
    (hne : victim g s.currentPromotionPage ≠ p.inChannel g.promotionChannel)
    (hmap : s'.migrator.migrationMap = (s.migrator.started g p (victim g s.currentPromotionPage)).migrationMap)
    (hrest : Rest s') (hw : s'.migrator.WF g) :
    ∃ q : Page, q.Within g ∧ q ≠ p ∧ s'.migrator.translate g q = s'.migrator.translate g p := by
  have hplace : (p.inChannel g.promotionChannel).Within g := hstart.within.inChannel g.promotion_lt
  have hpv : p.key g ≠ (victim g s.currentPromotionPage).key g :=
    Page.key_ne hstart.within.2.2.1 g.promotion_lt hstart.slow
  have hold : ∀ q : Page, q.key g ≠ p.key g → q.key g ≠ (victim g s.currentPromotionPage).key g →
      s'.migrator.migrationMap (q.key g) = s.migrator.migrationMap (q.key g) := by
    intro q hqp hqv
    rw [hmap, started_map, update_of_ne hqv, update_of_ne hqp]
  have hpromotee : s'.migrator.translate g p = p.inChannel g.promotionChannel := by
    rw [translate_eq hrest.done hw, hmap, started_map, update_of_ne hpv, update_self]
    rfl
  have hplaceOld := hold (p.inChannel g.promotionChannel) (Page.key_ne g.promotion_lt hstart.within.2.2.1 hstart.slow.symm)
    fun hkey => hne (Page.key_inj hplace hv hkey).symm
  cases hentry : s.migrator.migrationMap ((p.inChannel g.promotionChannel).key g) with
  | none =>
    -- The page that is at the place has not moved.
    refine ⟨p.inChannel g.promotionChannel, hplace, fun heq => hstart.slow (congrArg Page.channel heq).symm, ?_⟩
    rw [hpromotee, translate_eq hrest.done hw, hplaceOld, hentry]
  | some c =>
    -- The page that is at the place has moved there before.
    obtain ⟨hlt, -, hback⟩ := h _ hplace c hentry
    have hqp : (p.inChannel c).key g ≠ p.key g := by
      intro hkey
      rw [show ((p.inChannel g.promotionChannel).inChannel c).key g = p.key g from hkey, hstart.promotee] at hback
      cases hback
    have hqv : (p.inChannel c).key g ≠ (victim g s.currentPromotionPage).key g := by
      intro hkey
      rw [show ((p.inChannel g.promotionChannel).inChannel c).key g = (victim g s.currentPromotionPage).key g from hkey,
        hstart.victim] at hback
      cases hback
    refine ⟨p.inChannel c, hstart.within.inChannel hlt, fun heq => hqp (congrArg (Page.key g) heq), ?_⟩
    rw [hpromotee, translate_eq hrest.done hw, hold _ hqp hqv]
    rw [show s.migrator.migrationMap ((p.inChannel c).key g) = some g.promotionChannel from hback]
    rfl

end CoinMigrator

end Nvm
