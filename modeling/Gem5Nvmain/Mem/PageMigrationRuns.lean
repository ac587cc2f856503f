import Gem5Nvmain.Mem.PageMigrationPhases

/- A migration moves its pages, as long as the crossbar takes no packet for its own that is not.

  A run is one in which every response for a locked page that comes during a migration is to a packet of the migration
  (`meets`). Then the counters reach 0 when everything was read, and again when everything was written, and the
  redirected writes are done on top of it (`page_moved`). -/
namespace Gem5.Mem.PageMigration
open Lib Function List Bool PageMigration Prod

variable {α : Type} {w : Nat} {s t u : State α} {d e : Side} {i k n addr : Nat} {p : Reply α}

/-! ## Draining -/

/-- What the redirected writes make of a block of a page. -/
def effect (l : List (Redirected α)) (n : Nat) (x : α) : α :=
  l.foldl (fun x r => if r.request.cmd.testCmdAttrib .isWrite ∧ r.origin / 64 = n then r.request.write x else x) x

/-- The packet had an address in a locked page, and has that of the other one. -/
structure Redirects (w : Nat) (s : State α) (r : Redirected α) : Prop where
  isRead : r.request.cmd.testCmdAttrib .isRead = false
  origin : r.origin / 4096 = s.locked (PcmOrDram w r.origin)
  addr : r.request.addr = (pageAddr (s.locked (PcmOrDram w r.origin).other) + r.origin % 4096) % 2 ^ 64

/-- The page of a side has moved to the other side. -/
structure Moved (s : State α) (l : List (Redirected α)) (e : Side) : Prop where
  moved : ∀ i < 64, s.mem (s.block e.other i) = effect l (s.block e i) (s.history.held (s.block e i))
  read : ∀ i < 64, s.history.taken.count (.readReq, s.block e i) = 1
  written : ∀ i < 64, s.history.taken.count (.writeback, s.block e.other i) = 1

structure Draining (w : Nat) (s : State α) (done : List (Redirected α)) : Prop where
  migrating : s.migrating = true
  readDone : s.readDone = true
  writeDone : s.writeDone = true
  pages : Pages w s
  waits : ∀ d, mine w s d = []
  side : ∀ e, Active s e → Moved s done e

/-! Packets that are not the migration's. -/

variable {r : Request α}

theorem accept_same : Same s (s.accept false r) ∧ (s.accept false r).half = s.half ∧
    (s.accept false r).history = s.history ∧ (s.accept false r).rest = s.rest := by
  simp only [State.accept, false_eq_true, if_false]
  split
  · exact ⟨⟨rfl, rfl, rfl, rfl, rfl, rfl, rfl, rfl⟩, rfl, rfl, rfl⟩
  · split
    · exact ⟨⟨rfl, rfl, rfl, rfl, rfl, rfl, rfl, rfl⟩, rfl, rfl, rfl⟩
    · exact ⟨⟨rfl, rfl, rfl, rfl, rfl, rfl, rfl, rfl⟩, rfl, rfl, rfl⟩

theorem accept_pending : ∃ l, (s.accept false r).pending = s.pending ++ l ∧ ∀ p ∈ l, p.own = false := by
  simp only [State.accept, false_eq_true, if_false]
  split
  · exact ⟨_, rfl, by simp⟩
  · split
    · refine ⟨_, rfl, ?_⟩
      split <;> simp
    · refine ⟨_, rfl, ?_⟩
      split <;> simp

theorem accept_waits : mine w (s.accept false r) d = mine w s d := by
  obtain ⟨l, hl, hown⟩ := accept_pending (s := s)
  have hnone : (l.filter fun p => p.own && decide (PcmOrDram w p.addr = d)) = [] := by
    rw [filter_eq_nil_iff]
    intro p hp
    rw [hown p hp]
    simp
  unfold mine
  rw [hl, filter_append, hnone, append_nil]

theorem accept_mem : (s.accept false r).mem =
    if r.cmd.testCmdAttrib .isRead = false ∧ r.cmd.testCmdAttrib .isWrite = true then
      update s.mem (r.addr / 64) (r.write (s.mem (r.addr / 64)))
    else s.mem := by
  simp only [State.accept, false_eq_true, if_false]
  split
  · rename_i hread
    simp [hread]
  · rename_i hread
    split
    · rename_i hwrite
      simp [hread, hwrite]
    · rename_i hwrite
      simp [hwrite]

theorem accept_outside (h : s.isLocked r.addr = false) : Outside w s (s.accept false r) := by
  obtain ⟨hsame, hhalf, hhistory, -⟩ := accept_same
  refine ⟨hsame, hhalf, ?_, fun d => accept_waits, ?_⟩
  · rw [hhistory]
  · intro d i hi
    rw [accept_mem]
    split
    · exact update_of_ne (block_ne_of_not_locked hi h) _ _
    · rfl

theorem Redirects.blocks {r : Redirected α} (hp : Pages w s) (h : Redirects w s r) :
    ∃ d, ∃ j < 64, r.origin / 64 = s.block d j ∧ r.request.addr / 64 = s.block d.other j := by
  have hsmall := hp.small (PcmOrDram w r.origin).other
  have horigin := h.origin
  have haddr := h.addr
  rw [pageAddr_eq hsmall] at haddr
  refine ⟨PcmOrDram w r.origin, r.origin % 4096 / 64, by omega, ?_, ?_⟩
  · unfold State.block
    omega
  · unfold State.block
    omega

variable {l : List (Redirected α)} {x : α}

theorem effect_append {r : Redirected α} : effect (l ++ [r]) n x =
    if r.request.cmd.testCmdAttrib .isWrite ∧ r.origin / 64 = n then r.request.write (effect l n x) else effect l n x := by
  unfold effect
  rw [foldl_append]
  rfl

variable {done : List (Redirected α)}

theorem Draining.accept {r : Redirected α} (h : Draining w s done) (hr : Redirects w s r) :
    Draining w (s.accept false r.request) (done ++ [r]) := by
  obtain ⟨hsame, -, hhistory, -⟩ := accept_same
  refine ⟨hsame.migrating.trans h.migrating, hsame.readDone.trans h.readDone, hsame.writeDone.trans h.writeDone,
    hsame.pages h.pages, fun d => accept_waits.trans (h.waits d), fun e he => ?_⟩
  obtain ⟨hmoved, hread, hwritten⟩ := h.side e (he.of_both hsame.both)
  constructor
  · intro i hi
    obtain ⟨d, j, hj, horigin, haddr⟩ := hr.blocks h.pages
    have hmem := hmoved i hi
    rw [hhistory, hsame.block, hsame.block, effect_append, accept_mem, hr.isRead, horigin, haddr]
    by_cases hwrite : r.request.cmd.testCmdAttrib .isWrite = true
    · rw [if_pos ⟨rfl, hwrite⟩]
      by_cases heq : s.block d j = s.block e i
      · obtain ⟨rfl, rfl⟩ := h.pages.block_inj hj hi heq
        rw [update_self, if_pos ⟨hwrite, rfl⟩, hmem]
      · have hne : s.block e.other i ≠ s.block d.other j := by
          intro hblock
          obtain ⟨hside, rfl⟩ := h.pages.block_inj hi hj hblock
          apply heq
          rw [← other_other (d := d), ← hside, other_other]
        rw [update_of_ne hne, if_neg (fun hand => heq hand.2), hmem]
    · rw [if_neg (fun hand => hwrite hand.2), if_neg (fun hand => hwrite hand.1), hmem]
  · intro i hi
    rw [hhistory, hsame.block]
    exact hread i hi
  · intro i hi
    rw [hhistory, hsame.block]
    exact hwritten i hi

theorem Redirects.congr {r : Redirected α} (h : Redirects w s r) (hl : t.locked = s.locked) : Redirects w t r := by
  obtain ⟨hread, horigin, haddr⟩ := h
  constructor
  · exact hread
  · rw [hl]
    exact horigin
  · rw [hl]
    exact haddr

/-- The write-backs that are sent were first in the queue. -/
theorem Draining.send (accepts : Nat → Bool) (h : Draining w s done)
    (hr : ∀ r ∈ l, Redirects w s r) : ∃ sent, l = sent ++ (sendInvalidWb accepts n l s).invalidWbPacket ∧
      Draining w (sendInvalidWb accepts n l s) (done ++ sent) ∧ Same s (sendInvalidWb accepts n l s) ∧
      (sendInvalidWb accepts n l s).history = s.history := by
  induction l generalizing s n done with
  | nil =>
    refine ⟨[], rfl, ?_, ⟨rfl, rfl, rfl, rfl, rfl, rfl, rfl, rfl⟩, rfl⟩
    rw [append_nil]
    exact ⟨h.migrating, h.readDone, h.writeDone, ⟨h.pages.pcm, h.pages.dram, h.pages.small⟩, h.waits,
      fun e he => ⟨(h.side e he).moved, (h.side e he).read, (h.side e he).written⟩⟩
  | cons r l ih =>
    obtain ⟨hfirst, hrest⟩ := forall_mem_cons.mp hr
    obtain ⟨hsame, -, hhistory, -⟩ := accept_same
    rw [sendInvalidWb]
    split
    · obtain ⟨sent, hsent, hdrain, hsame', hhistory'⟩ :=
        ih (h.accept hfirst) fun x hx => (hrest x hx).congr hsame.locked
      refine ⟨r :: sent, ?_, ?_, ?_, hhistory'.trans hhistory⟩
      · rw [cons_append, ← hsent]
      · rw [append_assoc, singleton_append] at hdrain
        exact hdrain
      · exact ⟨hsame'.migrating.trans hsame.migrating, hsame'.both.trans hsame.both, hsame'.locked.trans hsame.locked,
          hsame'.readDone.trans hsame.readDone, hsame'.writeDone.trans hsame.writeDone,
          hsame'.invalidWbMigEvent.trans hsame.invalidWbMigEvent, hsame'.held.trans hsame.held, hsame'.below.trans hsame.below⟩
    · refine ⟨[], rfl, ?_, ⟨rfl, rfl, rfl, rfl, rfl, rfl, rfl, rfl⟩, rfl⟩
      rw [append_nil]
      exact ⟨h.migrating, h.readDone, h.writeDone, ⟨h.pages.pcm, h.pages.dram, h.pages.small⟩, h.waits,
        fun e he => ⟨(h.side e he).moved, (h.side e he).read, (h.side e he).written⟩⟩

/-! ## Phases -/

/-- The migration is in one of its phases; what waits of the redirected packets is what was not done. -/
def Phase (w : Nat) (s : State α) : Prop :=
  Resting w s ∨ (Reading w s ∧ s.history.redirected = s.invalidWbPacket) ∨
    (Writing w s ∧ s.history.redirected = s.invalidWbPacket) ∨
      ∃ done, Draining w s done ∧ s.history.redirected = done ++ s.invalidWbPacket

/-- What a step leaves behind. -/
structure Left (w : Nat) (s t : State α) : Prop where
  below : t.history.below = s.history.below
  locked : t.locked = s.locked
  queue : ∀ r ∈ t.invalidWbPacket, r ∈ s.invalidWbPacket
  phase : Phase w t
  ended : s.migrating = true → t.migrating = false → ∀ e, Active t e → Moved t t.history.redirected e

theorem Left.of_rest (hrest : t.rest = s.rest) (hphase : Phase w t) (hmig : s.migrating = true → t.migrating = true) :
    Left w s t := by
  obtain ⟨-, hrest⟩ := mk.inj hrest
  obtain ⟨hqueue, hrest⟩ := mk.inj hrest
  obtain ⟨hlocked, hbelow⟩ := mk.inj hrest
  refine ⟨hbelow, hlocked, ?_, hphase, fun hs ht => ?_⟩
  · rw [hqueue]
    exact fun r hr => hr
  · rw [hmig hs] at ht
    cases ht

theorem redirected_of_rest (hrest : t.rest = s.rest) (hq : s.history.redirected = s.invalidWbPacket) :
    t.history.redirected = t.invalidWbPacket := by
  obtain ⟨hredirected, hrest⟩ := mk.inj hrest
  obtain ⟨hqueue, -⟩ := mk.inj hrest
  rw [hredirected, hqueue, hq]

variable {wb : Nat → Bool}

theorem Draining.process (h : Draining w s done)
    (hev : s.invalidWbMigEvent = false) (hq : s.history.redirected = done ++ s.invalidWbPacket)
    (hr : ∀ r ∈ s.invalidWbPacket, Redirects w s r) (hs : processInvalidWb wb s = .ok t) : Left w s t := by
  obtain ⟨sent, hsent, hdrain, hsame, hhistory⟩ := h.send wb hr
  unfold processInvalidWb at hs
  dsimp only at hs
  generalize sendInvalidWb wb 0 s.invalidWbPacket s = s₁ at hsent hdrain hsame hhistory hs
  have hqueue : s₁.history.redirected = (done ++ sent) ++ s₁.invalidWbPacket := by
    rw [hhistory, hq, append_assoc, ← hsent]
  have hsub : ∀ r ∈ s₁.invalidWbPacket, r ∈ s.invalidWbPacket := by
    rw [hsent]
    intro r hmem
    exact mem_append_right _ hmem
  split at hs
  · rename_i hempty
    obtain ⟨_, -, hs⟩ := of_bind hs
    obtain ⟨_, -, hs⟩ := of_bind hs
    cases hs
    have hall : done ++ sent = s₁.history.redirected := by
      rw [hqueue, isEmpty_iff.mp hempty, append_nil]
    refine ⟨hsame.below, hsame.locked, hsub, .inl ⟨rfl, hdrain.writeDone, ?_, hdrain.waits⟩, fun _ _ e he => ?_⟩
    · exact hsame.invalidWbMigEvent.trans hev
    · obtain ⟨hmoved, hread, hwritten⟩ := hdrain.side e he
      rw [hall] at hmoved
      exact ⟨hmoved, hread, hwritten⟩
  · obtain ⟨_, -, hs⟩ := of_bind hs
    cases hs
    refine ⟨hsame.below, hsame.locked, hsub, .inr (.inr (.inr ⟨done ++ sent, ?_, hqueue⟩)), fun _ hmig => ?_⟩
    · exact ⟨hdrain.migrating, hdrain.readDone, hdrain.writeDone, ⟨hdrain.pages.pcm, hdrain.pages.dram, hdrain.pages.small⟩,
        hdrain.waits, fun e he => ⟨(hdrain.side e he).moved, (hdrain.side e he).read, (hdrain.side e he).written⟩⟩
    · cases hdrain.migrating.symm.trans hmig

/-! ## Responses -/

theorem credit_left (h : (s.half d).migrationLeft.toNat = n + 1) :
    ((s.credit d).half d).migrationLeft.toNat = n ∧ (s.credit d).history.below = s.history.below := by
  have hhalf : ((s.credit d).half d).migrationLeft = (s.half d).migrationLeft - 1 := by
    unfold State.credit
    dsimp only
    rw [update_self]
  constructor
  · rw [hhalf, BitVec.toNat_sub, h]
    change (2 ^ 8 - 1 + (n + 1)) % 2 ^ 8 = n
    omega
  · have hne : ((s.half d).migrationLeft == 0) = false := by
      rw [beq_eq_false_iff_ne]
      intro hzero
      rw [hzero] at h
      cases h
    unfold State.credit
    dsimp only
    rw [hne, Bool.or_false]

theorem credit_self : (s.credit d).half d = { s.half d with migrationLeft := (s.half d).migrationLeft - 1 } := update_self _ _ _

theorem mine_erase (hk : s.pending[k]? = some p) (hown : p.own = true) (hd : PcmOrDram w p.addr = d) :
    ∃ a b, mine w s d = a ++ p :: b ∧ mine w { s with pending := s.pending.eraseIdx k } d = a ++ b ∧
      mine w { s with pending := s.pending.eraseIdx k } d.other = mine w s d.other := by
  obtain ⟨a, b, hall, hrest⟩ := filter_eraseIdx_of_pos (f := fun p => p.own && decide (PcmOrDram w p.addr = d)) hk
    (by rw [hown, hd]; simp)
  have hother := filter_eraseIdx_of_neg (f := fun p => p.own && decide (PcmOrDram w p.addr = d.other)) hk
    (by rw [hd]; simp [other_ne.symm])
  exact ⟨a, b, hall, hrest, hother⟩

variable {a b : List (Reply α)}

/-- The reply of a read was stored and counted. -/
theorem ReadSide.stored {j : Nat} (hp : Pages w s) (h : ReadSide w s d) (hs : Same s t)
    (htaken : t.history.taken = s.history.taken) (hall : mine w s d = a ++ p :: b) (hrest : mine w t d = a ++ b)
    (hj : j < 64) (haddr : p.addr = blockAddr (s.locked d) j) (hx : x = s.history.held (s.block d j))
    (hloc : (t.half d).readMigLocation = (s.half d).readMigLocation)
    (hbuffer : (t.half d).buffer = update (s.half d).buffer j x)
    (hleft : (t.half d).migrationLeft.toNat = 64 - (s.half d).readMigLocation + (a ++ b).length) : ReadSide w t d := by
  have hsub : ∀ q ∈ a ++ b, q ∈ mine w s d := by
    intro q hq
    rw [hall]
    rcases mem_append.mp hq with hq | hq
    · exact mem_append_left _ hq
    · exact mem_append_right _ (mem_cons_of_mem _ hq)
  constructor
  · rw [hloc]
    exact h.loc_le
  · rw [hleft, hrest, hloc]
  · rw [hloc, htaken]
    intro i hi
    rw [hs.block]
    exact h.asked i hi
  · rw [hrest, hloc, hs.locked, hs.held]
    intro q hq
    obtain ⟨hcmd, i, hi, hqaddr, hdata⟩ := h.waits q (hsub q hq)
    refine ⟨hcmd, i, hi, hqaddr, ?_⟩
    rw [hs.block]
    exact hdata
  · rw [hrest, hloc, hs.locked, hs.held, hbuffer]
    intro i hi
    rw [hs.block]
    by_cases hij : i = j
    · rw [hij, update_self]
      exact .inr hx
    · rw [update_of_ne hij]
      rcases h.got i hi with ⟨q, hq, hqaddr⟩ | hbuf
      · rw [hall] at hq
        rcases mem_append.mp hq with hq | hq
        · exact .inl ⟨q, mem_append_left _ hq, hqaddr⟩
        · rcases mem_cons.mp hq with rfl | hq
          · -- the reply that was taken out is that of another block
            have hi64 : i < 64 := Nat.lt_of_lt_of_le hi h.loc_le
            rw [haddr, hp.blockAddr_eq hj, hp.blockAddr_eq hi64] at hqaddr
            omega
          · exact .inl ⟨q, mem_append_right _ hq, hqaddr⟩
      · exact .inr hbuf

theorem Reading.active (h : Reading w s) (hmem : p ∈ mine w s d) : Active s d := by
  by_contra hquiet
  rw [(h.quiet d hquiet).waits] at hmem
  exact not_mem_nil hmem

theorem Reading.stored (h : Reading w s) (hk : s.pending[k]? = some p) (hown : p.own = true)
    (hd : PcmOrDram w p.addr = d) (hx : p.data = some x)
    (ht : (State.store { s with pending := s.pending.eraseIdx k } d (blockIndex (s.locked d) p.addr) x).credit d = t) :
    Reading w t ∧ t.rest = s.rest := by
  obtain ⟨a, b, hall, hrest, hother⟩ := mine_erase hk hown hd
  have hmem : p ∈ mine w s d := by
    rw [hall]
    exact mem_append_right _ mem_cons_self
  have hactive := h.active hmem
  have hside := h.side d hactive
  obtain ⟨-, j, hj, haddr, hdata⟩ := hside.waits p hmem
  have hj64 : j < 64 := Nat.lt_of_lt_of_le hj hside.loc_le
  rw [haddr, h.pages.blockIndex hj64] at ht
  generalize hs₁ : State.store { s with pending := s.pending.eraseIdx k } d j x = s₁ at ht
  have hhalf : s₁.half d = { s.half d with
      buffer := update (s.half d).buffer j x, dataValid := update (s.half d).dataValid j true } := by
    rw [← hs₁]
    exact update_self _ _ _
  have hleft : (s₁.half d).migrationLeft.toNat = 64 - (s.half d).readMigLocation + (a ++ b).length + 1 := by
    have hlength := hside.left
    rw [hall, length_append, length_cons] at hlength
    rw [hhalf, length_append]
    omega
  obtain ⟨hleft', hbelow⟩ := credit_left hleft
  have hself := credit_self (s := s₁) (d := d)
  have helse : t.half d.other = s.half d.other := by
    rw [← ht, ← hs₁]
    exact (update_of_ne other_ne _ _).trans (update_of_ne other_ne _ _)
  rw [ht] at hleft' hbelow hself
  subst hs₁
  have hsame : Same s t := by
    subst ht
    exact ⟨rfl, rfl, rfl, rfl, rfl, rfl, rfl, hbelow⟩
  have htaken : t.history.taken = s.history.taken := by
    subst ht
    rfl
  have hmine : mine w t d = a ++ b ∧ mine w t d.other = mine w s d.other := by
    subst ht
    exact ⟨hrest, hother⟩
  refine ⟨⟨?_, ?_, ?_⟩, ?_⟩
  · refine ⟨hsame.migrating.trans h.migrating, hsame.readDone.trans h.readDone, hsame.writeDone.trans h.writeDone,
      hsame.invalidWbMigEvent.trans h.invalidWbMigEvent, hsame.pages h.pages, ?_, ?_⟩
    · subst ht
      exact h.held
    · rw [htaken]
      exact h.unwritten
  · intro e he
    rcases eq_or_other e d with rfl | rfl
    · apply hside.stored h.pages hsame htaken hall hmine.1 hj64 haddr (hdata x hx)
      · rw [hself, hhalf]
      · rw [hself, hhalf]
      · exact hleft'
    · exact (h.side _ (he.of_both hsame.both)).kept hsame helse (fun _ _ => by rw [htaken]) hmine.2
  · intro e he
    rcases eq_or_other e d with rfl | rfl
    · exact absurd (hactive.of_both hsame.both.symm) he
    · exact (h.quiet _ fun hs => he (hs.of_both hsame.both.symm)).kept helse hmine.2
  · subst ht
    exact congrArg (fun below => (s.history.redirected, s.invalidWbPacket, s.locked, below)) hbelow

/-- When both counters are 0, everything was read. -/
theorem Reading.allRead (h : Reading w s) (hpcm : (s.half .pcm).migrationLeft = 0) (hdram : (s.half .dram).migrationLeft = 0) :
    AllRead w { s with readDone := true } := by
  have hzero : ∀ d, (s.half d).migrationLeft.toNat = 0 := by
    intro d
    cases d with
    | pcm => rw [hpcm]; rfl
    | dram => rw [hdram]; rfl
  have hwaits : ∀ d, mine w s d = [] := by
    intro d
    by_cases hd : Active s d
    · have hleft := (h.side d hd).left
      rw [hzero] at hleft
      exact length_eq_zero_iff.mp (by omega)
    · exact (h.quiet d hd).waits
  refine ⟨h.migrating, rfl, h.invalidWbMigEvent, ⟨h.pages.pcm, h.pages.dram, h.pages.small⟩, hwaits, fun e he => ?_⟩
  have hside := h.side e he
  have hloc : (s.half e).readMigLocation = 64 := by
    have hleft := hside.left
    have hle := hside.loc_le
    rw [hzero] at hleft
    omega
  refine ⟨hwaits e.other, fun i hi => ?_, fun i hi => ?_, fun i _ => h.unwritten _⟩
  · rcases hside.got i (by omega) with ⟨q, hq, -⟩ | hbuf
    · rw [hwaits] at hq
      cases hq
    · exact hbuf
  · have hasked := hside.asked i hi
    rw [hloc, if_pos hi] at hasked
    exact hasked

variable {accepts : Side → Nat → Bool}

theorem Reading.response (h : Reading w s)
    (hq : s.history.redirected = s.invalidWbPacket) (hk : s.pending[k]? = some p) (hown : p.own = true)
    (hs : processMigrationRespond w accepts wb { s with pending := s.pending.eraseIdx k } p = .ok t) : Left w s t := by
  have hmem : p ∈ mine w s (PcmOrDram w p.addr) := mem_mine.mpr ⟨mem_of_getElem? hk, hown, rfl⟩
  obtain ⟨hcmd, -⟩ := (h.side _ (h.active hmem)).waits p hmem
  unfold processMigrationRespond at hs
  rw [if_pos (by rw [hcmd]; decide)] at hs
  obtain ⟨_, -, hs⟩ := of_bind hs
  cases hx : p.data with
  | none =>
    rw [hx] at hs
    cases hs
  | some x =>
    rw [hx] at hs
    dsimp only at hs
    split at hs
    · cases hs
    · obtain ⟨hread, hrest⟩ := h.stored hk hown rfl hx rfl
      split at hs
      · rename_i hzero
        obtain ⟨hwriting, hrest'⟩ := (hread.allRead hzero.1 hzero.2).writing hs
        have hrest := hrest'.trans hrest
        exact Left.of_rest hrest (.inr (.inr (.inl ⟨hwriting, redirected_of_rest hrest hq⟩))) fun _ => hwriting.migrating
      · cases hs
        exact Left.of_rest hrest (.inr (.inl ⟨hread, redirected_of_rest hrest hq⟩)) fun _ => hread.migrating

/-! The notice of a write. -/

theorem Writing.active (h : Writing w s) (hmem : p ∈ mine w s d) : Active s d.other := by
  by_contra hquiet
  have hwaits := (h.quiet _ hquiet).waits
  rw [other_other] at hwaits
  rw [hwaits] at hmem
  exact not_mem_nil hmem

/-- The notice was counted on the side of its page. -/
theorem WriteSide.credited (h : WriteSide w s e) (hs : Same s t)
    (htaken : t.history.taken = s.history.taken) (hmem : t.mem = s.mem) (hall : mine w s e.other = a ++ p :: b)
    (hrest : mine w t e.other = a ++ b) (hhalf : t.half e = s.half e)
    (hleft : (t.half e.other).migrationLeft.toNat = 64 - (s.half e).writeMigLocation + (a ++ b).length) : WriteSide w t e := by
  have hsub : ∀ q ∈ a ++ b, q ∈ mine w s e.other := by
    intro q hq
    rw [hall]
    rcases mem_append.mp hq with hq | hq
    · exact mem_append_left _ hq
    · exact mem_append_right _ (mem_cons_of_mem _ hq)
  constructor
  · rw [hhalf]
    exact h.loc_le
  · rw [hleft, hrest, hhalf]
  · rw [hhalf, hs.held]
    intro i hi
    rw [hs.block]
    exact h.buffer i hi
  · rw [htaken]
    intro i hi
    rw [hs.block]
    exact h.read i hi
  · rw [hhalf, htaken]
    intro i hi
    rw [hs.block]
    exact h.asked i hi
  · rw [hrest, hs.locked]
    intro q hq
    exact h.waits q (hsub q hq)
  · rw [hhalf, hmem, hs.held]
    intro i hi
    rw [hs.block, hs.block]
    exact h.moved i hi

/-- A notice for one page leaves the buffer of that side alone. -/
theorem WriteSide.credited_other (h : WriteSide w s e) (hs : Same s t) (htaken : t.history.taken = s.history.taken)
    (hmem : t.mem = s.mem) (hwaits : mine w t e.other = mine w s e.other) (helse : t.half e.other = s.half e.other)
    (hloc : (t.half e).writeMigLocation = (s.half e).writeMigLocation) (hbuffer : (t.half e).buffer = (s.half e).buffer) :
    WriteSide w t e := by
  constructor
  · rw [hloc]
    exact h.loc_le
  · rw [helse, hloc, hwaits]
    exact h.left
  · rw [hbuffer, hs.held]
    intro i hi
    rw [hs.block]
    exact h.buffer i hi
  · rw [htaken]
    intro i hi
    rw [hs.block]
    exact h.read i hi
  · rw [hloc, htaken]
    intro i hi
    rw [hs.block]
    exact h.asked i hi
  · rw [hwaits, hs.locked]
    exact h.waits
  · rw [hloc, hmem, hs.held]
    intro i hi
    rw [hs.block, hs.block]
    exact h.moved i hi

theorem Writing.credited (h : Writing w s) (hk : s.pending[k]? = some p) (hown : p.own = true)
    (hd : PcmOrDram w p.addr = d) (ht : State.credit { s with pending := s.pending.eraseIdx k } d = t) :
    Writing w t ∧ t.rest = s.rest := by
  obtain ⟨a, b, hall, hrest, hother⟩ := mine_erase hk hown hd
  have hmem : p ∈ mine w s d := by
    rw [hall]
    exact mem_append_right _ mem_cons_self
  have hactive := h.active hmem
  have hside := h.side d.other hactive
  generalize hs₁ : ({ s with pending := s.pending.eraseIdx k } : State α) = s₁ at ht
  have hleft : (s₁.half d).migrationLeft.toNat = 64 - (s.half d.other).writeMigLocation + (a ++ b).length + 1 := by
    have hlength := hside.left
    rw [other_other, hall, length_append, length_cons] at hlength
    rw [← hs₁, length_append]
    omega
  obtain ⟨hleft', hbelow⟩ := credit_left hleft
  have hself := credit_self (s := s₁) (d := d)
  have helse : t.half d.other = s.half d.other := by
    rw [← ht, ← hs₁]
    exact update_of_ne other_ne _ _
  rw [ht] at hleft' hbelow hself
  subst hs₁
  have hsame : Same s t := by
    subst ht
    exact ⟨rfl, rfl, rfl, rfl, rfl, rfl, rfl, hbelow⟩
  have htaken : t.history.taken = s.history.taken := by
    subst ht
    rfl
  have hmemory : t.mem = s.mem := by
    subst ht
    rfl
  have hmine : mine w t d = a ++ b ∧ mine w t d.other = mine w s d.other := by
    subst ht
    exact ⟨hrest, hother⟩
  refine ⟨⟨?_, ?_, ?_⟩, ?_⟩
  · exact ⟨hsame.migrating.trans h.migrating, hsame.readDone.trans h.readDone, hsame.writeDone.trans h.writeDone,
      hsame.invalidWbMigEvent.trans h.invalidWbMigEvent, hsame.pages h.pages⟩
  · intro e he
    rcases eq_or_other e d with rfl | rfl
    · apply (h.side e (he.of_both hsame.both)).credited_other hsame htaken hmemory hmine.2 helse
      · rw [hself]
      · rw [hself]
    · apply hside.credited hsame htaken hmemory
      · rw [other_other]
        exact hall
      · rw [other_other]
        exact hmine.1
      · exact helse
      · rw [other_other]
        exact hleft'
  · intro e he
    rcases eq_or_other e d with rfl | rfl
    · exact (h.quiet _ fun hs => he (hs.of_both hsame.both.symm)).kept helse hmine.2
    · exact absurd (hactive.of_both hsame.both.symm) he
  · subst ht
    exact congrArg (fun below => (s.history.redirected, s.invalidWbPacket, s.locked, below)) hbelow

/-- When both counters are 0, everything was written. -/
theorem Writing.draining (h : Writing w s) (hpcm : (s.half .pcm).migrationLeft = 0) (hdram : (s.half .dram).migrationLeft = 0) :
    Draining w { s with writeDone := true } [] := by
  have hzero : ∀ d, (s.half d).migrationLeft.toNat = 0 := by
    intro d
    cases d with
    | pcm => rw [hpcm]; rfl
    | dram => rw [hdram]; rfl
  have hwaits : ∀ d : Side, mine w s d.other = [] := by
    intro d
    by_cases hd : Active s d
    · have hleft := (h.side d hd).left
      rw [hzero] at hleft
      exact length_eq_zero_iff.mp (by omega)
    · exact (h.quiet d hd).waits
  refine ⟨h.migrating, h.readDone, rfl, ⟨h.pages.pcm, h.pages.dram, h.pages.small⟩, fun d => ?_, fun e he => ?_⟩
  · have hd := hwaits d.other
    rw [other_other] at hd
    exact hd
  · have hside := h.side e he
    have hloc : (s.half e).writeMigLocation = 64 := by
      have hleft := hside.left
      have hle := hside.loc_le
      rw [hzero] at hleft
      omega
    refine ⟨fun i hi => hside.moved i (by omega), hside.read, fun i hi => ?_⟩
    have hasked := hside.asked i hi
    rw [hloc, if_pos hi] at hasked
    exact hasked

theorem Writing.response (h : Writing w s)
    (hq : s.history.redirected = s.invalidWbPacket) (hr : ∀ r ∈ s.invalidWbPacket, Redirects w s r)
    (hk : s.pending[k]? = some p) (hown : p.own = true)
    (hs : processMigrationRespond w accepts wb { s with pending := s.pending.eraseIdx k } p = .ok t) : Left w s t := by
  have hmem : p ∈ mine w s (PcmOrDram w p.addr) := mem_mine.mpr ⟨mem_of_getElem? hk, hown, rfl⟩
  have hwaits := (h.side _ (h.active hmem)).waits
  rw [other_other] at hwaits
  obtain ⟨hcmd, -⟩ := hwaits p hmem
  unfold processMigrationRespond at hs
  dsimp only at hs
  rw [if_neg (by rw [hcmd]; decide)] at hs
  obtain ⟨_, -, hs⟩ := of_bind hs
  generalize ht : State.credit { s with pending := s.pending.eraseIdx k } (PcmOrDram w p.addr) = s₁ at hs
  obtain ⟨hwriting, hrest⟩ := h.credited hk hown rfl ht
  split at hs
  · rename_i hzero
    have hdrain := hwriting.draining hzero.1 hzero.2
    have hrest' := hrest
    obtain ⟨-, hrest'⟩ := mk.inj hrest'
    obtain ⟨hqueue, hrest'⟩ := mk.inj hrest'
    obtain ⟨hlocked, hbelow⟩ := mk.inj hrest'
    have hleft := hdrain.process hwriting.invalidWbMigEvent (redirected_of_rest hrest hq)
      (by
        intro r hmem
        rw [hqueue] at hmem
        exact (hr r hmem).congr hlocked) hs
    refine ⟨hleft.below.trans hbelow, hleft.locked.trans hlocked, ?_, hleft.phase, fun _ => hleft.ended hwriting.migrating⟩
    intro r hmem
    have hmem : r ∈ s₁.invalidWbPacket := hleft.queue r hmem
    rwa [hqueue] at hmem
  · cases hs
    exact Left.of_rest hrest (.inr (.inr (.inl ⟨hwriting, redirected_of_rest hrest hq⟩))) fun _ => hwriting.migrating

/-! ## Steps -/

/-- The step does nothing that the crossbar takes for the migration's and is not: a migration begins with a PCM page
  and a DRAM page that fit an `int`, while none is under way; during a migration no swap of a locked page ends, and no
  response for one comes that is not the migration's; what comes from the caches' invalidation is for a locked page.
  -/
def meets (w : Nat) (s : State α) : Op α → Bool
  | .migratingEvent _ => !s.MigratingEvent || (!s.migrating && decide ((s.locked .pcm + 1) * 4096 ≤ w) &&
      decide (w ≤ s.locked .dram * 4096) && decide (s.locked .pcm < 2 ^ 19) && decide (s.locked .dram < 2 ^ 19))
  | .access k =>
    match s.pending[k]? with
    | some p => !(s.migrating && s.isLocked p.addr && p.swap.isSome)
    | none => true
  | .response k _ _ =>
    match s.pending[k]? with
    | some p => !(s.migrating && s.isLocked p.addr) || p.own
    | none => true
  | .writeBack r => r.addr / 4096 == s.locked (PcmOrDram w r.addr)
  | _ => true

structure Inv (w : Nat) (s : State α) : Prop where
  below : s.history.below = false
  redirects : ∀ r ∈ s.invalidWbPacket, Redirects w s r
  phase : Phase w s

theorem Inv.left (h : Inv w s) (hl : Left w s t) : Inv w t where
  below := hl.below.trans h.below
  redirects r hmem := (h.redirects r (hl.queue r hmem)).congr hl.locked
  phase := hl.phase

theorem Resting.congr (h : Resting w s) (hmig : t.migrating = s.migrating) (hwrite : t.writeDone = s.writeDone)
    (hev : t.invalidWbMigEvent = s.invalidWbMigEvent) (hwaits : ∀ d, mine w t d = mine w s d) : Resting w t where
  migrating := hmig.trans h.migrating
  writeDone := hwrite.trans h.writeDone
  invalidWbMigEvent := hev.trans h.invalidWbMigEvent
  waits d := (hwaits d).trans (h.waits d)

theorem Draining.outside (h : Draining w s done) (ho : Outside w s t) : Draining w t done := by
  refine ⟨ho.migrating.trans h.migrating, ho.readDone.trans h.readDone, ho.writeDone.trans h.writeDone,
    ho.toSame.pages h.pages, fun d => (ho.waits d).trans (h.waits d), fun e he => ?_⟩
  obtain ⟨hmoved, hread, hwritten⟩ := h.side e (he.of_both ho.both)
  constructor
  · intro i hi
    rw [ho.block, ho.block, ho.mem e.other i hi, ho.held]
    exact hmoved i hi
  · intro i hi
    rw [ho.taken, ho.block]
    exact hread i hi
  · intro i hi
    rw [ho.taken, ho.block]
    exact hwritten i hi

/-- A migration that is under way goes on in its phase. -/
theorem Inv.outside (h : Inv w s) (ho : s.migrating = true → Outside w s t) (hrest : t.rest = s.rest)
    (hmig : t.migrating = s.migrating) (hwrite : t.writeDone = s.writeDone)
    (hev : t.invalidWbMigEvent = s.invalidWbMigEvent) (hwaits : ∀ d, mine w t d = mine w s d) : Left w s t := by
  apply Left.of_rest hrest _ hmig.trans
  rcases h.phase with hp | ⟨hp, hq⟩ | ⟨hp, hq⟩ | ⟨done, hp, hq⟩
  · exact .inl (hp.congr hmig hwrite hev hwaits)
  · exact .inr (.inl ⟨hp.outside (ho hp.migrating), redirected_of_rest hrest hq⟩)
  · exact .inr (.inr (.inl ⟨hp.outside (ho hp.migrating), redirected_of_rest hrest hq⟩))
  · refine .inr (.inr (.inr ⟨done, hp.outside (ho hp.migrating), ?_⟩))
    obtain ⟨hredirected, hrest⟩ := mk.inj hrest
    obtain ⟨hqueue, -⟩ := mk.inj hrest
    rw [hredirected, hqueue, hq]

/-- The reply to a packet of the migration is for a locked page, and comes while it is under way. -/
theorem Inv.own (h : Inv w s) (hmem : p ∈ s.pending) (hown : p.own = true) :
    s.migrating = true ∧ s.isLocked p.addr = true := by
  have hmine : p ∈ mine w s (PcmOrDram w p.addr) := mem_mine.mpr ⟨hmem, hown, rfl⟩
  rcases h.phase with hp | ⟨hp, -⟩ | ⟨hp, -⟩ | ⟨done, hp, -⟩
  · rw [hp.waits] at hmine
    cases hmine
  · obtain ⟨-, i, hi, haddr, -⟩ := (hp.side _ (hp.active hmine)).waits p hmine
    rw [haddr]
    exact ⟨hp.migrating, hp.pages.isLocked_blockAddr (Nat.lt_of_lt_of_le hi (hp.side _ (hp.active hmine)).loc_le)⟩
  · have hwaits := (hp.side _ (hp.active hmine)).waits
    rw [other_other] at hwaits
    obtain ⟨-, i, hi, haddr⟩ := hwaits p hmine
    rw [haddr]
    exact ⟨hp.migrating, hp.pages.isLocked_blockAddr hi⟩
  · rw [hp.waits] at hmine
    cases hmine

theorem Inv.response (h : Inv w s) (hk : s.pending[k]? = some p)
    (hm : (!(s.migrating && s.isLocked p.addr) || p.own) = true)
    (hs : recvTimingResp w accepts wb { s with pending := s.pending.eraseIdx k } p = .ok t) : Left w s t := by
  have hmem := mem_of_getElem? hk
  by_cases hown : p.own = true
  · obtain ⟨hmig, hlocked⟩ := h.own hmem hown
    have hs : processMigrationRespond w accepts wb { s with pending := s.pending.eraseIdx k } p = .ok t :=
      (if_pos ⟨hmig, hlocked⟩).symm.trans hs
    rcases h.phase with hp | ⟨hp, hq⟩ | ⟨hp, hq⟩ | ⟨done, hp, -⟩
    · cases hp.migrating.symm.trans hmig
    · exact hp.response hq hk hown hs
    · exact hp.response hq h.redirects hk hown hs
    · have hmine : p ∈ mine w s (PcmOrDram w p.addr) := mem_mine.mpr ⟨hmem, hown, rfl⟩
      rw [hp.waits] at hmine
      cases hmine
  · have hown : p.own = false := eq_false_iff.mpr hown
    have hout : ¬ (s.migrating = true ∧ s.isLocked p.addr = true) := by
      rintro ⟨hmig, hlocked⟩
      rw [hmig, hlocked, hown] at hm
      cases hm
    have herase : ∀ d, mine w { s with pending := s.pending.eraseIdx k } d = mine w s d := by
      intro d
      exact filter_eraseIdx_of_neg hk (by rw [hown, Bool.false_and])
    have ht : t = { s with pending := s.pending.eraseIdx k } := by
      unfold recvTimingResp at hs
      split at hs
      · rename_i hin
        exact absurd hin hout
      · split at hs
        · cases hs
          rfl
        · obtain ⟨_, -, hs⟩ := of_bind hs
          cases hs
          rfl
    subst ht
    exact h.outside (fun _ => ⟨⟨rfl, rfl, rfl, rfl, rfl, rfl, rfl, rfl⟩, rfl, rfl, herase, fun _ _ _ => rfl⟩) rfl rfl rfl rfl
      herase

/-- The access of a read of the migration finds what the page held. -/
theorem Reading.access (h : Reading w s) (hk : s.pending[k]? = some p) (hown : p.own = true)
    {q : Reply α} (hqown : q.own = p.own) (hqaddr : q.addr = p.addr) (hqcmd : q.cmd = p.cmd)
    (hqdata : q.data = some (s.mem (p.addr / 64))) : Reading w { s with pending := s.pending.set k q } := by
  generalize hd : PcmOrDram w p.addr = d
  obtain ⟨a, b, hall, hset⟩ := filter_set_of_pos (f := fun p => p.own && decide (PcmOrDram w p.addr = d)) hk
    (by rw [hown, hd]; simp) (by rw [hqown, hown, hqaddr, hd]; simp)
  have hother := filter_set_of_neg (f := fun p => p.own && decide (PcmOrDram w p.addr = d.other)) hk
    (by rw [hd]; simp [other_ne.symm]) (by rw [hqaddr, hd]; simp [other_ne.symm])
  have hmem : p ∈ mine w s d := mem_mine.mpr ⟨mem_of_getElem? hk, hown, hd⟩
  generalize ht : ({ s with pending := s.pending.set k q } : State α) = t
  have hsame : Same s t := by
    subst ht
    exact ⟨rfl, rfl, rfl, rfl, rfl, rfl, rfl, rfl⟩
  have hhalf : t.half = s.half := by
    subst ht
    rfl
  have htaken : t.history.taken = s.history.taken := by
    subst ht
    rfl
  have hmine : mine w t d = a ++ q :: b ∧ mine w t d.other = mine w s d.other := by
    subst ht
    exact ⟨hset, hother⟩
  have hall : mine w s d = a ++ p :: b := hall
  have hactive := h.active hmem
  have hside := h.side d hactive
  refine ⟨⟨hsame.migrating.trans h.migrating, hsame.readDone.trans h.readDone, hsame.writeDone.trans h.writeDone,
    hsame.invalidWbMigEvent.trans h.invalidWbMigEvent, hsame.pages h.pages, ?_, ?_⟩, ?_, ?_⟩
  · subst ht
    exact h.held
  · rw [htaken]
    exact h.unwritten
  · intro e he
    rcases eq_or_other e d with rfl | rfl
    · have hback : ∀ r ∈ a ++ q :: b, r = q ∨ r ∈ mine w s e := by
        intro r hr
        rw [hall]
        rcases mem_append.mp hr with hr | hr
        · exact .inr (mem_append_left _ hr)
        · rcases mem_cons.mp hr with hr | hr
          · exact .inl hr
          · exact .inr (mem_append_right _ (mem_cons_of_mem _ hr))
      constructor
      · rw [hhalf]
        exact hside.loc_le
      · have hleft := hside.left
        rw [hall, length_append, length_cons] at hleft
        rw [hhalf, hmine.1, length_append, length_cons]
        exact hleft
      · rw [hhalf, htaken]
        intro i hi
        rw [hsame.block]
        exact hside.asked i hi
      · rw [hmine.1, hhalf, hsame.locked, hsame.held]
        intro r hr
        rcases hback r hr with rfl | hr
        · obtain ⟨hcmd, i, hi, haddr, -⟩ := hside.waits p hmem
          have hi64 : i < 64 := Nat.lt_of_lt_of_le hi hside.loc_le
          refine ⟨hqcmd.trans hcmd, i, hi, hqaddr.trans haddr, ?_⟩
          intro x hx
          rw [hqdata, haddr, h.pages.blockAddr_div hi64] at hx
          cases hx
          rw [hsame.block]
          exact h.held e i hi64
        · obtain ⟨hcmd, i, hi, haddr, hdata⟩ := hside.waits r hr
          refine ⟨hcmd, i, hi, haddr, ?_⟩
          rw [hsame.block]
          exact hdata
      · rw [hmine.1, hhalf, hsame.locked, hsame.held]
        intro i hi
        rw [hsame.block]
        rcases hside.got i hi with ⟨r, hr, haddr⟩ | hbuf
        · rw [hall] at hr
          rcases mem_append.mp hr with hr | hr
          · exact .inl ⟨r, mem_append_left _ hr, haddr⟩
          · rcases mem_cons.mp hr with rfl | hr
            · exact .inl ⟨q, mem_append_right _ mem_cons_self, hqaddr.trans haddr⟩
            · exact .inl ⟨r, mem_append_right _ (mem_cons_of_mem _ hr), haddr⟩
        · exact .inr hbuf
    · exact (h.side _ (he.of_both hsame.both)).kept hsame (congrFun hhalf _) (fun _ _ => by rw [htaken]) hmine.2
  · intro e he
    rcases eq_or_other e d with rfl | rfl
    · exact absurd (hactive.of_both hsame.both.symm) he
    · exact (h.quiet _ fun hs => he (hs.of_both hsame.both.symm)).kept (congrFun hhalf _) hmine.2

theorem Inv.access (h : Inv w s)
    (hm : ∀ p, s.pending[k]? = some p → (!(s.migrating && s.isLocked p.addr && p.swap.isSome)) = true) :
    Left w s (s.access k) := by
  have hnone : Left w s s :=
    h.outside (fun _ => .aside rfl) rfl rfl rfl rfl
      fun _ => rfl
  unfold State.access
  split
  · rename_i p hk
    split
    · rename_i hread
      have hswap := hm p hk
      by_cases hown : p.own = true
      · obtain ⟨hmig, hlocked⟩ := h.own (mem_of_getElem? hk) hown
        rw [hmig, hlocked, Bool.true_and, Bool.true_and, Bool.not_eq_true', Option.isSome_eq_false_iff,
          Option.isNone_iff_eq_none] at hswap
        rw [hswap]
        have hmine : p ∈ mine w s (PcmOrDram w p.addr) := mem_mine.mpr ⟨mem_of_getElem? hk, hown, rfl⟩
        rcases h.phase with hp | ⟨hp, hq⟩ | ⟨hp, -⟩ | ⟨done, hp, -⟩
        · cases hp.migrating.symm.trans hmig
        · exact Left.of_rest rfl (.inr (.inl ⟨hp.access hk hown rfl rfl rfl rfl, hq⟩)) fun _ => hmig
        · -- a notice is not read
          have hwaits := (hp.side _ (hp.active hmine)).waits
          rw [other_other] at hwaits
          obtain ⟨hcmd, -⟩ := hwaits p hmine
          rw [hcmd] at hread
          cases hread
        · rw [hp.waits] at hmine
          cases hmine
      · have hown : p.own = false := eq_false_iff.mpr hown
        have hset : ∀ d, mine w { s with pending := s.pending.set k { p with data := some (s.mem (p.addr / 64)) } } d =
            mine w s d := by
          intro d
          exact filter_set_of_neg hk (by rw [hown, Bool.false_and]) (by rw [hown, Bool.false_and])
        refine h.outside (fun hmig => ⟨⟨rfl, rfl, rfl, rfl, rfl, rfl, rfl, rfl⟩, rfl, rfl, hset, ?_⟩) rfl rfl rfl rfl hset
        intro d i hi
        rw [hmig, Bool.true_and, Bool.not_eq_true', Bool.and_eq_false_iff] at hswap
        cases hf : p.swap with
        | none => rfl
        | some f =>
          rcases hswap with hlocked | hnone
          · exact update_of_ne (block_ne_of_not_locked hi hlocked) _ _
          · rw [hf] at hnone
            cases hnone
    · exact hnone
  · exact hnone

/-! The other steps. -/

/-- When the step ends a migration, the pages have moved. -/
def Ends (s t : State α) : Prop :=
  s.migrating = true → t.migrating = false → ∀ e, Active t e → Moved t t.history.redirected e

section
variable (h : Inv w s)
include h

theorem Inv.lock {pcm dram : Nat} {both across : Bool} (hs : migratingFunc s pcm dram both across = .ok t) :
    Inv w t ∧ Ends s t := by
  unfold migratingFunc at hs
  split at hs
  · cases hs
    exact ⟨h, fun hmig hmig' => absurd (hmig.symm.trans hmig') (by decide)⟩
  · rename_i hmig
    obtain ⟨_, hempty, hs⟩ := of_bind hs
    rw [require_eq_ok, List.isEmpty_iff] at hempty
    cases hs
    refine ⟨⟨h.below, ?_, .inl ?_⟩, fun hmig' => absurd hmig' hmig⟩
    · intro r hmem
      rw [hempty] at hmem
      cases hmem
    · rcases h.phase with hp | ⟨hp, -⟩ | ⟨hp, -⟩ | ⟨done, hp, -⟩
      · exact ⟨hp.migrating, hp.writeDone, hp.invalidWbMigEvent, hp.waits⟩
      · exact absurd hp.migrating hmig
      · exact absurd hp.migrating hmig
      · exact absurd hp.migrating hmig

theorem Inv.aside (hrest : t.rest = s.rest) (ho : Outside w s t) : Left w s t :=
  h.outside (fun _ => ho) hrest ho.migrating ho.writeDone ho.invalidWbMigEvent ho.waits

theorem Inv.printReq (hs : recvPrintReq s = .ok t) : Left w s t := by
  unfold recvPrintReq at hs
  dsimp only at hs
  split at hs
  · obtain ⟨_, -, hs⟩ := of_bind hs
    cases hs
    exact h.aside rfl (.aside rfl)
  · cases hs
    exact h.aside rfl (.aside rfl)

theorem Inv.migratingEvent (hmig : s.migrating = false) (hp : Pages w s)
    (hs : doMigrating accepts { s with MigratingEvent := false } = .ok t) : Inv w t ∧ Ends s t := by
  have hresting : Resting w { s with MigratingEvent := false } := by
    rcases h.phase with hrest | ⟨hread, -⟩ | ⟨hwrite, -⟩ | ⟨done, hdrain, -⟩
    · exact ⟨hrest.migrating, hrest.writeDone, hrest.invalidWbMigEvent, hrest.waits⟩
    · cases hmig.symm.trans hread.migrating
    · cases hmig.symm.trans hwrite.migrating
    · cases hmig.symm.trans hdrain.migrating
  obtain ⟨hread, hrest⟩ := doMigrating_reading hresting ⟨hp.pcm, hp.dram, hp.small⟩ hs
  obtain ⟨hredirected, hrest⟩ := mk.inj hrest
  obtain ⟨hqueue, hrest⟩ := mk.inj hrest
  obtain ⟨hlocked, hbelow⟩ := mk.inj hrest
  refine ⟨⟨hbelow.trans h.below, ?_, .inr (.inl ⟨hread, hredirected.trans hqueue.symm⟩)⟩,
    fun hmig' => absurd (hmig.symm.trans hmig') (by decide)⟩
  rw [hqueue]
  exact fun r hmem => (h.redirects r hmem).congr hlocked

theorem Inv.readEvent (hs : processReadFromMemory accepts { s with readMigEvent := false } = .ok t) : Left w s t := by
  have hcond := hs
  obtain ⟨_, hcond, -⟩ := of_bind hcond
  rw [require_eq_ok, and_eq_true, not_eq_true'] at hcond
  have hdone : s.readDone = false := hcond.1
  have hmig : s.migrating = true := hcond.2
  rcases h.phase with hp | ⟨hp, hq⟩ | ⟨hp, -⟩ | ⟨done, hp, -⟩
  · cases hp.migrating.symm.trans hmig
  · have hout : Outside w s { s with readMigEvent := false } :=
      ⟨⟨rfl, rfl, rfl, rfl, rfl, rfl, rfl, rfl⟩, rfl, rfl, fun _ => rfl, fun _ _ _ => rfl⟩
    obtain ⟨hread, hrest⟩ := (hp.outside hout).event hs
    exact Left.of_rest hrest (.inr (.inl ⟨hread, redirected_of_rest hrest hq⟩)) fun _ => hread.migrating
  · cases hdone.symm.trans hp.readDone
  · cases hdone.symm.trans hp.readDone

theorem Inv.writeEvent
    (hs : processWriteToMemory accepts { s with writeMigEvent := false } = .ok t) : Left w s t := by
  have hcond := hs
  obtain ⟨_, hcond, -⟩ := of_bind hcond
  rw [require_eq_ok, and_eq_true, not_eq_true'] at hcond
  have hdone : s.writeDone = false := hcond.1
  have hmig : s.migrating = true := hcond.2
  rcases h.phase with hp | ⟨hp, -⟩ | ⟨hp, hq⟩ | ⟨done, hp, -⟩
  · cases hp.migrating.symm.trans hmig
  · cases hdone.symm.trans hp.writeDone
  · have hout : Outside w s { s with writeMigEvent := false } :=
      ⟨⟨rfl, rfl, rfl, rfl, rfl, rfl, rfl, rfl⟩, rfl, rfl, fun _ => rfl, fun _ _ _ => rfl⟩
    obtain ⟨hwrite, hrest⟩ := (hp.outside hout).event hs
    exact Left.of_rest hrest (.inr (.inr (.inl ⟨hwrite, redirected_of_rest hrest hq⟩))) fun _ => hwrite.migrating
  · cases hdone.symm.trans hp.writeDone

theorem Inv.invalidWbEvent (hev : s.invalidWbMigEvent = true)
    (hs : processInvalidWb wb { s with invalidWbMigEvent := false } = .ok t) : Left w s t := by
  rcases h.phase with hp | ⟨hp, -⟩ | ⟨hp, -⟩ | ⟨done, hp, hq⟩
  · cases hp.invalidWbMigEvent.symm.trans hev
  · cases hp.invalidWbMigEvent.symm.trans hev
  · cases hp.invalidWbMigEvent.symm.trans hev
  · have hdrain : Draining w { s with invalidWbMigEvent := false } done :=
      ⟨hp.migrating, hp.readDone, hp.writeDone, ⟨hp.pages.pcm, hp.pages.dram, hp.pages.small⟩, hp.waits,
        fun e he => ⟨(hp.side e he).moved, (hp.side e he).read, (hp.side e he).written⟩⟩
    have hleft := hdrain.process rfl hq (fun r hmem => (h.redirects r hmem).congr rfl) hs
    exact ⟨hleft.below, hleft.locked, hleft.queue, hleft.phase, hleft.ended⟩

theorem Inv.request {accepts : Bool} : Left w s (recvTimingReq s r accepts) := by
  unfold recvTimingReq
  split
  · exact h.aside rfl (.aside rfl)
  · rename_i hout
    split
    · obtain ⟨hsame, -, -, hrest⟩ := accept_same
      refine h.outside (fun hmig => accept_outside ?_) hrest hsame.migrating hsame.writeDone hsame.invalidWbMigEvent
        fun _ => accept_waits
      rw [eq_false_iff]
      exact fun hlocked => hout ⟨hmig, hlocked⟩
    · exact h.aside rfl (.aside rfl)

theorem Inv.writeBack (hm : r.addr / 4096 = s.locked (PcmOrDram w r.addr))
    (hs : redirect w s r = .ok t) : Inv w t ∧ Ends s t := by
  obtain ⟨_, hread, hs⟩ := of_bind hs
  rw [require_eq_ok, not_eq_true'] at hread
  cases hs
  refine ⟨⟨h.below, ?_, ?_⟩, fun hmig hmig' => absurd (hmig.symm.trans hmig') (by decide)⟩
  · intro x hmem
    rcases mem_append.mp hmem with hmem | hmem
    · exact (h.redirects x hmem).congr rfl
    · rw [mem_singleton.mp hmem]
      exact ⟨hread, hm, rfl⟩
  · rcases h.phase with hp | ⟨hp, hq⟩ | ⟨hp, hq⟩ | ⟨done, hp, hq⟩
    · exact .inl ⟨hp.migrating, hp.writeDone, hp.invalidWbMigEvent, hp.waits⟩
    · refine .inr (.inl ⟨hp.outside ?_, ?_⟩)
      · exact .aside rfl
      · rw [hq]
    · refine .inr (.inr (.inl ⟨hp.outside ?_, ?_⟩))
      · exact .aside rfl
      · rw [hq]
    · refine .inr (.inr (.inr ⟨done, hp.outside ?_, ?_⟩))
      · exact .aside rfl
      · rw [hq, append_assoc]

theorem Inv.step {op : Op α} (hm : meets w s op = true) (hs : step w s op = .ok t) : Inv w t ∧ Ends s t := by
  have hleft : Left w s t → Inv w t ∧ Ends s t := fun hl => ⟨h.left hl, hl.ended⟩
  have hsame : s = t → Inv w t ∧ Ends s t := by
    rintro rfl
    exact ⟨h, fun hmig hmig' => absurd (hmig.symm.trans hmig') (by decide)⟩
  cases op with
  | lock pcm dram both across => exact h.lock hs
  | printReq => exact hleft (h.printReq hs)
  | migratingEvent accepts =>
    simp only [PageMigration.step] at hs
    split at hs
    · rename_i hev
      simp only [meets, hev, Bool.not_true, Bool.false_or, Bool.and_eq_true, Bool.not_eq_true', decide_eq_true_eq] at hm
      obtain ⟨⟨⟨⟨hmig, hpcm⟩, hdram⟩, hsmall⟩, hsmall'⟩ := hm
      refine h.migratingEvent hmig ⟨hpcm, hdram, fun d => ?_⟩ hs
      cases d with
      | pcm => exact hsmall
      | dram => exact hsmall'
    · exact hsame (Except.ok.inj hs)
  | readEvent accepts =>
    simp only [PageMigration.step] at hs
    split at hs
    · exact hleft (h.readEvent hs)
    · exact hsame (Except.ok.inj hs)
  | writeEvent accepts =>
    simp only [PageMigration.step] at hs
    split at hs
    · exact hleft (h.writeEvent hs)
    · exact hsame (Except.ok.inj hs)
  | invalidWbEvent wb =>
    simp only [PageMigration.step] at hs
    split at hs
    · rename_i hev
      exact hleft (h.invalidWbEvent hev hs)
    · exact hsame (Except.ok.inj hs)
  | access k =>
    cases hs
    refine hleft (h.access fun p hk => ?_)
    simpa only [meets, hk] using hm
  | response k accepts wb =>
    simp only [PageMigration.step] at hs
    split at hs
    · rename_i p hk
      split at hs
      · refine hleft (h.response hk ?_ hs)
        simpa only [meets, hk] using hm
      · exact hsame (Except.ok.inj hs)
    · exact hsame (Except.ok.inj hs)
  | request r accepts =>
    cases hs
    exact hleft h.request
  | writeBack r => exact h.writeBack (beq_iff_eq.mp hm) hs

end

/-! ## Runs -/

theorem start_inv (mem : Nat → α) (buffer : Side → Nat → α) : Inv w (start mem buffer) where
  below := rfl
  redirects _ hmem := absurd hmem not_mem_nil
  phase := .inl ⟨rfl, rfl, rfl, fun _ => rfl⟩

/-- In a run whose steps meet the condition no counter goes below 0, and a migration that ends has moved its pages,
  what they held when it began and the redirected writes. -/
theorem page_moved {mem : Nat → α} {buffer : Side → Nat → α} {ops : List (Op α)}
    (hr : Exec (StepIf (meets w) (step w)) (start mem buffer) ops s) :
    s.history.below = false ∧ ∀ op t, meets w s op = true → step w s op = .ok t →
      s.migrating = true → t.migrating = false → ∀ e, (e = .pcm ∨ t.both = true) → Moved t t.history.redirected e := by
  have hinv : Inv w s := hr.invariant (start_inv mem buffer) fun t op u ht hstep => (ht.step hstep.1 hstep.2).1
  exact ⟨hinv.below, fun op t hm hs => (hinv.step hm hs).2⟩

/-! Runs of one PCM page and one DRAM page. -/

def always : Side → Nat → Bool := fun _ _ => true

/-- The next replies, each of which is ready when it is sent. -/
def replies (n : Nat) : List (Op Nat) :=
  (range n).flatMap fun _ => [.access 0, .response 0 always fun _ => true]

def twoPages : State Nat := start (fun n => n * n) fun _ _ => 0

/-- A migration up to its last reply, with a write-back that is redirected. -/
def migration : List (Op Nat) :=
  [.lock 0 1 false false, .printReq, .migratingEvent always,
    .writeBack { cmd := .writeback, addr := 320, write := fun _ => 7 }] ++ replies 127

theorem page_moved_one : ∃ s t, Exec (StepIf (meets 4096) (step 4096)) twoPages migration s ∧
    step 4096 s (.response 0 always fun _ => true) = .ok t ∧ Moved t t.history.redirected .pcm := by
  refine Exec.ends_withIf_two (p := fun s =>
      meets 4096 s (.response 0 always fun _ => true) && s.migrating &&
        match step 4096 s (.response 0 always fun _ => true) with
        | .ok t => !t.migrating
        | .error _ => false) (by decide +kernel) fun s hr hlast => ?_
  rw [and_eq_true, and_eq_true] at hlast
  obtain ⟨⟨hm, hmig⟩, hend⟩ := hlast
  split at hend
  · rename_i t hs
    rw [not_eq_true'] at hend
    exact ⟨t, hs, (page_moved hr).2 _ t hm hs hmig hend .pcm (.inl rfl)⟩
  · cases hend

/-- An ordinary read of the PCM page was accepted before the pages were locked. -/
def stray : List (Op Nat) :=
  [.request { cmd := .readReq, addr := 320, write := id } true, .lock 0 1 false false, .printReq, .migratingEvent always] ++
    replies 65

/-- Its response is counted, so that one block is written before it was read, and the read of that block is counted at 0. -/
theorem stray_response : ∃ s, Exec (StepOf (step 4096)) twoPages stray s ∧ s.history.below = true := by
  have hrun : endsIn (step 4096) twoPages stray (fun s => s.history.below) = true := by decide +kernel
  exact Exec.of_endsIn hrun

end Gem5.Mem.PageMigration
