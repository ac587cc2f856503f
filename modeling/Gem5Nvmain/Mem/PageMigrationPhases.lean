import Gem5Nvmain.Lib.InFlight
import Gem5Nvmain.Mem.PageMigration

/- Reading and writing the pages of a migration.

  While the pages are read (`Reading`), a block of a page is still to be read, in flight, or in the buffer; while they
  are written (`Writing`), the blocks sent so far have moved, and the rest is in the buffers. In both phases a counter
  is the number of blocks still to be sent and of those in flight. The sends keep this (`Reading.readAll`,
  `Writing.writeAll`), and so does everything that has nothing to do with the migration (`Reading.outside`,
  `Writing.outside`). -/
namespace Gem5.Mem.PageMigration
open Lib Function List

variable {α : Type} {w : Nat} {s t u : State α} {d e : Side} {i n addr : Nat} {p : Reply α}

/-! ## Addresses -/

/-- The number of a block of a locked page. -/
def State.block (s : State α) (d : Side) (i : Nat) : Nat := s.locked d * 64 + i

/-- A PCM page and a DRAM page, whose addresses fit an `int`. -/
structure Pages (w : Nat) (s : State α) : Prop where
  pcm : (s.locked .pcm + 1) * 4096 ≤ w
  dram : w ≤ s.locked .dram * 4096
  small : ∀ d, s.locked d < 2 ^ 19

theorem pageAddr_eq (h : n < 2 ^ 19) : pageAddr n = n * 4096 := by
  have hshift : (BitVec.ofNat 32 n <<< 12).toNat = n * 4096 := by
    rw [BitVec.toNat_shiftLeft, BitVec.toNat_ofNat, Nat.mod_eq_of_lt (by omega), Nat.shiftLeft_eq]
    omega
  have hmsb : (BitVec.ofNat 32 n <<< 12).msb = false := by
    rw [BitVec.msb_eq_decide, hshift]
    exact decide_eq_false (by omega)
  unfold pageAddr
  rw [BitVec.signExtend_eq_setWidth_of_msb_false hmsb, BitVec.toNat_setWidth, hshift]
  omega

theorem other_other : d.other.other = d := by cases d <;> rfl

theorem other_ne : d.other ≠ d := by cases d <;> decide

theorem eq_or_other (d e : Side) : d = e ∨ d = e.other := by cases d <;> cases e <;> decide

section Addresses
variable (hp : Pages w s)
include hp

theorem Pages.blockAddr_eq (hi : i < 64) : blockAddr (s.locked d) i = s.locked d * 4096 + i * 64 := by
  have hsmall := hp.small d
  unfold blockAddr
  rw [pageAddr_eq hsmall]
  omega

theorem Pages.blockAddr_div (hi : i < 64) : blockAddr (s.locked d) i / 64 = s.block d i := by
  unfold State.block
  rw [hp.blockAddr_eq hi]
  omega

theorem Pages.blockAddr_page (hi : i < 64) : blockAddr (s.locked d) i / 4096 = s.locked d := by
  rw [hp.blockAddr_eq hi]
  omega

theorem Pages.isLocked_blockAddr (hi : i < 64) : s.isLocked (blockAddr (s.locked d) i) = true := by
  unfold State.isLocked
  rw [hp.blockAddr_page hi]
  cases d <;> simp

theorem Pages.side (h : addr / 4096 = s.locked d) : PcmOrDram w addr = d := by
  have hpcm := hp.pcm
  have hdram := hp.dram
  cases d with
  | pcm => exact if_neg (by omega)
  | dram => exact if_pos (by omega)

theorem Pages.side_blockAddr (hi : i < 64) : PcmOrDram w (blockAddr (s.locked d) i) = d :=
  hp.side (hp.blockAddr_page hi)

theorem Pages.blockIndex (hi : i < 64) : blockIndex (s.locked d) (blockAddr (s.locked d) i) = i := by
  have hsmall := hp.small d
  unfold PageMigration.blockIndex
  rw [hp.blockAddr_eq hi, pageAddr_eq hsmall]
  omega

variable {j : Nat}

theorem Pages.block_inj (hi : i < 64) (hj : j < 64) (h : s.block d i = s.block e j) : d = e ∧ i = j := by
  have hpcm := hp.pcm
  have hdram := hp.dram
  unfold State.block at h
  rcases eq_or_other d e with rfl | rfl
  · exact ⟨rfl, by omega⟩
  · cases e with
    | pcm =>
      change s.locked .dram * 64 + i = s.locked .pcm * 64 + j at h
      omega
    | dram =>
      change s.locked .pcm * 64 + i = s.locked .dram * 64 + j at h
      omega

theorem Pages.block_ne (hi : i < 64) (hj : j < 64) : s.block d i ≠ s.block d.other j :=
  fun h => other_ne (hp.block_inj hi hj h).1.symm

end Addresses

theorem block_ne_of_not_locked (hi : i < 64) (h : s.isLocked addr = false) : s.block d i ≠ addr / 64 := by
  intro heq
  have hpage : addr / 4096 = s.locked d := by
    unfold State.block at heq
    omega
  have hlocked : s.isLocked addr = true := by
    unfold State.isLocked
    rw [hpage]
    cases d <;> simp
  rw [hlocked] at h
  cases h

/-! ## Packets of the migration -/

/-- The replies to the migration that are still to come from one side. -/
def mine (w : Nat) (s : State α) (d : Side) : List (Reply α) :=
  s.pending.filter fun p => p.own && decide (PcmOrDram w p.addr = d)

theorem mem_mine : p ∈ mine w s d ↔ p ∈ s.pending ∧ p.own = true ∧ PcmOrDram w p.addr = d := by
  unfold mine
  rw [mem_filter, Bool.and_eq_true, decide_eq_true_eq]

/-- The variables that neither sends nor accesses nor other packets change. -/
structure Same (s t : State α) : Prop where
  migrating : t.migrating = s.migrating
  both : t.both = s.both
  locked : t.locked = s.locked
  readDone : t.readDone = s.readDone
  writeDone : t.writeDone = s.writeDone
  invalidWbMigEvent : t.invalidWbMigEvent = s.invalidWbMigEvent
  held : t.history.held = s.history.held
  below : t.history.below = s.history.below

theorem Same.block (h : Same s t) : t.block d i = s.block d i := by
  unfold State.block
  rw [h.locked]

theorem Same.pages (h : Same s t) (hp : Pages w s) : Pages w t := by
  constructor
  · rw [h.locked]
    exact hp.pcm
  · rw [h.locked]
    exact hp.dram
  · rw [h.locked]
    exact hp.small

theorem Same.isLocked (h : Same s t) : t.isLocked addr = s.isLocked addr := by
  unfold State.isLocked
  rw [h.locked]

/-- What is redirected, what of it waits, the locked pages, and whether a counter went below 0. -/
def State.rest (s : State α) : List (Redirected α) × List (Redirected α) × (Side → Nat) × Bool :=
  (s.history.redirected, s.invalidWbPacket, s.locked, s.history.below)

/-! Reads. -/

/-- The reply that a read of a block waits for. -/
def readReply (s : State α) (d : Side) (i : Nat) : Reply α where
  own := true
  cmd := .readResp
  addr := blockAddr (s.locked d) i
  size := 64
  data := none

theorem sendRead_eq : s.sendRead d i = { s with
    pending := s.pending ++ [readReply s d i]
    half := update s.half d { s.half d with readMigLocation := i + 1 }
    history := { s.history with taken := s.history.taken ++ [(.readReq, blockAddr (s.locked d) i / 64)] } } := rfl

theorem sendRead_same : Same s (s.sendRead d i) := ⟨rfl, rfl, rfl, rfl, rfl, rfl, rfl, rfl⟩

theorem sendRead_half : (s.sendRead d i).half d = { s.half d with readMigLocation := i + 1 } := by
  rw [sendRead_eq]
  exact update_self _ _ _

theorem sendRead_half_other : (s.sendRead d.other i).half d = s.half d := by
  rw [sendRead_eq]
  exact update_of_ne other_ne.symm _ _

theorem sendRead_mine (hp : Pages w s) (hi : i < 64) : mine w (s.sendRead d i) d = mine w s d ++ [readReply s d i] := by
  rw [sendRead_eq]
  unfold mine
  simp [readReply, hp.side_blockAddr hi]

theorem sendRead_mine_other (hp : Pages w s) (hi : i < 64) : mine w (s.sendRead d.other i) d = mine w s d := by
  rw [sendRead_eq]
  unfold mine
  simp [readReply, hp.side_blockAddr hi, other_ne]

theorem sendRead_count (hp : Pages w s) (hi : i < 64) (x : MemCmd × Nat) :
    (s.sendRead d i).history.taken.count x = s.history.taken.count x + if x = (.readReq, s.block d i) then 1 else 0 := by
  rw [sendRead_eq]
  rw [count_append, count_singleton, hp.blockAddr_div hi]
  simp only [beq_iff_eq, eq_comm (a := x)]

/-! Writes. -/

/-- The notice that a write of a block waits for. -/
def writeReply (s : State α) (d : Side) (i : Nat) : Reply α where
  own := true
  cmd := .writeback
  addr := blockAddr (s.locked d) i
  size := 64
  data := none

theorem sendWrite_eq : s.sendWrite d i = { s with
    mem := update s.mem (blockAddr (s.locked d.other) i / 64) ((s.half d).buffer i)
    pending := s.pending ++ [writeReply s d.other i]
    half := update s.half d { s.half d with writeMigLocation := i + 1 }
    history := { s.history with taken := s.history.taken ++ [(.writeback, blockAddr (s.locked d.other) i / 64)] } } := rfl

theorem sendWrite_same : Same s (s.sendWrite d i) := ⟨rfl, rfl, rfl, rfl, rfl, rfl, rfl, rfl⟩

theorem sendWrite_half : (s.sendWrite d i).half d = { s.half d with writeMigLocation := i + 1 } := by
  rw [sendWrite_eq]
  exact update_self _ _ _

theorem sendWrite_half_other : (s.sendWrite d.other i).half d = s.half d := by
  rw [sendWrite_eq]
  exact update_of_ne other_ne.symm _ _

theorem sendWrite_mine (hp : Pages w s) (hi : i < 64) :
    mine w (s.sendWrite d i) d.other = mine w s d.other ++ [writeReply s d.other i] := by
  rw [sendWrite_eq]
  unfold mine
  simp [writeReply, hp.side_blockAddr hi]

theorem sendWrite_mine_other (hp : Pages w s) (hi : i < 64) : mine w (s.sendWrite d i) d = mine w s d := by
  rw [sendWrite_eq]
  unfold mine
  simp [writeReply, hp.side_blockAddr hi, other_ne]

theorem sendWrite_count (hp : Pages w s) (hi : i < 64) (x : MemCmd × Nat) :
    (s.sendWrite d i).history.taken.count x = s.history.taken.count x + if x = (.writeback, s.block d.other i) then 1 else 0 := by
  rw [sendWrite_eq]
  rw [count_append, count_singleton, hp.blockAddr_div hi]
  simp only [beq_iff_eq, eq_comm (a := x)]

theorem sendWrite_mem (hp : Pages w s) (hi : i < 64) :
    (s.sendWrite d i).mem = update s.mem (s.block d.other i) ((s.half d).buffer i) := by
  rw [sendWrite_eq]
  rw [hp.blockAddr_div hi]

/-! ## Reading -/

/-- The page of this side is migrated. -/
def Active (s : State α) (d : Side) : Prop := d = .pcm ∨ s.both = true

/-- The blocks of a page that is being read. -/
structure ReadSide (w : Nat) (s : State α) (d : Side) : Prop where
  loc_le : (s.half d).readMigLocation ≤ 64
  left : (s.half d).migrationLeft.toNat = 64 - (s.half d).readMigLocation + (mine w s d).length
  asked : ∀ i < 64, s.history.taken.count (.readReq, s.block d i) = if i < (s.half d).readMigLocation then 1 else 0
  waits : ∀ p ∈ mine w s d, p.cmd = .readResp ∧ ∃ i < (s.half d).readMigLocation, p.addr = blockAddr (s.locked d) i ∧
    ∀ x, p.data = some x → x = s.history.held (s.block d i)
  got : ∀ i < (s.half d).readMigLocation, (∃ p ∈ mine w s d, p.addr = blockAddr (s.locked d) i) ∨
    (s.half d).buffer i = s.history.held (s.block d i)

/-- Nothing is waited for. -/
structure Quiet (w : Nat) (s : State α) (d : Side) : Prop where
  left : (s.half d).migrationLeft = 0
  waits : mine w s d = []

/-- What holds while the pages are read, whatever the counters are. -/
structure ReadBase (w : Nat) (s : State α) : Prop where
  migrating : s.migrating = true
  readDone : s.readDone = false
  writeDone : s.writeDone = true
  invalidWbMigEvent : s.invalidWbMigEvent = false
  pages : Pages w s
  held : ∀ d, ∀ i < 64, s.mem (s.block d i) = s.history.held (s.block d i)
  unwritten : ∀ n, s.history.taken.count (.writeback, n) = 0

structure Reading (w : Nat) (s : State α) : Prop extends ReadBase w s where
  side : ∀ d, Active s d → ReadSide w s d
  quiet : ∀ d, ¬ Active s d → Quiet w s d

theorem ReadBase.sent (hb : ReadBase w s) (hi : i < 64) : ReadBase w (s.sendRead d i) where
  migrating := hb.migrating
  readDone := hb.readDone
  writeDone := hb.writeDone
  invalidWbMigEvent := hb.invalidWbMigEvent
  pages := sendRead_same.pages hb.pages
  held := hb.held
  unwritten n := by
    rw [sendRead_count hb.pages hi, hb.unwritten, if_neg (by simp)]

theorem ReadSide.sent (hp : Pages w s) (h : ReadSide w s d) (hi : (s.half d).readMigLocation < 64) :
    ReadSide w (s.sendRead d (s.half d).readMigLocation) d := by
  have hmine := sendRead_mine (d := d) hp hi
  have hcount := sendRead_count (d := d) hp hi
  have hhalf := sendRead_half (s := s) (d := d) (i := (s.half d).readMigLocation)
  constructor
  · rw [hhalf]
    exact hi
  · have hleft := h.left
    rw [hhalf, hmine, length_append, length_singleton]
    dsimp only
    omega
  · intro i hlt
    have hasked := h.asked i hlt
    have hblock : (s.sendRead d (s.half d).readMigLocation).block d i = s.block d i := sendRead_same.block
    have hiff : ((MemCmd.readReq, s.block d i) = (.readReq, s.block d (s.half d).readMigLocation)) ↔
        i = (s.half d).readMigLocation := by
      constructor
      · intro heq
        exact (hp.block_inj hlt hi (Prod.mk.inj heq).2).2
      · rintro rfl
        rfl
    rw [hhalf, hblock, hcount, hasked]
    simp only [hiff]
    split <;> split <;> split <;> omega
  · intro p hmem
    rw [hmine, mem_append, mem_singleton] at hmem
    rw [hhalf]
    rcases hmem with hmem | rfl
    · obtain ⟨hcmd, j, hj, haddr, hdata⟩ := h.waits p hmem
      exact ⟨hcmd, j, Nat.lt_succ_of_lt hj, haddr, hdata⟩
    · refine ⟨rfl, _, Nat.lt_succ_self _, rfl, ?_⟩
      intro x hx
      cases hx
  · intro i hlt
    rw [hhalf] at hlt ⊢
    rw [hmine]
    rcases Nat.lt_succ_iff_lt_or_eq.mp hlt with hlt | rfl
    · rcases h.got i hlt with ⟨p, hmem, haddr⟩ | hbuf
      · exact .inl ⟨p, mem_append_left _ hmem, haddr⟩
      · exact .inr hbuf
    · exact .inl ⟨_, mem_append_right _ (mem_singleton_self _), rfl⟩

theorem ReadSide.kept (h : ReadSide w s d) (hs : Same s t) (hhalf : t.half d = s.half d)
    (htaken : ∀ i < 64, t.history.taken.count (.readReq, s.block d i) = s.history.taken.count (.readReq, s.block d i))
    (hwaits : mine w t d = mine w s d) : ReadSide w t d := by
  constructor
  · rw [hhalf]
    exact h.loc_le
  · rw [hhalf, hwaits]
    exact h.left
  · rw [hhalf]
    intro i hi
    rw [hs.block, htaken i hi]
    exact h.asked i hi
  · rw [hhalf, hwaits, hs.locked, hs.held]
    intro p hmem
    obtain ⟨hcmd, i, hi, haddr, hdata⟩ := h.waits p hmem
    refine ⟨hcmd, i, hi, haddr, ?_⟩
    rw [hs.block]
    exact hdata
  · rw [hhalf, hwaits, hs.locked, hs.held]
    intro i hi
    rw [hs.block]
    exact h.got i hi

variable {j : Nat}

theorem sendRead_count_other (hp : Pages w s) (hi : i < 64) (hj : j < 64) :
    (s.sendRead d.other i).history.taken.count (.readReq, s.block d j) = s.history.taken.count (.readReq, s.block d j) := by
  have hne : (MemCmd.readReq, s.block d j) ≠ (.readReq, s.block d.other i) := by
    intro heq
    exact hp.block_ne hj hi (Prod.mk.inj heq).2
  rw [sendRead_count hp hi, if_neg hne, Nat.add_zero]

theorem ReadSide.sent_other (hp : Pages w s) (h : ReadSide w s d) (hi : i < 64) :
    ReadSide w (s.sendRead d.other i) d :=
  h.kept sendRead_same sendRead_half_other (fun _ hj => sendRead_count_other hp hi hj) (sendRead_mine_other hp hi)

theorem Quiet.kept (h : Quiet w s d) (hhalf : t.half d = s.half d) (hwaits : mine w t d = mine w s d) : Quiet w t d := by
  constructor
  · rw [hhalf]
    exact h.left
  · rw [hwaits]
    exact h.waits

theorem Quiet.sent_other (hp : Pages w s) (h : Quiet w s d) (hi : i < 64) : Quiet w (s.sendRead d.other i) d :=
  h.kept sendRead_half_other (sendRead_mine_other hp hi)

variable {P : State α → Prop}

/-- What each read keeps, when it is that of the next block, the loop keeps. -/
theorem readAll_keeps {accepts : Nat → Bool} (h : P s)
    (hstep : ∀ s, P s → (s.half d).readMigLocation < 64 → P (s.sendRead d (s.half d).readMigLocation)) :
    P (readAll accepts d s) := by
  have hloop : ∀ n s, P s → (s.half d).readMigLocation + n ≤ 64 →
      P (readLoop accepts d n (s.half d).readMigLocation s) := by
    intro n
    induction n with
    | zero =>
      intro s h _
      exact h
    | succ n ih =>
      intro s h hn
      have hnext : ((s.sendRead d (s.half d).readMigLocation).half d).readMigLocation = (s.half d).readMigLocation + 1 := by
        rw [sendRead_half]
      rw [readLoop]
      split
      · rw [← hnext]
        apply ih _ (hstep s h (by omega))
        omega
      · exact h
  unfold readAll
  by_cases hle : (s.half d).readMigLocation ≤ 64
  · exact hloop _ _ h (by omega)
  · rw [Nat.sub_eq_zero_of_le (by omega)]
    exact h

/-! Steps that have nothing to do with the migration. -/

/-- Other packets, other blocks and the scheduling of an event. -/
structure Outside (w : Nat) (s t : State α) : Prop extends Same s t where
  half : t.half = s.half
  taken : t.history.taken = s.history.taken
  waits : ∀ d, mine w t d = mine w s d
  mem : ∀ d, ∀ i < 64, t.mem (s.block d i) = s.mem (s.block d i)

theorem Outside.aside (h : t = { s with
    numCpu := t.numCpu, MigratingEvent := t.MigratingEvent, haveRefuse := t.haveRefuse, readMigEvent := t.readMigEvent
    writeMigEvent := t.writeMigEvent, invalidWbPacket := t.invalidWbPacket
    history := { s.history with redirected := t.history.redirected } }) : Outside w s t := by
  rw [h]
  exact ⟨⟨rfl, rfl, rfl, rfl, rfl, rfl, rfl, rfl⟩, rfl, rfl, fun _ => rfl, fun _ _ _ => rfl⟩

theorem ReadSide.outside (h : ReadSide w s d) (ho : Outside w s t) : ReadSide w t d :=
  h.kept ho.toSame (congrFun ho.half d) (fun _ _ => by rw [ho.taken]) (ho.waits d)

theorem Quiet.outside (h : Quiet w s d) (ho : Outside w s t) : Quiet w t d := h.kept (congrFun ho.half d) (ho.waits d)

theorem ReadBase.outside (h : ReadBase w s) (ho : Outside w s t) : ReadBase w t := by
  constructor
  · exact ho.migrating.trans h.migrating
  · exact ho.readDone.trans h.readDone
  · exact ho.writeDone.trans h.writeDone
  · exact ho.invalidWbMigEvent.trans h.invalidWbMigEvent
  · exact ho.toSame.pages h.pages
  · intro d i hi
    rw [ho.block, ho.mem d i hi, ho.held]
    exact h.held d i hi
  · rw [ho.taken]
    exact h.unwritten

theorem Active.of_both (hb : t.both = s.both) (h : Active t d) : Active s d := by
  unfold Active at h ⊢
  rwa [hb] at h

theorem Reading.outside (h : Reading w s) (ho : Outside w s t) : Reading w t where
  toReadBase := h.toReadBase.outside ho
  side d hd := (h.side d (hd.of_both ho.both)).outside ho
  quiet d hd := (h.quiet d fun hs => hd (hs.of_both ho.both.symm)).outside ho

/-! The start, and the event of the reads. -/

/-- No migration is under way. -/
structure Resting (w : Nat) (s : State α) : Prop where
  migrating : s.migrating = false
  writeDone : s.writeDone = true
  invalidWbMigEvent : s.invalidWbMigEvent = false
  waits : ∀ d, mine w s d = []

theorem scheduleRead_outside (hs : s.scheduleRead = .ok t) : Outside w s t ∧ t.rest = s.rest := by
  unfold State.scheduleRead at hs
  split at hs
  · obtain ⟨_, -, hs⟩ := of_bind hs
    cases hs
    exact ⟨.aside rfl, rfl⟩
  · cases hs
    exact ⟨.aside rfl, rfl⟩

theorem Reading.readAll (h : Reading w s) (hd : Active s d) (accepts : Nat → Bool) :
    Reading w (readAll accepts d s) ∧ (PageMigration.readAll accepts d s).rest = s.rest ∧
      (PageMigration.readAll accepts d s).both = s.both := by
  apply readAll_keeps (P := fun t => Reading w t ∧ t.rest = s.rest ∧ t.both = s.both)
  · exact ⟨h, rfl, rfl⟩
  · rintro t ⟨h, hq, hb⟩ hlt
    refine ⟨⟨h.toReadBase.sent hlt, ?_, ?_⟩, hq, hb⟩
    · intro e he
      rcases eq_or_other d e with rfl | rfl
      · exact (h.side d he).sent h.pages hlt
      · exact (h.side e he).sent_other h.pages hlt
    · intro e he
      rcases eq_or_other d e with rfl | rfl
      · exact absurd (hd.of_both hb.symm) he
      · exact (h.quiet e he).sent_other h.pages hlt

variable {accepts : Side → Nat → Bool}

theorem Reading.event (h : Reading w s) (hs : processReadFromMemory accepts s = .ok t) :
    Reading w t ∧ t.rest = s.rest := by
  obtain ⟨_, -, hs⟩ := of_bind hs
  obtain ⟨h₁, hq₁, hb₁⟩ := h.readAll (.inl rfl) (accepts .pcm)
  dsimp only at hs
  split at hs
  · rename_i hboth
    obtain ⟨h₂, hq₂, -⟩ := h₁.readAll (.inr hboth) (accepts .dram)
    obtain ⟨ho, hq⟩ := scheduleRead_outside hs
    exact ⟨h₂.outside ho, hq.trans (hq₂.trans hq₁)⟩
  · obtain ⟨ho, hq⟩ := scheduleRead_outside hs
    exact ⟨h₁.outside ho, hq.trans hq₁⟩

variable {h : Half α}

theorem setHalf_self : (s.setHalf d h).half d = h := update_self _ _ _

theorem setHalf_other : (s.setHalf d.other h).half d = s.half d := update_of_ne other_ne.symm _ _

/-- A page of which nothing was read yet. -/
structure Unread (w : Nat) (s : State α) (d : Side) : Prop where
  waits : mine w s d = []
  asked : ∀ i < 64, s.history.taken.count (.readReq, s.block d i) = 0

theorem Unread.readSide (h : Unread w s d) (hleft : (s.half d).migrationLeft = 64) (hloc : (s.half d).readMigLocation = 0) :
    ReadSide w s d := by
  constructor
  · rw [hloc]
    omega
  · rw [hleft, hloc, h.waits]
    rfl
  · intro i hi
    rw [hloc, h.asked i hi, if_neg (Nat.not_lt_zero i)]
  · rw [h.waits]
    intro p hp
    cases hp
  · rw [hloc]
    intro i hi
    cases hi

theorem Unread.sent_other (hp : Pages w s) (h : Unread w s d) (hi : i < 64) : Unread w (s.sendRead d.other i) d where
  waits := by rw [sendRead_mine_other hp hi, h.waits]
  asked j hj := by
    have hblock : (s.sendRead d.other i).block d j = s.block d j := sendRead_same.block
    rw [hblock, sendRead_count_other hp hi hj, h.asked j hj]

variable {x : Half α}

theorem ReadSide.setHalf_other (h : ReadSide w s d) : ReadSide w (s.setHalf d.other x) d :=
  h.kept ⟨rfl, rfl, rfl, rfl, rfl, rfl, rfl, rfl⟩ PageMigration.setHalf_other (fun _ _ => rfl) rfl

theorem doMigrating_reading (h : Resting w s) (hp : Pages w s)
    (hs : doMigrating accepts s = .ok t) : Reading w t ∧ t.rest = (s.invalidWbPacket, s.invalidWbPacket, s.locked, s.history.below) := by
  unfold doMigrating readFromMemory at hs
  dsimp only at hs
  generalize hstart : State.setHalf (State.setHalf _ Side.dram _) Side.pcm _ = s₁ at hs
  have hbase : ReadBase w s₁ := by
    subst hstart
    exact ⟨rfl, rfl, h.writeDone, h.invalidWbMigEvent, ⟨hp.pcm, hp.dram, hp.small⟩, fun _ _ _ => rfl, fun _ => rfl⟩
  have hunread : ∀ d, Unread w s₁ d := by
    subst hstart
    exact fun d => ⟨h.waits d, fun _ _ => rfl⟩
  have hpcm : ReadSide w s₁ .pcm := by
    apply (hunread .pcm).readSide
    · subst hstart
      rfl
    · subst hstart
      rfl
  have hquiet : Quiet w s₁ .dram := by
    refine ⟨?_, (hunread .dram).waits⟩
    subst hstart
    rfl
  have hrest : s₁.rest = (s.invalidWbPacket, s.invalidWbPacket, s.locked, s.history.below) := by
    subst hstart
    rfl
  have hloop : ReadBase w (readAll (accepts .pcm) .pcm s₁) ∧ ReadSide w (readAll (accepts .pcm) .pcm s₁) .pcm ∧
      Quiet w (readAll (accepts .pcm) .pcm s₁) .dram ∧ Unread w (readAll (accepts .pcm) .pcm s₁) .dram ∧
      (readAll (accepts .pcm) .pcm s₁).rest = s₁.rest := by
    apply readAll_keeps (P := fun t => ReadBase w t ∧ ReadSide w t .pcm ∧ Quiet w t .dram ∧ Unread w t .dram ∧
      t.rest = s₁.rest)
    · exact ⟨hbase, hpcm, hquiet, hunread .dram, rfl⟩
    · rintro t ⟨hb, hpcm, hquiet, hun, hq⟩ hlt
      exact ⟨hb.sent hlt, hpcm.sent hb.pages hlt, hquiet.sent_other (d := .dram) hb.pages hlt,
        hun.sent_other (d := .dram) hb.pages hlt, hq⟩
  generalize readAll (accepts .pcm) .pcm s₁ = s₂ at hloop hs
  obtain ⟨hb, hpcm, hquiet, hun, hq⟩ := hloop
  split at hs
  · rename_i hboth
    have hreading : Reading w (s₂.setHalf .dram
        { s₂.half .dram with migrationLeft := 64, readMigLocation := 0, dataValid := fun _ => false }) := by
      refine ⟨⟨hb.migrating, hb.readDone, hb.writeDone, hb.invalidWbMigEvent, ⟨hb.pages.pcm, hb.pages.dram, hb.pages.small⟩,
        hb.held, hb.unwritten⟩, ?_, ?_⟩
      · intro d _
        cases d with
        | pcm => exact ReadSide.setHalf_other hpcm
        | dram =>
          have hun' : Unread w (s₂.setHalf .dram
              { s₂.half .dram with migrationLeft := 64, readMigLocation := 0, dataValid := fun _ => false }) .dram :=
            ⟨hun.waits, hun.asked⟩
          apply hun'.readSide
          · rw [setHalf_self]
          · rw [setHalf_self]
      · intro d hd
        exact absurd (.inr hboth) hd
    obtain ⟨hread, hq₂, -⟩ := hreading.readAll (.inr hboth) (accepts .dram)
    obtain ⟨ho, hq₃⟩ := scheduleRead_outside hs
    exact ⟨hread.outside ho, hq₃.trans (hq₂.trans (Eq.trans hq hrest))⟩
  · rename_i hboth
    have hreading : Reading w s₂ := by
      refine ⟨hb, ?_, ?_⟩
      · intro d hd
        rcases hd with rfl | hd
        · exact hpcm
        · exact absurd hd hboth
      · intro d hd
        cases d with
        | pcm => exact absurd (.inl rfl) hd
        | dram => exact hquiet
    obtain ⟨ho, hq₃⟩ := scheduleRead_outside hs
    exact ⟨hreading.outside ho, hq₃.trans (hq.trans hrest)⟩

/-! ## Writing -/

/-- The buffer of a side that is being written, to the page of the other side. -/
structure WriteSide (w : Nat) (s : State α) (e : Side) : Prop where
  loc_le : (s.half e).writeMigLocation ≤ 64
  left : (s.half e.other).migrationLeft.toNat = 64 - (s.half e).writeMigLocation + (mine w s e.other).length
  buffer : ∀ i < 64, (s.half e).buffer i = s.history.held (s.block e i)
  read : ∀ i < 64, s.history.taken.count (.readReq, s.block e i) = 1
  asked : ∀ i < 64, s.history.taken.count (.writeback, s.block e.other i) = if i < (s.half e).writeMigLocation then 1 else 0
  waits : ∀ p ∈ mine w s e.other, p.cmd = .writeback ∧ ∃ i < 64, p.addr = blockAddr (s.locked e.other) i
  moved : ∀ i < (s.half e).writeMigLocation, s.mem (s.block e.other i) = s.history.held (s.block e i)

structure WriteBase (w : Nat) (s : State α) : Prop where
  migrating : s.migrating = true
  readDone : s.readDone = true
  writeDone : s.writeDone = false
  invalidWbMigEvent : s.invalidWbMigEvent = false
  pages : Pages w s

structure Writing (w : Nat) (s : State α) : Prop extends WriteBase w s where
  side : ∀ e, Active s e → WriteSide w s e
  quiet : ∀ e, ¬ Active s e → Quiet w s e.other

/-- A page that was read, and of which nothing was written yet. -/
structure Buffered (w : Nat) (s : State α) (e : Side) : Prop where
  waits : mine w s e.other = []
  buffer : ∀ i < 64, (s.half e).buffer i = s.history.held (s.block e i)
  read : ∀ i < 64, s.history.taken.count (.readReq, s.block e i) = 1
  asked : ∀ i < 64, s.history.taken.count (.writeback, s.block e.other i) = 0

theorem Buffered.writeSide (h : Buffered w s e) (hleft : (s.half e.other).migrationLeft = 64)
    (hloc : (s.half e).writeMigLocation = 0) : WriteSide w s e := by
  refine ⟨?_, ?_, h.buffer, h.read, ?_, ?_, ?_⟩
  · rw [hloc]
    omega
  · rw [hleft, hloc, h.waits]
    rfl
  · intro i hi
    rw [hloc, h.asked i hi, if_neg (Nat.not_lt_zero i)]
  · rw [h.waits]
    intro p hp
    cases hp
  · rw [hloc]
    intro i hi
    cases hi

/-! What the write of a block does. -/

theorem WriteBase.sent (h : WriteBase w s) : WriteBase w (s.sendWrite e i) where
  migrating := h.migrating
  readDone := h.readDone
  writeDone := h.writeDone
  invalidWbMigEvent := h.invalidWbMigEvent
  pages := sendWrite_same.pages h.pages

theorem sendWrite_count_read (hp : Pages w s) (hi : i < 64) :
    (s.sendWrite e i).history.taken.count (.readReq, n) = s.history.taken.count (.readReq, n) := by
  rw [sendWrite_count hp hi, if_neg (by simp), Nat.add_zero]

theorem sendWrite_count_back (hp : Pages w s) (hi : i < 64) (hj : j < 64) :
    (s.sendWrite e i).history.taken.count (.writeback, s.block e j) = s.history.taken.count (.writeback, s.block e j) := by
  have hne : (MemCmd.writeback, s.block e j) ≠ (.writeback, s.block e.other i) := by
    intro heq
    exact hp.block_ne hj hi (Prod.mk.inj heq).2
  rw [sendWrite_count hp hi, if_neg hne, Nat.add_zero]

theorem WriteSide.sent (hp : Pages w s) (h : WriteSide w s e) (hi : (s.half e).writeMigLocation < 64) :
    WriteSide w (s.sendWrite e (s.half e).writeMigLocation) e := by
  have hhalf := sendWrite_half (s := s) (d := e) (i := (s.half e).writeMigLocation)
  have hmine := sendWrite_mine (d := e) hp hi
  have hother : ((s.sendWrite e (s.half e).writeMigLocation).half e.other) = s.half e.other := by
    have hkept := sendWrite_half_other (s := s) (d := e.other) (i := (s.half e).writeMigLocation)
    rwa [other_other] at hkept
  have hblock : ∀ d i, (s.sendWrite e (s.half e).writeMigLocation).block d i = s.block d i := fun _ _ => sendWrite_same.block
  have hheld : (s.sendWrite e (s.half e).writeMigLocation).history.held = s.history.held := rfl
  have hinj : ∀ i < 64, s.block e.other i = s.block e.other (s.half e).writeMigLocation → i = (s.half e).writeMigLocation :=
    fun i hlt heq => (hp.block_inj hlt hi heq).2
  constructor
  · rw [hhalf]
    exact hi
  · have hleft := h.left
    rw [hhalf, hother, hmine, length_append, length_singleton]
    dsimp only
    omega
  · rw [hhalf, hheld]
    intro i hlt
    rw [hblock]
    exact h.buffer i hlt
  · intro i hlt
    rw [hblock, sendWrite_count_read hp hi]
    exact h.read i hlt
  · intro i hlt
    have hasked := h.asked i hlt
    have hiff : ((MemCmd.writeback, s.block e.other i) = (.writeback, s.block e.other (s.half e).writeMigLocation)) ↔
        i = (s.half e).writeMigLocation := by
      constructor
      · intro heq
        exact hinj i hlt (Prod.mk.inj heq).2
      · rintro rfl
        rfl
    rw [hhalf, hblock, sendWrite_count hp hi, hasked]
    simp only [hiff]
    split <;> split <;> split <;> omega
  · intro p hmem
    rw [hmine, mem_append, mem_singleton] at hmem
    rcases hmem with hmem | rfl
    · exact h.waits p hmem
    · exact ⟨rfl, _, hi, rfl⟩
  · intro i hlt
    rw [hhalf] at hlt
    rw [hblock, hblock, hheld, sendWrite_mem hp hi]
    rcases Nat.lt_succ_iff_lt_or_eq.mp hlt with hlt | rfl
    · have hne : s.block e.other i ≠ s.block e.other (s.half e).writeMigLocation := by
        intro heq
        have hloc := hinj i (Nat.lt_trans hlt hi) heq
        omega
      rw [Function.update_of_ne hne]
      exact h.moved i hlt
    · rw [Function.update_self]
      exact h.buffer _ hi

theorem WriteSide.sent_other (hp : Pages w s) (h : WriteSide w s e) (hi : i < 64) :
    WriteSide w (s.sendWrite e.other i) e := by
  have hhalf := sendWrite_half_other (s := s) (d := e) (i := i)
  have hother : ((s.sendWrite e.other i).half e.other).migrationLeft = (s.half e.other).migrationLeft := by
    rw [sendWrite_half]
  have hmine := sendWrite_mine_other (d := e.other) hp hi
  have hblock : ∀ d j, (s.sendWrite e.other i).block d j = s.block d j := fun _ _ => sendWrite_same.block
  constructor
  · rw [hhalf]
    exact h.loc_le
  · rw [hhalf, hother, hmine]
    exact h.left
  · rw [hhalf]
    exact h.buffer
  · intro j hj
    rw [hblock, sendWrite_count_read hp hi]
    exact h.read j hj
  · intro j hj
    rw [hhalf, hblock, sendWrite_count_back hp hi hj]
    exact h.asked j hj
  · rw [hmine]
    exact h.waits
  · intro j hj
    rw [hhalf] at hj
    have hne : s.block e.other j ≠ s.block e.other.other i := hp.block_ne (Nat.lt_of_lt_of_le hj h.loc_le) hi
    rw [hblock, sendWrite_mem hp hi, Function.update_of_ne hne]
    exact h.moved j hj

theorem Buffered.sent_other (hp : Pages w s) (h : Buffered w s e) (hi : i < 64) : Buffered w (s.sendWrite e.other i) e := by
  have hblock : ∀ d j, (s.sendWrite e.other i).block d j = s.block d j := fun _ _ => sendWrite_same.block
  constructor
  · rw [sendWrite_mine_other hp hi]
    exact h.waits
  · rw [sendWrite_half_other]
    exact h.buffer
  · intro j hj
    rw [hblock, sendWrite_count_read hp hi]
    exact h.read j hj
  · intro j hj
    rw [hblock, sendWrite_count_back hp hi hj]
    exact h.asked j hj

theorem Quiet.sentWrite (hp : Pages w s) (h : Quiet w s d) (hi : i < 64) : Quiet w (s.sendWrite d i) d := by
  constructor
  · rw [sendWrite_half]
    exact h.left
  · rw [sendWrite_mine_other hp hi]
    exact h.waits

theorem writeAll_keeps {accepts : Nat → Bool} (h : P s)
    (hstep : ∀ s, P s → (s.half d).writeMigLocation < 64 → P (s.sendWrite d (s.half d).writeMigLocation))
    (hs : writeAll accepts d s = .ok t) : P t := by
  have hloop : ∀ n s, P s → (s.half d).writeMigLocation + n ≤ 64 →
      writeLoop accepts d n (s.half d).writeMigLocation s = .ok t → P t := by
    intro n
    induction n with
    | zero =>
      intro s h _ hs
      cases hs
      exact h
    | succ n ih =>
      intro s h hn hs
      have hnext : ((s.sendWrite d (s.half d).writeMigLocation).half d).writeMigLocation = (s.half d).writeMigLocation + 1 := by
        rw [sendWrite_half]
      obtain ⟨_, -, hs⟩ := of_bind hs
      split at hs
      · rw [← hnext] at hs
        apply ih _ (hstep s h (by omega)) _ hs
        omega
      · cases hs
        exact h
  unfold writeAll at hs
  by_cases hle : (s.half d).writeMigLocation ≤ 64
  · exact hloop _ _ h (by omega) hs
  · rw [Nat.sub_eq_zero_of_le (by omega)] at hs
    cases hs
    exact h

theorem WriteSide.outside (h : WriteSide w s e) (ho : Outside w s t) : WriteSide w t e := by
  constructor
  · rw [ho.half]
    exact h.loc_le
  · rw [ho.half, ho.waits]
    exact h.left
  · rw [ho.half, ho.held]
    intro i hi
    rw [ho.block]
    exact h.buffer i hi
  · rw [ho.taken]
    intro i hi
    rw [ho.block]
    exact h.read i hi
  · rw [ho.half, ho.taken]
    intro i hi
    rw [ho.block]
    exact h.asked i hi
  · rw [ho.waits, ho.locked]
    exact h.waits
  · rw [ho.half, ho.held]
    intro i hi
    rw [ho.block, ho.block, ho.mem e.other i (Nat.lt_of_lt_of_le hi h.loc_le)]
    exact h.moved i hi

theorem WriteBase.outside (h : WriteBase w s) (ho : Outside w s t) : WriteBase w t where
  migrating := ho.migrating.trans h.migrating
  readDone := ho.readDone.trans h.readDone
  writeDone := ho.writeDone.trans h.writeDone
  invalidWbMigEvent := ho.invalidWbMigEvent.trans h.invalidWbMigEvent
  pages := ho.toSame.pages h.pages

theorem Writing.outside (h : Writing w s) (ho : Outside w s t) : Writing w t where
  toWriteBase := h.toWriteBase.outside ho
  side e he := (h.side e (he.of_both ho.both)).outside ho
  quiet e he := (h.quiet e fun hs => he (hs.of_both ho.both.symm)).outside ho

theorem scheduleWrite_outside (hs : s.scheduleWrite = .ok t) : Outside w s t ∧ t.rest = s.rest := by
  unfold State.scheduleWrite at hs
  split at hs
  · obtain ⟨_, -, hs⟩ := of_bind hs
    cases hs
    exact ⟨.aside rfl, rfl⟩
  · cases hs
    exact ⟨.aside rfl, rfl⟩

theorem Writing.writeAll {accepts : Nat → Bool} (h : Writing w s) (he : Active s e) (hs : writeAll accepts e s = .ok t) :
    Writing w t ∧ t.rest = s.rest ∧ t.both = s.both := by
  apply writeAll_keeps _ _ hs
  · exact ⟨h, rfl, rfl⟩
  · rintro t ⟨h, hq, hb⟩ hlt
    refine ⟨⟨h.toWriteBase.sent, ?_, ?_⟩, hq, hb⟩
    · intro d hd
      rcases eq_or_other e d with rfl | rfl
      · exact (h.side e hd).sent h.pages hlt
      · exact (h.side d hd).sent_other h.pages hlt
    · intro d hd
      rcases eq_or_other e d with rfl | rfl
      · exact absurd (he.of_both hb.symm) hd
      · exact (h.quiet d hd).sentWrite h.pages hlt

theorem Writing.event (h : Writing w s) (hs : processWriteToMemory accepts s = .ok t) :
    Writing w t ∧ t.rest = s.rest := by
  obtain ⟨_, -, hs⟩ := of_bind hs
  obtain ⟨s₁, hs₁, hs⟩ := of_bind hs
  obtain ⟨h₁, hq₁, hb₁⟩ := h.writeAll (.inl rfl) hs₁
  split at hs
  · rename_i hboth
    obtain ⟨s₂, hs₂, hs⟩ := of_bind hs
    obtain ⟨h₂, hq₂, -⟩ := h₁.writeAll (.inr hboth) hs₂
    obtain ⟨ho, hq⟩ := scheduleWrite_outside hs
    exact ⟨h₂.outside ho, hq.trans (hq₂.trans hq₁)⟩
  · obtain ⟨ho, hq⟩ := scheduleWrite_outside hs
    exact ⟨h₁.outside ho, hq.trans hq₁⟩

theorem Buffered.setHalf_other (h : Buffered w s e) : Buffered w (s.setHalf e.other x) e := by
  refine ⟨h.waits, ?_, h.read, h.asked⟩
  rw [PageMigration.setHalf_other]
  exact h.buffer

theorem Buffered.setHalf_self (h : Buffered w s e) (hx : x.buffer = (s.half e).buffer) :
    Buffered w (s.setHalf e x) e := by
  refine ⟨h.waits, ?_, h.read, h.asked⟩
  rw [PageMigration.setHalf_self, hx]
  exact h.buffer

/-- Nothing is waited for, and the pages are in the buffers. -/
structure AllRead (w : Nat) (s : State α) : Prop where
  migrating : s.migrating = true
  readDone : s.readDone = true
  invalidWbMigEvent : s.invalidWbMigEvent = false
  pages : Pages w s
  waits : ∀ d, mine w s d = []
  side : ∀ e, Active s e → Buffered w s e

theorem AllRead.writing (h : AllRead w s) (hs : writeToMemory accepts s = .ok t) :
    Writing w t ∧ t.rest = s.rest := by
  obtain ⟨_, -, hs⟩ := of_bind hs
  obtain ⟨s₂, hs₂, hs⟩ := of_bind hs
  generalize hstart : State.setHalf (State.setHalf _ Side.dram _) Side.pcm _ = s₁ at hs₂
  have hbase : WriteBase w s₁ := by
    subst hstart
    exact ⟨h.migrating, h.readDone, rfl, h.invalidWbMigEvent, ⟨h.pages.pcm, h.pages.dram, h.pages.small⟩⟩
  have hbuffered : ∀ e, Active s₁ e → Buffered w s₁ e := by
    subst hstart
    intro e he
    have hfirst : Buffered w { s with writeDone := false } e := by
      obtain ⟨hwaits, hbuffer, hread, hasked⟩ := h.side e he
      exact ⟨hwaits, hbuffer, hread, hasked⟩
    cases e with
    | pcm => exact (Buffered.setHalf_other hfirst).setHalf_self rfl
    | dram => exact Buffered.setHalf_other (e := .dram) (hfirst.setHalf_self rfl)
  have hpcm : WriteSide w s₁ .pcm := by
    apply (hbuffered .pcm (.inl rfl)).writeSide
    · subst hstart
      rfl
    · subst hstart
      rfl
  have hquiet : Quiet w s₁ .pcm := by
    subst hstart
    exact ⟨rfl, h.waits .pcm⟩
  have hrest : s₁.rest = s.rest := by
    subst hstart
    rfl
  have hloop : WriteBase w s₂ ∧ WriteSide w s₂ .pcm ∧ Quiet w s₂ .pcm ∧ (Active s₂ .dram → Buffered w s₂ .dram) ∧
      s₂.rest = s₁.rest := by
    apply writeAll_keeps _ _ hs₂
    · exact ⟨hbase, hpcm, hquiet, hbuffered .dram, rfl⟩
    · rintro t ⟨hb, hpcm, hquiet, hbuf, hq⟩ hlt
      exact ⟨hb.sent, hpcm.sent hb.pages hlt, hquiet.sentWrite hb.pages hlt,
        fun hd => (hbuf hd).sent_other (e := .dram) hb.pages hlt, hq⟩
  obtain ⟨hb, hpcm, hquiet, hbuf, hq⟩ := hloop
  split at hs
  · rename_i hboth
    obtain ⟨s₃, hs₃, hs⟩ := of_bind hs
    generalize hnext : State.setHalf (State.setHalf s₂ Side.pcm _) Side.dram _ = s₂' at hs₃
    have hwriting : Writing w s₂' := by
      have hdram : Buffered w s₂' .dram := by
        subst hnext
        exact (Buffered.setHalf_other (hbuf (.inr hboth))).setHalf_self rfl
      refine ⟨?_, ?_, ?_⟩
      · subst hnext
        exact ⟨hb.migrating, hb.readDone, hb.writeDone, hb.invalidWbMigEvent, ⟨hb.pages.pcm, hb.pages.dram, hb.pages.small⟩⟩
      · intro e _
        cases e with
        | pcm =>
          subst hnext
          exact ⟨hpcm.loc_le, hpcm.left, hpcm.buffer, hpcm.read, hpcm.asked, hpcm.waits, hpcm.moved⟩
        | dram =>
          apply hdram.writeSide
          · subst hnext
            rfl
          · subst hnext
            rfl
      · intro e he
        have hactive : Active s₂' e := by
          subst hnext
          exact .inr hboth
        exact absurd hactive he
    have hq₂ : s₂'.rest = s₂.rest := by
      subst hnext
      rfl
    have hboth' : Active s₂' .dram := by
      subst hnext
      exact .inr hboth
    obtain ⟨h₃, hq₃, -⟩ := hwriting.writeAll hboth' hs₃
    obtain ⟨ho, hq₄⟩ := scheduleWrite_outside hs
    exact ⟨h₃.outside ho, hq₄.trans (hq₃.trans (hq₂.trans (Eq.trans hq hrest)))⟩
  · rename_i hboth
    have hwriting : Writing w s₂ := by
      refine ⟨hb, ?_, ?_⟩
      · intro e he
        rcases he with rfl | he
        · exact hpcm
        · exact absurd he hboth
      · intro e he
        cases e with
        | pcm => exact absurd (.inl rfl) he
        | dram => exact hquiet
    obtain ⟨ho, hq₄⟩ := scheduleWrite_outside hs
    exact ⟨hwriting.outside ho, hq₄.trans (hq.trans hrest)⟩

end Gem5.Mem.PageMigration
