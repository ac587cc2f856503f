import Mathlib.Data.List.Forall2
import Gem5Nvmain.Mem.DramReadQueue

/- The write queue of a DRAM controller.

  An entry takes the writes that touch it if together they are not longer than a burst. So the queue covers the bytes
  of the writes that are not drained, and no others. But the test is about the size only: a write that ends where an
  entry of the next burst begins, or begins where one of the burst before ends, makes an entry that is in two bursts.
  As long as an entry only takes writes of its own burst (`contained`), each entry is in one burst, and so has one
  rank, bank and row (`WriteInv`). -/
namespace Gem5.Mem
open Lib List DramQueues

namespace DramSystem

variable {p : DRAMCtrl} {k a n : Nat} {w w' : DRAMPacket} {q q' : List DRAMPacket} {x : Nat × Nat} {xs ps : List (Nat × Nat)}
  {parts : List (List (Nat × Nat))} {pkt : PacketPtr} {s t : DramSystem} {op : DramOp}

/-! ## Entries -/

/-- The address is in the range of the entry. -/
def covers (w : DRAMPacket) (b : Nat) : Prop := inside (w.addr, w.size) b

/-- Rank, bank and row are those of the address. -/
def Decoded (p : DRAMCtrl) (w : DRAMPacket) (b : Nat) : Prop :=
  ∀ pkt size isRead, ∃ d, p.decodeAddr pkt b size isRead = .ok d ∧ d.rank = w.rank ∧ d.bank = w.bank ∧ d.row = w.row

/-- A range in one burst that is not the last one of the addresses. -/
structure Burst (p : DRAMCtrl) (a n : Nat) : Prop where
  nonempty : 1 ≤ n
  inBurst : a + n ≤ nextBlock p.burstSize a
  below : nextBlock p.burstSize a < 2 ^ 64

structure Entry (p : DRAMCtrl) (w : DRAMPacket) : Prop extends Burst p w.addr w.size where
  decoded : Decoded p w w.addr

/-- The entry covers the bytes of its writes. -/
def Covers (w : DRAMPacket) (ps : List (Nat × Nat)) : Prop := ∀ b, covers w b ↔ ∃ x ∈ ps, inside x b

structure WriteInv (p : DRAMCtrl) (q : List DRAMPacket) (parts : List (List (Nat × Nat))) : Prop where
  entries : ∀ w ∈ q, Entry p w
  parts : List.Forall₂ Covers q parts

/-- The entry that takes a piece is in the burst of the piece. -/
def contained (p : DRAMCtrl) (stage : List DRAMPacket × (Nat × Nat)) : Bool :=
  match stage.1.find? fun w => (w.absorb p.burstSize stage.2.1 stage.2.2).isSome with
  | some w => w.addr / p.burstSize == stage.2.1 / p.burstSize
  | none => true

variable {b : Nat}

theorem decodeAddr_burst {a size size' : Nat} {isRead isRead' : Bool} {pkt pkt' : PacketPtr} {d : DRAMPacket}
    (hab : a / p.burstSize = b / p.burstSize) (h : p.decodeAddr pkt a size isRead = .ok d) :
    p.decodeAddr pkt' b size' isRead' = .ok { d with pkt := pkt', isRead := isRead', addr := b, size := size', burstHelper := none } := by
  unfold DRAMCtrl.decodeAddr at h ⊢
  rw [hab] at h
  obtain ⟨⟨rank, bank, row⟩, hmap, h⟩ := of_bind h
  obtain ⟨_, hrank, h⟩ := of_bind h
  obtain ⟨_, hbank, h⟩ := of_bind h
  obtain ⟨_, hrow, h⟩ := of_bind h
  obtain ⟨_, hno, h⟩ := of_bind h
  cases h
  exact bind_eq_ok.mpr ⟨_, hmap, bind_eq_ok.mpr ⟨_, hrank, bind_eq_ok.mpr ⟨_, hbank, bind_eq_ok.mpr ⟨_, hrow, bind_eq_ok.mpr ⟨_, hno, rfl⟩⟩⟩⟩⟩

theorem Decoded.burst (h : Decoded p w a) (hab : a / p.burstSize = b / p.burstSize) : Decoded p w b := by
  intro pkt size isRead
  obtain ⟨d, hd, hrank, hbank, hrow⟩ := h pkt size isRead
  exact ⟨_, decodeAddr_burst hab hd, hrank, hbank, hrow⟩

theorem Burst.same (h : Burst p a n) (hb : inside (a, n) b) : b / p.burstSize = a / p.burstSize := by
  have hlow : a / p.burstSize * p.burstSize ≤ b := (Nat.div_mul_le_self _ _).trans hb.1
  have hhigh : b < (a / p.burstSize + 1) * p.burstSize := by
    rw [Nat.add_one_mul]
    exact Nat.lt_of_lt_of_le hb.2 h.inBurst
  exact Nat.div_eq_of_lt_le hlow hhigh

theorem Burst.bounds (h : Burst p a n) (hB : p.burstSize = 2 ^ k) (hk : k < 32) : a + n < 2 ^ 64 ∧ n ≤ p.burstSize ∧ p.burstSize < 2 ^ 32 := by
  have hlt : p.burstSize < 2 ^ 32 := hB ▸ burst_lt hk
  have hrest := nextBlock_sub a (hB ▸ Nat.two_pow_pos k)
  have hin := h.inBurst
  have hbelow := h.below
  omega

/-- What an entry covers after it took a write. -/
theorem absorb_spec (hB : p.burstSize = 2 ^ k) (hk : k < 32) (hw : Burst p w.addr w.size) (hx : Burst p a n)
    (h : w.absorb p.burstSize a n = some w') :
    (∀ b, covers w' b ↔ covers w b ∨ inside (a, n) b) ∧ (w'.addr = w.addr ∨ w'.addr = a) ∧ 1 ≤ w'.size ∧
      w'.rank = w.rank ∧ w'.bank = w.bank ∧ w'.row = w.row := by
  obtain ⟨hwlt, hwle, hlt⟩ := hw.bounds hB hk
  obtain ⟨hxlt, hxle, -⟩ := hx.bounds hB hk
  have hwpos := hw.nonempty
  have hxpos := hx.nonempty
  have hadd : add64 a n = a + n := Nat.mod_eq_of_lt hxlt
  have haddw : add64 w.addr w.size = w.addr + w.size := Nat.mod_eq_of_lt hwlt
  unfold DRAMPacket.absorb at h
  rw [hadd, haddw] at h
  unfold covers inside
  split at h
  · split at h
    · cases h
      refine ⟨fun b => ?_, .inr rfl, hxpos, rfl, rfl, rfl⟩
      dsimp only
      omega
    · split at h
      · have hsub : sub64 (w.addr + w.size) a = w.addr + w.size - a := sub64_eq (by omega) hwlt
        rw [Nat.mod_eq_of_lt (by omega)] at h
        cases h
        refine ⟨fun b => ?_, .inr rfl, ?_, rfl, rfl, rfl⟩
        · dsimp only
          omega
        · dsimp only
          omega
      · cases h
  · split at h
    · cases h
      refine ⟨fun b => ?_, .inl rfl, hwpos, rfl, rfl, rfl⟩
      omega
    · split at h
      · have hsub : sub64 (a + n) w.addr = a + n - w.addr := sub64_eq (by omega) hxlt
        rw [Nat.mod_eq_of_lt (by omega)] at h
        cases h
        refine ⟨fun b => ?_, .inl rfl, ?_, rfl, rfl, rfl⟩
        · dsimp only
          omega
        · dsimp only
          omega
      · cases h

/-- A write of its own burst leaves the entry in that burst. -/
theorem Entry.absorb (hB : p.burstSize = 2 ^ k) (hk : k < 32) (hw : Entry p w) (hx : Burst p a n)
    (hsame : w.addr / p.burstSize = a / p.burstSize) (h : w.absorb p.burstSize a n = some w') : Entry p w' := by
  obtain ⟨hcover, haddr, hpos, hrank, hbank, hrow⟩ := absorb_spec hB hk hw.toBurst hx h
  have hdiv : w'.addr / p.burstSize = w.addr / p.burstSize := by
    rcases haddr with haddr | haddr
    · rw [haddr]
    · rw [haddr, hsame]
  have hnext : nextBlock p.burstSize w'.addr = nextBlock p.burstSize w.addr := congrArg (· * p.burstSize + p.burstSize) hdiv
  have hnextx : nextBlock p.burstSize a = nextBlock p.burstSize w.addr := congrArg (· * p.burstSize + p.burstSize) hsame.symm
  refine ⟨⟨hpos, ?_, hnext ▸ hw.below⟩, ?_⟩
  · -- the last byte is one of the entry or one of the write
    have hin := hw.inBurst
    have hinx := hx.inBurst
    rw [hnext]
    have hlast := (hcover (w'.addr + w'.size - 1)).mp ⟨by omega, by omega⟩
    unfold covers inside at hlast
    omega
  · have hdecoded : Decoded p w w'.addr := hw.decoded.burst hdiv.symm
    intro pkt size isRead
    rw [hrank, hbank, hrow]
    exact hdecoded pkt size isRead

/-! ## One burst -/

variable {B : Nat}

theorem mergeWrite_eq_none : mergeWrite B a n q = none ↔ ∀ w ∈ q, w.absorb B a n = none := by
  induction q with
  | nil => simp [mergeWrite]
  | cons w q ih =>
    unfold mergeWrite
    cases hw : w.absorb B a n with
    | some w' => simp [hw]
    | none => simp [hw, ih]

theorem taker_eq_none : taker B q x = none ↔ mergeWrite B x.1 x.2 q = none := by
  rw [mergeWrite_eq_none]
  simp [taker]

theorem addPart_cons (hw : w.absorb B x.1 x.2 = none) (hsome : mergeWrite B x.1 x.2 q ≠ none) :
    addPart B (ps :: parts) (w :: q, x) = ps :: addPart B parts (q, x) := by
  have hcons : taker B (w :: q) x = (taker B q x).map (· + 1) := by
    unfold taker
    rw [findIdx?_cons]
    simp [hw]
  unfold addPart
  rw [hcons]
  cases htaker : taker B q x with
  | none => exact absurd (taker_eq_none.mp htaker) hsome
  | some i => rfl

theorem WriteInv.merge (hB : p.burstSize = 2 ^ k) (hk : k < 32) (i : WriteInv p q parts) (hx : Burst p x.1 x.2)
    (hc : contained p (q, x) = true) (h : mergeWrite p.burstSize x.1 x.2 q = some q') : WriteInv p q' (addPart p.burstSize parts (q, x)) := by
  obtain ⟨hentries, hparts⟩ := i
  induction hparts generalizing q' with
  | nil => cases h
  | @cons w ps q parts hcovers hrest ih =>
    have hw := hentries w mem_cons_self
    unfold mergeWrite at h
    cases habsorb : w.absorb p.burstSize x.1 x.2 with
    | some w' =>
      rw [habsorb] at h
      cases h
      have hsame : w.addr / p.burstSize = x.1 / p.burstSize := by
        simpa [contained, habsorb] using hc
      have hpart : addPart p.burstSize (ps :: parts) (w :: q, x) = (x :: ps) :: parts := by
        simp [addPart, taker, habsorb, findIdx?_cons]
      rw [hpart]
      refine ⟨fun v hv => ?_, List.Forall₂.cons (fun b => ?_) hrest⟩
      · rcases mem_cons.mp hv with rfl | hv
        · exact hw.absorb hB hk hx hsame habsorb
        · exact hentries v (mem_cons_of_mem w hv)
      · rw [(absorb_spec hB hk hw.toBurst hx habsorb).1, hcovers b, exists_mem_cons_iff, or_comm]
    | none =>
      rw [habsorb] at h
      obtain ⟨r, hr, rfl⟩ := Option.map_eq_some_iff.mp h
      have hc' : contained p (q, x) = true := by
        simpa [contained, habsorb] using hc
      obtain ⟨hentries', hparts'⟩ := ih hc' hr (fun v hv => hentries v (mem_cons_of_mem w hv))
      rw [addPart_cons habsorb (by rw [hr]; exact Option.some_ne_none r)]
      refine ⟨fun v hv => ?_, List.Forall₂.cons hcovers hparts'⟩
      rcases mem_cons.mp hv with rfl | hv
      · exact hw
      · exact hentries' v hv

/-- A piece that no entry takes has an entry of its own. -/
theorem WriteInv.burst (hB : p.burstSize = 2 ^ k) (hk : k < 32) (i : WriteInv p q parts) (hx : Burst p x.1 x.2)
    (hc : contained p (q, x) = true) (h : addWriteBurst p pkt q x = .ok q') :
    WriteInv p q' (addPart p.burstSize parts (q, x)) := by
  unfold addWriteBurst at h
  split at h
  · rename_i hmerge
    cases h
    exact i.merge hB hk hx hc hmerge
  · rename_i hmerge
    obtain ⟨d, hd, h⟩ := of_bind h
    obtain ⟨_, -, h⟩ := of_bind h
    cases h
    obtain ⟨-, haddr, hsize, -⟩ := decodeAddr_spec hd
    have hpart : addPart p.burstSize parts (q, x) = parts ++ [[x]] := by
      unfold addPart
      rw [taker_eq_none.mpr hmerge]
    rw [hpart]
    refine ⟨fun v hv => ?_, rel_append i.parts (List.Forall₂.cons (fun b => ?_) List.Forall₂.nil)⟩
    · rcases mem_append.mp hv with hv | hv
      · exact i.entries v hv
      · rw [mem_singleton.mp hv]
        refine ⟨by rw [haddr, hsize]; exact hx, fun pkt size isRead => ?_⟩
        rw [haddr]
        exact ⟨_, decodeAddr_burst rfl hd, rfl, rfl, rfl⟩
    · unfold covers
      rw [haddr, hsize]
      simp

theorem WriteInv.loop (hB : p.burstSize = 2 ^ k) (hk : k < 32) (i : WriteInv p q parts) (hxs : ∀ x ∈ xs, Burst p x.1 x.2)
    (hc : (stages p pkt q xs).all (contained p) = true) (h : xs.foldlM (addWriteBurst p pkt) q = .ok q') :
    WriteInv p q' ((stages p pkt q xs).foldl (addPart p.burstSize) parts) := by
  induction xs generalizing q parts with
  | nil =>
    cases h
    exact i
  | cons x xs ih =>
    obtain ⟨r, hr, h⟩ := of_bind h
    unfold stages at hc ⊢
    rw [hr] at hc ⊢
    rw [all_cons, Bool.and_eq_true] at hc
    exact ih (i.burst hB hk (hxs x mem_cons_self) hc.1 hr) (fun y hy => hxs y (mem_cons_of_mem x hy)) hc.2 h

theorem mergeWrite_taken (h : q.find? (fun w => (w.absorb B a n).isSome) = some w) :
    ∃ w' q', w.absorb B a n = some w' ∧ mergeWrite B a n q = some q' ∧ w' ∈ q' := by
  induction q with
  | nil => cases h
  | cons v q ih =>
    unfold mergeWrite
    rw [find?_cons] at h
    cases hv : v.absorb B a n with
    | some v' =>
      rw [hv] at h
      cases h
      exact ⟨v', v' :: q, hv, rfl, mem_cons_self⟩
    | none =>
      rw [hv] at h
      obtain ⟨w', q', hw', hq', hmem⟩ := ih h
      exact ⟨w', v :: q', hw', by rw [hq']; rfl, mem_cons_of_mem v hmem⟩

/-- Without the condition, the entry is in two bursts after the write. -/
theorem not_contained (hB : p.burstSize = 2 ^ k) (hk : k < 32) (hentries : ∀ w ∈ q, Entry p w) (hx : Burst p x.1 x.2)
    (hc : contained p (q, x) = false) (h : addWriteBurst p pkt q x = .ok q') :
    ∃ w ∈ q', ∃ b b', covers w b ∧ covers w b' ∧ b / p.burstSize ≠ b' / p.burstSize := by
  unfold contained at hc
  split at hc
  · rename_i w hfind
    obtain ⟨w', r, hw', hr, hmem⟩ := mergeWrite_taken hfind
    have hw := (hentries w (mem_of_find?_eq_some hfind)).toBurst
    unfold addWriteBurst at h
    rw [hr] at h
    cases h
    have hcovers := (absorb_spec hB hk hw hx hw').1
    have hwpos := hw.nonempty
    have hxpos := hx.nonempty
    refine ⟨w', hmem, w.addr, x.1, (hcovers _).mpr (.inl ?_), (hcovers _).mpr (.inr ?_), beq_eq_false_iff_ne.mp hc⟩
    · exact ⟨Nat.le_refl _, Nat.lt_add_of_pos_right hwpos⟩
    · exact ⟨Nat.le_refl _, Nat.lt_add_of_pos_right hxpos⟩
  · cases hc

/-! ## The steps -/

/-- A packet whose bytes are below the last burst of the addresses, and not too many to be counted. -/
def fitsBelow (p : DRAMCtrl) (pkt : Packet) : Bool :=
  decide (pkt.addr % p.burstSize + pkt.size + p.burstSize - 1 < 2 ^ 32) &&
    decide (nextBlock p.burstSize (pkt.addr + pkt.size - 1) < 2 ^ 64)

/-- The entries take writes of their own burst only, as far as the queue has room for a packet. -/
def keepsBursts (p : DRAMCtrl) (s : DramSystem) : DramOp → Bool
  | .recvTimingReq packet =>
    !isWriteReq packet || s.queues.writeQueueFull p (p.dramPktCount packet) ||
      fitsBelow p packet && (stages p { id := s.arrived, packet := packet } s.queues.writeQueue (burstsOf p packet)).all (contained p)
  | _ => true

variable {packet : Packet}

theorem burstsOf_eq (hB : p.burstSize = 2 ^ k) (hk : k < 32) (hfits : fitsBelow p packet = true) (hsize : 1 ≤ packet.size) :
    burstsOf p packet = chunks p.burstSize (packet.addr + packet.size) packet.addr
      (touched p.burstSize packet.addr (packet.addr + packet.size)) := by
  simp only [fitsBelow, Bool.and_eq_true, decide_eq_true_eq] at hfits
  have hpos : 0 < p.burstSize := hB ▸ Nat.two_pow_pos k
  have he : packet.addr < packet.addr + packet.size := Nat.lt_add_of_pos_right hsize
  unfold burstsOf
  rw [(count_iff hB hk).mpr hfits.1, count_touched]
  exact bursts_eq_chunks hB hk hfits.2 he (touched_eq hpos he)

/-- The pieces of a packet that fits. -/
theorem burstsOf_burst (hB : p.burstSize = 2 ^ k) (hk : k < 32) (hfits : fitsBelow p packet = true) (hsize : 1 ≤ packet.size)
    (hx : x ∈ burstsOf p packet) : Burst p x.1 x.2 := by
  have hpos : 0 < p.burstSize := hB ▸ Nat.two_pow_pos k
  have he : packet.addr < packet.addr + packet.size := Nat.lt_add_of_pos_right hsize
  rw [burstsOf_eq hB hk hfits hsize] at hx
  obtain ⟨hone, hend, hblock⟩ := chunks_inside hpos he (touched_eq hpos he) hx
  simp only [fitsBelow, Bool.and_eq_true, decide_eq_true_eq] at hfits
  have hlast := hblock (x.1 + x.2 - 1) ⟨by omega, by omega⟩
  have hnext : nextBlock p.burstSize (x.1 + x.2 - 1) = nextBlock p.burstSize x.1 := congrArg (· * p.burstSize + p.burstSize) hlast
  have hlt := lt_nextBlock hpos (a := x.1 + x.2 - 1)
  have hle : nextBlock p.burstSize (x.1 + x.2 - 1) ≤ nextBlock p.burstSize (packet.addr + packet.size - 1) :=
    Nat.add_le_add_right (Nat.mul_le_mul_right _ (Nat.div_le_div_right (by omega))) _
  exact ⟨hone, by omega, by omega⟩

theorem burstsOf_bytes (hB : p.burstSize = 2 ^ k) (hk : k < 32) (hfits : fitsBelow p packet = true) (hsize : 1 ≤ packet.size) (b : Nat) :
    (∃ x ∈ burstsOf p packet, inside x b) ↔ inside (packet.addr, packet.size) b := by
  have hpos : 0 < p.burstSize := hB ▸ Nat.two_pow_pos k
  have he : packet.addr < packet.addr + packet.size := Nat.lt_add_of_pos_right hsize
  have hbytes := chunks_bytes hpos he (touched_eq hpos he)
  rw [← burstsOf_eq hB hk hfits hsize, Nat.add_sub_cancel_left] at hbytes
  have hmem := congrArg (b ∈ ·) hbytes
  simpa [inside] using hmem

theorem addToReadQueue_writeQueue {s t : DramQueues} {c : Nat} (h : Queued s pkt c t) : t.writeQueue = s.writeQueue := by
  cases h <;> rfl

theorem processRespondEvent_writeQueue {s t : DramQueues} (h : s.processRespondEvent p = .ok t) : t.writeQueue = s.writeQueue := by
  unfold processRespondEvent at h
  split at h
  · cases h
  · obtain ⟨u, hu, h⟩ := of_bind h
    cases h
    unfold burstServiced at hu
    split at hu
    · split at hu
      · split at hu
        · obtain ⟨v, hv, hu⟩ := of_bind hu
          obtain ⟨mem, r, rfl, -⟩ := accessAndRespond_spec hv
          cases hu
          rfl
        · cases hu
          rfl
      · cases hu
    · obtain ⟨mem, r, rfl, -⟩ := accessAndRespond_spec hu
      rfl

theorem WriteInv.step (hB : p.burstSize = 2 ^ k) (hk : k < 32) (i : WriteInv p s.queues.writeQueue s.parts) (hc : keepsBursts p s op = true)
    (h : DramSystem.step p s op = .ok t) : WriteInv p t.queues.writeQueue t.parts := by
  cases op with
  | recvTimingReq packet =>
    obtain ⟨⟨accepted, queues⟩, hq, h⟩ := of_bind h
    cases h
    cases recvTimingReq_spec hq with
    | dropped hinh =>
      have hwrite : isWriteReq packet = false := by simp [isWriteReq, show packet.memInhibitAsserted = true from hinh]
      simpa [hwrite] using i
    | refused rd wr => exact i
    | read u hread hroom hq =>
      have hwrite : isWriteReq packet = false := by
        simp only [isReadReq, Bool.and_eq_true] at hread
        simp [isWriteReq, hread.2]
      simpa [hwrite, addToReadQueue_writeQueue hq] using i
    | write hwrite hsize hroom writeQueue mem r hid hloop =>
      simp only [keepsBursts, hwrite, hroom, Bool.not_true, Bool.false_or, Bool.and_eq_true] at hc
      rw [hwrite]
      exact i.loop hB hk (fun x hx => burstsOf_burst hB hk hc.1 hsize hx) hc.2 hloop
    | other hread hwrite mem r hid =>
      have hwrite : isWriteReq packet = false := by simp [isWriteReq, show packet.isWrite = false from hwrite]
      show WriteInv p s.queues.writeQueue _
      simpa [hwrite] using i
  | serveRead j =>
    obtain ⟨queues, hq, h⟩ := of_bind h
    cases h
    obtain ⟨_, -, hq⟩ := of_bind hq
    obtain ⟨_, -, hq⟩ := of_bind hq
    cases hq
    unfold retryWrites
    split <;> exact i
  | serveWrite j =>
    obtain ⟨queues, hq, h⟩ := of_bind h
    cases h
    obtain ⟨_, -, hq⟩ := of_bind hq
    obtain ⟨_, -, hq⟩ := of_bind hq
    have hqueue : queues.writeQueue = s.queues.writeQueue.eraseIdx j := by
      cases hq
      unfold retryWrites
      split <;> rfl
    rw [hqueue]
    refine ⟨fun w hw => i.entries w (mem_of_mem_eraseIdx hw), ?_⟩
    rw [eraseIdx_eq_take_drop_succ, eraseIdx_eq_take_drop_succ]
    exact rel_append (forall₂_take j i.parts) (forall₂_drop (j + 1) i.parts)
  | processRespondEvent =>
    obtain ⟨queues, hq, h⟩ := of_bind h
    cases h
    rw [processRespondEvent_writeQueue hq]
    exact i

variable {mem : AbstractMemory} {ops : List DramOp}

abbrev BurstStep (p : DRAMCtrl) : DramSystem → DramOp → DramSystem → Prop := StepIf (keepsBursts p) (step p)

theorem WriteInv.run (hB : p.burstSize = 2 ^ k) (hk : k < 32) (hr : Exec (BurstStep p) { queues := { memory := mem } } ops s) :
    WriteInv p s.queues.writeQueue s.parts := by
  refine hr.invariant (P := fun s => WriteInv p s.queues.writeQueue s.parts) ?_ fun t op u i hs => i.step hB hk hs.1 hs.2
  exact ⟨fun w hw => absurd hw not_mem_nil, List.Forall₂.nil⟩

theorem WriteInv.union (i : WriteInv p q parts) (b : Nat) : (∃ w ∈ q, covers w b) ↔ ∃ ps ∈ parts, ∃ x ∈ ps, inside x b := by
  obtain ⟨-, hparts⟩ := i
  induction hparts with
  | nil => simp
  | cons hcovers _ ih => rw [exists_mem_cons_iff, exists_mem_cons_iff, ih, hcovers b]

/-- As long as the entries take writes of their own burst only, each is in one burst and is decoded as all of its
  addresses are, and they cover the bytes that were written and are not drained. So a read that is found in the queue
  was written. If one takes another write, it is in two bursts. -/
theorem entries_are_bursts (hB : p.burstSize = 2 ^ k) (hk : k < 32) (hr : Exec (BurstStep p) { queues := { memory := mem } } ops s) :
    (∀ w ∈ s.queues.writeQueue, 1 ≤ w.size ∧ ∀ b, covers w b → b / p.burstSize = w.addr / p.burstSize ∧ Decoded p w b) ∧
    (∀ b, (∃ w ∈ s.queues.writeQueue, covers w b) ↔ ∃ ps ∈ s.parts, ∃ x ∈ ps, inside x b) ∧
    (∀ packet : Packet, fitsBelow p packet = true → 1 ≤ packet.size →
      ∀ b, (∃ x ∈ burstsOf p packet, inside x b) ↔ inside (packet.addr, packet.size) b) ∧
    (∀ a n, a + n < 2 ^ 64 → foundInWrQ s.queues.writeQueue a n = true → ∀ b, inside (a, n) b → ∃ ps ∈ s.parts, ∃ x ∈ ps, inside x b) ∧
    ∀ pkt x q, Burst p x.1 x.2 → contained p (s.queues.writeQueue, x) = false →
      addWriteBurst p pkt s.queues.writeQueue x = .ok q →
      ∃ w ∈ q, ∃ b b', covers w b ∧ covers w b' ∧ b / p.burstSize ≠ b' / p.burstSize := by
  have i := WriteInv.run hB hk hr
  refine ⟨fun w hw => ?_, i.union, fun packet hfits hsize => burstsOf_bytes hB hk hfits hsize, fun a n hlt hfound b hb => ?_,
    fun pkt x q hx hc hs => not_contained hB hk i.entries hx hc hs⟩
  · have he := i.entries w hw
    refine ⟨he.nonempty, fun b hb => ?_⟩
    have hsame := he.toBurst.same hb
    exact ⟨hsame, he.decoded.burst hsame.symm⟩
  · obtain ⟨w, hw, hfound⟩ := any_eq_true.mp hfound
    simp only [Bool.and_eq_true, decide_eq_true_eq] at hfound
    have hwlt := ((i.entries w hw).toBurst.bounds hB hk).1
    have hadd : add64 a n = a + n := Nat.mod_eq_of_lt hlt
    have haddw : add64 w.addr w.size = w.addr + w.size := Nat.mod_eq_of_lt hwlt
    rw [hadd, haddw] at hfound
    refine (i.union b).mp ⟨w, hw, hfound.1.trans hb.1, Nat.lt_of_lt_of_le hb.2 hfound.2⟩

/-- Three writes to one burst, the last of which overlaps both of the others. -/
theorem entries_are_bursts_three : ∃ s, Exec (BurstStep small) { queues := { memory := emptyMemory } }
      [.recvTimingReq (packetAt .writeReq 0 8), .recvTimingReq (packetAt .writeReq 16 8), .recvTimingReq (packetAt .writeReq 4 16)] s ∧
    (∀ w ∈ s.queues.writeQueue, 1 ≤ w.size ∧ ∀ b, covers w b → b / 64 = w.addr / 64 ∧ Decoded small w b) ∧
    (∀ b, (∃ w ∈ s.queues.writeQueue, covers w b) ↔ ∃ ps ∈ s.parts, ∃ x ∈ ps, inside x b) := by
  refine Exec.ends_withIf (p := fun s => decide (s.parts = [[(4, 16), (0, 8)], [(16, 8)]])) (by decide) fun s hr _ => ?_
  obtain ⟨hentries, hunion, -⟩ := entries_are_bursts (k := 6) rfl (by decide) hr
  exact ⟨hentries, hunion⟩

/-- A write of 64 bytes in the middle of a burst: its second piece is merged with its first one, to an entry that is
  in two banks. -/
theorem entry_in_two_banks : ∃ s w,
    Exec (CtrlStep small) { queues := { memory := emptyMemory } } [.recvTimingReq (packetAt .writeReq 32 64)] s ∧
    w ∈ s.queues.writeQueue ∧ covers w 64 ∧ 64 / 64 ≠ w.addr / 64 ∧ ¬ Decoded small w 64 := by
  refine Exec.ends_with_two (p := fun s => s.queues.writeQueue.any
        fun w => decide (w.addr = 32 ∧ w.size = 64 ∧ w.bank = 0)) (by decide) fun s hr hend => ?_
  obtain ⟨w, hmem, hw⟩ := any_eq_true.mp hend
  obtain ⟨haddr, hsize, hbank⟩ := of_decide_eq_true hw
  refine ⟨w, hmem, ?_, by rw [haddr]; decide, fun hdecoded => ?_⟩
  · unfold covers
    rw [haddr, hsize]
    exact ⟨by decide, by decide⟩
  · obtain ⟨d, hd, -, hdbank, -⟩ := hdecoded { id := 0, packet := packetAt .writeReq 64 32 } 32 false
    rw [hbank] at hdbank
    cases hd
    cases hdbank

end DramSystem

end Gem5.Mem
