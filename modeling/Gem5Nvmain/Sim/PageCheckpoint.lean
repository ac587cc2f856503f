import Gem5Nvmain.Sim.PageRuns

/- Checkpoints of the page allocator.

  `System::serialize` writes the two cursors and `System::unserialize` reads them back into a system that
  `System::init` has just built, where every page is free. The `valid` bits are not part of the checkpoint, so a
  restored system can hand out any page that was allocated when the checkpoint was taken: restoring is safe only if
  there was none (`restore_safe_iff`). -/
namespace Gem5.Sim
open Lib List System

/-- What `System::serialize` writes about the allocator. -/
structure Checkpoint where
  dramLocation : Nat
  pcmLocation : Nat
  deriving DecidableEq, Repr

def System.serialize (s : System) : Checkpoint :=
  { dramLocation := s.dram.location, pcmLocation := s.pcm.location }

def System.unserialize (s : System) (cp : Checkpoint) : System :=
  { s with
    dram := { s.dram with location := cp.dramLocation }
    pcm := { s.pcm with location := cp.pcmLocation } }

/-- After a restore any PCM page may be cleared. -/
def anyPage (_ : System) (_ : Nat) : Prop := True

/-- Whatever the restored system does next, it returns no page that was allocated in `s`, the state checkpointed,
  unless it was cleared since. -/
def SafeAfterRestore (s : System) : Prop :=
  ∀ fresh t h, init s.mem = .ok fresh →
    Exec (PageStep anyPage) (fresh.unserialize s.serialize) h t →
    ∀ h₁ e h₂, h = h₁ ++ e :: h₂ → ∀ p ∈ returnedPages s.mem e, AllocatedAt s p →
      ∃ idx, p = s.mem.pcmAddr idx ∧ PageEvent.clearPhysPages idx ∈ h₁

/-! ## A request for a whole free memory -/

theorem lookAhead_of_free {valid : List Bool} {loc : Nat} : ∀ {left i : Nat},
    (∀ j, i < j → j ≤ i + left → valid[loc + j]? = some false) →
    lookAhead valid loc left i = some (true, i + left) := by
  intro left
  induction left with
  | zero => intro i _; rfl
  | succ left ih =>
    intro i hfree
    rw [lookAhead, hfree (i + 1) (by omega) (by omega)]
    simp only
    rw [ih fun j h₁ h₂ => hfree j (by omega) (by omega)]
    congr 2
    omega

/-- From any cursor, a request for all pages of a free memory gets them. -/
theorem alloc_all_free {n : Nat} (loc : Nat) (hn : 1 ≤ n) :
    ∃ a', PageArea.alloc ⟨replicate n false, loc⟩ n = (.found 0 (n - 1), a') ∧
      a'.location = n := by
  have hla : lookAhead (replicate n false) 0 (n - 1) 0 = some (true, n - 1) := by
    have hfree : ∀ j, 0 < j → j ≤ 0 + (n - 1) → (replicate n false)[0 + j]? = some false :=
      fun j h₁ h₂ => getElem?_replicate_of_lt (by omega)
    rw [lookAhead_of_free hfree, Nat.zero_add]
  -- the cursor is reset unless it is at page 0 already
  have hstart : (if decide (loc + n > n) then 0 else loc) = 0 := by
    split
    · rfl
    · rename_i h
      simp only [decide_eq_true_eq] at h
      omega
  have hget : (replicate n false)[0]? = some false := getElem?_replicate_of_lt (by omega)
  have hsearch : ∀ fuel first,
      search (replicate n false) n (fuel + 1) 0 first = .found 0 (n - 1) := by
    intro fuel first
    simp only [search, length_replicate]
    rw [if_pos (by omega), hget]
    simp [hla]
  refine ⟨⟨markRun (replicate n false) 0 (n - 1 + 1), 0 + (n - 1 + 1)⟩, ?_, by simp only; omega⟩
  simp only [PageArea.alloc, length_replicate, hstart]
  rw [show 2 * n + 2 = (2 * n + 1) + 1 by omega, hsearch]

/-! ## Restoring -/

variable {clearable : System → Nat → Prop} {s : System}

theorem step_lengths {s' : System} {e : PageEvent} (hs : PageStep clearable s e s') :
    s'.mem = s.mem ∧ s'.dram.valid.length = s.dram.valid.length ∧ s'.pcm.valid.length = s.pcm.valid.length := by
  cases hs with
  | allocPhysPages hn _ hc =>
    rcases allocPhysPages_takes hn hc with ⟨_, _, ht⟩ | ⟨_, _, ht⟩
    · exact ⟨ht.mem, ht.flips.1, by rw [ht.other]⟩
    · exact ⟨ht.mem, by rw [ht.other], ht.flips.1⟩
  | allocTextPhysPages hn _ hc =>
    obtain ⟨_, _, ht⟩ := allocTextPhysPages_takes hn hc
    exact ⟨ht.mem, by rw [ht.other], ht.flips.1⟩
  | clearPhysPages _ hc =>
    obtain ⟨_, rfl⟩ := clearPhysPages_clears hc
    exact ⟨rfl, rfl, by simp⟩

theorem run_lengths {t : System} {h : List PageEvent} (hr : Exec (PageStep clearable) s h t) :
    t.mem = s.mem ∧ t.dram.valid.length = s.dram.valid.length ∧ t.pcm.valid.length = s.pcm.valid.length := by
  refine hr.invariant (P := fun t => t.mem = s.mem ∧ t.dram.valid.length = s.dram.valid.length ∧
    t.pcm.valid.length = s.pcm.valid.length) ⟨rfl, rfl, rfl⟩ fun t e u ih hs => ?_
  obtain ⟨hm, hd, hp⟩ := step_lengths hs
  exact ⟨hm.trans ih.1, hd.trans ih.2.1, hp.trans ih.2.2⟩

theorem init_eq_ok {mem : MemConfig} (h : init mem = .ok s) : ∃ d p, 1 ≤ d ∧ 1 ≤ p ∧
      s = ⟨mem, ⟨replicate d false, 0⟩, ⟨replicate p false, 0⟩, 0, 0⟩ := by
  unfold init at h
  split at h
  · cases h
    exact ⟨_, _, by omega, by omega, rfl⟩
  · cases h

theorem restored_dram_run (mem : MemConfig) {d : Nat} (p : Nat) (cp : Checkpoint) (hd : 1 ≤ d) : ∃ t, PageStep anyPage
      (unserialize ⟨mem, ⟨replicate d false, 0⟩, ⟨replicate p false, 0⟩, 0, 0⟩ cp)
      (.allocPhysPages d (mem.dramAddr 0)) t := by
  obtain ⟨a', hal, hloc⟩ := alloc_all_free cp.dramLocation hd
  obtain ⟨t, ht⟩ : ∃ t, allocPhysPages (unserialize ⟨mem, ⟨replicate d false, 0⟩,
      ⟨replicate p false, 0⟩, 0, 0⟩ cp) d = .ok (t, mem.dramAddr 0) := by
    simp only [allocPhysPages, unserialize, hal, hloc, Nat.sub_self]
    exact ⟨_, rfl⟩
  exact ⟨t, .allocPhysPages hd (by simp [unserialize]) ht⟩

theorem restored_pcm_run (mem : MemConfig) (d : Nat) {p : Nat} (cp : Checkpoint) (hp : 1 ≤ p) : ∃ t, PageStep anyPage
      (unserialize ⟨mem, ⟨replicate d false, 0⟩, ⟨replicate p false, 0⟩, 0, 0⟩ cp)
      (.allocTextPhysPages p (mem.pcmAddr 0)) t := by
  obtain ⟨a', hal, hloc⟩ := alloc_all_free cp.pcmLocation hp
  obtain ⟨t, ht⟩ : ∃ t, allocTextPhysPages (unserialize ⟨mem,
      ⟨replicate d false, 0⟩, ⟨replicate p false, 0⟩, 0, 0⟩ cp) p = .ok (t, mem.pcmAddr 0) := by
    simp only [allocTextPhysPages, unserialize, hal, hloc, Nat.sub_self]
    exact ⟨_, rfl⟩
  exact ⟨t, .allocTextPhysPages hp (by simp [unserialize]) ht⟩

/-- A restored system is safe exactly when the checkpointed one had no page allocated. -/
theorem restore_safe_iff {mem : MemConfig} {s₀ s : System} {h : List PageEvent}
    (h0 : init mem = .ok s₀) (hr : Exec (PageStep allocatedPcm) s₀ h s) :
    SafeAfterRestore s ↔ ∀ p, ¬AllocatedAt s p := by
  obtain ⟨hmem, hdlen, hplen⟩ := run_lengths hr
  obtain ⟨d, p, hd, hp, rfl⟩ := init_eq_ok h0
  simp only [length_replicate] at hmem hdlen hplen
  refine ⟨fun hsafe q hq => ?_, fun hnone fresh t k _ _ h₁ e h₂ _ q _ hq => absurd hq (hnone q)⟩
  have hfresh : init s.mem = .ok
      ⟨mem, ⟨replicate d false, 0⟩, ⟨replicate p false, 0⟩, 0, 0⟩ := by rw [hmem]; exact h0
  -- a call that returns the page of `q` at once leaves no time to clear it
  have contra : ∀ e t, PageStep anyPage (unserialize ⟨mem, ⟨replicate d false, 0⟩,
      ⟨replicate p false, 0⟩, 0, 0⟩ s.serialize) e t → q ∉ returnedPages s.mem e := by
    intro e t hs hin
    obtain ⟨_, _, hnil⟩ := hsafe _ _ _ hfresh (.one hs) [] e [] rfl q hin hq
    exact not_mem_nil hnil
  rcases hq with ⟨i, rfl, hv⟩ | ⟨i, rfl, hv⟩
  · obtain ⟨t, ht⟩ := restored_dram_run mem p s.serialize hd
    refine contra _ t ht (mem_pagesAt.mpr ⟨i, ?_, ?_⟩)
    · rw [← hdlen]; exact lt_of_getElem? hv
    · rw [hmem, dramAddr_add, Nat.zero_add]
  · obtain ⟨t, ht⟩ := restored_pcm_run mem d s.serialize hp
    refine contra _ t ht (mem_pagesAt.mpr ⟨i, ?_, ?_⟩)
    · rw [← hplen]; exact lt_of_getElem? hv
    · rw [hmem, pcmAddr_add, Nat.zero_add]

/-- Before the first allocation a checkpoint is safe. -/
theorem restore_safe_iff_at_start :
    SafeAfterRestore ⟨⟨8192, 8192, 12⟩, ⟨[false, false], 0⟩, ⟨[false, false], 0⟩, 0, 0⟩ := by
  have hinit : init ⟨8192, 8192, 12⟩ = .ok _ := rfl
  refine (restore_safe_iff hinit .nil).mpr fun p hp => ?_
  rcases hp with ⟨i, -, hv⟩ | ⟨i, -, hv⟩ <;>
    · match i, hv with
      | 0, hv => cases hv
      | 1, hv => cases hv

/-- DRAM page 0 is allocated, the system is checkpointed and restored, and two requests for one page each return DRAM
  page 0 again. -/
theorem restore_returns_page_twice : ∃ s₀ s, init ⟨8192, 8192, 12⟩ = .ok s₀ ∧
      Exec (PageStep allocatedPcm) s₀ [.allocPhysPages 1 8192] s ∧
      AllocatedAt s 8192 ∧
      (∃ t, Exec (PageStep anyPage) (s₀.unserialize s.serialize)
        [.allocPhysPages 1 12288, .allocPhysPages 1 8192] t) ∧
      ¬SafeAfterRestore s := by
  refine ⟨_, _, rfl, .one (.allocPhysPages (by decide) (by decide) rfl), .inl ⟨0, rfl, rfl⟩,
    ⟨_, .snoc (.one (.allocPhysPages (by decide) (by decide) rfl))
      (.allocPhysPages (by decide) (by decide) rfl)⟩, fun hsafe => ?_⟩
  obtain ⟨_, hidx, hmem⟩ := hsafe _ _ [.allocPhysPages 1 12288, .allocPhysPages 1 8192] rfl
    (.snoc (.one (.allocPhysPages (by decide) (by decide) rfl))
      (.allocPhysPages (by decide) (by decide) rfl))
    [.allocPhysPages 1 12288] (.allocPhysPages 1 8192) [] rfl 8192 (by decide) (.inl ⟨0, rfl, rfl⟩)
  simp at hmem

end Gem5.Sim
