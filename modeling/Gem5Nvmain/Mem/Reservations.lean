import Mathlib.Data.Bool.Basic
import Mathlib.Data.List.Induction
import Gem5Nvmain.Lib.InFlight
import Gem5Nvmain.Mem.AbstractMemory

/- The reservations of a memory, over its history.

  The list of the memory holds the granule of a context's latest load-locked, until a store that begins in that
  granule (`Inv`). That is not all that can happen to the granule: a store that begins before it and reaches into it
  is overlooked, as is every swap; and a load-locked that reaches into the granule from before it counts for nothing
  (`Overlooked`). In all other cases a store-conditional succeeds exactly when its reservation is good
  (`store_conditional_iff`). -/
namespace Gem5.Mem.Reservations
open Lib List Bool LockedAddr

/-- A packet that the memory did not leave to a cache. -/
structure Handled where
  pkt : Packet
  wrote : Bool
  deriving DecidableEq, Repr

structure System where
  memory : AbstractMemory
  /-- the oldest first -/
  history : List Handled := []

variable {c g : Nat} {h : List Handled} {e : Handled} {s t : System} {m m' : AbstractMemory} {pkt pkt' ll : Packet} {a : AbstractMemory.Access}
  {after : List Handled}

/-! ## The history -/

def granule (pkt : Packet) : Nat := pkt.addr / 16

/-- A byte of the packet is in the granule. -/
def covers (pkt : Packet) (g : Nat) : Bool := decide (granule pkt ≤ g) && decide (g ≤ (pkt.addr + pkt.size - 1) / 16)

/-- A load with the LLSC flag. -/
def isLoadLocked (c : Nat) (e : Handled) : Bool := e.pkt.isRead && e.pkt.isLLSC && e.pkt.req.contextId == some c

def latestAfter (c : Nat) (l : Option (Packet × List Handled)) (e : Handled) : Option (Packet × List Handled) :=
  if isLoadLocked c e then some (e.pkt, []) else l.map fun p => (p.1, p.2 ++ [e])

/-- The latest load-locked of a context, and what came after it. -/
def latest (c : Nat) (h : List Handled) : Option (Packet × List Handled) := h.foldl (latestAfter c) none

/-- The context's latest load-locked covered the granule, and nobody has written a byte of it since. -/
def Reserved (h : List Handled) (c g : Nat) : Prop :=
  ∃ ll after, latest c h = some (ll, after) ∧ covers ll g = true ∧ ∀ e ∈ after, e.wrote = true → covers e.pkt g = false

/-- A store that the list of reservations is checked for, and that begins in the granule. -/
def checked (g : Nat) (e : Handled) : Bool := e.wrote && e.pkt.cmd != .swapReq && granule e.pkt == g

/-- The list of the memory tells something else than the history: a load-locked that began in the granule, since when
  only swaps, and stores that began elsewhere, wrote to it; or one that reached into the granule, which nobody wrote
  to since. -/
def Overlooked (h : List Handled) (c g : Nat) : Prop :=
  ∃ ll after, latest c h = some (ll, after) ∧
    ((granule ll = g ∧ (∀ e ∈ after, checked g e = false) ∧ ∃ e ∈ after, e.wrote = true ∧ covers e.pkt g = true) ∨
      (granule ll ≠ g ∧ covers ll g = true ∧ ∀ e ∈ after, e.wrote = true → covers e.pkt g = false))

theorem latest_snoc (c : Nat) (h : List Handled) (e : Handled) : latest c (h ++ [e]) = latestAfter c (latest c h) e := by
  unfold latest
  rw [foldl_append]
  rfl

/-! ## The memory in its system -/

/-- A packet has a byte at least, and it is for the address of its request where reservations or stores are concerned.
  -/
def allowed (_ : System) (pkt : Packet) : Bool :=
  decide (1 ≤ pkt.size) && (!(pkt.isWrite || pkt.isLLSC) || pkt.req.paddr == pkt.addr)

def step (s : System) (pkt : Packet) : Except Stop System := do
  let a ← s.memory.access pkt
  pure { memory := a.memory, history := if pkt.memInhibitAsserted then s.history else s.history ++ [{ pkt := pkt, wrote := a.wrote }] }

/-! ## The list of reservations -/

/-- What the list should hold: a load-locked that began at the address, and no checked store to there since. -/
def Listed (h : List Handled) (c addr : Nat) : Prop :=
  ∃ ll after, latest c h = some (ll, after) ∧ mask ll.addr = addr ∧ ∀ e ∈ after, checked (addr / 16) e = false

structure Inv (s : System) : Prop where
  sized : ∀ e ∈ s.history, 1 ≤ e.pkt.size
  nodup : (s.memory.lockedAddrList.map (·.contextId)).Nodup
  listed : ∀ i, i ∈ s.memory.lockedAddrList ↔ Listed s.history i.contextId i.addr

/-! ## What an access does to the list -/

theorem findLock_iff {req : Request} {paddr : Nat} {l : List LockedAddr} {b : Bool} (h : AbstractMemory.findLock req paddr l = .ok b) :
    b = true ↔ ∃ i ∈ l, i.addr = paddr ∧ req.contextId = some i.contextId := by
  induction l with
  | nil =>
    cases h
    simp
  | cons i l ih =>
    unfold AbstractMemory.findLock at h
    rw [exists_mem_cons_iff]
    split at h
    · rename_i haddr
      obtain ⟨c, hc, h⟩ := of_bind h
      have hc : req.contextId = some c := by
        unfold Request.context at hc
        split at hc
        · cases hc
          assumption
        · cases hc
      split at h
      · rename_i heq
        cases h
        exact ⟨fun _ => .inl ⟨haddr, hc.trans (congrArg some heq.symm)⟩, fun _ => rfl⟩
      · rename_i hne
        rw [ih h, or_iff_right]
        rintro ⟨-, heq⟩
        rw [hc] at heq
        exact hne (Option.some.inj heq).symm
    · rename_i haddr
      rw [ih h, or_iff_right fun hi => haddr hi.1]

/-- A store that is let through takes all reservations of the granule it begins in. -/
structure Stored (m : AbstractMemory) (pkt : Packet) (ok : Bool) (pkt' : Packet) (m' : AbstractMemory) : Prop where
  mem : m'.mem = m.mem ∧ m'.range = m.range
  packet : pkt'.data = pkt.data ∧ pkt'.addr = pkt.addr ∧ pkt'.size = pkt.size ∧ pkt'.cmd = pkt.cmd
  list : m'.lockedAddrList = if ok then m.lockedAddrList.filter (·.addr ≠ mask pkt.req.paddr) else m.lockedAddrList
  plain : pkt.isLLSC = false → ok = true
  conditional : pkt.isLLSC = true →
    (ok = true ↔ ∃ i ∈ m.lockedAddrList, i.addr = mask pkt.req.paddr ∧ pkt.req.contextId = some i.contextId) ∧
      pkt'.req.extraData = if ok then 1 else 0

theorem writeOK_stored {ok : Bool} (h : m.writeOK pkt = .ok (ok, pkt', m')) : Stored m pkt ok pkt' m' := by
  unfold AbstractMemory.writeOK at h
  split at h
  · rename_i hnil
    cases h
    cases hllsc : pkt.isLLSC with
    | true =>
      refine ⟨⟨rfl, rfl⟩, ⟨rfl, rfl, rfl, rfl⟩, rfl, fun h => absurd h (by simp [hllsc]), fun _ => ⟨?_, rfl⟩⟩
      simp [hnil]
    | false =>
      refine ⟨⟨rfl, rfl⟩, ⟨rfl, rfl, rfl, rfl⟩, ?_, fun _ => rfl, fun h => absurd h (by simp [hllsc])⟩
      simp [hnil]
  · unfold AbstractMemory.checkLockedAddrList at h
    split at h
    · rename_i hllsc
      obtain ⟨allowStore, hallow, h⟩ := of_bind h
      have hiff := findLock_iff hallow
      cases allowStore with
      | true =>
        cases h
        exact ⟨⟨rfl, rfl⟩, ⟨rfl, rfl, rfl, rfl⟩, rfl, fun hplain => absurd (hllsc.symm.trans hplain) Bool.noConfusion, fun _ => ⟨hiff, rfl⟩⟩
      | false =>
        cases h
        exact ⟨⟨rfl, rfl⟩, ⟨rfl, rfl, rfl, rfl⟩, rfl, fun hplain => absurd (hllsc.symm.trans hplain) Bool.noConfusion, fun _ => ⟨hiff, rfl⟩⟩
    · rename_i hllsc
      cases h
      exact ⟨⟨rfl, rfl⟩, ⟨rfl, rfl, rfl, rfl⟩, rfl, fun _ => rfl, fun hcond => absurd hcond hllsc⟩

/-- What an access that is not left to a cache does, by the kinds of the packets. -/
inductive Performed (m : AbstractMemory) (pkt : Packet) (a : AbstractMemory.Access) : Prop where
  | unchecked (hlist : a.memory.lockedAddrList = m.lockedAddrList) (hwrote : a.wrote = true → pkt.cmd = .swapReq)
      (hkind : pkt.cmd = .swapReq ∨ (pkt.isRead && pkt.isLLSC) = false) (hnot : pkt.cmd = .swapReq ∨ pkt.isWrite = false)
  | loadLocked (hread : pkt.isRead = true) (hllsc : pkt.isLLSC = true) (htrack : m.trackLoadLocked pkt = .ok a.memory)
      (hwrote : a.wrote = false)
  | store (hcmd : pkt.cmd ≠ .swapReq) (hread : pkt.isRead = false) (hwrite : pkt.isWrite = true) (pkt' : Packet) (m' : AbstractMemory)
      (hstored : Stored m pkt a.wrote pkt' m') (hpkt : a.pkt = pkt')
      (hmem : a.memory = if a.wrote then { m' with mem := writeBytes m.mem pkt.addr pkt.size pkt.data } else m')

theorem perform_cases (h : m.perform pkt = .ok a) : Performed m pkt a := by
  unfold AbstractMemory.perform at h
  split at h
  · rename_i hcmd
    obtain ⟨_, -, h⟩ := of_bind h
    obtain ⟨overwrite, -, h⟩ := of_bind h
    obtain ⟨_, -, h⟩ := of_bind h
    cases h
    exact Performed.unchecked rfl (fun _ => hcmd) (.inl hcmd) (.inl hcmd)
  · rename_i hcmd
    split at h
    · rename_i hread
      obtain ⟨_, hw, h⟩ := of_bind h
      have hw : pkt.isWrite = false := by simpa using require_eq_ok.mp hw
      split at h
      · rename_i hllsc
        obtain ⟨m', hm, h⟩ := of_bind h
        cases h
        exact Performed.loadLocked hread hllsc hm rfl
      · rename_i hllsc
        cases h
        exact Performed.unchecked rfl (fun h => absurd h false_ne_true) (.inr (by simp [hllsc])) (.inr hw)
    · rename_i hread
      have hread : pkt.isRead = false := eq_false_iff.mpr hread
      split at h
      · rename_i hwrite
        obtain ⟨⟨ok, pkt', m'⟩, hok, h⟩ := of_bind h
        have hstored := writeOK_stored hok
        cases ok with
        | true =>
          obtain ⟨_, -, h⟩ := of_bind h
          cases h
          refine Performed.store hcmd hread hwrite pkt' m' hstored rfl ?_
          rw [if_pos rfl, hstored.mem.1, hstored.packet.1, hstored.packet.2.1, hstored.packet.2.2.1]
        | false =>
          cases h
          exact Performed.store hcmd hread hwrite pkt' m' hstored rfl rfl
      · rename_i hwrite
        split at h
        · cases h
          exact Performed.unchecked rfl (fun h => absurd h false_ne_true) (.inr (by simp [hread]))
            (.inr (eq_false_iff.mpr hwrite))
        · cases h

/-! ## The steps -/

/-- A load-locked leaves its granule as the only one of its context. -/
theorem trackLoadLocked_spec (h : m.trackLoadLocked pkt = .ok m') (hnodup : (m.lockedAddrList.map (·.contextId)).Nodup) :
    ∃ c, pkt.req.contextId = some c ∧ (m'.lockedAddrList.map (·.contextId)).Nodup ∧
      ∀ i, i ∈ m'.lockedAddrList ↔ if i.contextId = c then i.addr = mask pkt.req.paddr else i ∈ m.lockedAddrList := by
  obtain ⟨c, hc, h⟩ := of_bind h
  have hc : pkt.req.contextId = some c := by
    unfold Request.context at hc
    split at hc
    · cases hc
      assumption
    · cases hc
  refine ⟨c, hc, ?_⟩
  split at h
  · rename_i k hk
    cases h
    obtain ⟨hlt, hctx, -⟩ := findIdx?_eq_some_iff_getElem.mp hk
    have hctx : m.lockedAddrList[k].contextId = c := beq_iff_eq.mp hctx
    obtain ⟨l₁, l₂, hsplit, -, hset⟩ := split_at (getElem?_eq_getElem hlt)
    rw [hset]
    generalize m.lockedAddrList[k] = x at hctx hsplit
    subst hctx
    rw [hsplit] at hnodup ⊢
    refine ⟨by simpa using hnodup, fun i => ?_⟩
    rw [map_append, map_cons, perm_middle.nodup_iff, nodup_cons, mem_append] at hnodup
    have hother : ∀ i, i ∈ l₁ ∨ i ∈ l₂ → i.contextId ≠ x.contextId := by
      intro i hi heq
      exact hnodup.1 (hi.imp (fun hi => heq ▸ mem_map_of_mem hi) (fun hi => heq ▸ mem_map_of_mem hi))
    simp only [mem_append, mem_cons, or_left_comm (a := i ∈ l₁)]
    split
    · rename_i heq
      rw [or_iff_left fun hi => hother i hi heq]
      cases i
      simp_all
    · rename_i hne
      have hx : ∀ y : LockedAddr, y.contextId = x.contextId → i ≠ y := by
        rintro y hy rfl
        exact hne hy
      rw [or_iff_right (hx x rfl), or_iff_right (hx ⟨mask pkt.req.paddr, x.contextId⟩ rfl)]
  · rename_i hnone
    cases h
    have hnew : ∀ i ∈ m.lockedAddrList, i.contextId ≠ c := by
      intro i hi heq
      have := findIdx?_eq_none_iff.mp hnone i hi
      simp [heq] at this
    refine ⟨?_, fun i => ?_⟩
    · refine nodup_cons.mpr ⟨fun hmem => ?_, hnodup⟩
      obtain ⟨i, hi, heq⟩ := mem_map.mp hmem
      exact hnew i hi heq
    · rw [mem_cons]
      split
      · rename_i heq
        rw [or_iff_left fun hi => hnew i hi heq]
        cases i
        simp_all
      · rename_i hne
        rw [or_iff_right]
        rintro rfl
        exact hne rfl

/-- The list of a system with another entry in its history, which is none of this context's load-locked. -/
theorem Listed.snoc {addr : Nat} (hlock : isLoadLocked c e = false) :
    Listed (h ++ [e]) c addr ↔ Listed h c addr ∧ checked (addr / 16) e = false := by
  unfold Listed
  rw [latest_snoc, latestAfter, if_neg (by simp [hlock])]
  constructor
  · rintro ⟨ll, after, hlatest, haddr, hafter⟩
    obtain ⟨⟨ll', after'⟩, hold, heq⟩ := Option.map_eq_some_iff.mp hlatest
    cases heq
    refine ⟨⟨ll', after', hold, haddr, fun e he => hafter e (mem_append_left _ he)⟩, ?_⟩
    exact hafter e (mem_append_right _ (mem_singleton_self e))
  · rintro ⟨⟨ll, after, hold, haddr, hafter⟩, hlast⟩
    refine ⟨ll, after ++ [e], by rw [hold]; rfl, haddr, fun f hf => ?_⟩
    rcases mem_append.mp hf with hf | hf
    · exact hafter f hf
    · rw [mem_singleton.mp hf]
      exact hlast

theorem Listed.lock {addr : Nat} (hlock : isLoadLocked c e = true) :
    Listed (h ++ [e]) c addr ↔ mask e.pkt.addr = addr := by
  unfold Listed
  rw [latest_snoc, latestAfter, if_pos hlock]
  constructor
  · rintro ⟨ll, after, hlatest, haddr, -⟩
    cases hlatest
    exact haddr
  · intro haddr
    exact ⟨e.pkt, [], rfl, haddr, fun f hf => absurd hf not_mem_nil⟩

theorem mask_div (a : Nat) : mask a / 16 = a / 16 := Nat.mul_div_cancel _ (by decide)

theorem mask_eq_iff {a b : Nat} : mask a = mask b ↔ a / 16 = b / 16 := by
  constructor
  · intro h
    rw [← mask_div a, h, mask_div]
  · intro h
    unfold mask
    rw [h]

theorem Inv.performed (i : Inv s) (ha : allowed s pkt = true) (hp : Performed s.memory pkt a) :
    Inv { memory := a.memory, history := s.history ++ [{ pkt := pkt, wrote := a.wrote }] } := by
  simp only [allowed, and_eq_true, or_eq_true, beq_iff_eq, decide_eq_true_eq] at ha
  obtain ⟨hsize, haddr⟩ := ha
  have hsized : ∀ e ∈ s.history ++ [{ pkt := pkt, wrote := a.wrote }], 1 ≤ e.pkt.size := by
    intro e he
    rcases mem_append.mp he with he | he
    · exact i.sized e he
    · rw [mem_singleton.mp he]
      exact hsize
  cases hp with
  | unchecked hlist hwrote hkind hnot =>
    have hlock (c : Nat) : isLoadLocked c { pkt := pkt, wrote := a.wrote } = false := by
      unfold isLoadLocked
      rcases hkind with hswap | hkind
      · have hllsc : pkt.isLLSC = false := by
          unfold Packet.isLLSC
          rw [hswap]
          rfl
        simp [hllsc]
      · rw [hkind, Bool.false_and]
    have hunchecked (g : Nat) : checked g { pkt := pkt, wrote := a.wrote } = false := by
      unfold checked
      cases hw : a.wrote with
      | true => simp [hwrote hw]
      | false => rfl
    refine ⟨hsized, hlist ▸ i.nodup, fun j => ?_⟩
    show j ∈ a.memory.lockedAddrList ↔ _
    rw [hlist, i.listed, Listed.snoc (hlock _), hunchecked]
    simp
  | loadLocked hread hllsc htrack hwrote =>
    have haddr : pkt.req.paddr = pkt.addr := haddr.resolve_left (by simp [hllsc])
    obtain ⟨c, hc, hnodup, hmem⟩ := trackLoadLocked_spec htrack i.nodup
    refine ⟨hsized, hnodup, fun j => ?_⟩
    show j ∈ a.memory.lockedAddrList ↔ _
    rw [hmem]
    by_cases hj : j.contextId = c
    · have hlock : isLoadLocked j.contextId { pkt := pkt, wrote := a.wrote } = true := by
        simp only [isLoadLocked, hread, hllsc, hc, hj, beq_self_eq_true, Bool.and_self]
      rw [if_pos hj, Listed.lock hlock, haddr, eq_comm]
    · have hlock : isLoadLocked j.contextId { pkt := pkt, wrote := a.wrote } = false := by
        simp [isLoadLocked, hc, Ne.symm hj]
      have hunchecked : checked (j.addr / 16) { pkt := pkt, wrote := a.wrote } = false := by simp [checked, hwrote]
      rw [if_neg hj, Listed.snoc hlock, i.listed, hunchecked]
      simp
  | store hcmd hread hwrite pkt' m' hstored hpkt hmem =>
    have hlock (c : Nat) : isLoadLocked c { pkt := pkt, wrote := a.wrote } = false := by
      unfold isLoadLocked
      rw [hread, Bool.false_and, Bool.false_and]
    have haddr : pkt.req.paddr = pkt.addr := haddr.resolve_left (by simp [hwrite])
    have hlist : a.memory.lockedAddrList = if a.wrote then s.memory.lockedAddrList.filter (·.addr ≠ mask pkt.addr)
        else s.memory.lockedAddrList := by
      rw [hmem, ← haddr, ← hstored.list]
      split <;> rfl
    refine ⟨hsized, ?_, ?_⟩
    · show (a.memory.lockedAddrList.map (·.contextId)).Nodup
      rw [hlist]
      split
      · exact i.nodup.sublist (filter_sublist.map _)
      · exact i.nodup
    · intro j
      show j ∈ a.memory.lockedAddrList ↔ _
      rw [hlist, Listed.snoc (hlock _), ← i.listed]
      cases hw : a.wrote with
      | false => simp [checked]
      | true =>
        rw [if_pos rfl, mem_filter, decide_eq_true_iff]
        refine and_congr_right fun hj => ?_
        -- an address of the list is the mask of the load-locked it comes from
        obtain ⟨ll, -, -, hmask, -⟩ := (i.listed j).mp hj
        have hchecked : checked (j.addr / 16) { pkt := pkt, wrote := true } = (granule pkt == j.addr / 16) := by
          simp [checked, hcmd]
        rw [hchecked, ← hmask, mask_div, beq_eq_false_iff_ne, Ne, mask_eq_iff, eq_comm]
        rfl

theorem Inv.step (i : Inv s) (ha : allowed s pkt = true) (hs : step s pkt = .ok t) : Inv t := by
  obtain ⟨a, hacc, hs⟩ := of_bind hs
  cases hs
  obtain ⟨_, -, hacc⟩ := of_bind hacc
  obtain ⟨_, -, hacc⟩ := of_bind hacc
  split at hacc
  · rename_i hinh
    cases hacc
    rw [if_pos hinh]
    exact i
  · rename_i hinh
    obtain ⟨b, hb, hacc⟩ := of_bind hacc
    have hinv := i.performed ha (perform_cases hb)
    rw [if_neg hinh]
    split at hacc
    · obtain ⟨pkt', -, hacc⟩ := of_bind hacc
      cases hacc
      exact hinv
    · cases hacc
      exact hinv

variable {range : AddrRange} {mem : Nat → Byte} {pkts : List Packet}

abbrev MemoryStep : System → Packet → System → Prop := StepIf allowed step

theorem Inv.run (hr : Exec MemoryStep { memory := { range := range, mem := mem } } pkts s) : Inv s := by
  refine hr.invariant ?_ fun t pkt u i hs => i.step hs.1 hs.2
  exact ⟨fun e he => absurd he not_mem_nil, nodup_nil, fun j =>
    ⟨fun hj => absurd hj not_mem_nil, fun ⟨_, _, hlatest, _⟩ => by cases hlatest⟩⟩

/-! ## Store-conditionals -/

theorem covers_granule (h : 1 ≤ pkt.size) : covers pkt (granule pkt) = true := by
  have hle : granule pkt ≤ (pkt.addr + pkt.size - 1) / 16 := Nat.div_le_div_right (by omega)
  simp [covers, hle]

theorem latest_mem (h' : latest c h = some (ll, after)) : (∃ e ∈ h, e.pkt = ll) ∧ ∀ e ∈ after, e ∈ h := by
  induction h using reverseRecOn generalizing ll after with
  | nil => cases h'
  | append_singleton h e ih =>
    rw [latest_snoc, latestAfter] at h'
    split at h'
    · cases h'
      exact ⟨⟨e, mem_append_right _ (mem_singleton_self e), rfl⟩, fun f hf => absurd hf not_mem_nil⟩
    · obtain ⟨⟨ll', after'⟩, hold, heq⟩ := Option.map_eq_some_iff.mp h'
      cases heq
      obtain ⟨⟨f, hf, hpkt⟩, hafter⟩ := ih hold
      refine ⟨⟨f, mem_append_left _ hf, hpkt⟩, fun f hf => ?_⟩
      rcases mem_append.mp hf with hf | hf
      · exact mem_append_left _ (hafter f hf)
      · exact mem_append_right _ hf

/-- The list tells what the history does, but for what is overlooked. -/
theorem listed_iff_reserved (hsized : ∀ e ∈ h, 1 ≤ e.pkt.size) :
    (Listed h c (mask (16 * g)) ↔ Reserved h c g) ↔ ¬ Overlooked h c g := by
  have hg : mask (16 * g) / 16 = g := by rw [mask_div, Nat.mul_div_cancel_left g (by decide)]
  unfold Listed Reserved Overlooked
  rw [hg]
  cases hlatest : latest c h with
  | none => simp
  | some p =>
    obtain ⟨ll, after⟩ := p
    obtain ⟨⟨e, he, rfl⟩, hafter⟩ := latest_mem hlatest
    have hmask : mask e.pkt.addr = mask (16 * g) ↔ granule e.pkt = g := by
      rw [mask_eq_iff, Nat.mul_div_cancel_left g (by decide)]
      rfl
    -- a checked store is a write to the granule
    have hchecked : (∀ f ∈ after, f.wrote = true → covers f.pkt g = false) → ∀ f ∈ after, checked g f = false := by
      intro hnone f hf
      by_contra hc
      have hc := eq_true_of_not_eq_false hc
      simp only [checked, and_eq_true, beq_iff_eq] at hc
      have hcover := covers_granule (hsized f (hafter f hf))
      rw [hc.2, hnone f hf hc.1.1] at hcover
      cases hcover
    have hcover : granule e.pkt = g → covers e.pkt g = true := fun h => h ▸ covers_granule (hsized e he)
    constructor
    · rintro hiff ⟨_, _, hsome, hcase⟩
      cases hsome
      rcases hcase with ⟨hll, hseen, f, hf, hwrote, hf'⟩ | ⟨hll, hcov, hnone⟩
      · obtain ⟨_, _, hsome, -, hnone⟩ := hiff.mp ⟨_, _, rfl, hmask.mpr hll, hseen⟩
        cases hsome
        rw [hnone f hf hwrote] at hf'
        cases hf'
      · obtain ⟨_, _, hsome, haddr, -⟩ := hiff.mpr ⟨_, _, rfl, hcov, hnone⟩
        cases hsome
        exact hll (hmask.mp haddr)
    · intro hnot
      constructor
      · rintro ⟨_, _, hsome, haddr, hseen⟩
        cases hsome
        have hll := hmask.mp haddr
        refine ⟨_, _, rfl, hcover hll, fun f hf hwrote => ?_⟩
        by_contra hcov
        exact hnot ⟨_, _, rfl, .inl ⟨hll, hseen, f, hf, hwrote, eq_true_of_not_eq_false hcov⟩⟩
      · rintro ⟨_, _, hsome, hcov, hnone⟩
        cases hsome
        refine ⟨_, _, rfl, hmask.mpr ?_, hchecked hnone⟩
        by_contra hll
        exact hnot ⟨_, _, rfl, .inr ⟨hll, hcov, hnone⟩⟩

theorem isRead_conditional (hw : pkt.isWrite = true) (hl : pkt.isLLSC = true) : pkt.isRead = false ∧ pkt.cmd ≠ .swapReq := by
  unfold Packet.isWrite at hw
  unfold Packet.isLLSC at hl
  unfold Packet.isRead
  cases hcmd : pkt.cmd <;> rw [hcmd] at hw hl <;> first | exact absurd hw (by decide) | exact absurd hl (by decide) | decide

/-- What the memory does with a store-conditional. -/
theorem access_conditional (hw : pkt.isWrite = true) (hl : pkt.isLLSC = true) (hinh : pkt.memInhibitAsserted = false)
    (hs : m.access pkt = .ok a) : ∃ pkt' m', Stored m pkt a.wrote pkt' m' ∧ a.pkt.req = pkt'.req ∧
      a.memory = if a.wrote then { m' with mem := writeBytes m.mem pkt.addr pkt.size pkt.data } else m' := by
  obtain ⟨_, -, hs⟩ := of_bind hs
  obtain ⟨_, -, hs⟩ := of_bind hs
  rw [hinh, if_neg Bool.false_ne_true] at hs
  obtain ⟨b, hb, hs⟩ := of_bind hs
  obtain ⟨hread, hcmd⟩ := isRead_conditional hw hl
  have hsame : a.wrote = b.wrote ∧ a.memory = b.memory ∧ a.pkt.req = b.pkt.req := by
    split at hs
    · obtain ⟨r, hr, hs⟩ := of_bind hs
      cases hs
      obtain ⟨_, -, hr⟩ := of_bind hr
      obtain ⟨_, -, hr⟩ := of_bind hr
      cases hr
      exact ⟨rfl, rfl, rfl⟩
    · cases hs
      exact ⟨rfl, rfl, rfl⟩
  rw [hsame.1, hsame.2.1, hsame.2.2]
  cases perform_cases hb with
  | unchecked hlist hwrote hkind hnot => exact absurd hw (by simp [hnot.resolve_left hcmd])
  | loadLocked hread' => simp [hread] at hread'
  | store hcmd hread hwrite pkt' m' hstored hpkt hmem => exact ⟨pkt', m', hstored, congrArg Packet.req hpkt, hmem⟩

/-- A store-conditional succeeds exactly when its reservation is good, unless something is overlooked. It writes if it
  succeeds, and changes nothing if it fails. -/
theorem store_conditional_iff (hr : Exec MemoryStep { memory := { range := range, mem := mem } } pkts s) (ha : allowed s pkt = true)
    (hw : pkt.isWrite = true) (hl : pkt.isLLSC = true) (hinh : pkt.memInhibitAsserted = false) (hc : pkt.req.contextId = some c)
    (hs : s.memory.access pkt = .ok a) :
    ((a.wrote = true ↔ Reserved s.history c (granule pkt)) ↔ ¬ Overlooked s.history c (granule pkt)) ∧
    a.pkt.req.extraData = (if a.wrote then 1 else 0) ∧
    (a.wrote = true → a.memory.mem = writeBytes s.memory.mem pkt.addr pkt.size pkt.data) ∧
    (a.wrote = false → a.memory = s.memory) := by
  have i := Inv.run hr
  obtain ⟨pkt', m', hstored, hreq, hmem⟩ := access_conditional hw hl hinh hs
  have haddr : pkt.req.paddr = pkt.addr := by
    simp only [allowed, hw, Bool.true_or, Bool.not_true, Bool.false_or, Bool.and_eq_true, beq_iff_eq] at ha
    exact ha.2
  obtain ⟨hiff, hextra⟩ := hstored.conditional hl
  have hlisted : a.wrote = true ↔ Listed s.history c (mask (16 * granule pkt)) := by
    have hmask : mask (16 * granule pkt) = mask pkt.addr := by
      rw [mask_eq_iff, Nat.mul_div_cancel_left _ (by decide)]
      rfl
    rw [hiff, hmask, haddr, hc]
    constructor
    · rintro ⟨j, hj, hja, hjc⟩
      cases hjc
      exact hja ▸ (i.listed j).mp hj
    · intro hlist
      exact ⟨⟨mask pkt.addr, c⟩, (i.listed _).mpr hlist, rfl, rfl⟩
  refine ⟨?_, by rw [hreq, hextra], fun hwrote => ?_, fun hwrote => ?_⟩
  · rw [hlisted]
    exact listed_iff_reserved i.sized
  · rw [hmem, if_pos hwrote]
  · have hlist := hstored.list
    obtain ⟨hmem', hrange⟩ := hstored.mem
    cases m'
    simp_all

/-- Eight bytes of a context, from an address on. -/
def packetOf (cmd : MemCmd) (c addr : Nat) (data : List Byte := []) : Packet :=
  { cmd := cmd, req := { paddr := addr, size := 8, masterId := c, contextId := some c }, addr := addr, size := 8, data := data }

def empty : System := { memory := { range := AddrRange.RangeIn 0 255, mem := fun _ => 0 } }

/-- Two contexts reserve a granule, and the other one writes to the next granule. -/
theorem store_conditional_iff_three : ∃ s a,
    Exec MemoryStep empty [packetOf .loadLockedReq 0 32, packetOf .loadLockedReq 1 40, packetOf .writeReq 1 48] s ∧
    s.memory.access (packetOf .storeCondReq 0 32) = .ok a ∧
    ((a.wrote = true ↔ Reserved s.history 0 2) ↔ ¬ Overlooked s.history 0 2) := by
  refine Exec.ends_withIf_two (p := fun s => (s.memory.access (packetOf .storeCondReq 0 32)).isOk)
    (by decide) fun s hr hok => ?_
  cases hs : s.memory.access (packetOf .storeCondReq 0 32) with
  | error e =>
    rw [hs] at hok
    cases hok
  | ok a => exact ⟨a, rfl, (store_conditional_iff hr rfl rfl rfl rfl rfl hs).1⟩

/-- A swap of the other context overwrites the granule, and the store-conditional succeeds. -/
theorem swap_is_overlooked : ∃ s a, Exec MemoryStep empty [packetOf .loadLockedReq 0 32, packetOf .swapReq 1 32] s ∧
    s.memory.access (packetOf .storeCondReq 0 32) = .ok a ∧ a.wrote = true ∧ ¬ Reserved s.history 0 2 := by
  refine Exec.ends_withIf_two (p := fun s =>
      decide (latest 0 s.history = some (packetOf .loadLockedReq 0 32, [{ pkt := packetOf .swapReq 1 32, wrote := true }])) &&
        match s.memory.access (packetOf .storeCondReq 0 32) with
        | .ok a => a.wrote
        | .error _ => false) (by decide) fun s hr hend => ?_
  rw [and_eq_true, decide_eq_true_eq] at hend
  obtain ⟨hlatest, hend⟩ := hend
  cases hs : s.memory.access (packetOf .storeCondReq 0 32) with
  | error e =>
    rw [hs] at hend
    cases hend
  | ok a =>
    rw [hs] at hend
    refine ⟨a, rfl, hend, ?_⟩
    rintro ⟨ll, after, hsome, -, hnone⟩
    cases hlatest.symm.trans hsome
    cases hnone _ (mem_singleton_self _) rfl

end Gem5.Mem.Reservations
