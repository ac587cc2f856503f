import Gem5Nvmain.Ruby.LineCopies
import Gem5Nvmain.Ruby.MiComplete

/- What a DMA write of MI_example leaves of the line.

  A run of the system is followed by `line`, the value of the line: the memory at the start, what the processors
  store, and the memory again when a DMA write is over. In the array form of DirectoryMemory every copy is the line
  (`Follows`). A write that was taken in `I` then puts its window into the line. One that was taken in `M` replaces
  the line by the whole block of the request, which is cleared outside the window, since `writeDataToMemoryFromTBE`
  does not copy partially. -/
namespace Gem5.Ruby
open Lib List DirSide Option System DataBlock

variable {size : Nat}

/-- The states in which the directory works for a DMA write. -/
def DirState.writes (st : DirState) : Bool := st = .ID_W || st = .M_DWR || st = .M_DWRI

/-- The TBE that `allocateTBE` makes of a request. -/
def DMARequestMsg.tbe (q : DMARequestMsg size) (st : DirState) : DirTBE size :=
  ⟨q.physicalAddress, st, q.dataBlk, q.len, q.requestor⟩

/-- Whether a byte of the line is one of those that the request is about. -/
def DMARequestMsg.covers (q : DMARequestMsg size) (i : Fin size) : Prop :=
  addressOffset size q.physicalAddress ≤ i.val ∧ i.val < addressOffset size q.physicalAddress + q.len

/-- A block that is cleared outside the window. -/
def DMARequestMsg.Blank (q : DMARequestMsg size) : Prop := ∀ i, ¬ q.covers i → q.dataBlk i = 0

namespace System

/-- The DMA request that a step takes, in a state that does not recycle it. -/
def takes (s : System size) : Input → Option (DMARequestMsg size)
  | .dmaRequestPort k => if s.dir.getState = .I ∨ s.dir.getState = .M then s.dmaRequests[k]? else none
  | _ => none

/-- The step in which the directory ends a DMA write. -/
def endsDmaWrite (s : System size) (i : Input) : Bool :=
  (s.dir.getState = .ID_W || s.dir.getState = .M_DWRI) && s.event i = some (.dir .memoryAck)

end System

structure LineRun (size : Nat) where
  sys : System size
  line : DataBlock size
  /-- The last DMA request that the directory took. -/
  request : Option (DMARequestMsg size)

namespace LineRun

def init (useMap : Bool) (ram : DataBlock size) : LineRun size :=
  ⟨System.init useMap ram, (Directory.init useMap ram).getDirectoryEntry.dataBlk, none⟩

def step (r : LineRun size) (i : Input) : Except Stop (LineRun size) := do
  let s ← r.sys.step i
  return {
    sys := s
    line := if r.sys.endsDmaWrite i then s.dir.getDirectoryEntry.dataBlk else r.line.store (r.sys.performs i)
    request := (r.sys.takes i).or r.request }

end LineRun

/-! Steps of the directory. -/

section DirCopies
variable {s : System size} {st st' : DirState} {chain : List Nat} {writer : Option Nat} {k : Nat} {b blk : DataBlock size}
  {o : List Nat} {t : Option (DirTBE size)} {d : DirSide size} {d' : Directory size}

theorem System.copy_dirSide (h : System.Copy { s with toDirSide := d } b) (hcopy : d.Copy b → s.Copy b)
    (hresp : ∀ m ∈ d.responses, s.Copy m.dataBlk) (hreq : ∀ m ∈ d.requests, m ∈ s.requests)
    (hfwd : ∀ a r, .getx r ∈ d.forwards a → .getx r ∈ s.forwards a ∨
      ∀ b w, s.caches a = ⟨none, some ⟨.MI, b⟩, w⟩ → (s.view a).Copy b) : s.Copy b := by
  cases h with
  | dir h => exact hcopy h
  | message hm => exact hresp _ hm
  | cache h =>
    rename_i a
    have hmem : ∀ {m : RequestMsg size}, m ∈ d.requests.filter (fun m => m.requestor = a) → m ∈ s.requestsOf a :=
      fun hm => mem_filter.mpr ⟨hreq _ (mem_filter.mp hm).1, (mem_filter.mp hm).2⟩
    apply System.Copy.cache
    cases h with
    | modified hv => exact .modified hv
    | asked hv hm =>
      rcases hfwd a _ hm with hm | hold
      · exact .asked hv hm
      · exact hold _ _ hv
    | leaving hv hm => exact .leaving hv (hmem hm)
    | putx hv hm => exact .putx hv (hmem hm)

theorem DirSide.getx_mem_forwardTo {x : DirSide size} {l : List Nat} {m : ForwardMsg} {a r : Nat} (hm : ∀ c, m ≠ .getx c)
    (h : .getx r ∈ (x.forwardTo l m).forwards a) : .getx r ∈ x.forwards a := by
  by_cases ha : a ∈ l
  · rw [show (x.forwardTo l m).forwards a = x.forwards a ++ [m] from if_pos ha] at h
    rcases mem_append.mp h with h | h
    · exact h
    · exact absurd (mem_singleton.mp h).symm (hm r)
  · rwa [forwards_notMem ha] at h

/-- What a step of the directory keeps that neither takes a DMA request nor ends a DMA write. -/
structure Steady (s : System size) (d : DirSide size) : Prop where
  map : d.dir.useMap = s.dir.useMap
  copies : s.dir.useMap = false → ∀ b, System.Copy { s with toDirSide := d } b → s.Copy b
  dmaRequests : ∀ q ∈ d.dmaRequests, q ∈ s.dmaRequests
  writes : d.dir.getState.writes = true → s.dir.getState.writes = true ∧
    ∀ q : DMARequestMsg size, s.dir.tbe = some (q.tbe s.dir.getState) → d.dir.tbe = some (q.tbe d.dir.getState)

namespace Steady

theorem recycled (hd : s.dir.Is st blk o t) (his : d'.Is st blk o t) (hmap : d'.useMap = s.dir.useMap) :
    Steady s { s.toDirSide with dir := d' } where
  map := hmap
  copies _ b h := by
    refine copy_dirSide h (fun h => .dir ?_) (fun m hm => .message hm) (fun m hm => hm) fun a r h => .inl h
    rw [copy_iff his] at h
    exact (copy_iff hd).mpr h
  dmaRequests _ h := h
  writes h := by
    rw [his.getState] at h
    rw [hd.getState, hd.tbe, his.getState, his.tbe]
    exact ⟨h, fun _ hq => hq⟩

theorem of_not_writes (his : d.dir.Is st' blk o t) (hst : st'.writes = false) (hmap : d.dir.useMap = s.dir.useMap)
    (hreq : ∀ q ∈ d.dmaRequests, q ∈ s.dmaRequests)
    (hcopies : s.dir.useMap = false → ∀ b, System.Copy { s with toDirSide := d } b → s.Copy b) : Steady s d where
  map := hmap
  copies := hcopies
  dmaRequests := hreq
  writes h := by
    rw [his.getState, hst] at h
    cases h

theorem getx {r : Nat} (hc : Coherent s st chain writer) (hm : s.requests[k]? = some (.getx r))
    (h : s.toDirSide.dirStep k .getx = .ok d) : Steady s d := by
  obtain ⟨blk, o, t, hd, hp⟩ := hc.dir
  have herase : ∀ m ∈ s.requests.eraseIdx k, m ∈ s.requests := fun m hm => mem_of_mem_eraseIdx hm
  by_cases hI : st = .I
  · subst hI
    obtain ⟨rfl, ht, hmem, -, -⟩ := hp.of_I
    obtain rfl : t = none := by simpa using ht
    obtain ⟨d', his, hmap, rfl⟩ := DirSide.I_getx hd hm h
    refine of_not_writes his rfl hmap (fun q hq => hq) fun _ b hb => ?_
    refine copy_dirSide hb (fun h => .dir ?_) (fun m hm => .message hm) herase fun a r h => .inl h
    rw [copy_iff his] at h
    apply (copy_iff hd).mpr
    cases h with
    | entry hst => cases hst
    | tbe hst _ => cases hst
    | fetched _ hm =>
      rw [hmem] at hm
      cases mem_singleton.mp hm
      exact .entry rfl
  · by_cases hM : st = .M
    · subst hM
      obtain ⟨c, hlast, rfl, ht, hmem, rfl⟩ := hp.of_M
      obtain rfl : t = none := by simpa using ht
      obtain ⟨d', his, hmap, rfl⟩ := DirSide.M_getx hd hm h
      refine of_not_writes his rfl hmap (fun q hq => hq) fun _ b hb => ?_
      refine copy_dirSide hb (fun h => ?_) (fun m hm => .message hm) herase fun a p h => ?_
      · rw [copy_iff his] at h
        cases h with
        | entry hst | tbe hst _ | fetched hst _ => cases hst
      · by_cases hac : a = c
        · exact .inr fun b w hx => hc.copy_of_mem (hac ▸ mem_of_getLast? hlast) hx
        · exact .inl ((forwards_notMem fun h => hac (mem_singleton.mp h)) ▸ h)
    · obtain ⟨d', his, hmap, rfl⟩ := recycle hd (.inl (Coherent.dirTransition_getx hp hI hM)) h hI
      exact recycled hd his hmap

variable {m : RequestMsg size}

section
variable (hc : Coherent s st chain writer)
include hc

theorem putxNotOwner (hm : s.requests[k]? = some m)
    (h : s.toDirSide.dirStep k .putxNotOwner = .ok d) : Steady s d := by
  obtain ⟨blk, o, t, hd, hp⟩ := hc.dir
  have hdecl := declared_of_ok hd.getState h
  by_cases hbase : st = .I ∨ st = .M
  · obtain rfl : t = none := by
      rcases hbase with rfl | rfl
      · simpa using hp.of_I.2.1
      · obtain ⟨_, -, -, ht, -⟩ := hp.of_M
        simpa using ht
    obtain ⟨d', his, hmap, rfl⟩ := nack hbase hd hm h
    refine of_not_writes his (by rcases hbase with rfl | rfl <;> rfl) hmap (fun q hq => hq) fun hu b hb => ?_
    refine copy_dirSide hb (fun h => .dir ?_) (fun m hm => .message hm) (fun m hm => mem_of_mem_eraseIdx hm)
      fun a r h => .inl (getx_mem_forwardTo (m := .wbNack) nofun h)
    rw [copy_iff his] at h
    have hkept : kept s.dir.useMap st blk = blk := if_neg fun hI => by rw [hu] at hI; cases hI.2
    rw [hkept] at h
    exact (copy_iff hd).mpr h
  · have ht : dirTransition st .putxNotOwner = some (.go [.recycleRequestQueue] st) := by
      cases st with
      | I | M => simp at hbase
      | IM | MI | ID | ID_W => rfl
      | M_DRD | M_DWR | M_DWRI | M_DRDI => exact absurd rfl hdecl
    obtain ⟨d', his, hmap, rfl⟩ := recycle hd (.inl ht) h fun hI => hbase (.inl hI)
    exact recycled hd his hmap

theorem putx_copy (hm : s.requests[k]? = some m) (hev : s.requestEvent m = .putx) : s.Copy m.dataBlk := by
  cases m with
  | getx r => cases hev
  | putx r b =>
    obtain ⟨blk, o, t, hd, hp⟩ := hc.dir
    have howner : s.owner = o := congrArg DirEntry.owner hd.entry
    have hmem : r ∈ chain := by
      by_contra hr
      have hnot : r ∉ s.owner := fun h => hr (mem_of_getLast? ((Coherent.mem_owner hp).mp (howner ▸ h)))
      rw [show s.requestEvent (.putx r b) = .putxNotOwner from if_neg hnot] at hev
      cases hev
    rcases hc.putx_role hm with ⟨hr, -⟩ | ⟨l, d₁, w₁, b₁, fs, -, -, -, hv, -⟩
    · exact absurd hmem hr
    · apply System.Copy.cache
      apply View.Copy.putx
      · exact congrArg View.cache hv
      · exact Coherent.mem_requestsOf hm

theorem putx (hm : s.requests[k]? = some m)
    (hev : s.requestEvent m = .putx) (h : s.toDirSide.dirStep k .putx = .ok d) : Steady s d := by
  have hcopy := putx_copy hc hm hev
  obtain ⟨blk, o, t, hd, hp⟩ := hc.dir
  have hdecl := declared_of_ok hd.getState h
  -- the data are in the TBE or in the entry now
  have htaken : ∀ {d : DirSide size} {st' : DirState} {blk' : DataBlock size} {t' : Option (DirTBE size)}, d.dir.Is st' blk' [] t' →
      (∀ b, DirCopy st' blk' t' d.memQueue b → b = m.dataBlk) → d.requests = s.requests.eraseIdx k →
      d.responses = s.responses → d.forwards = s.forwards → ∀ b, System.Copy { s with toDirSide := d } b → s.Copy b := by
    intro d st' blk' t' his hone hreq hresp hfwd b hb
    refine copy_dirSide hb (fun h => ?_) (fun p hp => ?_) (fun p hp => ?_) fun a r h => .inl (hfwd ▸ h)
    · rw [hone b ((copy_iff his).mp h)]
      exact hcopy
    · rw [hresp] at hp
      exact .message hp
    · rw [hreq] at hp
      exact mem_of_mem_eraseIdx hp
  cases st with
  | M =>
    obtain ⟨_, -, -, ht, -⟩ := hp.of_M
    obtain rfl : t = none := by simpa using ht
    obtain ⟨d', his, hmap, rfl⟩ := DirSide.M_putx hd hm h
    refine of_not_writes his rfl hmap (fun q hq => hq) fun _ => htaken his (fun b hb => ?_) rfl rfl rfl
    cases hb with
    | entry hst | fetched hst _ => cases hst
    | tbe _ ht =>
      cases ht
      rfl
  | M_DRD =>
    obtain ⟨_, -, -, ht, -⟩ := hp.of_blocks rfl
    obtain ⟨u, rfl⟩ := isSome_iff_exists.mp ht
    obtain ⟨d', rs, his, hmap, rfl⟩ := DirSide.M_DRD_putx hd hm h
    refine of_not_writes his rfl hmap (fun q hq => hq) fun _ => htaken his (fun b hb => ?_) rfl rfl rfl
    cases hb with
    | entry _ => rfl
    | tbe hst _ | fetched hst _ => cases hst
  | M_DWR =>
    obtain ⟨_, -, -, ht, -⟩ := hp.of_blocks rfl
    obtain ⟨u, rfl⟩ := isSome_iff_exists.mp ht
    obtain ⟨d', b', his, hmap, rfl⟩ := DirSide.M_DWR_putx hd hm h
    refine ⟨hmap, fun _ => htaken his (fun b hb => ?_) rfl rfl rfl, fun q hq => hq, fun _ => ?_⟩
    · cases hb with
      | entry _ => rfl
      | tbe hst _ | fetched hst _ => cases hst
    · rw [hd.getState, hd.tbe, his.getState, his.tbe]
      refine ⟨rfl, fun q hq => ?_⟩
      cases hq
      rfl
  | I | M_DWRI | M_DRDI => exact absurd rfl hdecl
  | IM | MI | ID | ID_W =>
    obtain ⟨d', his, hmap, rfl⟩ := recycle hd (.inl rfl) h nofun
    exact recycled hd his hmap

theorem request (hm : s.requests[k]? = some m)
    (h : s.toDirSide.dirStep k (s.requestEvent m) = .ok d) : Steady s d := by
  cases m with
  | getx r => exact getx hc hm h
  | putx r b =>
    by_cases howner : r ∈ s.owner
    · have hev : s.requestEvent (.putx r b) = .putx := if_pos howner
      exact putx hc hm hev (hev ▸ h)
    · have hev : s.requestEvent (.putx r b) = .putxNotOwner := if_neg howner
      exact putxNotOwner hc hm (hev ▸ h)

theorem memory {m : MemoryMsg size} (hm : s.memQueue[k]? = some m)
    (hends : s.endsDmaWrite (.memPort k) = false) (h : s.toDirSide.dirStep k m.event = .ok d) : Steady s d := by
  obtain ⟨blk, o, t, hd, hp⟩ := hc.dir
  have hack : m.write = true → st ≠ .ID_W ∧ st ≠ .M_DWRI := by
    intro hw
    have hev : s.event (.memPort k) = some (.dir .memoryAck) := by
      unfold event
      dsimp only
      rw [hm, map_some, MemoryMsg.event, if_pos hw]
    unfold endsDmaWrite at hends
    rw [hd.getState, hev] at hends
    simpa using hends
  generalize ht : t.isSome = x at hp
  generalize hq : s.memQueue = mem at hp hm
  have hone : ∀ {w : MemoryMsg size}, mem = [w] → k = 0 ∧ m = w := by
    rintro w rfl
    cases k with
    | zero => exact ⟨rfl, (some.inj hm).symm⟩
    | succ k => cases hm
  have hsome : x = true → ∃ u, t = some u := fun hx => isSome_iff_exists.mp (ht.trans hx)
  have hended : ∀ {d' : Directory size} {x b : DataBlock size} {rs : List (DMAResponseMsg size)} {fs : Nat → List ForwardMsg},
      d'.Is .I (kept s.dir.useMap .I x) o none → s.dir.useMap = false → s.Copy x →
      (∀ a r, .getx r ∈ fs a → .getx r ∈ s.forwards a) →
      System.Copy { s with dir := d', memQueue := s.memQueue.eraseIdx k, forwards := fs, dmaResponses := rs } b →
      s.Copy b := by
    intro d' x b rs fs his hu hx hfs hb
    refine copy_dirSide hb (fun h => ?_)
      (fun m hm => .message hm) (fun m hm => hm) fun a r h => .inl (hfs a r h)
    rw [copy_iff his, hu] at h
    cases h with
    | entry _ => exact hx
    | tbe hst _ | fetched hst _ => cases hst
  cases hp with
  | idle | modified _ | blocked _ _ => cases hm
  | fetching =>
    obtain ⟨rfl, rfl⟩ := hone rfl
    obtain rfl : t = none := by simpa using ht
    obtain ⟨d', his, hmap, rfl⟩ := DirSide.IM_memoryData hd (hq ▸ hm) rfl h
    refine of_not_writes his rfl hmap (fun q hq => hq) fun _ b hb => ?_
    refine copy_dirSide hb (fun h => ?_) (fun m hm => ?_) (fun m hm => hm) fun a r h => .inl h
    · rw [copy_iff his] at h
      cases h with
      | entry hst | tbe hst _ | fetched hst _ => cases hst
    · rcases mem_append.mp hm with hm | hm
      · exact .message hm
      · cases mem_singleton.mp hm
        apply System.Copy.dir
        rw [copy_iff hd, hq]
        exact .fetched rfl (mem_singleton.mpr rfl)
  | dmaRead =>
    obtain ⟨rfl, rfl⟩ := hone rfl
    obtain ⟨u, rfl⟩ := hsome rfl
    obtain ⟨d', rs, his, hmap, rfl⟩ := DirSide.ID_memoryData hd (hq ▸ hm) h
    refine of_not_writes his rfl hmap (fun q hq => hq) fun hu b hb => ?_
    exact hended his hu (.dir ((copy_iff hd).mpr (.entry rfl))) (fun a r h => h) hb
  | dmaWrite =>
    obtain ⟨-, rfl⟩ := hone rfl
    exact absurd rfl (hack rfl).1
  | writing hst =>
    obtain ⟨rfl, rfl⟩ := hone rfl
    obtain ⟨u, rfl⟩ := hsome rfl
    obtain ⟨d', rs, his, hmap, rfl⟩ := writeback_memoryAck hst hd (hq ▸ hm) rfl h
    refine of_not_writes his rfl hmap (fun q hq => hq) fun hu b hb => ?_
    refine hended his hu (.dir ((copy_iff hd).mpr ?_))
      (fun a r h => getx_mem_forwardTo (m := .wbAck) nofun h) hb
    rcases hst with rfl | rfl | rfl
    · exact .tbe rfl rfl
    · exact .entry rfl
    · exact absurd rfl (hack rfl).2

end

end Steady

/-- The directory takes a DMA request, or recycles it. -/
theorem takes_dma {q : DMARequestMsg size} (hc : Coherent s st chain writer) (hm : s.dmaRequests[k]? = some q)
    (h : s.toDirSide.dirStep k q.event = .ok d) : (s.takes (.dmaRequestPort k) = none ∧ Steady s d) ∨
    (s.takes (.dmaRequestPort k) = some q ∧ d.dir.useMap = s.dir.useMap ∧
      (∀ b, System.Copy { s with toDirSide := d } b → s.Copy b) ∧ d.dmaRequests = s.dmaRequests.eraseIdx k ∧
      (d.dir.getState.writes = true → q.write = true ∧ d.dir.tbe = some (q.tbe d.dir.getState))) := by
  obtain ⟨blk, o, t, hd, hp⟩ := hc.dir
  have hdecl := declared_of_ok hd.getState h
  have htakes : st = .I ∨ st = .M → s.takes (.dmaRequestPort k) = some q := by
    intro hst
    exact (if_pos (hd.getState.symm ▸ hst)).trans hm
  have hnot : st ≠ .I → st ≠ .M → s.takes (.dmaRequestPort k) = none := by
    intro hI hM
    exact if_neg fun hst => (hd.getState ▸ hst).elim hI hM
  cases st with
  | I =>
    obtain ⟨rfl, ht, hmem, rfl, rfl⟩ := hp.of_I
    obtain rfl : t = none := by simpa using ht
    have hcopy : ∀ {d' : Directory size} {st' : DirState} {t' : Option (DirTBE size)} {w : MemoryMsg size} {b : DataBlock size},
        d'.Is st' blk [] t' → st' ≠ .MI → st' ≠ .IM → System.Copy { s with
          dir := d', memQueue := s.memQueue ++ [w], dmaRequests := s.dmaRequests.eraseIdx k } b → s.Copy b := by
      intro d' st' t' w b his hMI hIM hb
      refine copy_dirSide hb (fun h => ?_)
        (fun m hm => .message hm) (fun m hm => hm) fun a r h => .inl h
      apply System.Copy.dir
      apply (copy_iff hd).mpr
      rw [copy_iff his] at h
      cases h with
      | entry _ => exact .entry rfl
      | tbe hst _ => exact absurd hst hMI
      | fetched hst _ => exact absurd hst hIM
    refine .inr ⟨htakes (.inl rfl), ?_⟩
    unfold DMARequestMsg.event at h
    split at h
    · rename_i hw
      obtain ⟨d', b, his, hmap, rfl⟩ := DirSide.I_dmaWrite hd hm h
      refine ⟨hmap, fun b hb => hcopy his nofun nofun hb, rfl, fun _ => ⟨hw, ?_⟩⟩
      rw [his.tbe, his.getState]
      rfl
    · obtain ⟨d', his, hmap, rfl⟩ := DirSide.I_dmaRead hd hm h
      refine ⟨hmap, fun b hb => hcopy his nofun nofun hb, rfl, fun hst => ?_⟩
      rw [his.getState] at hst
      cases hst
  | M =>
    obtain ⟨c, hlast, rfl, ht, hmem, rfl⟩ := hp.of_M
    obtain rfl : t = none := by simpa using ht
    obtain ⟨d', his, hmap, rfl⟩ := DirSide.M_dma hd hm h
    refine .inr ⟨htakes (.inr rfl), hmap, fun b hb => ?_, rfl, fun hst => ?_⟩
    · refine copy_dirSide hb (fun h => ?_) (fun m hm => .message hm) (fun m hm => hm)
        fun a r h => .inl (getx_mem_forwardTo (m := .inv) nofun h)
      rw [copy_iff his] at h
      unfold blockedFor at h
      cases h with
      | entry hst | tbe hst _ | fetched hst _ => split at hst <;> cases hst
    · rw [his.getState] at hst ⊢
      rw [his.tbe]
      refine ⟨?_, rfl⟩
      unfold blockedFor at hst
      split at hst
      · assumption
      · cases hst
  | IM | MI | ID | ID_W =>
    obtain ⟨d', his, hmap, rfl⟩ := recycle hd (by unfold DMARequestMsg.event; split <;> exact .inr rfl) h nofun
    exact .inl ⟨hnot nofun nofun, Steady.recycled hd his hmap⟩
  | M_DRD | M_DWR | M_DWRI | M_DRDI =>
    unfold DMARequestMsg.event at hdecl
    split at hdecl <;> exact absurd rfl hdecl

theorem copy_of_I {writer : Option Nat} (hc : Coherent s .I chain writer) (h : s.Copy b) :
    b = s.dir.getDirectoryEntry.dataBlk := by
  obtain ⟨blk, o, t, hd, hp⟩ := hc.dir
  obtain ⟨-, -, -, rfl, rfl⟩ := hp.of_I
  cases h with
  | dir h =>
    rw [copy_iff hd] at h
    cases h with
    | entry _ => rw [hd.entry]
    | tbe hst _ | fetched hst _ => cases hst
  | message hm =>
    rw [hc.free rfl] at hm
    cases hm
  | cache h => exact absurd h (hc.away _ not_mem_nil nofun).not_copy

end DirCopies

/-! The end of a DMA write. -/

section DmaWrites
variable {s s' : System size} {r r' : LineRun size} {i : Input} {st : DirState} {chain : List Nat} {writer : Option Nat}
  {k : Nat} {useMap : Bool} {ram : DataBlock size} {h : List Input}

theorem DirSide.dmaAck {x x' : DirSide size} {blk : DataBlock size} {o : List Nat} {t : DirTBE size}
    (hst : st = .ID_W ∨ st = .M_DWRI) (hd : x.dir.Is st blk o (some t)) (h : x.dirStep k .memoryAck = .ok x') :
    x'.dmaResponses = x.dmaResponses ++ [⟨t.dmaRequestor, none⟩] := by
  have htbe : ∀ f, (x.dir.modifyEntry f).tbe = some t := fun _ => hd.tbe
  rcases hst with rfl | rfl
  · obtain ⟨u, d, hu, -, rfl⟩ := go_spec hd.getState h rfl
    simp only [perform, DirAction.act, hd.tbe, valid_some, bind_ok] at hu
    obtain ⟨u₁, hu₁, hu⟩ := of_bind hu
    obtain ⟨b, -, hu₁⟩ := of_bind hu₁
    cases hu₁
    simp only [setDir, htbe, valid_some, isSome_some, require, if_true, bind_ok, pure_eq_ok,
      Except.ok.injEq] at hu
    subst hu
    rfl
  · obtain ⟨u, d, hu, -, rfl⟩ := go_spec hd.getState h rfl
    simp only [perform, DirAction.act, setDir, hd.tbe, valid_some, bind_ok, pure_eq_ok] at hu
    obtain ⟨u₁, hu₁, hu⟩ := of_bind hu
    obtain ⟨m, -, hu₁⟩ := of_bind hu₁
    obtain ⟨p, -, hu₁⟩ := of_bind hu₁
    cases hu₁
    simp only [forwardTo, htbe, valid_some, isSome_some, require, if_true, bind_ok,
      Except.ok.injEq] at hu
    subst hu
    rfl

/-- What the last step of a DMA write leaves in the entry. -/
theorem System.ended {t : DirTBE size} (hc : Coherent s st chain writer) (hends : s.endsDmaWrite i = true)
    (htbe : s.dir.tbe = some t) (hs : s.step i = .ok s') :
    s'.dir.getState = .I ∧ s'.dir.useMap = s.dir.useMap ∧ s'.dmaRequests = s.dmaRequests ∧
    s'.dmaResponses = s.dmaResponses ++ [⟨t.dmaRequestor, none⟩] ∧
    s'.dir.getDirectoryEntry.dataBlk = kept s.dir.useMap .I
      (if s.dir.getState = .ID_W then
        s.dir.getDirectoryEntry.dataBlk.patch t.dataBlk (addressOffset size t.physicalAddress) t.len
      else t.dataBlk) := by
  obtain ⟨hst, hev⟩ := Bool.and_eq_true_iff.mp hends
  have hev := of_decide_eq_true hev
  obtain ⟨blk, o, t', hd, hp⟩ := hc.dir
  obtain rfl : t' = some t := hd.tbe.symm.trans htbe
  have hst : st = .ID_W ∨ st = .M_DWRI := by
    rw [hd.getState] at hst
    exact (Bool.or_eq_true_iff.mp hst).imp of_decide_eq_true of_decide_eq_true
  have hstep : ∃ d, s.toDirSide.dirStep i.place .memoryAck = .ok d ∧ s' = { s with toDirSide := d } := by
    unfold step at hs
    rw [hev] at hs
    obtain ⟨d, hd, hs⟩ := of_bind hs
    cases hs
    exact ⟨d, hd, rfl⟩
  obtain ⟨d, hdir, rfl⟩ := hstep
  have hresp := dmaAck hst hd hdir
  rw [hd.getState, hd.entry]
  rcases hst with rfl | rfl
  · obtain ⟨d', rs, his, hmap, rfl⟩ := DirSide.ID_W_memoryAck hd hdir
    refine ⟨his.getState, hmap, rfl, hresp, ?_⟩
    rw [if_pos rfl, his.entry]
  · obtain ⟨k, m, rfl, hm, -⟩ : ∃ k m, i = .memPort k ∧ s.memQueue[k]? = some m ∧ DirEvent.memoryAck = m.event := by
      rcases event_dir hev with ⟨k, m, -, -, hm⟩ | ⟨k, m, -, -, hm⟩ | h
      · unfold requestEvent at hm
        cases m with
        | getx r => cases hm
        | putx r b =>
          dsimp only at hm
          split at hm <;> cases hm
      · unfold DMARequestMsg.event at hm
        split at hm <;> cases hm
      · exact h
    obtain ⟨c, hr⟩ : ∃ c, m.originalRequestor = some c := by
      generalize s.memQueue = mem at hp hm
      cases hp with
      | writing _ =>
        obtain rfl := mem_singleton.mp (mem_of_getElem? hm)
        exact ⟨_, rfl⟩
      | blocked hst _ => cases hst
    obtain ⟨d', rs, his, hmap, rfl⟩ := writeback_memoryAck (.inr (.inr rfl)) hd hm hr hdir
    refine ⟨his.getState, hmap, rfl, hresp, ?_⟩
    rw [if_neg nofun, his.entry]
    rfl

variable {q : DMARequestMsg size}

/-- The requests of the controllers are cleared outside their window. -/
theorem System.dmaStep_blank (hs : s.dmaStep i = .ok s') (hq : q ∈ s'.dmaRequests) : q ∈ s.dmaRequests ∨ q.Blank := by
  cases i with
  | dmaRead d addr len =>
    unfold dmaStep at hs
    dsimp only at hs
    split at hs <;> cases hs
    · rcases mem_append.mp hq with hq | hq
      · exact .inl hq
      · rw [mem_singleton.mp hq]
        exact .inr fun _ _ => rfl
    · exact .inl hq
  | dmaWrite d addr data =>
    unfold dmaStep at hs
    dsimp only at hs
    split at hs
    · obtain ⟨blk, hblk, hs⟩ := of_bind hs
      obtain ⟨_, -, hblk⟩ := of_bind hblk
      cases hblk
      cases hs
      rcases mem_append.mp hq with hq | hq
      · exact .inl hq
      · rw [mem_singleton.mp hq]
        refine .inr fun j hj => ?_
        unfold DMARequestMsg.covers at hj
        dsimp only at hj ⊢
        split
        · rename_i hle
          have hlen : data.length ≤ j.val - addressOffset size addr := by
            by_contra hlt
            exact hj ⟨hle, by omega⟩
          rw [getD_eq_getElem?_getD, getElem?_eq_none hlen]
          rfl
        · rfl
    · cases hs
      exact .inl hq
  | dmaResponsePort k =>
    unfold dmaStep at hs
    dsimp only at hs
    cases hm : s.dmaResponses[k]? with
    | none =>
      rw [hm] at hs
      cases hs
      exact .inl hq
    | some m =>
      rw [hm] at hs
      dsimp only at hs
      by_cases hd : s.dmas m.destination = (if m.data.isSome then .BUSY_RD else .BUSY_WR)
      · rw [if_pos hd] at hs
        cases hs
        exact .inl hq
      · rw [if_neg hd] at hs
        cases hs
  | _ =>
    cases hs
    exact .inl hq

theorem System.of_event_none (he : s.event i = none) : s.performs i = none ∧ s.takes i = none := by
  cases i with
  | store c w => cases he
  | responsePort k =>
    have hm : s.responses[k]? = none := map_eq_none_iff.mp he
    refine ⟨?_, rfl⟩
    unfold performs
    dsimp only
    rw [hm]
    rfl
  | dmaRequestPort k =>
    have hm : s.dmaRequests[k]? = none := map_eq_none_iff.mp he
    refine ⟨rfl, ?_⟩
    unfold takes
    dsimp only
    rw [hm, ite_self]
  | _ => exact ⟨rfl, rfl⟩

/-- The invariant of the runs: every copy is the line, and the TBE has the request that was taken. -/
structure Follows (useMap : Bool) (r : LineRun size) : Prop where
  map : r.sys.dir.useMap = useMap
  coherent : ∃ st chain writer, Coherent r.sys st chain writer
  copies : useMap = false → ∀ b, r.sys.Copy b → b = r.line
  blank : ∀ q ∈ r.sys.dmaRequests, q.Blank
  request : r.sys.dir.getState.writes = true →
    ∃ q, r.request = some q ∧ q.write = true ∧ q.Blank ∧ r.sys.dir.tbe = some (q.tbe r.sys.dir.getState)

namespace Follows

theorem init : Follows useMap (LineRun.init useMap ram) where
  map := rfl
  coherent := ⟨.I, [], none, Coherent.init⟩
  copies _ _ h := copy_of_I Coherent.init h
  blank := nofun
  request := nofun

theorem steady {d : DirSide size} (hf : Follows useMap r) (hk : Steady r.sys d)
    (hc : ∃ st chain writer, Coherent { r.sys with toDirSide := d } st chain writer) :
    Follows useMap ⟨{ r.sys with toDirSide := d }, r.line, r.request⟩ where
  map := hk.map.trans hf.map
  coherent := hc
  copies hu b hb := hf.copies hu b (hk.copies (hf.map.trans hu) b hb)
  blank q hq := hf.blank q (hk.dmaRequests q hq)
  request hst := by
    obtain ⟨hwas, htbe⟩ := hk.writes hst
    obtain ⟨q, hq, hw, hb, ht⟩ := hf.request hwas
    exact ⟨q, hq, hw, hb, htbe q ht⟩

theorem of_cache {s' : System size} {w : Option Write} (hf : Follows useMap r) (hdir : s'.dir = r.sys.dir)
    (hreq : s'.dmaRequests = r.sys.dmaRequests) (hc : ∃ st chain writer, Coherent s' st chain writer)
    (hcopy : ∀ d, s'.Copy d → ∃ b, r.sys.Copy b ∧ d = b.store w) :
    Follows useMap ⟨s', r.line.store w, r.request⟩ where
  map := (congrArg Directory.useMap hdir).trans hf.map
  coherent := hc
  copies hu d hd := by
    obtain ⟨b, hb, rfl⟩ := hcopy d hd
    rw [hf.copies hu b hb]
  blank := by
    rw [hreq]
    exact hf.blank
  request := by
    rw [hdir]
    exact hf.request

theorem request_of_ends (hf : Follows useMap r) (hends : r.sys.endsDmaWrite i = true) :
    ∃ q, r.request = some q ∧ q.write = true ∧ q.Blank ∧ r.sys.dir.tbe = some (q.tbe r.sys.dir.getState) := by
  apply hf.request
  obtain ⟨hst, -⟩ := Bool.and_eq_true_iff.mp hends
  rcases Bool.or_eq_true_iff.mp hst with hst | hst <;> rw [of_decide_eq_true hst] <;> rfl

theorem step (hf : Follows useMap r) (h : r.step i = .ok r') : Follows useMap r' := by
  obtain ⟨s', hs, h⟩ := of_bind h
  cases h
  obtain ⟨st, chain, writer, hc⟩ := hf.coherent
  obtain ⟨st', chain', writer', hc'⟩ := hc.step hs
  by_cases hends : r.sys.endsDmaWrite i = true
  · obtain ⟨q, hq, hw, hb, htbe⟩ := hf.request_of_ends hends
    obtain ⟨hI, hmap, hreqs, -⟩ := ended hc hends htbe hs
    obtain ⟨blk, o, t, hd, -⟩ := hc'.dir
    obtain rfl : st' = .I := hd.getState.symm.trans hI
    rw [if_pos hends]
    refine ⟨hmap.trans hf.map, ⟨_, _, _, hc'⟩, fun _ b hb => copy_of_I hc' hb, ?_, fun hst => ?_⟩
    · rw [hreqs]
      exact hf.blank
    · rw [hI] at hst
      cases hst
  · rw [if_neg hends]
    have hends := Bool.eq_false_iff.mpr hends
    rcases step_cases hs with ⟨c, ev, he, hcache⟩ | ⟨ev, d, he, hdir, rfl⟩ | ⟨he, hdma⟩
    · obtain ⟨hdir, hreq, -⟩ := cacheStep_sends hcache
      have hcopies : r.sys.takes i = none → (∀ d, s'.Copy d → ∃ b, r.sys.Copy b ∧ d = b.store (r.sys.performs i)) →
          Follows useMap ⟨s', r.line.store (r.sys.performs i), (r.sys.takes i).or r.request⟩ := by
        intro htakes hcopy
        rw [htakes]
        exact hf.of_cache hdir hreq ⟨_, _, _, hc'⟩ hcopy
      rcases event_cache he with
        ⟨rfl, rfl⟩ | ⟨⟨w, rfl⟩, rfl⟩ | ⟨rfl, rfl⟩ | ⟨rfl, m, hm, rfl⟩ | ⟨k, m, rfl, hm, rfl, rfl⟩
      · apply hcopies rfl
        intro d hd
        obtain ⟨b, hb, h⟩ := hc.copy_processor (.inl ⟨rfl, rfl⟩) hcache hd
        exact ⟨b, hb, h.trans (by split <;> rfl)⟩
      · apply hcopies rfl
        intro d hd
        exact hc.copy_processor (.inr (.inl ⟨rfl, w, rfl⟩)) hcache hd
      · apply hcopies rfl
        intro d hd
        obtain ⟨b, hb, h⟩ := hc.copy_processor (.inr (.inr ⟨rfl, rfl⟩)) hcache hd
        exact ⟨b, hb, h.trans (by split <;> rfl)⟩
      · apply hcopies rfl
        intro d hd
        exact ⟨d, hc.copy_forward hm hcache hd, rfl⟩
      · apply hcopies rfl
        intro d hd
        obtain ⟨b, hb, h⟩ := hc.copy_response hm hcache hd
        refine ⟨b, hb, ?_⟩
        unfold performs
        dsimp only
        rw [hm]
        exact h
    · rcases event_dir he with ⟨k, m, rfl, hm, rfl⟩ | ⟨k, m, rfl, hm, rfl⟩ | ⟨k, m, rfl, hm, rfl⟩
      · exact hf.steady (Steady.request hc hm hdir) ⟨_, _, _, hc'⟩
      · rcases takes_dma hc hm hdir with ⟨htakes, hk⟩ | ⟨htakes, hmap, hcopy, hreqs, hwrites⟩
        · rw [htakes]
          exact hf.steady hk ⟨_, _, _, hc'⟩
        · rw [htakes]
          refine ⟨hmap.trans hf.map, ⟨_, _, _, hc'⟩, fun hu b hb => hf.copies hu b (hcopy b hb), fun q hq => ?_, fun hst => ?_⟩
          · exact hf.blank q (mem_of_mem_eraseIdx (hreqs ▸ hq))
          · obtain ⟨hw, htbe⟩ := hwrites hst
            exact ⟨m, rfl, hw, hf.blank m (mem_of_getElem? hm), htbe⟩
      · exact hf.steady (Steady.memory hc hm hends hdir) ⟨_, _, _, hc'⟩
    · obtain ⟨hperforms, htakes⟩ := of_event_none he
      obtain ⟨hdir, hmem, hreq, hresp, hfwd, hcaches⟩ := dmaStep_frame hdma
      rw [hperforms, htakes]
      refine ⟨(congrArg Directory.useMap hdir).trans hf.map, ⟨_, _, _, hc'⟩, fun hu b hb => hf.copies hu b ?_,
        fun q hq => ?_, ?_⟩
      · cases hb with
        | dir h =>
          unfold DirSide.Copy at h
          rw [hdir, hmem] at h
          exact .dir h
        | message hm => exact .message (hresp ▸ hm)
        | cache h =>
          rename_i c
          apply System.Copy.cache
          unfold view requestsOf at h
          rw [hcaches, hreq, hfwd] at h
          exact h
      · rcases dmaStep_blank hdma hq with hq | hb
        · exact hf.blank q hq
        · exact hb
      · rw [hdir]
        exact hf.request

theorem of_run (hr : Exec (StepOf LineRun.step) (LineRun.init useMap ram) h r) : Follows useMap r := by
  apply hr.invariant
  · exact init
  · intro t i u hf hs
    exact hf.step hs

end Follows

variable {line : DataBlock size}

theorem patch_eq_iff (hb : q.Blank) :
    q.dataBlk = line.patch q.dataBlk (addressOffset size q.physicalAddress) q.len ↔ ∀ i, ¬ q.covers i → line i = 0 := by
  constructor
  · intro h i hi
    have hpatch : line.patch q.dataBlk (addressOffset size q.physicalAddress) q.len i = line i := if_neg hi
    rw [← hpatch, ← h]
    exact hb i hi
  · intro h
    funext i
    by_cases hi : q.covers i
    · exact (if_pos hi).symm
    · have hpatch : line.patch q.dataBlk (addressOffset size q.physicalAddress) q.len i = line i := if_neg hi
      rw [hpatch, h i hi]
      exact hb i hi

theorem clear_eq_patch_iff (hb : q.Blank) :
    clear = line.patch q.dataBlk (addressOffset size q.physicalAddress) q.len ↔
      (∀ i, ¬ q.covers i → line i = 0) ∧ q.dataBlk = clear := by
  constructor
  · intro h
    have hdata : q.dataBlk = clear := by
      funext i
      by_cases hi : q.covers i
      · have hpatch : line.patch q.dataBlk (addressOffset size q.physicalAddress) q.len i = q.dataBlk i := if_pos hi
        rw [← hpatch, ← h]
      · exact hb i hi
    refine ⟨(patch_eq_iff hb).mp ?_, hdata⟩
    exact hdata.trans h
  · rintro ⟨hline, hdata⟩
    exact hdata.symm.trans ((patch_eq_iff hb).mpr hline)

/-- A DMA write ends with its window in the line if it was taken in `I` and the memory is an array, or if the line was
  cleared outside the window; in the sparse form all that it wrote has to be zero too. -/
theorem dma_write_keeps_line (hr : Exec (StepOf LineRun.step) (LineRun.init useMap ram) h r)
    (hends : r.sys.endsDmaWrite i = true) (hs : r.step i = .ok r') :
    ∃ q, r.request = some q ∧ q.write = true ∧ r'.sys.dir.getState = .I ∧
      r'.sys.dmaResponses = r.sys.dmaResponses ++ [⟨q.requestor, none⟩] ∧
      (r'.sys.dir.getDirectoryEntry.dataBlk = r.line.patch q.dataBlk (addressOffset size q.physicalAddress) q.len ↔
        (useMap = false ∧ r.sys.dir.getState = .ID_W) ∨
        ((∀ i, ¬ q.covers i → r.line i = 0) ∧ (useMap = false ∨ q.dataBlk = clear))) := by
  have hf := Follows.of_run hr
  obtain ⟨s', hs', heq⟩ := of_bind hs
  cases heq
  obtain ⟨q, hq, hw, hb, htbe⟩ := hf.request_of_ends hends
  obtain ⟨st, chain, writer, hc⟩ := hf.coherent
  obtain ⟨hI, -, -, hresp, hentry⟩ := ended hc hends htbe hs'
  refine ⟨q, hq, hw, hI, hresp, ?_⟩
  rw [hentry, hf.map]
  cases useMap with
  | true =>
    rw [show ∀ b : DataBlock size, kept true .I b = clear from fun _ => rfl, clear_eq_patch_iff hb]
    simp
  | false =>
    rw [show ∀ b : DataBlock size, kept false .I b = b from fun _ => rfl]
    by_cases hst : r.sys.dir.getState = .ID_W
    · have hline : r.sys.dir.getDirectoryEntry.dataBlk = r.line := by
        apply hf.copies rfl
        apply System.Copy.dir
        exact .entry (by rw [hst]; rfl)
      rw [if_pos hst, hline]
      exact iff_of_true rfl (.inl ⟨rfl, hst⟩)
    · rw [if_neg hst]
      change q.dataBlk = _ ↔ _
      rw [patch_eq_iff hb]
      simp [hst]

/-- The step ends a DMA write, with a request and in a state that have the property. -/
def LineRun.ends (r : LineRun size) (i : Input) (p : DMARequestMsg size → LineRun size → Bool) : Bool :=
  r.sys.endsDmaWrite i &&
    match r.request, r.step i with
    | some q, .ok r' => p q r'
    | _, _ => false

theorem LineRun.of_ends {p : DMARequestMsg size → LineRun size → Bool} (he : r.ends i p = true) :
    r.sys.endsDmaWrite i = true ∧ ∃ q r', r.request = some q ∧ r.step i = .ok r' ∧ p q r' = true := by
  obtain ⟨hends, he⟩ := Bool.and_eq_true_iff.mp he
  refine ⟨hends, ?_⟩
  split at he
  · exact ⟨_, _, ‹_›, ‹_›, he⟩
  · cases he

/-- A write of the second byte of a line in memory. -/
theorem dma_write_keeps_line_memory :
    ∃ (r r' : LineRun 2) (q : DMARequestMsg 2), Exec (StepOf LineRun.step) (LineRun.init false clear)
        [.dmaWrite 0 1 [9], .dmaRequestPort 0] r ∧
      r.sys.endsDmaWrite (.memPort 0) = true ∧ r.step (.memPort 0) = .ok r' ∧ r.request = some q ∧
      (r'.sys.dir.getDirectoryEntry.dataBlk = r.line.patch q.dataBlk (addressOffset 2 q.physicalAddress) q.len ↔
        (false = false ∧ r.sys.dir.getState = .ID_W) ∨
        ((∀ i, ¬ q.covers i → r.line i = 0) ∧ (false = false ∨ q.dataBlk = clear))) := by
  have hrun : endsIn LineRun.step (LineRun.init false clear : LineRun 2)
      [.dmaWrite 0 1 [9], .dmaRequestPort 0] (fun r => r.ends (.memPort 0) fun _ _ => true) = true := by
    decide
  obtain ⟨r, hr, h⟩ := Exec.of_endsIn hrun
  obtain ⟨hends, -, r', -, hs, -⟩ := LineRun.of_ends h
  obtain ⟨q, hq, -, -, -, hiff⟩ := dma_write_keeps_line hr hends hs
  exact ⟨r, r', q, hr, hends, hs, hq, hiff⟩

/-- A processor stores a 7 to the first byte, then a controller writes the second one: the 7 is lost. -/
theorem dma_write_loses_store :
    ∃ (r r' : LineRun 2) (q : DMARequestMsg 2), Exec (StepOf LineRun.step) (LineRun.init false clear)
        [.store 0 ⟨0, [7]⟩, .requestPort 0, .memPort 0, .responsePort 0, .dmaWrite 0 1 [9], .dmaRequestPort 0,
          .forwardPort 0, .requestPort 0] r ∧
      r.sys.endsDmaWrite (.memPort 0) = true ∧ r.step (.memPort 0) = .ok r' ∧ r.request = some q ∧
      r.line 0 = 7 ∧ r'.sys.dir.getDirectoryEntry.dataBlk 0 = 0 ∧
      r'.sys.dir.getDirectoryEntry.dataBlk ≠ r.line.patch q.dataBlk (addressOffset 2 q.physicalAddress) q.len := by
  have hrun : endsIn LineRun.step (LineRun.init false clear : LineRun 2)
      [.store 0 ⟨0, [7]⟩, .requestPort 0, .memPort 0, .responsePort 0, .dmaWrite 0 1 [9], .dmaRequestPort 0,
        .forwardPort 0, .requestPort 0]
      (fun r => r.line 0 = 7 && r.ends (.memPort 0) fun q r' =>
        r'.sys.dir.getDirectoryEntry.dataBlk 0 = 0 &&
          decide (r'.sys.dir.getDirectoryEntry.dataBlk ≠
            r.line.patch q.dataBlk (addressOffset 2 q.physicalAddress) q.len)) = true := by
    decide
  obtain ⟨r, hr, h⟩ := Exec.of_endsIn hrun
  obtain ⟨hline, h⟩ := Bool.and_eq_true_iff.mp h
  obtain ⟨hends, q, r', hq, hs, h⟩ := LineRun.of_ends h
  obtain ⟨hzero, hne⟩ := Bool.and_eq_true_iff.mp h
  exact ⟨r, r', q, hr, hends, hs, hq, of_decide_eq_true hline, of_decide_eq_true hzero, of_decide_eq_true hne⟩

end DmaWrites

end Gem5.Ruby
