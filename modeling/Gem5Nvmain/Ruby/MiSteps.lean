import Gem5Nvmain.Ruby.MiSystem

/- What the transitions of MI_example do, each as one change of the system.

  `Directory.Is` says what the directory holds for the line: its entry, which has the state too, and its TBE. A step
  of a cache changes that cache, its forward queue and the response network, and may send requests (`System.after`). -/
namespace Gem5.Ruby
open Lib Function DirSide Option Except Directory

variable {size : Nat}

theorem valid_eq_ok {α : Type} {x : Option α} {a : α} : valid x = .ok a ↔ x = some a := by
  cases x <;> simp [valid]

/-! The directory. -/

section Directory
variable {d d' : Directory size} {st st' : DirState} {blk : DataBlock size} {o : List Nat} {t : Option (DirTBE size)}

structure Directory.Is (d : Directory size) (st : DirState) (blk : DataBlock size) (o : List Nat)
    (t : Option (DirTBE size)) : Prop where
  entry : d.getDirectoryEntry = ⟨st, blk, o⟩
  tbe : d.tbe = t
  state : ∀ u, t = some u → u.tbeState = st

theorem Directory.Is.getState (h : d.Is st blk o t) : d.getState = st := by
  unfold Directory.getState
  rw [h.tbe, h.entry]
  cases t with
  | none => rfl
  | some u => exact h.state u rfl

/-- The data of an entry after a transition: the sparse memory gives a line in `I` up. -/
def kept (useMap : Bool) (st : DirState) (blk : DataBlock size) : DataBlock size :=
  if st = .I ∧ useMap = true then DataBlock.clear else blk

theorem kept_of_ne (h : st ≠ .I) {b : Bool} : kept b st blk = blk := if_neg fun hI => h hI.1

theorem Directory.getDirectoryEntry_modifyEntry (f : DirEntry size → DirEntry size) :
    (d.modifyEntry f).getDirectoryEntry = f d.getDirectoryEntry := rfl

theorem Directory.invalidateBlock_spec {e : DirEntry size} (he : d.entry = some e) (hI : e = ⟨.I, blk, []⟩) :
    d.invalidateBlock.getDirectoryEntry = ⟨.I, kept d.useMap .I blk, []⟩ := by
  unfold invalidateBlock kept getDirectoryEntry
  cases hu : d.useMap <;> simp [he, hI]

theorem Directory.invalidateBlock_tbe : d.invalidateBlock.tbe = d.tbe := by
  unfold invalidateBlock
  split <;> rfl

theorem Directory.invalidateBlock_useMap : d.invalidateBlock.useMap = d.useMap := by
  unfold invalidateBlock
  split <;> rfl

theorem Directory.setState_spec (he : d.getDirectoryEntry = ⟨st, blk, o⟩) (h : d.setState st' = .ok d') :
    d'.Is st' (kept d.useMap st' blk) o (d.tbe.map fun u => { u with tbeState := st' }) ∧
      d'.useMap = d.useMap ∧ (st' = .I → o = []) := by
  obtain ⟨_, -, h⟩ := of_bind h
  obtain ⟨_, hI, h⟩ := of_bind h
  have howner : st' = .I → o = [] := by
    intro hst
    have hlen := require_eq_ok.mp hI
    rw [hst] at hlen
    have hnil : d.getDirectoryEntry.owner = [] := List.length_eq_zero_iff.mp (of_decide_eq_true hlen)
    rw [he] at hnil
    exact hnil
  have hstate : ∀ u, (d.tbe.map fun u => { u with tbeState := st' }) = some u → u.tbeState = st' := by
    intro u hu
    obtain ⟨v, -, rfl⟩ := map_eq_some_iff.mp hu
    rfl
  cases h
  split
  · rename_i hst
    refine ⟨⟨?_, ?_, hstate⟩, invalidateBlock_useMap, howner⟩
    · have hentry : ({ d.getDirectoryEntry with directoryState := st' } : DirEntry size) = ⟨.I, blk, []⟩ := by
        rw [he, hst, howner hst]
      rw [hst, howner hst]
      rw [hst] at hentry
      exact invalidateBlock_spec rfl hentry
    · exact invalidateBlock_tbe
  · rename_i hst
    refine ⟨⟨?_, rfl, hstate⟩, rfl, howner⟩
    rw [kept_of_ne hst]
    change ({ d.getDirectoryEntry with directoryState := st' } : DirEntry size) = _
    rw [he]

end Directory

section DirSide
variable {s s' : DirSide size} {k : Nat} {ev : DirEvent} {blk : DataBlock size} {o : List Nat} {t : DirTBE size}
  {m : RequestMsg size} {q : DMARequestMsg size} {w : MemoryMsg size}

theorem DirSide.go_spec {l : List DirAction} {st next : DirState} (hst : s.dir.getState = st)
    (h : s.dirStep k ev = .ok s') (ht : dirTransition st ev = some (.go l next)) :
    ∃ u d, perform (DirAction.act k) l s = .ok u ∧ u.dir.setState next = .ok d ∧ s' = u.setDir d := by
  unfold dirStep at h
  rw [hst, ht] at h
  obtain ⟨u, hu, h⟩ := of_bind h
  obtain ⟨d, hd, h⟩ := of_bind h
  cases h
  exact ⟨u, d, hu, hd, rfl⟩

theorem DirSide.declared_of_ok {st : DirState} (hst : s.dir.getState = st) (h : s.dirStep k ev = .ok s') :
    dirTransition st ev ≠ none := by
  intro ht
  unfold dirStep at h
  rw [hst, ht] at h
  cases h

/-- A request for a busy line waits. -/
theorem DirSide.recycle {st : DirState} {t : Option (DirTBE size)} (hd : s.dir.Is st blk o t)
    (ht : dirTransition st ev = some (.go [.recycleRequestQueue] st) ∨
      dirTransition st ev = some (.go [.recycleDMARequestQueue] st))
    (h : s.dirStep k ev = .ok s') (hI : st ≠ .I) :
    ∃ d : Directory size, d.Is st blk o t ∧ d.useMap = s.dir.useMap ∧ s' = { s with dir := d } := by
  obtain ⟨l, ht, hl⟩ : ∃ l, dirTransition st ev = some (.go l st) ∧ perform (DirAction.act k) l s = .ok s := by
    rcases ht with ht | ht
    · exact ⟨_, ht, rfl⟩
    · exact ⟨_, ht, rfl⟩
  obtain ⟨u, d, hu, hd', rfl⟩ := go_spec hd.getState h ht
  obtain rfl : s = u := ok.inj (hl.symm.trans hu)
  obtain ⟨his, hmap, -⟩ := setState_spec hd.entry hd'
  rw [kept_of_ne hI, hd.tbe] at his
  have hsame : (t.map fun u => { u with tbeState := st }) = t := by
    cases t with
    | none => rfl
    | some u =>
      have hu := hd.state u rfl
      simp [← hu]
  rw [hsame] at his
  exact ⟨d, his, hmap, rfl⟩

/-! Each lemma names the state and the event of its transition. -/

theorem DirSide.I_getx (hd : s.dir.Is .I blk o none) (hm : s.requests[k]? = some m) (h : s.dirStep k .getx = .ok s') :
    ∃ d : Directory size, d.Is .IM blk [m.requestor] none ∧ d.useMap = s.dir.useMap ∧
      s' = { s with
        dir := d
        memQueue := s.memQueue ++ [⟨false, some m.requestor, blk⟩]
        requests := s.requests.eraseIdx k } := by
  obtain ⟨u, d, hu, hd', rfl⟩ := go_spec hd.getState h rfl
  simp only [perform, DirAction.act, index_eq_ok.mpr hm, bind_ok, pure_eq_ok, ok.injEq] at hu
  subst hu
  obtain ⟨his, hmap, -⟩ := setState_spec (by rw [setDir, getDirectoryEntry_modifyEntry, hd.entry]) hd'
  refine ⟨d, ?_, hmap, ?_⟩
  · simpa [kept, setDir, modifyEntry, hd.tbe] using his
  · simp [setDir, hd.entry]

theorem DirSide.nack {st : DirState} (hst : st = .I ∨ st = .M) (hd : s.dir.Is st blk o none)
    (hm : s.requests[k]? = some m) (h : s.dirStep k .putxNotOwner = .ok s') :
    ∃ d : Directory size, d.Is st (kept s.dir.useMap st blk) o none ∧ d.useMap = s.dir.useMap ∧
      s' = { s.forwardTo [m.requestor] .wbNack with
        dir := d
        requests := s.requests.eraseIdx k } := by
  have ht : dirTransition st .putxNotOwner = some (.go [.sendWriteBackNack, .popIncomingRequestQueue] st) := by
    rcases hst with rfl | rfl <;> rfl
  obtain ⟨u, d, hu, hd', rfl⟩ := go_spec hd.getState h ht
  simp only [perform, DirAction.act, index_eq_ok.mpr hm, bind_ok, pure_eq_ok, ok.injEq] at hu
  subst hu
  obtain ⟨his, hmap, -⟩ := setState_spec hd.entry hd'
  refine ⟨d, ?_, hmap, rfl⟩
  simpa [hd.tbe] using his

theorem DirSide.I_dmaRead (hd : s.dir.Is .I blk o none) (hq : s.dmaRequests[k]? = some q)
    (h : s.dirStep k .dmaRead = .ok s') :
    ∃ d : Directory size, d.Is .ID blk o (some ⟨0, .ID, DataBlock.clear, 0, q.requestor⟩) ∧ d.useMap = s.dir.useMap ∧
      s' = { s with
        dir := d
        memQueue := s.memQueue ++ [⟨false, none, blk⟩]
        dmaRequests := s.dmaRequests.eraseIdx k } := by
  obtain ⟨u, d, hu, hd', rfl⟩ := go_spec hd.getState h rfl
  have hentry : ∀ x, getDirectoryEntry { s.dir with tbe := x } = ⟨.I, blk, o⟩ := fun _ => hd.entry
  simp only [perform, DirAction.act, allocateTBE, index_eq_ok.mpr hq, hd.tbe, isNone_none, require,
    if_true, bind_ok, pure_eq_ok, ok.injEq] at hu
  subst hu
  obtain ⟨his, hmap, -⟩ := setState_spec (hentry _) hd'
  refine ⟨d, ?_, hmap, ?_⟩
  · simpa [kept] using his
  · have hblk : blk = s.dir.getDirectoryEntry.dataBlk := by rw [hd.entry]
    rw [hblk]
    rfl

theorem DirSide.I_dmaWrite (hd : s.dir.Is .I blk o none) (hq : s.dmaRequests[k]? = some q)
    (h : s.dirStep k .dmaWrite = .ok s') : ∃ (d : Directory size) (b : DataBlock size),
      d.Is .ID_W blk o (some ⟨q.physicalAddress, .ID_W, q.dataBlk, q.len, q.requestor⟩) ∧ d.useMap = s.dir.useMap ∧
      s' = { s with
        dir := d
        memQueue := s.memQueue ++ [⟨true, none, b⟩]
        dmaRequests := s.dmaRequests.eraseIdx k } := by
  obtain ⟨u, d, hu, hd', rfl⟩ := go_spec hd.getState h rfl
  have hentry : ∀ x, getDirectoryEntry { s.dir with tbe := x } = ⟨.I, blk, o⟩ := fun _ => hd.entry
  simp only [perform, DirAction.act, allocateTBE, setDir, index_eq_ok.mpr hq, hd.tbe,
    isNone_none, require, if_true, bind_ok, pure_eq_ok] at hu
  obtain ⟨u', hu', hu⟩ := of_bind hu
  obtain ⟨b, -, hb⟩ := of_bind hu'
  cases hb
  cases hu
  obtain ⟨his, hmap, -⟩ := setState_spec (hentry _) hd'
  exact ⟨d, b, by simpa [kept] using his, hmap, rfl⟩

theorem DirSide.IM_memoryData {r : Nat} (hd : s.dir.Is .IM blk o none) (hw : s.memQueue[k]? = some w)
    (hr : w.originalRequestor = some r) (h : s.dirStep k .memoryData = .ok s') :
    ∃ d : Directory size, d.Is .M blk o none ∧ d.useMap = s.dir.useMap ∧
      s' = { s with
        dir := d
        responses := s.responses ++ [⟨r, w.dataBlk⟩]
        memQueue := s.memQueue.eraseIdx k } := by
  obtain ⟨u, d, hu, hd', rfl⟩ := go_spec hd.getState h rfl
  simp only [perform, DirAction.act, index_eq_ok.mpr hw, hr, valid_some, bind_ok, pure_eq_ok, ok.injEq] at hu
  subst hu
  obtain ⟨his, hmap, -⟩ := setState_spec hd.entry hd'
  exact ⟨d, by simpa [kept, hd.tbe] using his, hmap, rfl⟩

theorem DirSide.ID_memoryData (hd : s.dir.Is .ID blk o (some t)) (hw : s.memQueue[k]? = some w)
    (h : s.dirStep k .memoryData = .ok s') :
    ∃ (d : Directory size) (rs : List (DMAResponseMsg size)), d.Is .I (kept s.dir.useMap .I blk) o none ∧
      d.useMap = s.dir.useMap ∧ s' = { s with dir := d, memQueue := s.memQueue.eraseIdx k, dmaResponses := rs } := by
  obtain ⟨u, d, hu, hd', rfl⟩ := go_spec hd.getState h rfl
  simp only [perform, DirAction.act, index_eq_ok.mpr hw, hd.tbe, valid_some, isSome_some, require, if_true,
    bind_ok, pure_eq_ok, ok.injEq] at hu
  subst hu
  have hentry : ∀ x, getDirectoryEntry { s.dir with tbe := x } = ⟨.ID, blk, o⟩ := fun _ => hd.entry
  obtain ⟨his, hmap, -⟩ := setState_spec (hentry _) hd'
  exact ⟨d, _, his, hmap, rfl⟩

/-- The end of a DMA write of a line in memory. -/
theorem DirSide.ID_W_memoryAck (hd : s.dir.Is .ID_W blk o (some t)) (h : s.dirStep k .memoryAck = .ok s') :
    ∃ (d : Directory size) (rs : List (DMAResponseMsg size)),
      d.Is .I (kept s.dir.useMap .I (blk.patch t.dataBlk (addressOffset size t.physicalAddress) t.len)) o none ∧
      d.useMap = s.dir.useMap ∧ s' = { s with dir := d, memQueue := s.memQueue.eraseIdx k, dmaResponses := rs } := by
  obtain ⟨u, d, hu, hd', rfl⟩ := go_spec hd.getState h rfl
  simp only [perform, DirAction.act, hd.tbe, hd.entry, valid_some, bind_ok] at hu
  obtain ⟨u₁, hu₁, hu⟩ := of_bind hu
  obtain ⟨b, hb, hu₁⟩ := of_bind hu₁
  obtain ⟨_, -, hb⟩ := of_bind hb
  cases hb
  cases hu₁
  have htbe : (s.dir.modifyEntry fun e => { e with
      dataBlk := blk.patch t.dataBlk (addressOffset size t.physicalAddress) t.len }).tbe = some t := hd.tbe
  simp only [setDir, htbe, valid_some, isSome_some, require, if_true, bind_ok, pure_eq_ok,
    ok.injEq] at hu
  subst hu
  have hentry : ∀ x, getDirectoryEntry { s.dir.modifyEntry (fun e => { e with
      dataBlk := blk.patch t.dataBlk (addressOffset size t.physicalAddress) t.len }) with tbe := x } =
      ⟨.ID_W, blk.patch t.dataBlk (addressOffset size t.physicalAddress) t.len, o⟩ := by
    intro x
    change ({ s.dir.getDirectoryEntry with dataBlk := _ } : DirEntry size) = _
    rw [hd.entry]
  obtain ⟨his, hmap, -⟩ := setState_spec (hentry _) hd'
  exact ⟨d, _, his, hmap, rfl⟩

theorem DirSide.M_getx (hd : s.dir.Is .M blk o none) (hm : s.requests[k]? = some m) (h : s.dirStep k .getx = .ok s') :
    ∃ d : Directory size, d.Is .M blk [m.requestor] none ∧ d.useMap = s.dir.useMap ∧
      s' = { s.forwardTo o (.getx m.requestor) with
        dir := d
        requests := s.requests.eraseIdx k } := by
  obtain ⟨u, d, hu, hd', rfl⟩ := go_spec hd.getState h rfl
  have howner : s.owner = o := congrArg DirEntry.owner hd.entry
  simp only [perform, DirAction.act, forwardTo, setDir, howner, index_eq_ok.mpr hm, bind_ok,
    pure_eq_ok, ok.injEq] at hu
  subst hu
  obtain ⟨his, hmap, -⟩ := setState_spec (by rw [getDirectoryEntry_modifyEntry, hd.entry]) hd'
  exact ⟨d, by simpa [kept, modifyEntry, hd.tbe] using his, hmap, rfl⟩

theorem DirSide.M_putx (hd : s.dir.Is .M blk o none) (hm : s.requests[k]? = some m) (h : s.dirStep k .putx = .ok s') :
    ∃ d : Directory size, d.Is .MI blk [] (some ⟨0, .MI, m.dataBlk, 0, 0⟩) ∧ d.useMap = s.dir.useMap ∧
      s' = { s with
        dir := d
        memQueue := s.memQueue ++ [⟨true, some m.requestor, m.dataBlk⟩]
        requests := s.requests.eraseIdx k } := by
  obtain ⟨u, d, hu, hd', rfl⟩ := go_spec hd.getState h rfl
  have htbe : ∀ f, (s.dir.modifyEntry f).tbe = none := fun _ => hd.tbe
  simp only [perform, DirAction.act, allocateTBE, setDir, htbe, index_eq_ok.mpr hm,
    isNone_none, require, if_true, bind_ok, pure_eq_ok, ok.injEq] at hu
  subst hu
  have hentry : ∀ x, getDirectoryEntry { s.dir.modifyEntry (fun e => { e with owner := [] }) with tbe := x } =
      ⟨.M, blk, []⟩ := by
    intro x
    change ({ s.dir.getDirectoryEntry with owner := [] } : DirEntry size) = _
    rw [hd.entry]
  obtain ⟨his, hmap, -⟩ := setState_spec (hentry _) hd'
  exact ⟨d, by simpa [kept] using his, hmap, rfl⟩

/-- The state in which the directory waits for the owner's copy on behalf of a DMA request. -/
def blockedFor (write : Bool) : DirState := if write then .M_DWR else .M_DRD

theorem DirSide.M_dma (hd : s.dir.Is .M blk o none) (hq : s.dmaRequests[k]? = some q) (h : s.dirStep k q.event = .ok s') :
    ∃ d : Directory size,
      d.Is (blockedFor q.write) blk o
        (some ⟨q.physicalAddress, blockedFor q.write, q.dataBlk, q.len, q.requestor⟩) ∧
      d.useMap = s.dir.useMap ∧
      s' = { s.forwardTo o .inv with
        dir := d
        dmaRequests := s.dmaRequests.eraseIdx k } := by
  have ht : dirTransition .M q.event =
      some (.go [.allocateTBE, .sendCacheInvalidate, .popIncomingDMARequestQueue] (blockedFor q.write)) := by
    unfold DMARequestMsg.event blockedFor
    cases q.write <;> rfl
  obtain ⟨u, d, hu, hd', rfl⟩ := go_spec hd.getState h ht
  have howner : ∀ x, owner { s with dir := { s.dir with tbe := x } } = o := fun _ => congrArg DirEntry.owner hd.entry
  simp only [perform, DirAction.act, allocateTBE, setDir, howner,
    index_eq_ok.mpr hq, hd.tbe, isNone_none, require, if_true, bind_ok, pure_eq_ok, ok.injEq] at hu
  subst hu
  have hentry : ∀ x, getDirectoryEntry { s.dir with tbe := x } = ⟨.M, blk, o⟩ := fun _ => hd.entry
  obtain ⟨his, hmap, -⟩ := setState_spec (hentry _) hd'
  have hne : blockedFor q.write ≠ .I := by
    unfold blockedFor
    split <;> decide
  rw [kept_of_ne hne] at his
  exact ⟨d, his, hmap, rfl⟩

theorem DirSide.M_DRD_putx (hd : s.dir.Is .M_DRD blk o (some t)) (hm : s.requests[k]? = some m)
    (h : s.dirStep k .putx = .ok s') : ∃ (d : Directory size) (rs : List (DMAResponseMsg size)),
      d.Is .M_DRDI m.dataBlk [] (some { t with tbeState := .M_DRDI }) ∧ d.useMap = s.dir.useMap ∧
      s' = { s with
        dir := d
        memQueue := s.memQueue ++ [⟨true, some m.requestor, m.dataBlk⟩]
        requests := s.requests.eraseIdx k
        dmaResponses := rs } := by
  obtain ⟨u, d, hu, hd', rfl⟩ := go_spec hd.getState h rfl
  have htbe : ∀ f, (s.dir.modifyEntry f).tbe = some t := fun _ => hd.tbe
  simp only [perform, DirAction.act, setDir, htbe, index_eq_ok.mpr hm, valid_some, bind_ok, pure_eq_ok,
    ok.injEq] at hu
  subst hu
  obtain ⟨his, hmap, -⟩ := setState_spec (by rw [getDirectoryEntry_modifyEntry,
    getDirectoryEntry_modifyEntry, hd.entry]) hd'
  exact ⟨d, _, by simpa [kept, modifyEntry, hd.tbe] using his, hmap, rfl⟩

theorem DirSide.M_DWR_putx (hd : s.dir.Is .M_DWR blk o (some t)) (hm : s.requests[k]? = some m)
    (h : s.dirStep k .putx = .ok s') : ∃ (d : Directory size) (b : DataBlock size),
      d.Is .M_DWRI m.dataBlk [] (some { t with tbeState := .M_DWRI }) ∧ d.useMap = s.dir.useMap ∧
      s' = { s with
        dir := d
        memQueue := s.memQueue ++ [⟨true, some m.requestor, b⟩]
        requests := s.requests.eraseIdx k } := by
  obtain ⟨u, d, hu, hd', rfl⟩ := go_spec hd.getState h rfl
  have htbe : ∀ f, (s.dir.modifyEntry f).tbe = some t := fun _ => hd.tbe
  simp only [perform, DirAction.act, setDir, htbe, index_eq_ok.mpr hm, valid_some, bind_ok, pure_eq_ok] at hu
  obtain ⟨u', hu', hu⟩ := of_bind hu
  obtain ⟨b, -, hb⟩ := of_bind hu'
  cases hb
  cases hu
  obtain ⟨his, hmap, -⟩ := setState_spec (by rw [getDirectoryEntry_modifyEntry,
    getDirectoryEntry_modifyEntry, hd.entry]) hd'
  exact ⟨d, b, by simpa [kept, modifyEntry, hd.tbe] using his, hmap, rfl⟩

/-- The data that a write-back leaves in the entry: only after a DMA read it is the data of the `PUTX`. -/
def writtenBack (st : DirState) (blk tbeBlk : DataBlock size) : DataBlock size := if st = .M_DRDI then blk else tbeBlk

theorem DirSide.writeback_memoryAck {st : DirState} {r : Nat} (hst : st = .MI ∨ st = .M_DRDI ∨ st = .M_DWRI)
    (hd : s.dir.Is st blk o (some t)) (hw : s.memQueue[k]? = some w) (hr : w.originalRequestor = some r)
    (h : s.dirStep k .memoryAck = .ok s') : ∃ (d : Directory size) (rs : List (DMAResponseMsg size)),
      d.Is .I (kept s.dir.useMap .I (writtenBack st blk t.dataBlk)) o none ∧ d.useMap = s.dir.useMap ∧
      s' = { s.forwardTo [r] .wbAck with dir := d, memQueue := s.memQueue.eraseIdx k, dmaResponses := rs } := by
  have htbe : ∀ f, (s.dir.modifyEntry f).tbe = some t := fun _ => hd.tbe
  have hentry : ∀ x, getDirectoryEntry { s.dir with tbe := x } = ⟨st, blk, o⟩ := fun _ => hd.entry
  have hmod : ∀ x, getDirectoryEntry { s.dir.modifyEntry (fun e => { e with dataBlk := t.dataBlk }) with
      tbe := x } = ⟨st, t.dataBlk, o⟩ := by
    intro x
    change ({ s.dir.getDirectoryEntry with dataBlk := t.dataBlk } : DirEntry size) = _
    rw [hd.entry]
  rcases hst with rfl | rfl | rfl
  · obtain ⟨u, d, hu, hd', rfl⟩ := go_spec hd.getState h rfl
    simp only [perform, DirAction.act, setDir, forwardTo, hd.tbe, htbe, index_eq_ok.mpr hw, hr,
      valid_some, isSome_some, require, if_true, bind_ok, pure_eq_ok, ok.injEq] at hu
    subst hu
    obtain ⟨his, hmap, -⟩ := setState_spec (hmod _) hd'
    exact ⟨d, _, his, hmap, rfl⟩
  · obtain ⟨u, d, hu, hd', rfl⟩ := go_spec hd.getState h rfl
    simp only [perform, DirAction.act, setDir, forwardTo, hd.tbe, index_eq_ok.mpr hw, hr,
      valid_some, isSome_some, require, if_true, bind_ok, pure_eq_ok, ok.injEq] at hu
    subst hu
    obtain ⟨his, hmap, -⟩ := setState_spec (hentry _) hd'
    exact ⟨d, _, his, hmap, rfl⟩
  · obtain ⟨u, d, hu, hd', rfl⟩ := go_spec hd.getState h rfl
    simp only [perform, DirAction.act, setDir, forwardTo, hd.tbe, htbe, index_eq_ok.mpr hw, hr,
      valid_some, isSome_some, require, if_true, bind_ok, pure_eq_ok, ok.injEq] at hu
    subst hu
    obtain ⟨his, hmap, -⟩ := setState_spec (hmod _) hd'
    exact ⟨d, _, his, hmap, rfl⟩

end DirSide

/-! The caches. -/

/-- The system after a step of cache `c`: what it became, the requests it sent, its forward queue and the response
  network. -/
def System.after (s : System size) (c : Nat) (x : Cache size) (q : List (RequestMsg size)) (fs : List ForwardMsg)
    (rs : List (ResponseMsg size)) : System size :=
  { s with
    caches := update s.caches c x
    requests := s.requests ++ q
    forwards := update s.forwards c fs
    responses := rs }

section Caches
variable {s s' : System size} {c k b : Nat} {d blk : DataBlock size} {e : Option (CacheEntry size)} {t : Option (CacheTBE size)}
  {st : CacheState} {u w : Option Write} {ev : CacheEvent} {fs : List ForwardMsg} {m : ResponseMsg size}

namespace System

theorem begin_eq (hx : s.caches c = ⟨e, t, w⟩) : s.begin c u = s.setCache c ⟨e, t, u.or w⟩ := by
  cases u with
  | none =>
    unfold begin setCache
    rw [none_or, ← hx, update_eq_self]
  | some u =>
    unfold begin setCache
    rw [hx, some_or]

theorem go_spec {l : List CacheAction} {next : CacheState} (hx : s.caches c = ⟨e, t, w⟩) (hst : (s.caches c).getState = st)
    (h : s.cacheStep c k u ev = .ok s') (ht : cacheTransition st ev = some (.go l next)) :
    ∃ v, perform (CacheAction.act c k) l (s.setCache c ⟨e, t, u.or w⟩) = .ok v ∧
      s' = v.setCache c ((v.caches c).setState next) := by
  unfold cacheStep at h
  rw [hst, ht, begin_eq hx] at h
  obtain ⟨v, hv, h⟩ := of_bind h
  cases h
  exact ⟨v, hv, rfl⟩

theorem stall_spec (hst : (s.caches c).getState = st) (h : s.cacheStep c k u ev = .ok s')
    (ht : cacheTransition st ev = some .stall) : s' = s := by
  unfold cacheStep at h
  rw [hst, ht] at h
  cases h
  rfl

/-- A cache without the line asks for it. -/
theorem cacheStep_ask (hx : s.caches c = ⟨e, none, w⟩) (he : ∀ y, e = some y → y.cacheState = .I)
    (hev : (ev = .load ∧ st = .IS) ∨ (ev = .store ∧ st = .IM)) (h : s.cacheStep c k u ev = .ok s') :
    s' = s.after c ⟨some ⟨st, (e.getD ⟨.I, DataBlock.clear⟩).dataBlk⟩, some ⟨st, DataBlock.clear⟩, u.or w⟩ [.getx c]
      (s.forwards c) s.responses := by
  have hI : (s.caches c).getState = .I := by
    rw [hx]
    cases e with
    | none => rfl
    | some y => exact he y rfl
  have ht : cacheTransition .I ev = some (.go [.allocateTBE, .allocateL1CacheBlock, .issueRequest] st) := by
    rcases hev with ⟨rfl, rfl⟩ | ⟨rfl, rfl⟩ <;> rfl
  obtain ⟨v, hv, rfl⟩ := go_spec hx hI h ht
  simp [perform, CacheAction.act, setCache, require] at hv
  simp [← hv, setCache, Cache.setState, after]

theorem cacheStep_dropInvalid (hx : s.caches c = ⟨e, none, w⟩) (he : ∀ y, e = some y → y.cacheState = .I)
    (h : s.cacheStep c k none .replacement = .ok s') :
    s' = s.after c ⟨none, none, w⟩ [] (s.forwards c) s.responses := by
  have hI : (s.caches c).getState = .I := by
    rw [hx]
    cases e with
    | none => rfl
    | some y => exact he y rfl
  obtain ⟨v, hv, rfl⟩ := go_spec hx hI h rfl
  simp [perform, CacheAction.act] at hv
  simp [← hv, setCache, Cache.setState, after]

theorem cacheStep_loadHit (hx : s.caches c = ⟨some ⟨.M, d⟩, none, w⟩) (h : s.cacheStep c k none .load = .ok s') :
    s' = s := by
  obtain ⟨v, hv, rfl⟩ := go_spec hx (congrArg Cache.getState hx) h rfl
  simp [perform, CacheAction.act, setCache, require] at hv
  have hself : update s.caches c ⟨some ⟨.M, d⟩, none, w⟩ = s.caches := by rw [← hx, update_eq_self]
  simp [← hv, setCache, Cache.setState]
  rw [hself]

theorem cacheStep_storeHit {y : Write} (hx : s.caches c = ⟨some ⟨.M, d⟩, none, w⟩)
    (h : s.cacheStep c k (some y) .store = .ok s') : ∃ blk, d.setData y.data y.offset = .ok blk ∧
      s' = s.after c ⟨some ⟨.M, blk⟩, none, none⟩ [] (s.forwards c) s.responses := by
  obtain ⟨v, hv, rfl⟩ := go_spec hx (congrArg Cache.getState hx) h rfl
  simp only [perform, CacheAction.act, setCache, update_self, some_or, valid_some, bind_ok] at hv
  obtain ⟨v', hv', hv⟩ := of_bind hv
  obtain ⟨blk, hblk, hv'⟩ := of_bind hv'
  cases hv'
  cases hv
  exact ⟨blk, hblk, by simp [setCache, Cache.setState, after]⟩

theorem cacheStep_loadData (hx : s.caches c = ⟨some ⟨.IS, d⟩, some ⟨.IS, blk⟩, w⟩) (hm : s.responses[k]? = some m)
    (h : s.cacheStep c k none .data = .ok s') :
    s' = s.after c ⟨some ⟨.M, m.dataBlk⟩, none, w⟩ [] (s.forwards c) (s.responses.eraseIdx k) := by
  obtain ⟨v, hv, rfl⟩ := go_spec hx (congrArg Cache.getState hx) h rfl
  simp [perform, CacheAction.act, setCache, popResponse, require, index_eq_ok.mpr hm] at hv
  simp [← hv, setCache, Cache.setState, after]

theorem cacheStep_storeData (hx : s.caches c = ⟨some ⟨.IM, d⟩, some ⟨.IM, blk⟩, w⟩) (hm : s.responses[k]? = some m)
    (h : s.cacheStep c k none .data = .ok s') : ∃ y blk, w = some y ∧ m.dataBlk.setData y.data y.offset = .ok blk ∧
      s' = s.after c ⟨some ⟨.M, blk⟩, none, none⟩ [] (s.forwards c) (s.responses.eraseIdx k) := by
  obtain ⟨v, hv, rfl⟩ := go_spec hx (congrArg Cache.getState hx) h rfl
  simp only [perform, CacheAction.act, setCache, update_self, index_eq_ok.mpr hm, valid_some,
    bind_ok, pure_eq_ok] at hv
  obtain ⟨v', hv', hv⟩ := of_bind hv
  obtain ⟨y, hy, hv'⟩ := of_bind hv'
  obtain ⟨blk, hblk, hv'⟩ := of_bind hv'
  cases hv'
  simp [popResponse, require] at hv
  exact ⟨y, blk, valid_eq_ok.mp hy, hblk, by simp [← hv, setCache, Cache.setState, after]⟩

theorem cacheStep_handOver (hx : s.caches c = ⟨some ⟨.M, d⟩, none, w⟩) (hf : s.forwards c = .getx b :: fs)
    (h : s.cacheStep c k none .fwdGetx = .ok s') :
    s' = s.after c ⟨some ⟨.I, d⟩, none, w⟩ [] fs (s.responses ++ [⟨b, d⟩]) := by
  obtain ⟨v, hv, rfl⟩ := go_spec hx (congrArg Cache.getState hx) h rfl
  simp [perform, CacheAction.act, setCache, forwardRequestor, popForward, hf] at hv
  simp [← hv, setCache, Cache.setState, after]

theorem cacheStep_handOverTBE (hx : s.caches c = ⟨none, some ⟨.MI, d⟩, w⟩) (hf : s.forwards c = .getx b :: fs)
    (h : s.cacheStep c k none .fwdGetx = .ok s') :
    s' = s.after c ⟨none, some ⟨.II, d⟩, w⟩ [] fs (s.responses ++ [⟨b, d⟩]) := by
  obtain ⟨v, hv, rfl⟩ := go_spec hx (congrArg Cache.getState hx) h rfl
  simp [perform, CacheAction.act, setCache, forwardRequestor, popForward, hf] at hv
  simp [← hv, setCache, Cache.setState, after]

theorem cacheStep_leave (hx : s.caches c = ⟨some ⟨.M, d⟩, none, w⟩) (hev : ev = .replacement ∨ ev = .inv)
    (h : s.cacheStep c k none ev = .ok s') :
    s' = s.after c ⟨none, some ⟨.MI, d⟩, w⟩ [.putx c d] (s.forwards c) s.responses := by
  have ht : cacheTransition .M ev =
      some (.go [.allocateTBE, .issuePUT, .copyDataFromCacheToTBE, .deallocateL1CacheBlock] .MI) := by
    rcases hev with rfl | rfl <;> rfl
  obtain ⟨v, hv, rfl⟩ := go_spec hx (congrArg Cache.getState hx) h ht
  simp [perform, CacheAction.act, setCache, require] at hv
  simp [← hv, setCache, Cache.setState, after]

theorem cacheStep_skipInv (hx : s.caches c = ⟨none, some ⟨.MI, d⟩, w⟩) (h : s.cacheStep c k none .inv = .ok s') :
    s' = s.after c ⟨none, some ⟨.MI, d⟩, w⟩ [] (s.forwards c).tail s.responses := by
  obtain ⟨v, hv, rfl⟩ := go_spec hx (congrArg Cache.getState hx) h rfl
  simp [perform, CacheAction.act, popForward] at hv
  simp [← hv, setCache, Cache.setState, after]

theorem cacheStep_left (hx : s.caches c = ⟨none, some ⟨st, d⟩, w⟩)
    (hev : (st = .MI ∧ ev = .writebackAck) ∨ (st = .II ∧ ev = .writebackNack)) (h : s.cacheStep c k none ev = .ok s') :
    s' = s.after c ⟨none, none, w⟩ [] (s.forwards c).tail s.responses := by
  have ht : cacheTransition st ev = some (.go [.deallocateTBE, .popForwardedRequestQueue] .I) := by
    rcases hev with ⟨rfl, rfl⟩ | ⟨rfl, rfl⟩ <;> rfl
  obtain ⟨v, hv, rfl⟩ := go_spec hx (congrArg Cache.getState hx) h ht
  simp [perform, CacheAction.act, setCache, popForward, require] at hv
  simp [← hv, setCache, Cache.setState, after]

end System

end Caches

/-! Inputs. -/

section Inputs
variable {s s' : System size} {i : Input} {c : Nat}

namespace System

theorem step_cases (h : s.step i = .ok s') :
    (∃ c ev, s.event i = some (.cache c ev) ∧ s.cacheStep c i.place i.write ev = .ok s') ∨
    (∃ ev d, s.event i = some (.dir ev) ∧ s.toDirSide.dirStep i.place ev = .ok d ∧ s' = { s with toDirSide := d }) ∨
    (s.event i = none ∧ s.dmaStep i = .ok s') := by
  unfold step at h
  cases he : s.event i with
  | none =>
    rw [he] at h
    exact .inr (.inr ⟨rfl, h⟩)
  | some e =>
    rw [he] at h
    cases e with
    | cache c ev => exact .inl ⟨c, ev, rfl, h⟩
    | dir ev =>
      obtain ⟨d, hd, h⟩ := of_bind h
      cases h
      exact .inr (.inl ⟨ev, d, rfl, hd, rfl⟩)

theorem event_cache {ev : CacheEvent} (h : s.event i = some (.cache c ev)) :
    i = .load c ∧ ev = .load ∨ (∃ w, i = .store c w) ∧ ev = .store ∨ i = .replacement c ∧ ev = .replacement ∨
    (i = .forwardPort c ∧ ∃ m, (s.forwards c).head? = some m ∧ ev = m.event) ∨
    (∃ k m, i = .responsePort k ∧ s.responses[k]? = some m ∧ c = m.destination ∧ ev = .data) := by
  cases i with
  | load _ =>
    cases h
    exact .inl ⟨rfl, rfl⟩
  | store _ w =>
    cases h
    exact .inr (.inl ⟨⟨w, rfl⟩, rfl⟩)
  | replacement _ =>
    cases h
    exact .inr (.inr (.inl ⟨rfl, rfl⟩))
  | forwardPort _ =>
    obtain ⟨m, hm, he⟩ := map_eq_some_iff.mp h
    cases he
    exact .inr (.inr (.inr (.inl ⟨rfl, m, hm, rfl⟩)))
  | responsePort k =>
    obtain ⟨m, hm, he⟩ := map_eq_some_iff.mp h
    cases he
    exact .inr (.inr (.inr (.inr ⟨k, m, rfl, hm, rfl, rfl⟩)))
  | requestPort _ | dmaRequestPort _ | memPort _ =>
    obtain ⟨_, -, he⟩ := map_eq_some_iff.mp h
    cases he
  | dmaRead _ _ _ | dmaWrite _ _ _ | dmaResponsePort _ => cases h

theorem event_dir {ev : DirEvent} (h : s.event i = some (.dir ev)) :
    (∃ k m, i = .requestPort k ∧ s.requests[k]? = some m ∧ ev = s.requestEvent m) ∨
    (∃ k m, i = .dmaRequestPort k ∧ s.dmaRequests[k]? = some m ∧ ev = m.event) ∨
    (∃ k m, i = .memPort k ∧ s.memQueue[k]? = some m ∧ ev = m.event) := by
  cases i with
  | requestPort k =>
    obtain ⟨m, hm, he⟩ := map_eq_some_iff.mp h
    cases he
    exact .inl ⟨k, m, rfl, hm, rfl⟩
  | dmaRequestPort k =>
    obtain ⟨m, hm, he⟩ := map_eq_some_iff.mp h
    cases he
    exact .inr (.inl ⟨k, m, rfl, hm, rfl⟩)
  | memPort k =>
    obtain ⟨m, hm, he⟩ := map_eq_some_iff.mp h
    cases he
    exact .inr (.inr ⟨k, m, rfl, hm, rfl⟩)
  | forwardPort _ | responsePort _ =>
    obtain ⟨_, -, he⟩ := map_eq_some_iff.mp h
    cases he
  | load _ | store _ _ | replacement _ | dmaRead _ _ _ | dmaWrite _ _ _ | dmaResponsePort _ => cases h

/-- A DMA controller only touches its own networks, and sends while the port of the directory stands. -/
theorem dmaStep_frame (h : s.dmaStep i = .ok s') :
    s'.dir = s.dir ∧ s'.memQueue = s.memQueue ∧ s'.requests = s.requests ∧ s'.responses = s.responses ∧
      s'.forwards = s.forwards ∧ s'.caches = s.caches := by
  cases i with
  | dmaRead d addr len =>
    unfold dmaStep at h
    dsimp only at h
    split at h <;> cases h <;> exact ⟨rfl, rfl, rfl, rfl, rfl, rfl⟩
  | dmaWrite d addr data =>
    unfold dmaStep at h
    dsimp only at h
    split at h
    · obtain ⟨blk, -, h⟩ := of_bind h
      cases h
      exact ⟨rfl, rfl, rfl, rfl, rfl, rfl⟩
    · cases h
      exact ⟨rfl, rfl, rfl, rfl, rfl, rfl⟩
  | dmaResponsePort k =>
    unfold dmaStep at h
    dsimp only at h
    cases hm : s.dmaResponses[k]? with
    | none =>
      rw [hm] at h
      cases h
      exact ⟨rfl, rfl, rfl, rfl, rfl, rfl⟩
    | some m =>
      rw [hm] at h
      dsimp only at h
      by_cases hd : s.dmas m.destination = (if m.data.isSome then .BUSY_RD else .BUSY_WR)
      · rw [if_pos hd] at h
        cases h
        exact ⟨rfl, rfl, rfl, rfl, rfl, rfl⟩
      · rw [if_neg hd] at h
        cases h
  | _ =>
    cases h
    exact ⟨rfl, rfl, rfl, rfl, rfl, rfl⟩

end System

end Inputs

end Gem5.Ruby
