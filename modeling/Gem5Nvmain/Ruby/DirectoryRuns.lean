import Gem5Nvmain.Ruby.MiDirSteps

/- What the directory of MI_example keeps of the line, in any environment.

  A run of the directory is any order of messages that arrive, from anyone, and messages that it takes. `written` is
  the data of the last `PUTX` that was taken, or the initial contents. The array form of DirectoryMemory has these
  data whenever the line is in `I`; the sparse form gives the entry up on the way to `I` and makes a cleared one. -/
namespace Gem5.Ruby
open Lib DirSide DataBlock

variable {size : Nat}

structure DirRun (size : Nat) where
  side : DirSide size
  /-- The data of the last `PUTX` that was taken. -/
  written : DataBlock size

inductive DirInput (size : Nat) where
  | request (m : RequestMsg size)
  | dmaRequest (m : DMARequestMsg size)
  | requestPort (k : Nat)
  | dmaRequestPort (k : Nat)
  | memPort (k : Nat)

namespace DirRun

def init (useMap : Bool) (ram : DataBlock size) : DirRun size :=
  ⟨DirSide.init useMap ram, (Directory.init useMap ram).getDirectoryEntry.dataBlk⟩

/-- A `PUTX` that is taken, in a state that does not recycle it. -/
def written' (r : DirRun size) (m : RequestMsg size) : DataBlock size :=
  if r.side.requestEvent m = .putx ∧ (r.side.dir.getState = .M ∨ r.side.dir.getState.blocks = true) then m.dataBlk
  else r.written

def step (r : DirRun size) : DirInput size → Except Stop (DirRun size)
  | .request m => .ok { r with side := { r.side with requests := r.side.requests ++ [m] } }
  | .dmaRequest m => .ok { r with side := { r.side with dmaRequests := r.side.dmaRequests ++ [m] } }
  | .requestPort k =>
    match r.side.requests[k]? with
    | none => .ok r
    | some m => do
      let d ← r.side.dirStep k (r.side.requestEvent m)
      return ⟨d, r.written' m⟩
  | .dmaRequestPort k =>
    match r.side.dmaRequests[k]? with
    | none => .ok r
    | some m => do
      let d ← r.side.dirStep k m.event
      return { r with side := d }
  | .memPort k =>
    match r.side.memQueue[k]? with
    | none => .ok r
    | some m => do
      let d ← r.side.dirStep k m.event
      return { r with side := d }

/-- Inputs other than a DMA write. -/
def noDmaWrite (_ : DirRun size) : DirInput size → Bool
  | .dmaRequest m => !m.write
  | _ => true

end DirRun

/-- Where the data are: in the entry, or in the TBE of a write-back. -/
structure Keeps (useMap : Bool) (written : DataBlock size) (st : DirState) (blk : DataBlock size)
    (t : Option (DirTBE size)) : Prop where
  entry : st ≠ .MI → useMap = false → blk = written
  tbe : st = .MI → ∃ u, t = some u ∧ u.dataBlk = written
  cleared : st = .I → useMap = true → blk = clear
  dma : st ≠ .ID_W ∧ st ≠ .M_DWR ∧ st ≠ .M_DWRI

section DirectoryRuns
variable {r r' : DirRun size} {st : DirState} {blk : DataBlock size} {o chain : List Nat} {t : Option (DirTBE size)}
  {writer : Option Nat} {k : Nat} {useMap : Bool} {ram : DataBlock size}

/-- The invariant of the runs without DMA writes. -/
structure Kept (useMap : Bool) (r : DirRun size) : Prop where
  map : r.side.dir.useMap = useMap
  reads : ∀ m ∈ r.side.dmaRequests, m.write = false
  data : ∃ st blk o t chain writer, r.side.dir.Is st blk o t ∧ Phase st o t.isSome r.side.memQueue chain writer ∧
    Keeps useMap r.written st blk t

namespace Kept

theorem recycled {d : Directory size} {w : DataBlock size} (hk : Kept useMap r)
    (hp : Phase st o t.isSome r.side.memQueue chain writer) (hkeep : Keeps useMap r.written st blk t) (hd : d.Is st blk o t)
    (hmap : d.useMap = r.side.dir.useMap) (hw : w = r.written) : Kept useMap ⟨{ r.side with dir := d }, w⟩ := by
  subst hw
  exact ⟨hmap.trans hk.map, hk.reads, _, _, _, _, _, _, hd, hp, hkeep⟩

variable {m : RequestMsg size} {d : DirSide size}

theorem getx (hk : Kept useMap r) (hm : r.side.requests[k]? = some m)
    (h : r.side.dirStep k .getx = .ok d) : Kept useMap ⟨d, r.written⟩ := by
  obtain ⟨hmap, hreads, st, blk, o, t, chain, writer, hd, hp, hkeep⟩ := hk
  by_cases hI : st = .I
  · subst hI
    obtain ⟨rfl, ht, hmem, -, -⟩ := hp.of_I
    obtain rfl : t = none := by simpa using ht
    obtain ⟨d', his, hmap', rfl⟩ := DirSide.I_getx hd hm h
    refine ⟨hmap'.trans hmap, hreads, _, _, _, _, [m.requestor], none, his, ?_, ?_⟩
    · change Phase _ _ _ (r.side.memQueue ++ _) _ _
      rw [hmem]
      exact .fetching
    · exact ⟨fun _ => hkeep.entry nofun, nofun, nofun, nofun, nofun, nofun⟩
  · by_cases hM : st = .M
    · subst hM
      obtain ⟨c, hlast, rfl, ht, hmem, rfl⟩ := hp.of_M
      obtain rfl : t = none := by simpa using ht
      obtain ⟨d', his, hmap', rfl⟩ := DirSide.M_getx hd hm h
      refine ⟨hmap'.trans hmap, hreads, _, _, _, _, [m.requestor], none, his, ?_, ?_⟩
      · change Phase _ _ _ r.side.memQueue _ _
        rw [hmem]
        exact .modified rfl
      · exact ⟨fun _ => hkeep.entry nofun, nofun, nofun, nofun, nofun, nofun⟩
    · obtain ⟨d', his, hmap', rfl⟩ := recycle hd (.inl (Coherent.dirTransition_getx hp hI hM)) h hI
      exact recycled ⟨hmap, hreads, _, _, _, _, _, _, hd, hp, hkeep⟩ hp hkeep his hmap' rfl

theorem putx (hk : Kept useMap r) (hm : r.side.requests[k]? = some m)
    (hev : r.side.requestEvent m = .putx) (h : r.side.dirStep k .putx = .ok d) : Kept useMap ⟨d, r.written' m⟩ := by
  obtain ⟨hmap, hreads, st, blk, o, t, chain, writer, hd, hp, hkeep⟩ := hk
  have hdecl := declared_of_ok hd.getState h
  have htaken : st = .M ∨ st.blocks = true → r.written' m = m.dataBlk := by
    intro hst
    unfold DirRun.written'
    rw [if_pos ⟨hev, hd.getState.symm ▸ hst⟩]
  have hkept : ¬ (st = .M ∨ st.blocks = true) → r.written' m = r.written := by
    intro hst
    unfold DirRun.written'
    rw [if_neg fun h => hst (hd.getState ▸ h.2)]
  cases st with
  | M =>
    obtain ⟨_, -, -, ht, hmem, -⟩ := hp.of_M
    obtain rfl : t = none := by simpa using ht
    obtain ⟨d', his, hmap', rfl⟩ := DirSide.M_putx hd hm h
    rw [htaken (.inl rfl)]
    refine ⟨hmap'.trans hmap, hreads, _, _, _, _, [], some m.requestor, his, ?_, ?_⟩
    · change Phase _ _ _ (r.side.memQueue ++ _) _ _
      rw [hmem]
      exact .writing (.inl rfl)
    · exact ⟨absurd rfl, fun _ => ⟨_, rfl, rfl⟩, nofun, nofun, nofun, nofun⟩
  | M_DRD =>
    obtain ⟨_, -, -, ht, hmem, -⟩ := hp.of_blocks rfl
    obtain ⟨u, rfl⟩ := Option.isSome_iff_exists.mp ht
    obtain ⟨d', rs, his, hmap', rfl⟩ := DirSide.M_DRD_putx hd hm h
    rw [htaken (.inr rfl)]
    refine ⟨hmap'.trans hmap, hreads, _, _, _, _, [], some m.requestor, his, ?_, ?_⟩
    · change Phase _ _ _ (r.side.memQueue ++ _) _ _
      rw [hmem]
      exact .writing (.inr (.inl rfl))
    · exact ⟨fun _ _ => rfl, nofun, nofun, nofun, nofun, nofun⟩
  | M_DWR => exact absurd rfl hkeep.dma.2.1
  | I | M_DWRI | M_DRDI => exact absurd rfl hdecl
  | IM | MI | ID | ID_W =>
    obtain ⟨d', his, hmap', rfl⟩ := recycle hd (.inl rfl) h nofun
    exact recycled ⟨hmap, hreads, _, _, _, _, _, _, hd, hp, hkeep⟩ hp hkeep his hmap' (hkept nofun)

theorem putxNotOwner (hk : Kept useMap r) (hm : r.side.requests[k]? = some m)
    (h : r.side.dirStep k .putxNotOwner = .ok d) : Kept useMap ⟨d, r.written⟩ := by
  obtain ⟨hmap, hreads, st, blk, o, t, chain, writer, hd, hp, hkeep⟩ := hk
  have hdecl := declared_of_ok hd.getState h
  cases st with
  | I =>
    obtain ⟨-, ht, -⟩ := hp.of_I
    obtain rfl : t = none := by simpa using ht
    obtain ⟨d', his, hmap', rfl⟩ := nack (.inl rfl) hd hm h
    refine ⟨hmap'.trans hmap, hreads, _, _, _, _, chain, writer, his, hp, ?_⟩
    rw [hmap]
    refine ⟨fun _ hu => ?_, nofun, fun _ hu => if_pos ⟨rfl, hu⟩, nofun, nofun, nofun⟩
    subst hu
    exact hkeep.entry nofun rfl
  | M =>
    obtain ⟨_, -, -, ht, -⟩ := hp.of_M
    obtain rfl : t = none := by simpa using ht
    obtain ⟨d', his, hmap', rfl⟩ := nack (.inr rfl) hd hm h
    exact ⟨hmap'.trans hmap, hreads, _, _, _, _, chain, writer, his, hp, hkeep⟩
  | IM | MI | ID | ID_W =>
    obtain ⟨d', his, hmap', rfl⟩ := recycle hd (.inl rfl) h nofun
    exact recycled ⟨hmap, hreads, _, _, _, _, _, _, hd, hp, hkeep⟩ hp hkeep his hmap' rfl
  | M_DRD | M_DWR | M_DWRI | M_DRDI => exact absurd rfl hdecl

theorem dmaRead {m : DMARequestMsg size} (hk : Kept useMap r) (hm : r.side.dmaRequests[k]? = some m)
    (h : r.side.dirStep k m.event = .ok d) : Kept useMap ⟨d, r.written⟩ := by
  obtain ⟨hmap, hreads, st, blk, o, t, chain, writer, hd, hp, hkeep⟩ := hk
  have hread : m.write = false := hreads m (List.mem_of_getElem? hm)
  have hev : m.event = .dmaRead := if_neg (by rw [hread]; exact Bool.false_ne_true)
  have hreads' : ∀ q ∈ r.side.dmaRequests.eraseIdx k, q.write = false :=
    fun q hq => hreads q (List.mem_of_mem_eraseIdx hq)
  have hdecl := declared_of_ok hd.getState h
  cases st with
  | I =>
    obtain ⟨rfl, ht, hmem, rfl, rfl⟩ := hp.of_I
    obtain rfl : t = none := by simpa using ht
    obtain ⟨d', his, hmap', rfl⟩ := DirSide.I_dmaRead hd hm (hev ▸ h)
    refine ⟨hmap'.trans hmap, hreads', _, _, _, _, [], none, his, ?_, ?_⟩
    · change Phase _ _ _ (r.side.memQueue ++ _) _ _
      rw [hmem]
      exact .dmaRead
    · exact ⟨fun _ => hkeep.entry nofun, nofun, nofun, nofun, nofun, nofun⟩
  | M =>
    obtain ⟨c, hlast, rfl, ht, hmem, rfl⟩ := hp.of_M
    obtain rfl : t = none := by simpa using ht
    obtain ⟨d', his, hmap', rfl⟩ := DirSide.M_dma hd hm h
    have hst : blockedFor m.write = .M_DRD := by rw [hread]; rfl
    rw [hst] at his
    refine ⟨hmap'.trans hmap, hreads', _, _, _, _, chain, none, his, ?_, ?_⟩
    · change Phase _ _ _ r.side.memQueue _ _
      rw [hmem]
      exact .blocked rfl hlast
    · exact ⟨fun _ => hkeep.entry nofun, nofun, nofun, nofun, nofun, nofun⟩
  | IM | MI | ID | ID_W =>
    rw [hev] at h
    obtain ⟨d', his, hmap', rfl⟩ := recycle hd (.inr rfl) h nofun
    exact recycled ⟨hmap, hreads, _, _, _, _, _, _, hd, hp, hkeep⟩ hp hkeep his hmap' rfl
  | M_DRD | M_DWR | M_DWRI | M_DRDI =>
    rw [hev] at hdecl
    exact absurd rfl hdecl

theorem memory {m : MemoryMsg size} (hk : Kept useMap r) (hm : r.side.memQueue[k]? = some m)
    (h : r.side.dirStep k m.event = .ok d) : Kept useMap ⟨d, r.written⟩ := by
  obtain ⟨hmap, hreads, st, blk, o, t, chain, writer, hd, hp, hkeep⟩ := hk
  generalize ht : t.isSome = x at hp
  generalize hq : r.side.memQueue = mem at hp hm
  have hone : ∀ {w : MemoryMsg size}, mem = [w] → k = 0 ∧ m = w := by
    rintro w rfl
    cases k with
    | zero => exact ⟨rfl, (Option.some.inj hm).symm⟩
    | succ k => cases hm
  have hsome : x = true → ∃ u, t = some u := fun hx => Option.isSome_iff_exists.mp (ht.trans hx)
  have hidle : ∀ {b : DataBlock size} {d' : Directory size} {rs : List (DMAResponseMsg size)} {fs : Nat → List ForwardMsg},
      k = 0 → (∃ w, r.side.memQueue = [w]) → (useMap = false → b = r.written) →
      d'.Is .I (kept r.side.dir.useMap .I b) [] none → d'.useMap = r.side.dir.useMap →
      Kept useMap ⟨{ r.side with dir := d', memQueue := r.side.memQueue.eraseIdx k, forwards := fs, dmaResponses := rs },
        r.written⟩ := by
    rintro b d' rs fs rfl ⟨w, hw⟩ hb his hmap'
    refine ⟨hmap'.trans hmap, hreads, _, _, _, _, [], none, his, ?_, ?_⟩
    · change Phase _ _ _ (r.side.memQueue.eraseIdx 0) _ _
      rw [hw]
      exact .idle
    · rw [hmap]
      refine ⟨fun _ hu => ?_, nofun, fun _ hu => if_pos ⟨rfl, hu⟩, nofun, nofun, nofun⟩
      subst hu
      exact hb rfl
  cases hp with
  | idle | modified _ | blocked _ _ => cases hm
  | fetching =>
    obtain ⟨rfl, rfl⟩ := hone rfl
    obtain rfl : t = none := by simpa using ht
    obtain ⟨d', his, hmap', rfl⟩ := DirSide.IM_memoryData hd (hq ▸ hm) rfl h
    rename_i c _
    refine ⟨hmap'.trans hmap, hreads, _, _, _, _, [c], none, his, ?_, ?_⟩
    · change Phase _ _ _ (r.side.memQueue.eraseIdx 0) _ _
      rw [hq]
      exact .modified rfl
    · exact ⟨fun _ => hkeep.entry nofun, nofun, nofun, nofun, nofun, nofun⟩
  | dmaRead =>
    obtain ⟨rfl, rfl⟩ := hone rfl
    obtain ⟨u, rfl⟩ := hsome rfl
    obtain ⟨d', rs, his, hmap', rfl⟩ := DirSide.ID_memoryData hd (hq ▸ hm) h
    exact hidle rfl ⟨_, hq⟩ (hkeep.entry nofun) his hmap'
  | dmaWrite => exact absurd rfl hkeep.dma.1
  | writing hst =>
    obtain ⟨rfl, rfl⟩ := hone rfl
    obtain ⟨u, rfl⟩ := hsome rfl
    obtain ⟨d', rs, his, hmap', rfl⟩ := writeback_memoryAck hst hd (hq ▸ hm) rfl h
    refine hidle rfl ⟨_, hq⟩ (fun hu => ?_) his hmap'
    rcases hst with rfl | rfl | rfl
    · obtain ⟨v, hv, hw⟩ := hkeep.tbe rfl
      cases hv
      exact hw
    · exact hkeep.entry nofun hu
    · exact absurd rfl hkeep.dma.2.2

theorem init : Kept useMap (DirRun.init useMap ram) where
  map := rfl
  reads := nofun
  data := by
    refine ⟨.I, _, [], none, [], none, ⟨rfl, rfl, nofun⟩, .idle, fun _ _ => rfl, nofun, fun _ hu => ?_, nofun, nofun, nofun⟩
    subst hu
    rfl

theorem step {i : DirInput size} (hk : Kept useMap r) (hc : r.noDmaWrite i = true) (h : r.step i = .ok r') :
    Kept useMap r' := by
  cases i with
  | request m =>
    cases h
    exact ⟨hk.map, hk.reads, hk.data⟩
  | dmaRequest m =>
    cases h
    refine ⟨hk.map, fun q hq => ?_, hk.data⟩
    rcases List.mem_append.mp hq with hq | hq
    · exact hk.reads q hq
    · rw [List.mem_singleton.mp hq]
      exact Bool.not_eq_eq_eq_not.mp hc
  | requestPort k =>
    unfold DirRun.step at h
    dsimp only at h
    cases hm : r.side.requests[k]? with
    | none =>
      rw [hm] at h
      cases h
      exact hk
    | some m =>
      rw [hm] at h
      obtain ⟨d, hd, h⟩ := of_bind h
      cases h
      have hw : r.side.requestEvent m ≠ .putx → r.written' m = r.written := fun hne => if_neg fun h => hne h.1
      cases m with
      | getx c =>
        exact hk.getx hm hd
      | putx c b =>
        by_cases hc : c ∈ r.side.owner
        · have hev : r.side.requestEvent (.putx c b) = .putx := if_pos hc
          exact hk.putx hm hev (hev ▸ hd)
        · have hev : r.side.requestEvent (.putx c b) = .putxNotOwner := if_neg hc
          rw [hw (by rw [hev]; exact nofun)]
          exact hk.putxNotOwner hm (hev ▸ hd)
  | dmaRequestPort k =>
    unfold DirRun.step at h
    dsimp only at h
    cases hm : r.side.dmaRequests[k]? with
    | none =>
      rw [hm] at h
      cases h
      exact hk
    | some m =>
      rw [hm] at h
      obtain ⟨d, hd, h⟩ := of_bind h
      cases h
      exact hk.dmaRead hm hd
  | memPort k =>
    unfold DirRun.step at h
    dsimp only at h
    cases hm : r.side.memQueue[k]? with
    | none =>
      rw [hm] at h
      cases h
      exact hk
    | some m =>
      rw [hm] at h
      obtain ⟨d, hd, h⟩ := of_bind h
      cases h
      exact hk.memory hm hd

theorem of_run {h : List (DirInput size)} (hr : Exec (StepIf DirRun.noDmaWrite DirRun.step) (DirRun.init useMap ram) h r) :
    Kept useMap r := by
  apply hr.invariant
  · exact init
  · rintro s i t hk ⟨hc, hs⟩
    exact hk.step hc hs

theorem entry_of_I (hk : Kept useMap r) (hI : r.side.dir.getState = .I) :
    r.side.dir.getDirectoryEntry.dataBlk = if useMap then clear else r.written := by
  obtain ⟨st, blk, o, t, -, -, hd, -, hkeep⟩ := hk.data
  obtain rfl : st = .I := hd.getState.symm.trans hI
  rw [hd.entry]
  cases useMap with
  | false => exact hkeep.entry nofun rfl
  | true => exact hkeep.cleared rfl rfl

end Kept

variable {i : DirInput size}

/-- In state `I`, what a step adds to the memory queue and is not a write has the data of the entry. -/
theorem fetch_data {m : MemoryMsg size} (hk : Kept useMap r) (hI : r.side.dir.getState = .I)
    (h : r.step i = .ok r') (hq : r'.side.memQueue = r.side.memQueue ++ [m]) (hread : m.write = false) :
    m.dataBlk = r.side.dir.getDirectoryEntry.dataBlk := by
  have hsame : r'.side.memQueue ≠ r.side.memQueue := by
    rw [hq]
    simp
  have hadded : ∀ {w : MemoryMsg size}, r'.side.memQueue = r.side.memQueue ++ [w] → m = w := by
    intro w hw
    exact List.singleton_injective (List.append_cancel_left (hq.symm.trans hw))
  obtain ⟨-, -, st, blk, o, t, chain, writer, hd, hp, -⟩ := hk
  obtain rfl : st = .I := hd.getState.symm.trans hI
  obtain ⟨rfl, ht, hmem, -, -⟩ := hp.of_I
  obtain rfl : t = none := by simpa using ht
  have hmemPort : r.side.memQueue = [] := hmem
  rw [hd.entry]
  cases i with
  | request m | dmaRequest m =>
    cases h
    exact absurd rfl hsame
  | requestPort k =>
    unfold DirRun.step at h
    dsimp only at h
    cases hm : r.side.requests[k]? with
    | none =>
      rw [hm] at h
      cases h
      exact absurd rfl hsame
    | some q =>
      rw [hm] at h
      obtain ⟨d, hs, h⟩ := of_bind h
      cases h
      cases q with
      | getx c =>
        obtain ⟨d', -, -, rfl⟩ := DirSide.I_getx hd hm hs
        rw [hadded rfl]
      | putx c b =>
        have howner : r.side.owner = [] := congrArg DirEntry.owner hd.entry
        have hev : r.side.requestEvent (.putx c b) = .putxNotOwner :=
          if_neg (by rw [howner]; exact List.not_mem_nil)
        obtain ⟨d', -, -, rfl⟩ := nack (.inl rfl) hd hm (hev ▸ hs)
        exact absurd rfl hsame
  | dmaRequestPort k =>
    unfold DirRun.step at h
    dsimp only at h
    cases hm : r.side.dmaRequests[k]? with
    | none =>
      rw [hm] at h
      cases h
      exact absurd rfl hsame
    | some q =>
      rw [hm] at h
      obtain ⟨d, hs, h⟩ := of_bind h
      cases h
      unfold DMARequestMsg.event at hs
      split at hs
      · obtain ⟨d', b, -, -, rfl⟩ := DirSide.I_dmaWrite hd hm hs
        cases hadded rfl
        cases hread
      · obtain ⟨d', -, -, rfl⟩ := DirSide.I_dmaRead hd hm hs
        rw [hadded rfl]
  | memPort k =>
    unfold DirRun.step at h
    rw [hmemPort] at h
    cases h
    exact absurd rfl hsame

/-- What a fetch of state `I` reads is the last write-back, in the array form, and in the sparse form if that was of
  cleared data. -/
theorem fetch_reads_written {h : List (DirInput size)} {i : DirInput size} {m : MemoryMsg size}
    (hr : Exec (StepIf DirRun.noDmaWrite DirRun.step) (DirRun.init useMap ram) h r)
    (hI : r.side.dir.getState = .I) (hs : r.step i = .ok r')
    (hq : r'.side.memQueue = r.side.memQueue ++ [m]) (hread : m.write = false) :
    m.dataBlk = r.written ↔ useMap = false ∨ r.written = clear := by
  have hk := Kept.of_run hr
  rw [fetch_data hk hI hs hq hread, hk.entry_of_I hI]
  cases useMap with
  | false => exact iff_of_true rfl (.inl rfl)
  | true =>
    constructor
    · exact fun h => .inr h.symm
    · rintro (hu | hw)
      · cases hu
      · exact hw.symm

/-- The step queues one message to an empty memory queue, and the message has the property. -/
def DirRun.queues (r : DirRun size) (i : DirInput size) (p : MemoryMsg size → Bool) : Bool :=
  match r.step i with
  | .ok r' => r.side.memQueue.isEmpty &&
    match r'.side.memQueue with
    | [m] => p m
    | _ => false
  | .error _ => false

theorem DirRun.of_queues {p : MemoryMsg size → Bool} (h : r.queues i p = true) :
    ∃ r' m, r.step i = .ok r' ∧ r'.side.memQueue = r.side.memQueue ++ [m] ∧ p m = true := by
  unfold DirRun.queues at h
  split at h
  · rename_i r' hs
    obtain ⟨hempty, h⟩ := Bool.and_eq_true_iff.mp h
    split at h
    · rename_i m hq
      refine ⟨r', m, hs, ?_, h⟩
      rw [List.isEmpty_iff.mp hempty, hq]
      rfl
    · cases h
  · cases h

/-- In the array form a fetch reads the 7 that was written back. -/
theorem fetch_reads_written_array :
    ∃ (r r' : DirRun 1) (m : MemoryMsg 1), Exec (StepIf DirRun.noDmaWrite DirRun.step) (DirRun.init false clear)
        [.request (.getx 0), .requestPort 0, .memPort 0, .request (.putx 0 fun _ => 7), .requestPort 0, .memPort 0,
          .request (.getx 0)] r ∧
      r.step (.requestPort 0) = .ok r' ∧ r.written 0 = 7 ∧
      (m.dataBlk = r.written ↔ (false = false ∨ r.written = clear)) := by
  have hrun : endsInIf DirRun.noDmaWrite DirRun.step (DirRun.init false clear : DirRun 1)
      [.request (.getx 0), .requestPort 0, .memPort 0, .request (.putx 0 fun _ => 7), .requestPort 0, .memPort 0,
        .request (.getx 0)]
      (fun r => r.side.dir.getState = .I && r.written 0 = 7 && r.queues (.requestPort 0) fun m => !m.write) = true := by
    decide
  obtain ⟨r, hr, h⟩ := Exec.of_endsInIf hrun
  obtain ⟨h, hqueues⟩ := Bool.and_eq_true_iff.mp h
  obtain ⟨hI, hwritten⟩ := Bool.and_eq_true_iff.mp h
  obtain ⟨r', m, hs, hq, hread⟩ := DirRun.of_queues hqueues
  exact ⟨r, r', m, hr, hs, of_decide_eq_true hwritten,
    fetch_reads_written hr (of_decide_eq_true hI) hs hq (Bool.not_eq_eq_eq_not.mp hread)⟩

/-- In the sparse form the 7 that was written back is lost: the next fetch reads a 0. -/
theorem write_back_is_lost :
    ∃ (r r' : DirRun 1) (m : MemoryMsg 1), Exec (StepIf DirRun.noDmaWrite DirRun.step) (DirRun.init true clear)
        [.request (.getx 0), .requestPort 0, .memPort 0, .request (.putx 0 fun _ => 7), .requestPort 0, .memPort 0,
          .request (.getx 0)] r ∧
      r.side.dir.getState = .I ∧ r.step (.requestPort 0) = .ok r' ∧ r'.side.memQueue = r.side.memQueue ++ [m] ∧
      m.write = false ∧ r.written 0 = 7 ∧ m.dataBlk 0 = 0 := by
  have hrun : endsInIf DirRun.noDmaWrite DirRun.step (DirRun.init true clear : DirRun 1)
      [.request (.getx 0), .requestPort 0, .memPort 0, .request (.putx 0 fun _ => 7), .requestPort 0, .memPort 0,
        .request (.getx 0)]
      (fun r => r.side.dir.getState = .I && r.written 0 = 7 &&
        r.queues (.requestPort 0) fun m => !m.write && m.dataBlk 0 = 0) = true := by
    decide
  obtain ⟨r, hr, h⟩ := Exec.of_endsInIf hrun
  obtain ⟨h, hqueues⟩ := Bool.and_eq_true_iff.mp h
  obtain ⟨hI, hwritten⟩ := Bool.and_eq_true_iff.mp h
  obtain ⟨r', m, hs, hq, hm⟩ := DirRun.of_queues hqueues
  obtain ⟨hread, hzero⟩ := Bool.and_eq_true_iff.mp hm
  exact ⟨r, r', m, hr, of_decide_eq_true hI, hs, hq, Bool.not_eq_eq_eq_not.mp hread, of_decide_eq_true hwritten,
    of_decide_eq_true hzero⟩

end DirectoryRuns

end Gem5.Ruby
