import Gem5Nvmain.Ruby.MiRuns

/- The events of MI_example that have a transition.

  While the directory waits on behalf of a DMA request, for the owner's copy or for the memory, its table has nothing
  for another DMA request, nor for a write-back of a cache that is not the owner. `Quiet` says that none of them is on
  its way, which is what a state needs to be `Complete`, and `calm` what a step may do to keep it. -/
namespace Gem5.Ruby
open Lib List DirSide System

variable {size : Nat}

/-- The states from the acceptance of a DMA request in `M` to its end. -/
def DirState.waits (st : DirState) : Bool := st = .M_DRD || st = .M_DWR || st = .M_DRDI || st = .M_DWRI

namespace System

/-- Every event that a port can trigger has a transition. -/
def Complete (s : System size) : Prop := ∀ i ev, s.event i = some ev → s.declared ev = true

/-- Every write-back that is on its way is the owner's. -/
def ownersOnly (s : System size) : Bool :=
  s.requests.all fun m =>
    match m with
    | .getx _ => true
    | .putx r _ => decide (r ∈ s.owner)

structure Quiet (s : System size) : Prop where
  owners : s.dir.getState.waits = true → s.ownersOnly = true
  dma : s.dir.getState.waits = true → s.dmaRequests = []

/-- Inputs that do not bring a second DMA request, or the write-back of another cache, to a directory that waits. -/
def calm (s : System size) : Input → Bool
  | .dmaRequestPort k =>
    decide (s.dir.getState ≠ .M) || decide (s.dmaRequests.length ≤ k) ||
      (decide (s.dmaRequests.length = 1) && s.ownersOnly)
  | .dmaRead d _ _ | .dmaWrite d _ _ => decide (s.dmas d ≠ .READY) || !s.dir.getState.waits
  | .replacement c =>
    decide ((s.caches c).getState ≠ .M) || !s.dir.getState.waits || decide (c ∈ s.owner)
  | _ => true

end System

section Complete
variable {s s' : System size} {st : DirState} {chain : List Nat} {writer : Option Nat} {i : Input} {c k : Nat}

theorem ownersOnly_iff : s.ownersOnly = true ↔ ∀ r b, .putx r b ∈ s.requests → r ∈ s.owner := by
  unfold ownersOnly
  rw [all_eq_true]
  constructor
  · intro h r b hm
    exact of_decide_eq_true (h _ hm)
  · intro h m hm
    cases m with
    | getx r => rfl
    | putx r b => exact decide_eq_true (h r b hm)

namespace Coherent

/-! The caches have a transition for every event. -/

theorem forward_declared {m : ForwardMsg} (hc : Coherent s st chain writer) (hm : (s.forwards c).head? = some m) :
    (cacheTransition (s.caches c).getState m.event).isSome = true := by
  have hforward : (s.forwards c).head? = (s.view c).forwards.head? := rfl
  have hcache : (s.caches c).getState = (s.view c).cache.getState := rfl
  rw [hforward] at hm
  rw [hcache]
  have hwaiting : ∀ {n : Option Nat}, Waiting (queued st n) (s.view c) →
      (cacheTransition (s.view c).cache.getState m.event).isSome = true := by
    intro n hw
    generalize s.view c = v at hw hm
    obtain ⟨hst⟩ := hw
    obtain ⟨fs, hfs⟩ := head?_eq_some_iff.mp hm
    obtain ⟨-, hkind⟩ := mem_queued hfs
    have hforward : m = .inv ∨ ∃ b, m = .getx b := hkind.imp (fun h => h.1) fun ⟨b, hb, _⟩ => ⟨b, hb⟩
    exact Option.isSome_iff_exists.mpr ⟨_, stalls_forward hst hforward⟩
  cases hc.role c with
  | away _ _ hv =>
    generalize s.view c = v at hv hm
    cases hv with
    | idle _ | asking _ | unwanted => cases hm
    | nacked =>
      cases hm
      rfl
    | acked hfs =>
      rcases hfs with rfl | rfl <;> cases hm <;> rfl
  | writing _ hv =>
    generalize s.view c = v at hv hm
    obtain ⟨hfs⟩ := hv
    rcases hfs with rfl | rfl <;> cases hm
    rfl
  | first _ hv =>
    generalize s.responses = rs at hv
    cases hv with
    | fetching _ hv | sent _ hv => exact hwaiting hv
    | held _ hv =>
      generalize s.view c = v at hv hm
      cases hv with
      | modified | leaving =>
        obtain ⟨fs, hfs⟩ := head?_eq_some_iff.mp hm
        obtain ⟨-, ⟨rfl, -⟩ | ⟨b, rfl, -⟩⟩ := mem_queued hfs <;> rfl
      | freed _ _ => cases hm
      | nacked _ =>
        cases hm
        rfl
  | behind _ hv => exact hwaiting hv

theorem response_declared {m : ResponseMsg size} (hc : Coherent s st chain writer) (hm : s.responses[k]? = some m) :
    (cacheTransition (s.caches m.destination).getState .data).isSome = true := by
  cases hl : chain with
  | nil =>
    rw [hc.free hl] at hm
    cases hm
  | cons c l =>
    have hv := hc.first c l hl
    generalize s.responses = rs at hv hm
    cases hv with
    | fetching _ _ | held _ _ => cases hm
    | sent _ hv =>
      obtain rfl := mem_singleton.mp (mem_of_getElem? hm)
      change (cacheTransition (s.view c).cache.getState .data).isSome = true
      generalize s.view c = v at hv
      obtain ⟨hst⟩ := hv
      rcases hst with rfl | rfl <;> rfl

theorem cache_declared {ev : CacheEvent} (hc : Coherent s st chain writer) (he : s.event i = some (.cache c ev)) :
    s.declared (.cache c ev) = true := by
  have hproc : ev = .load ∨ ev = .store ∨ ev = .replacement → s.declared (.cache c ev) = true := by
    intro hev
    change (cacheTransition (s.caches c).getState ev).isSome = true
    rcases hc.shape c with ⟨-, -, e, w, hv, hI⟩ | ⟨l, d, w, -, -, -, hv⟩ | hbusy
    · obtain ⟨hx, -, -⟩ := view_eq hv
      have hst : (s.caches c).getState = .I := by
        rw [hx]
        cases e with
        | none => rfl
        | some y => exact hI y rfl
      rw [hst]
      rcases hev with rfl | rfl | rfl <;> rfl
    · obtain ⟨hx, -, -⟩ := view_eq hv
      rw [hx]
      rcases hev with rfl | rfl | rfl <;> rfl
    · rw [stalls hbusy hev]
      rfl
  rcases event_cache he with ⟨-, rfl⟩ | ⟨-, rfl⟩ | ⟨-, rfl⟩ | ⟨rfl, m, hm, rfl⟩ | ⟨k, m, rfl, hm, rfl, rfl⟩
  · exact hproc (.inl rfl)
  · exact hproc (.inr (.inl rfl))
  · exact hproc (.inr (.inr rfl))
  · exact hc.forward_declared hm
  · exact hc.response_declared hm

/-! The directory lacks one only while it waits. -/

theorem complete_iff_quiet (hc : Coherent s st chain writer) : s.Complete ↔ s.Quiet := by
  obtain ⟨blk, o, t, hd, hp⟩ := hc.dir
  have howner : s.owner = o := congrArg DirEntry.owner hd.entry
  have hlack : ∀ {st : DirState}, st.waits = true → dirTransition st .putxNotOwner = none ∧
      ∀ q : DMARequestMsg size, dirTransition st q.event = none := by
    intro st hw
    refine ⟨?_, fun q => ?_⟩
    · cases st <;> first | rfl | cases hw
    · unfold DMARequestMsg.event
      cases st <;> first | (split <;> rfl) | cases hw
  constructor
  · intro h
    constructor
    · intro hw
      rw [ownersOnly_iff]
      intro r b hm
      obtain ⟨k, hk⟩ := getElem?_of_mem hm
      by_contra hr
      have hev : s.event (.requestPort k) = some (.dir .putxNotOwner) := by
        unfold event
        simp [hk, requestEvent, hr]
      have hdecl : (dirTransition s.dir.getState .putxNotOwner).isSome = true := h _ _ hev
      rw [(hlack hw).1] at hdecl
      cases hdecl
    · intro hw
      cases hq : s.dmaRequests with
      | nil => rfl
      | cons q l =>
        have hev : s.event (.dmaRequestPort 0) = some (.dir q.event) := by
          unfold event
          simp [hq]
        have hdecl : (dirTransition s.dir.getState q.event).isSome = true := h _ _ hev
        rw [(hlack hw).2 q] at hdecl
        cases hdecl
  · intro hq i e he
    cases e with
    | cache c ev => exact hc.cache_declared he
    | dir ev =>
      have hidle : (∃ m, m ∈ s.dmaRequests) ∨ (∃ r b, .putx r b ∈ s.requests ∧ r ∉ s.owner) → st.waits = false := by
        intro h
        by_contra hw
        rw [← hd.getState, Bool.not_eq_false] at hw
        rcases h with ⟨m, hm⟩ | ⟨r, b, hm, hr⟩
        · rw [hq.dma hw] at hm
          cases hm
        · exact hr (ownersOnly_iff.mp (hq.owners hw) r b hm)
      change (dirTransition s.dir.getState ev).isSome = true
      rw [hd.getState]
      rcases event_dir he with ⟨k, m, rfl, hm, rfl⟩ | ⟨k, m, rfl, hm, rfl⟩ | ⟨k, m, rfl, hm, rfl⟩
      · cases m with
        | getx r => cases st <;> rfl
        | putx r b =>
          unfold requestEvent
          dsimp only
          split
          · rename_i hr
            rw [howner, mem_owner hp] at hr
            generalize s.memQueue = mem at hp
            generalize t.isSome = x at hp
            cases hp with
            | idle | dmaRead | dmaWrite | writing _ => cases hr
            | fetching | modified _ => rfl
            | blocked hst _ => cases st <;> first | rfl | cases hst
          · rename_i hr
            have hw := hidle (.inr ⟨r, b, mem_of_getElem? hm, hr⟩)
            cases st <;> first | rfl | cases hw
      · have hw := hidle (.inl ⟨m, mem_of_getElem? hm⟩)
        unfold DMARequestMsg.event
        cases st <;> first | (split <;> rfl) | cases hw
      · generalize s.memQueue = mem at hp hm
        generalize t.isSome = x at hp
        cases hp with
        | idle | modified _ | blocked _ _ => cases hm
        | fetching | dmaRead | dmaWrite =>
          obtain rfl := mem_singleton.mp (mem_of_getElem? hm)
          rfl
        | writing hst =>
          obtain rfl := mem_singleton.mp (mem_of_getElem? hm)
          rcases hst with rfl | rfl | rfl <;> rfl

end Coherent

/-! What a cache sends. -/

theorem CacheAction.act_sends {a : CacheAction} (h : a.act c k s = .ok s') :
    s'.dir = s.dir ∧ s'.dmaRequests = s.dmaRequests ∧
      ∃ q, s'.requests = s.requests ++ q ∧ ∀ r, (∃ b, RequestMsg.putx r b ∈ q) ↔ r = c ∧ a = .issuePUT := by
  have hsilent : s'.dir = s.dir → s'.dmaRequests = s.dmaRequests → s'.requests = s.requests → a ≠ .issuePUT →
      s'.dir = s.dir ∧ s'.dmaRequests = s.dmaRequests ∧
        ∃ q, s'.requests = s.requests ++ q ∧ ∀ r, (∃ b, RequestMsg.putx r b ∈ q) ↔ r = c ∧ a = .issuePUT := by
    intro hd hq hr ha
    exact ⟨hd, hq, [], by rw [hr, append_nil], fun r => by simp [ha]⟩
  cases a with
  | issueRequest =>
    cases h
    exact ⟨rfl, rfl, [.getx c], rfl, fun r => by simp⟩
  | issuePUT =>
    obtain ⟨e, -, h⟩ := of_bind h
    cases h
    exact ⟨rfl, rfl, [.putx c e.dataBlk], rfl, fun r => by simp⟩
  | sendData | sendDataFromTBE =>
    obtain ⟨r, -, h⟩ := of_bind h
    obtain ⟨e, -, h⟩ := of_bind h
    cases h
    exact hsilent rfl rfl rfl nofun
  | allocateL1CacheBlock | deallocateL1CacheBlock | popResponseQueue | popForwardedRequestQueue =>
    cases h
    exact hsilent rfl rfl rfl nofun
  | loadHit | allocateTBE | deallocateTBE =>
    obtain ⟨_, -, h⟩ := of_bind h
    cases h
    exact hsilent rfl rfl rfl nofun
  | storeHit =>
    obtain ⟨e, -, h⟩ := of_bind h
    obtain ⟨w, -, h⟩ := of_bind h
    obtain ⟨b, -, h⟩ := of_bind h
    cases h
    exact hsilent rfl rfl rfl nofun
  | writeDataToCache | copyDataFromCacheToTBE =>
    obtain ⟨m, -, h⟩ := of_bind h
    obtain ⟨e, -, h⟩ := of_bind h
    cases h
    exact hsilent rfl rfl rfl nofun

variable {l : List CacheAction}

theorem perform_sends (h : perform (CacheAction.act c k) l s = .ok s') :
    s'.dir = s.dir ∧ s'.dmaRequests = s.dmaRequests ∧
      ∃ q, s'.requests = s.requests ++ q ∧ ∀ r, (∃ b, RequestMsg.putx r b ∈ q) ↔ r = c ∧ .issuePUT ∈ l := by
  induction l generalizing s with
  | nil =>
    cases h
    exact ⟨rfl, rfl, [], by rw [append_nil], fun r => by simp⟩
  | cons a l ih =>
    obtain ⟨u, hu, h⟩ := of_bind h
    obtain ⟨hd, hq, q, hr, hsent⟩ := CacheAction.act_sends hu
    obtain ⟨hd', hq', q', hr', hsent'⟩ := ih h
    refine ⟨hd'.trans hd, hq'.trans hq, q ++ q', ?_, fun r => ?_⟩
    · rw [hr', hr, append_assoc]
    · simp only [mem_append, exists_or, hsent, hsent', mem_cons, eq_comm]
      exact (and_or_left).symm

variable {ev : CacheEvent}

theorem issuePUT_mem {st next : CacheState} (ht : cacheTransition st ev = some (.go l next)) :
    .issuePUT ∈ l ↔ st = .M ∧ (ev = .replacement ∨ ev = .inv) := by
  cases st <;> cases ev <;> first | (cases ht; decide) | cases ht

theorem cacheStep_sends {u : Option Write} (h : s.cacheStep c k u ev = .ok s') :
    s'.dir = s.dir ∧ s'.dmaRequests = s.dmaRequests ∧
      ∃ q, s'.requests = s.requests ++ q ∧ ∀ r, (∃ b, RequestMsg.putx r b ∈ q) ↔
        r = c ∧ (s.caches c).getState = .M ∧ (ev = .replacement ∨ ev = .inv) := by
  unfold cacheStep at h
  cases ht : cacheTransition (s.caches c).getState ev with
  | none =>
    rw [ht] at h
    cases h
  | some x =>
    rw [ht] at h
    cases x with
    | stall =>
      cases h
      refine ⟨rfl, rfl, [], by rw [append_nil], fun r => ?_⟩
      have hnot : ¬ ((s.caches c).getState = .M ∧ (ev = .replacement ∨ ev = .inv)) := by
        rintro ⟨hM, rfl | rfl⟩ <;> rw [hM] at ht <;> cases ht
      simp [hnot]
    | go l next =>
      obtain ⟨v, hv, h⟩ := of_bind h
      cases h
      obtain ⟨hd, hq, q, hr, hsent⟩ := perform_sends hv
      have hbegin : (s.begin c u).dir = s.dir ∧ (s.begin c u).dmaRequests = s.dmaRequests ∧
          (s.begin c u).requests = s.requests := by
        cases u <;> exact ⟨rfl, rfl, rfl⟩
      refine ⟨hd.trans hbegin.1, hq.trans hbegin.2.1, q, ?_, fun r => ?_⟩
      · rw [← hbegin.2.2]
        exact hr
      · rw [hsent r, issuePUT_mem ht]

/-! What a step does to the messages that the directory has no transition for. -/

namespace Coherent

theorem quiet_of_not_waits (h : s.dir.getState.waits = false) : s.Quiet :=
  ⟨fun hw => (Bool.eq_false_iff.mp h hw).elim, fun hw => (Bool.eq_false_iff.mp h hw).elim⟩

/-- A cache that is invalidated is the owner. -/
theorem owner_of_inv (hc : Coherent s st chain writer) (hM : (s.caches c).getState = .M)
    (hinv : (s.forwards c).head? = some .inv) : c ∈ s.owner := by
  rcases hc.shape c with ⟨-, -, e, w, hv, hI⟩ | ⟨l, d, w, rfl, hne, -, hv⟩ | hbusy
  · obtain ⟨-, -, hf⟩ := view_eq hv
    rw [hf] at hinv
    cases hinv
  · obtain ⟨-, -, hf⟩ := view_eq hv
    rw [hf] at hinv
    obtain ⟨fs, hfs⟩ := head?_eq_some_iff.mp hinv
    obtain ⟨-, ⟨-, hn, -⟩ | ⟨b, h, -⟩⟩ := mem_queued hfs
    · rw [head?_eq_none_iff.mp hn] at hc
      obtain ⟨blk, o, t, hd, hp⟩ := hc.dir
      have howner : s.owner = o := congrArg DirEntry.owner hd.entry
      rw [howner]
      exact (mem_owner hp).mpr rfl
    · cases h
  · rw [hM] at hbusy
    rcases hbusy with (h | h) | h | h <;> cases h

theorem quiet_cache {ev : CacheEvent} (hc : Coherent s st chain writer) (hq : s.Quiet) (he : s.event i = some (.cache c ev))
    (h : s.cacheStep c i.place i.write ev = .ok s') : s'.Quiet ↔ s.calm i = true := by
  obtain ⟨hdir, hdma, q, hreq, hsent⟩ := cacheStep_sends h
  have howner : s'.owner = s.owner := congrArg (fun d => (Directory.getDirectoryEntry d).owner) hdir
  have hquiet : s'.Quiet ↔ (s.dir.getState.waits = true → (s.caches c).getState = .M →
      (ev = .replacement ∨ ev = .inv) → c ∈ s.owner) := by
    constructor
    · intro hq' hw hM hev
      obtain ⟨b, hb⟩ := (hsent c).mpr ⟨rfl, hM, hev⟩
      rw [← howner]
      apply ownersOnly_iff.mp (hq'.owners (hdir ▸ hw)) c b
      rw [hreq]
      exact mem_append_right _ hb
    · intro hcalm
      refine ⟨fun hw => ?_, fun hw => ?_⟩
      · rw [hdir] at hw
        rw [ownersOnly_iff, howner, hreq]
        intro r b hm
        rcases mem_append.mp hm with hm | hm
        · exact ownersOnly_iff.mp (hq.owners hw) r b hm
        · obtain ⟨rfl, hM, hev⟩ := (hsent r).mp ⟨b, hm⟩
          exact hcalm hw hM hev
      · rw [hdir] at hw
        rw [hdma]
        exact hq.dma hw
  rw [hquiet]
  rcases event_cache he with ⟨rfl, rfl⟩ | ⟨⟨w, rfl⟩, rfl⟩ | ⟨rfl, rfl⟩ | ⟨rfl, m, hm, rfl⟩ | ⟨k, m, rfl, hm, rfl, rfl⟩
  · exact iff_of_true (fun _ _ h => by rcases h with h | h <;> cases h) rfl
  · exact iff_of_true (fun _ _ h => by rcases h with h | h <;> cases h) rfl
  · unfold calm
    cases s.dir.getState.waits <;> simp [imp_iff_not_or]
  · refine iff_of_true (fun _ hM hev => ?_) rfl
    have hinv : m = .inv := by
      cases m <;> first | rfl | (rcases hev with h | h <;> cases h)
    exact hc.owner_of_inv hM (hinv ▸ hm)
  · exact iff_of_true (fun _ _ h => by rcases h with h | h <;> cases h) rfl

theorem quiet_dma (hq : s.Quiet) (he : s.event i = none) (h : s.dmaStep i = .ok s') : s'.Quiet ↔ s.calm i = true := by
  obtain ⟨hdir, -, hreq, -, -, -⟩ := dmaStep_frame h
  have howners : s'.ownersOnly = s.ownersOnly := by
    unfold ownersOnly owner
    rw [hdir, hreq]
  have hkeep : s'.dmaRequests = s.dmaRequests → s'.Quiet := by
    intro hdma
    refine ⟨fun hw => ?_, fun hw => ?_⟩
    · rw [hdir] at hw
      exact howners.trans (hq.owners hw)
    · rw [hdir] at hw
      exact hdma.trans (hq.dma hw)
  have hsend : ∀ {d : Nat} {q : DMARequestMsg size}, s.dmas d = .READY → s'.dmaRequests = s.dmaRequests ++ [q] →
      (s'.Quiet ↔ (decide (s.dmas d ≠ .READY) || !s.dir.getState.waits) = true) := by
    intro d q hready hdma
    simp only [hready, ne_eq, not_true_eq_false, decide_false, Bool.false_or, Bool.not_eq_true']
    constructor
    · intro hq'
      by_contra hw
      rw [Bool.not_eq_false] at hw
      have hnil := hq'.dma (hdir ▸ hw)
      rw [hdma] at hnil
      simp at hnil
    · intro hw
      exact quiet_of_not_waits (hdir ▸ hw)
  have hidle : ∀ {d : Nat}, s.dmas d ≠ .READY → (decide (s.dmas d ≠ .READY) || !s.dir.getState.waits) = true := by
    intro d hd
    rw [decide_eq_true hd, Bool.true_or]
  cases i with
  | dmaRead d addr len =>
    unfold System.dmaStep at h
    dsimp only at h
    split at h <;> rename_i hready <;> cases h
    · exact hsend hready rfl
    · exact iff_of_true (hkeep rfl) (hidle hready)
  | dmaWrite d addr data =>
    unfold System.dmaStep at h
    dsimp only at h
    split at h <;> rename_i hready
    · obtain ⟨blk, -, h⟩ := of_bind h
      cases h
      exact hsend hready rfl
    · cases h
      exact iff_of_true (hkeep rfl) (hidle hready)
  | dmaResponsePort k =>
    refine iff_of_true (hkeep ?_) rfl
    unfold System.dmaStep at h
    dsimp only at h
    cases hm : s.dmaResponses[k]? with
    | none =>
      rw [hm] at h
      cases h
      rfl
    | some m =>
      rw [hm] at h
      dsimp only at h
      by_cases hd : s.dmas m.destination = (if m.data.isSome then .BUSY_RD else .BUSY_WR)
      · rw [if_pos hd] at h
        cases h
        rfl
      · rw [if_neg hd] at h
        cases h
  | dmaRequestPort k =>
    cases h
    refine iff_of_true hq ?_
    have hk : s.dmaRequests[k]? = none := Option.map_eq_none_iff.mp he
    unfold calm
    simp only [Bool.or_eq_true, decide_eq_true_eq]
    exact .inl (.inr (getElem?_eq_none_iff.mp hk))
  | replacement c => cases he
  | _ =>
    cases h
    exact iff_of_true hq rfl

theorem quiet_recycled {d : Directory size} {blk : DataBlock size} {o : List Nat} {t : Option (DirTBE size)} (hq : s.Quiet)
    (hd : s.dir.Is st blk o t) (his : d.Is st blk o t) :
    System.Quiet { s with toDirSide := { s.toDirSide with dir := d } } := by
  have hst : d.getState = s.dir.getState := his.getState.trans hd.getState.symm
  refine ⟨fun hw => ?_, fun hw => hq.dma (hst ▸ hw)⟩
  have howners := hq.owners (hst ▸ hw)
  rw [ownersOnly_iff] at howners ⊢
  intro r b hm
  have hr := howners r b hm
  have howner : s.owner = o := congrArg DirEntry.owner hd.entry
  have howner' : d.getDirectoryEntry.owner = o := congrArg DirEntry.owner his.entry
  rw [howner] at hr
  change r ∈ d.getDirectoryEntry.owner
  rw [howner']
  exact hr

variable {d : DirSide size}

theorem quiet_request {m : RequestMsg size} (hc : Coherent s st chain writer) (hq : s.Quiet)
    (hm : s.requests[k]? = some m) (h : s.toDirSide.dirStep k (s.requestEvent m) = .ok d) :
    System.Quiet { s with toDirSide := d } := by
  obtain ⟨blk, o, t, hd, hp⟩ := hc.dir
  have howner : s.owner = o := congrArg DirEntry.owner hd.entry
  have hdecl := declared_of_ok hd.getState h
  -- the states without a TBE are the base states and `IM`
  have htbe : st = .I ∨ st = .M → t = none := by
    rintro (rfl | rfl)
    · simpa using hp.of_I.2.1
    · obtain ⟨_, -, -, ht, -⟩ := hp.of_M
      simpa using ht
  cases m with
  | getx r =>
    by_cases hI : st = .I
    · subst hI
      obtain rfl := htbe (.inl rfl)
      obtain ⟨d', his, -, rfl⟩ := DirSide.I_getx hd hm h
      exact quiet_of_not_waits (congrArg DirState.waits his.getState)
    · by_cases hM : st = .M
      · subst hM
        obtain rfl := htbe (.inr rfl)
        obtain ⟨d', his, -, rfl⟩ := DirSide.M_getx hd hm h
        exact quiet_of_not_waits (congrArg DirState.waits his.getState)
      · obtain ⟨d', his, -, rfl⟩ := recycle hd (.inl (dirTransition_getx hp hI hM)) h hI
        exact quiet_recycled hq hd his
  | putx r b =>
    unfold requestEvent at h hdecl
    dsimp only at h hdecl
    split at h
    · rename_i hr
      rw [if_pos hr] at hdecl
      -- the write-back of the owner was the only one, if the directory waited for it
      have hnone : st.waits = true → ∀ r' b', RequestMsg.putx r' b' ∉ s.requests.eraseIdx k := by
        intro hw r' b' hm'
        have hmem : RequestMsg.putx r' b' ∈ s.requests := mem_of_mem_eraseIdx hm'
        have hr' := ownersOnly_iff.mp (hq.owners (hd.getState ▸ hw)) r' b' hmem
        rw [howner] at hr hr'
        have heq : r' = r := Option.some.inj (((mem_owner hp).mp hr').symm.trans ((mem_owner hp).mp hr))
        subst heq
        have hone : ∃ q, s.requestsOf r' = [q] := by
          rcases hc.putx_role hm with ⟨-, -, _, _, b₁, hv⟩ | ⟨_, _, _, b₁, _, -, -, -, hv, -⟩
          · exact ⟨_, (view_eq hv).2.1⟩
          · exact ⟨_, (view_eq hv).2.1⟩
        obtain ⟨q, hq⟩ := hone
        have hnil := (filter_eraseIdx_self hm hq rfl).2
        exact not_mem_nil (hnil ▸ mem_filter.mpr ⟨hm', decide_eq_true rfl⟩)
      cases st with
      | M =>
        obtain rfl := htbe (.inr rfl)
        obtain ⟨d', his, -, rfl⟩ := DirSide.M_putx hd hm h
        exact quiet_of_not_waits (congrArg DirState.waits his.getState)
      | M_DRD =>
        obtain ⟨t, rfl⟩ := Option.isSome_iff_exists.mp (hp.of_blocks rfl).choose_spec.2.2.1
        obtain ⟨d', rs, his, -, rfl⟩ := DirSide.M_DRD_putx hd hm h
        refine ⟨fun _ => ?_, fun _ => hq.dma (congrArg DirState.waits hd.getState)⟩
        rw [ownersOnly_iff]
        exact fun r' b' hm' => absurd hm' (hnone rfl r' b')
      | M_DWR =>
        obtain ⟨t, rfl⟩ := Option.isSome_iff_exists.mp (hp.of_blocks rfl).choose_spec.2.2.1
        obtain ⟨d', m', his, -, rfl⟩ := DirSide.M_DWR_putx hd hm h
        refine ⟨fun _ => ?_, fun _ => hq.dma (congrArg DirState.waits hd.getState)⟩
        rw [ownersOnly_iff]
        exact fun r' b' hm' => absurd hm' (hnone rfl r' b')
      | I | M_DWRI | M_DRDI => exact absurd rfl hdecl
      | IM | MI | ID | ID_W =>
        obtain ⟨d', his, -, rfl⟩ := recycle hd (.inl rfl) h nofun
        exact quiet_recycled hq hd his
    · rename_i hr
      rw [if_neg hr] at hdecl
      by_cases hbase : st = .I ∨ st = .M
      · obtain rfl := htbe hbase
        obtain ⟨d', his, -, rfl⟩ := nack hbase hd hm h
        apply quiet_of_not_waits
        change d'.getState.waits = false
        rw [his.getState]
        rcases hbase with rfl | rfl <;> rfl
      · cases st with
        | I | M => simp at hbase
        | IM | MI | ID | ID_W =>
          obtain ⟨d', his, -, rfl⟩ := recycle hd (.inl rfl) h nofun
          exact quiet_recycled hq hd his
        | M_DRD | M_DWR | M_DWRI | M_DRDI => exact absurd rfl hdecl

theorem quiet_dmaRequest {m : DMARequestMsg size} (hc : Coherent s st chain writer) (hq : s.Quiet)
    (hm : s.dmaRequests[k]? = some m) (h : s.toDirSide.dirStep k m.event = .ok d) :
    System.Quiet { s with toDirSide := d } ↔ s.calm (.dmaRequestPort k) = true := by
  obtain ⟨blk, o, t, hd, hp⟩ := hc.dir
  have hdecl := declared_of_ok hd.getState h
  have hcalm : st ≠ .M → s.calm (.dmaRequestPort k) = true := by
    intro hne
    unfold calm
    simp [hd.getState, hne]
  cases st with
  | I =>
    refine iff_of_true ?_ (hcalm nofun)
    obtain rfl : t = none := by simpa using hp.of_I.2.1
    unfold DMARequestMsg.event at h
    split at h
    · obtain ⟨d', b, his, -, rfl⟩ := DirSide.I_dmaWrite hd hm h
      exact quiet_of_not_waits (congrArg DirState.waits his.getState)
    · obtain ⟨d', his, -, rfl⟩ := DirSide.I_dmaRead hd hm h
      exact quiet_of_not_waits (congrArg DirState.waits his.getState)
  | M =>
    obtain ⟨c, -, -, ht, -⟩ := hp.of_M
    obtain rfl : t = none := by simpa using ht
    obtain ⟨d', his, -, rfl⟩ := DirSide.M_dma hd hm h
    have howner : d'.getDirectoryEntry.owner = s.owner :=
      (congrArg DirEntry.owner his.entry).trans (congrArg DirEntry.owner hd.entry).symm
    have hwaits : d'.getState.waits = true := by
      rw [his.getState]
      unfold blockedFor
      split <;> rfl
    have howners : ownersOnly { s with toDirSide := { s.forwardTo o .inv with
        dir := d', dmaRequests := s.dmaRequests.eraseIdx k } } = s.ownersOnly := by
      unfold ownersOnly
      change (s.requests.all fun m => match m with | .getx _ => true | .putx r _ => decide (r ∈ d'.getDirectoryEntry.owner)) = _
      rw [howner]
    have hlt : k < s.dmaRequests.length := (List.getElem?_eq_some_iff.mp hm).1
    have hnil : s.dmaRequests.eraseIdx k = [] ↔ s.dmaRequests.length = 1 := by
      rw [← length_eq_zero_iff, length_eraseIdx, if_pos hlt]
      omega
    have hlt' : ¬ s.dmaRequests.length ≤ k := by omega
    unfold calm
    simp only [hd.getState, ne_eq, not_true_eq_false, decide_false, Bool.false_or, decide_eq_false hlt', Bool.and_eq_true,
      decide_eq_true_eq]
    constructor
    · intro hq'
      exact ⟨hnil.mp (hq'.dma hwaits), howners.symm.trans (hq'.owners hwaits)⟩
    · rintro ⟨hlen, ho⟩
      exact ⟨fun _ => howners.trans ho, fun _ => hnil.mpr hlen⟩
  | IM | MI | ID | ID_W =>
    refine iff_of_true ?_ (hcalm nofun)
    obtain ⟨d', his, -, rfl⟩ := recycle hd (by unfold DMARequestMsg.event; split <;> exact .inr rfl) h nofun
    exact quiet_recycled hq hd his
  | M_DRD | M_DWR | M_DWRI | M_DRDI =>
    unfold DMARequestMsg.event at hdecl
    split at hdecl <;> exact absurd rfl hdecl

theorem quiet_mem {m : MemoryMsg size} (hc : Coherent s st chain writer) (hm : s.memQueue[k]? = some m)
    (h : s.toDirSide.dirStep k m.event = .ok d) : System.Quiet { s with toDirSide := d } := by
  obtain ⟨blk, o, t, hd, hp⟩ := hc.dir
  generalize ht : t.isSome = x at hp
  generalize hq : s.memQueue = mem at hp hm
  have hmem := mem_of_getElem? hm
  have hsome : x = true → ∃ u, t = some u := fun hx => Option.isSome_iff_exists.mp (ht.trans hx)
  cases hp with
  | idle | modified _ | blocked _ _ => cases hm
  | fetching =>
    obtain rfl := mem_singleton.mp hmem
    obtain rfl : t = none := by simpa using ht
    obtain ⟨d', his, -, rfl⟩ := DirSide.IM_memoryData hd (hq ▸ hm) rfl h
    exact quiet_of_not_waits (congrArg DirState.waits his.getState)
  | dmaRead =>
    obtain rfl := mem_singleton.mp hmem
    obtain ⟨u, rfl⟩ := hsome rfl
    obtain ⟨d', rs, his, -, rfl⟩ := DirSide.ID_memoryData hd (hq ▸ hm) h
    exact quiet_of_not_waits (congrArg DirState.waits his.getState)
  | dmaWrite =>
    obtain rfl := mem_singleton.mp hmem
    obtain ⟨u, rfl⟩ := hsome rfl
    obtain ⟨d', rs, his, -, rfl⟩ := DirSide.ID_W_memoryAck hd h
    exact quiet_of_not_waits (congrArg DirState.waits his.getState)
  | writing hst =>
    obtain rfl := mem_singleton.mp hmem
    obtain ⟨u, rfl⟩ := hsome rfl
    obtain ⟨d', rs, his, -, rfl⟩ := writeback_memoryAck hst hd (hq ▸ hm) rfl h
    exact quiet_of_not_waits (congrArg DirState.waits his.getState)

theorem quiet_step (hc : Coherent s st chain writer) (hq : s.Quiet) (h : s.step i = .ok s') :
    s'.Quiet ↔ s.calm i = true := by
  rcases step_cases h with ⟨c, ev, he, h⟩ | ⟨ev, d, he, h, rfl⟩ | ⟨he, h⟩
  · exact hc.quiet_cache hq he h
  · rcases event_dir he with ⟨k, m, rfl, hm, rfl⟩ | ⟨k, m, rfl, hm, rfl⟩ | ⟨k, m, rfl, hm, rfl⟩
    · exact iff_of_true (hc.quiet_request hq hm h) rfl
    · exact hc.quiet_dmaRequest hq hm h
    · exact iff_of_true (hc.quiet_mem hm h) rfl
  · exact quiet_dma hq he h

end Coherent

/-- In a run of calm steps every event has a transition, and a further step keeps this exactly when it is calm. -/
theorem calm_run_complete {useMap : Bool} {ram : DataBlock size} {h : List Input}
    (hr : Exec (StepIf calm step) (init useMap ram) h s) :
    s.Complete ∧ ∀ i s', s.step i = .ok s' → (s'.Complete ↔ s.calm i = true) := by
  obtain ⟨⟨st, chain, writer, hc⟩, hq⟩ : (∃ st chain writer, Coherent s st chain writer) ∧ s.Quiet := by
    apply hr.invariant
    · refine ⟨⟨.I, [], none, Coherent.init⟩, Coherent.quiet_of_not_waits ?_⟩
      rfl
    · rintro t i u ⟨⟨st, chain, writer, hc⟩, hq⟩ ⟨hcalm, hs⟩
      exact ⟨hc.step hs, (hc.quiet_step hq hs).mpr hcalm⟩
  refine ⟨hc.complete_iff_quiet.mpr hq, fun i s' hs => ?_⟩
  obtain ⟨st', chain', writer', hc'⟩ := hc.step hs
  rw [hc'.complete_iff_quiet]
  exact hc.quiet_step hq hs

/-- A DMA request is taken when the owner has the line and nothing else is on its way. -/
theorem calm_run_complete_one_dma :
    ∃ s : System 1, Exec (StepIf calm step) (init false DataBlock.clear)
        [.load 0, .requestPort 0, .memPort 0, .responsePort 0, .dmaRead 0 0 1, .dmaRequestPort 0] s ∧
      s.dir.getState = .M_DRD ∧ s.Complete := by
  refine Exec.ends_withIf (p := fun s => s.dir.getState = .M_DRD) (by decide) fun s hr hst => ?_
  exact ⟨of_decide_eq_true hst, (calm_run_complete hr).1⟩

/-- The second of two DMA requests has no transition. -/
theorem second_dma_undeclared : ∃ s : System 1, Exec (StepOf step) (init false DataBlock.clear)
        [.load 0, .requestPort 0, .memPort 0, .responsePort 0, .dmaRead 0 0 1, .dmaRead 1 0 1, .dmaRequestPort 0] s ∧
      s.event (.dmaRequestPort 0) = some (.dir .dmaRead) ∧ s.declared (.dir .dmaRead) = false ∧ ¬ s.Complete := by
  refine Exec.ends_with (p := fun s => s.event (.dmaRequestPort 0) = some (.dir .dmaRead) && s.declared (.dir .dmaRead) = false)
    (by decide) fun s hr hs => ?_
  obtain ⟨hev, hdecl⟩ := Bool.and_eq_true_iff.mp hs
  have hdecl := of_decide_eq_true hdecl
  refine ⟨of_decide_eq_true hev, hdecl, fun h => ?_⟩
  exact absurd (h _ _ (of_decide_eq_true hev)) (Bool.eq_false_iff.mp hdecl)

end Complete

end Gem5.Ruby
