import Gem5Nvmain.Ruby.MiRuns

/- Where the copies of the line are.

  A copy is in the directory, in a message to a cache, or in the cache that has the line:
  what a cache had before it gave the line away, or before its write-back was taken, is no copy. The copies come from
  copies: a step makes one of another (`Coherent.copy_step`), or stores to the only one, as long as no DMA write ends
  and the directory does not give its entry up. -/
namespace Gem5.Ruby
open Lib List System

variable {size : Nat}

/-- A copy at a cache. A write-back is one while the directory may take it, or while the line is asked for. -/
inductive View.Copy (v : View size) : DataBlock size → Prop
  | modified {d w} (hv : v.cache = ⟨some ⟨.M, d⟩, none, w⟩) : Copy v d
  | asked {d w r} (hv : v.cache = ⟨none, some ⟨.MI, d⟩, w⟩) (hm : .getx r ∈ v.forwards) : Copy v d
  | leaving {d w c b} (hv : v.cache = ⟨none, some ⟨.MI, d⟩, w⟩) (hm : .putx c b ∈ v.requests) : Copy v d
  | putx {d w c b} (hv : v.cache = ⟨none, some ⟨.MI, d⟩, w⟩) (hm : .putx c b ∈ v.requests) : Copy v b

/-- The states in which the entry of the directory has the data. -/
def DirState.inEntry (st : DirState) : Bool :=
  st = .I || st = .ID || st = .ID_W || st = .M_DRDI || st = .M_DWRI

/-- A copy at the directory, by its state, its entry, its TBE and the memory queue. -/
inductive DirCopy (st : DirState) (blk : DataBlock size) (t : Option (DirTBE size)) (mem : List (MemoryMsg size)) :
    DataBlock size → Prop
  | entry (hst : st.inEntry = true) : DirCopy st blk t mem blk
  | tbe {u} (hst : st = .MI) (ht : t = some u) : DirCopy st blk t mem u.dataBlk
  | fetched {m} (hst : st = .IM) (hm : m ∈ mem) : DirCopy st blk t mem m.dataBlk

def DirSide.Copy (s : DirSide size) : DataBlock size → Prop :=
  DirCopy s.dir.getState s.dir.getDirectoryEntry.dataBlk s.dir.tbe s.memQueue

inductive System.Copy (s : System size) : DataBlock size → Prop
  | dir {d} (h : s.toDirSide.Copy d) : Copy s d
  | message {m} (hm : m ∈ s.responses) : Copy s m.dataBlk
  | cache {d c} (h : (s.view c).Copy d) : Copy s d

/-- The block after a store, if there is one. -/
def DataBlock.store (blk : DataBlock size) : Option Write → DataBlock size
  | none => blk
  | some w => (blk.setData w.data w.offset).toOption.getD blk

/-- The store that a step does: of a processor, or of the one that waits for its data. -/
def System.performs (s : System size) : Input → Option Write
  | .store c w => if (s.caches c).getState = .M then some w else none
  | .responsePort k => s.responses[k]?.bind fun m =>
    if (s.caches m.destination).getState = .IM then (s.caches m.destination).write else none
  | _ => none

section Copies
variable {s s' : System size} {st : DirState} {chain : List Nat} {writer : Option Nat} {i : Input} {c k : Nat}
  {d b : DataBlock size} {v v' : View size}

variable {blk : DataBlock size}

theorem DirSide.copy_iff {x : DirSide size} {o : List Nat} {t : Option (DirTBE size)}
    (hd : x.dir.Is st blk o t) : x.Copy d ↔ DirCopy st blk t x.memQueue d := by
  unfold DirSide.Copy
  rw [hd.getState, hd.entry, hd.tbe]

namespace View

theorem Copy.mono (h : v'.Copy d) (hcache : v'.cache = v.cache) (hreq : ∀ m ∈ v'.requests, m ∈ v.requests)
    (hfwd : ∀ r, .getx r ∈ v'.forwards → .getx r ∈ v.forwards) : v.Copy d := by
  cases h with
  | modified hv => exact .modified (hcache.symm.trans hv)
  | asked hv hm => exact .asked (hcache.symm.trans hv) (hfwd _ hm)
  | leaving hv hm => exact .leaving (hcache.symm.trans hv) (hreq _ hm)
  | putx hv hm => exact .putx (hcache.symm.trans hv) (hreq _ hm)

theorem not_copy (hM : v.cache.getState ≠ .M) (hMI : v.cache.getState = .MI →
    (∀ c b, .putx c b ∉ v.requests) ∧ ∀ r, .getx r ∉ v.forwards) : ¬ v.Copy d := by
  intro h
  cases h with
  | modified hv =>
    rw [hv] at hM
    exact hM rfl
  | asked hv hm =>
    rw [hv] at hMI
    exact (hMI rfl).2 _ hm
  | leaving hv hm | putx hv hm =>
    rw [hv] at hMI
    exact (hMI rfl).1 _ _ hm

end View

theorem Away.not_copy (h : Away c v) : ¬ v.Copy d := by
  apply View.not_copy
  · intro hM
    cases h with
    | idle he =>
      rename_i e _
      cases e with
      | none => cases hM
      | some y => cases (he y rfl).symm.trans hM
    | asking hst =>
      rcases hst with rfl | rfl <;> cases hM
    | unwanted | nacked | acked _ => cases hM
  · intro hMI
    cases h with
    | idle he =>
      rename_i e _
      cases e with
      | none => cases hMI
      | some y => cases (he y rfl).symm.trans hMI
    | asking hst =>
      rcases hst with rfl | rfl <;> cases hMI
    | unwanted | nacked => cases hMI
    | acked hfs => rcases hfs with rfl | rfl <;> simp

theorem Writing.not_copy (h : Writing v) : ¬ v.Copy d := by
  obtain ⟨hfs⟩ := h
  apply View.not_copy
  · exact nofun
  · rcases hfs with rfl | rfl <;> simp

theorem Waiting.not_copy {q : List ForwardMsg} (h : Waiting q v) : ¬ v.Copy d := by
  obtain ⟨hst⟩ := h
  apply View.not_copy <;> rcases hst with rfl | rfl <;> exact nofun

namespace Coherent

/-- Once the line is fetched, its copies are at the first cache on the chain, or on the way to it. -/
theorem only_copy {l : List Nat} (hc : Coherent s st (c :: l) writer) (hne : st ≠ .IM) :
    (∀ d, ¬ s.toDirSide.Copy d) ∧ ∀ a d, a ≠ c → ¬ (s.view a).Copy d := by
  obtain ⟨blk, o, t, hd, hp⟩ := hc.dir
  refine ⟨fun d h => ?_, fun a d ha h => ?_⟩
  · have hst : st = .M ∨ st.blocks = true := by
      generalize t.isSome = x at hp
      generalize s.memQueue = mem at hp
      cases hp with
      | modified _ => exact .inl rfl
      | blocked hst _ => exact .inr hst
      | fetching => exact absurd rfl hne
    have hentry : st.inEntry = false ∧ st ≠ .MI := by
      rcases hst with rfl | hst
      · decide
      · cases st with
        | M_DRD | M_DWR => decide
        | _ => cases hst
    rw [DirSide.copy_iff hd] at h
    cases h with
    | entry hst =>
      rw [hentry.1] at hst
      cases hst
    | tbe hst _ => exact hentry.2 hst
    | fetched hst _ => exact hne hst
  · cases hc.role a with
    | away _ _ hv => exact hv.not_copy h
    | writing _ hv => exact hv.not_copy h
    | first hl _ => exact ha (cons.inj hl).1.symm
    | behind _ hv => exact hv.not_copy h

/-- A write-back of a cache on the chain is a copy. -/
theorem copy_of_mem {w : Option Write} (hc : Coherent s st chain writer) (hm : c ∈ chain)
    (hx : s.caches c = ⟨none, some ⟨.MI, d⟩, w⟩) : (s.view c).Copy d := by
  have hwait : ∀ {q : List ForwardMsg}, ¬ Waiting q (s.view c) := by
    intro q h
    generalize he : s.view c = v at h
    obtain ⟨-⟩ := h
    obtain ⟨hx', -, -⟩ := view_eq he
    cases hx.symm.trans hx'
  cases hc.role c with
  | away hnot _ _ => exact absurd hm hnot
  | writing hw _ => exact absurd hw (hc.not_writer hm)
  | behind _ hv => exact absurd hv hwait
  | first _ hv =>
    generalize s.responses = rs at hv
    cases hv with
    | fetching _ hv | sent _ hv => exact absurd hv hwait
    | held _ hv =>
      generalize he : s.view c = v at hv
      obtain ⟨hx', -, -⟩ := view_eq he
      cases hv with
      | modified => cases hx.symm.trans hx'
      | leaving | freed _ _ | nacked _ => ?_
      · cases hx.symm.trans hx'
        exact .leaving rfl (mem_singleton.mpr rfl)
      · cases hx.symm.trans hx'
        exact .leaving rfl (mem_singleton.mpr rfl)
      · cases hx.symm.trans hx'
        exact .asked rfl mem_cons_self

end Coherent

/-! Steps of a cache. -/

theorem DataBlock.store_eq {w : Write} (h : blk.setData w.data w.offset = .ok d) : blk.store (some w) = d := by
  change (blk.setData w.data w.offset).toOption.getD blk = d
  rw [h]
  rfl

namespace System

variable {x : Cache size} {q : List (RequestMsg size)} {fs : List ForwardMsg} {rs : List (ResponseMsg size)}

theorem copy_after (hq : ∀ m ∈ q, m.requestor = c) (h : (s.after c x q fs rs).Copy d) :
    s.toDirSide.Copy d ∨ (∃ m ∈ rs, m.dataBlk = d) ∨ (∃ a, a ≠ c ∧ (s.view a).Copy d) ∨
      View.Copy ⟨x, s.requestsOf c ++ q, fs⟩ d := by
  cases h with
  | dir h => exact .inl h
  | message hm => exact .inr (.inl ⟨_, hm, rfl⟩)
  | cache h =>
    rename_i a
    by_cases ha : a = c
    · rw [ha, view_after_self hq] at h
      exact .inr (.inr (.inr h))
    · rw [view_after_ne hq ha] at h
      exact .inr (.inr (.inl ⟨a, ha, h⟩))

theorem copy_own (hq : ∀ m ∈ q, m.requestor = c) (hrs : ∀ m ∈ rs, s.Copy m.dataBlk)
    (hown : ∀ b, View.Copy ⟨x, s.requestsOf c ++ q, fs⟩ b → s.Copy b) (h : (s.after c x q fs rs).Copy d) : s.Copy d := by
  rcases copy_after hq h with h | ⟨m, hm, rfl⟩ | ⟨a, -, h⟩ | h
  · exact .dir h
  · exact hrs m hm
  · exact .cache h
  · exact hown d h

theorem copy_leave {w : Option Write} (hx : s.caches c = ⟨some ⟨.M, b⟩, none, w⟩) (hq : s.requestsOf c = [])
    (h : (s.after c ⟨none, some ⟨.MI, b⟩, w⟩ [.putx c b] (s.forwards c) s.responses).Copy d) : s.Copy d := by
  have hcopy : s.Copy b := .cache (.modified hx)
  apply copy_own (c := c) (forall_mem_singleton.mpr rfl) (fun m hm => .message hm) _ h
  intro p hp
  rw [hq] at hp
  cases hp with
  | modified hv => cases hv
  | asked hv _ | leaving hv _ =>
    cases hv
    exact hcopy
  | putx hv hm =>
    cases mem_singleton.mp hm
    exact hcopy

end System

namespace Coherent

/-- Loads, stores and replacements. -/
theorem copy_processor {ev : CacheEvent} {u : Option Write} (hc : Coherent s st chain writer)
    (hev : (ev = .load ∧ u = none) ∨ (ev = .store ∧ ∃ y, u = some y) ∨ (ev = .replacement ∧ u = none))
    (h : s.cacheStep c k u ev = .ok s') (hd : s'.Copy d) :
    ∃ b, s.Copy b ∧ d = b.store (if (s.caches c).getState = .M then u else none) := by
  have hcases : ev = .load ∨ ev = .store ∨ ev = .replacement := by
    rcases hev with ⟨rfl, -⟩ | ⟨rfl, -⟩ | ⟨rfl, -⟩ <;> simp
  have hmessage : ∀ m ∈ s.responses, s.Copy m.dataBlk := fun m hm => .message hm
  have hidle : ∀ {x : Cache size} {q : List (RequestMsg size)}, (∀ m ∈ q, m.requestor = c) →
      (∀ b, ¬ View.Copy ⟨x, s.requestsOf c ++ q, s.forwards c⟩ b) → s' = s.after c x q (s.forwards c) s.responses →
      s.Copy d := by
    rintro x q hq hnot rfl
    exact copy_own hq hmessage (fun b hb => absurd hb (hnot b)) hd
  rcases hc.shape c with ⟨hm, hw, e, w, hv, he⟩ | ⟨l, b, w, hl, hne, hresp, hv⟩ | hbusy
  · obtain ⟨hx, hq, hf⟩ := view_eq hv
    have hI : (s.caches c).getState ≠ .M := by
      rw [hx]
      cases e with
      | none => exact nofun
      | some y =>
        intro hM
        cases (he y rfl).symm.trans hM
    rw [if_neg hI]
    refine ⟨d, ?_, rfl⟩
    have hone : ∀ m ∈ ([.getx c] : List (RequestMsg size)), m.requestor = c := forall_mem_singleton.mpr rfl
    rcases hev with ⟨rfl, rfl⟩ | ⟨rfl, y, rfl⟩ | ⟨rfl, rfl⟩
    · apply hidle hone _ (cacheStep_ask hx he (.inl ⟨rfl, rfl⟩) h)
      intro b
      rw [hq, hf]
      exact (Away.asking (.inl rfl)).not_copy
    · apply hidle hone _ (cacheStep_ask hx he (.inr ⟨rfl, rfl⟩) h)
      intro b
      rw [hq, hf]
      exact (Away.asking (.inr rfl)).not_copy
    · apply hidle (forall_mem_nil _) _ (cacheStep_dropInvalid hx he h)
      intro b
      rw [hq, hf]
      exact (Away.idle (c := c) (e := none) nofun).not_copy
  · obtain ⟨hx, hq, hf⟩ := view_eq hv
    have hM : (s.caches c).getState = .M := by
      rw [hx]
      rfl
    have hcopy : s.Copy b := .cache (.modified hx)
    rw [if_pos hM]
    rcases hev with ⟨rfl, rfl⟩ | ⟨rfl, y, rfl⟩ | ⟨rfl, rfl⟩
    · rw [cacheStep_loadHit hx h] at hd
      exact ⟨d, hd, rfl⟩
    · obtain ⟨blk, hblk, rfl⟩ := cacheStep_storeHit hx h
      subst hl
      obtain ⟨hdir, hothers⟩ := hc.only_copy hne
      refine ⟨b, hcopy, ?_⟩
      rw [DataBlock.store_eq hblk]
      rcases copy_after (forall_mem_nil _) hd with hd | ⟨m, hmem, -⟩ | ⟨a, ha, hd⟩ | hd
      · exact absurd hd (hdir d)
      · rw [hresp] at hmem
        cases hmem
      · exact absurd hd (hothers a d ha)
      · cases hd with
        | modified hv =>
          cases hv
          rfl
        | asked hv _ | leaving hv _ | putx hv _ => cases hv
    · refine ⟨d, ?_, rfl⟩
      rw [cacheStep_leave hx (.inl rfl) h] at hd
      exact copy_leave hx hq hd
  · rw [stall_spec rfl h (stalls hbusy hcases)] at hd
    rw [if_neg]
    · exact ⟨d, hd, rfl⟩
    · intro hM
      rw [hM] at hbusy
      rcases hbusy with (h | h) | h | h <;> cases h

variable {m : ForwardMsg}

/-- The cache that has the line takes a message. -/
theorem copy_forward_held {n : Option Nat} (hr : s.responses = []) (hv : Holding c st n (s.view c))
    (hm : (s.forwards c).head? = some m) (h : s.cacheStep c k none m.event = .ok s') (hd : s'.Copy d) : s.Copy d := by
  have hgive : ∀ {p : Nat} {b : DataBlock size} {x : Cache size} {fs : List ForwardMsg}, s.Copy b →
      Away c ⟨x, s.requestsOf c, fs⟩ → s' = s.after c x [] fs (s.responses ++ [⟨p, b⟩]) → s.Copy d := by
    rintro p b x fs hb haway rfl
    apply copy_own (forall_mem_nil _) (fun m hm => ?_) (fun b hb => ?_) hd
    · rw [hr] at hm
      cases mem_singleton.mp hm
      exact hb
    · rw [append_nil] at hb
      exact absurd hb haway.not_copy
  generalize he : s.view c = v at hv
  obtain ⟨hx, hq, hf⟩ := view_eq he
  have hcopy : ∀ {b}, View.Copy v b → s.Copy b := fun hb => .cache (he ▸ hb)
  cases hv with
  | modified =>
    obtain ⟨fs, hfs⟩ := head?_eq_some_iff.mp (hf ▸ hm)
    obtain ⟨rfl, ⟨rfl, -⟩ | ⟨p, rfl, hn⟩⟩ := mem_queued hfs
    · rw [cacheStep_leave hx (.inr rfl) h] at hd
      exact copy_leave hx hq hd
    · apply hgive (hcopy (.modified rfl)) _ (cacheStep_handOver hx (hf.trans hfs) h)
      rw [hq]
      exact .idle (by rintro _ ⟨⟩; rfl)
  | leaving =>
    obtain ⟨fs, hfs⟩ := head?_eq_some_iff.mp (hf ▸ hm)
    obtain ⟨rfl, ⟨rfl, -⟩ | ⟨p, rfl, hn⟩⟩ := mem_queued hfs
    · rw [cacheStep_skipInv hx h] at hd
      apply copy_own (forall_mem_nil _) (fun m hm => .message hm) (fun b hb => ?_) hd
      refine hcopy (hb.mono rfl (fun m hm => ?_) fun r hm => ?_)
      · rwa [append_nil, hq] at hm
      · rw [hf] at hm
        exact mem_of_mem_tail hm
    · apply hgive (hcopy (.leaving rfl (mem_singleton.mpr rfl))) _
        (cacheStep_handOverTBE hx (hf.trans hfs) h)
      rw [hq]
      exact .unwanted
  | freed _ _ =>
    rw [hf] at hm
    cases hm
  | nacked hn =>
    rw [hf] at hm
    cases hm
    apply hgive (hcopy (.asked rfl mem_cons_self)) _ (cacheStep_handOverTBE hx hf h)
    rw [hq]
    exact .nacked

/-- A cache takes a message of the directory. -/
theorem copy_forward (hc : Coherent s st chain writer) (hm : (s.forwards c).head? = some m)
    (h : s.cacheStep c k none m.event = .ok s') (hd : s'.Copy d) : s.Copy d := by
  have hgone : ∀ {x : Cache size} {fs : List ForwardMsg}, (∀ b, ¬ View.Copy ⟨x, s.requestsOf c, fs⟩ b) →
      s' = s.after c x [] fs s.responses → s.Copy d := by
    rintro x fs hnot rfl
    apply copy_own (forall_mem_nil _) (fun m hm => .message hm) (fun b hb => ?_) hd
    rw [append_nil] at hb
    exact absurd hb (hnot b)
  cases hc.role c with
  | away _ _ hv =>
    generalize he : s.view c = v at hv
    obtain ⟨hx, hq, hf⟩ := view_eq he
    cases hv with
    | idle _ | asking _ | unwanted =>
      rw [hf] at hm
      cases hm
    | nacked =>
      rw [hf] at hm
      cases hm
      apply hgone _ (cacheStep_left hx (.inr ⟨rfl, rfl⟩) h)
      intro b
      rw [hq, hf]
      exact (Away.idle (c := c) (e := none) nofun).not_copy
    | acked hfs =>
      rw [hf] at hm
      rcases hfs with rfl | rfl
      · cases hm
        apply hgone _ (cacheStep_left hx (.inl ⟨rfl, rfl⟩) h)
        intro b
        rw [hq, hf]
        exact (Away.idle (c := c) (e := none) nofun).not_copy
      · cases hm
        apply hgone _ (cacheStep_skipInv hx h)
        intro b
        rw [hq, hf]
        exact (Away.acked (c := c) (.inl rfl)).not_copy
  | writing _ hv =>
    generalize he : s.view c = v at hv
    obtain ⟨hfs⟩ := hv
    obtain ⟨hx, hq, hf⟩ := view_eq he
    rw [hf] at hm
    rcases hfs with rfl | rfl
    · cases hm
    · cases hm
      apply hgone _ (cacheStep_skipInv hx h)
      intro b
      rw [hq, hf]
      exact (Writing.mk (.inl rfl)).not_copy
  | first _ hv =>
    generalize hr : s.responses = rs at hv
    cases hv with
    | fetching _ hv | sent _ hv =>
      rw [waiting_forward hv hm h] at hd
      exact hd
    | held _ hv => exact copy_forward_held hr hv hm h hd
  | behind _ hv =>
    rw [waiting_forward hv hm h] at hd
    exact hd

/-- The `DATA` arrives. -/
theorem copy_response {m : ResponseMsg size} (hc : Coherent s st chain writer) (hm : s.responses[k]? = some m)
    (h : s.cacheStep m.destination k none .data = .ok s') (hd : s'.Copy d) :
    ∃ b, s.Copy b ∧ d = b.store (if (s.caches m.destination).getState = .IM then (s.caches m.destination).write else none) := by
  cases hl : chain with
  | nil =>
    rw [hc.free hl] at hm
    cases hm
  | cons c l =>
    subst hl
    have hv := hc.first c l rfl
    generalize hr : s.responses = rs at hv hm
    cases hv with
    | fetching _ _ | held _ _ => cases hm
    | sent hne hv =>
      rename_i p
      obtain ⟨rfl, rfl⟩ : k = 0 ∧ m = ⟨c, p⟩ := by
        cases k with
        | zero => exact ⟨rfl, (Option.some.inj hm).symm⟩
        | succ k => cases hm
      have hm' : s.responses[0]? = some ⟨c, p⟩ := hr ▸ hm
      have hcopy : s.Copy p := .message (mem_of_getElem? hm')
      obtain ⟨hdir, hothers⟩ := hc.only_copy hne
      -- the data are in the cache now, and nowhere else
      have hnew : ∀ {b : DataBlock size} {w : Option Write},
          s' = s.after c ⟨some ⟨.M, b⟩, none, w⟩ [] (s.forwards c) (s.responses.eraseIdx 0) → d = b := by
        rintro b w rfl
        rcases copy_after (forall_mem_nil _) hd with hd | ⟨m, hmem, -⟩ | ⟨a, ha, hd⟩ | hd
        · exact absurd hd (hdir d)
        · rw [hr] at hmem
          cases hmem
        · exact absurd hd (hothers a d ha)
        · cases hd with
          | modified hv =>
            cases hv
            rfl
          | asked hv _ | leaving hv _ | putx hv _ => cases hv
      refine ⟨p, hcopy, ?_⟩
      generalize he : s.view c = v at hv
      obtain ⟨hst⟩ := hv
      obtain ⟨hx, -, -⟩ := view_eq he
      rw [hx]
      rcases hst with rfl | rfl
      · exact hnew (cacheStep_loadData hx hm' h)
      · obtain ⟨y, blk, rfl, hblk, hs'⟩ := cacheStep_storeData hx hm' h
        exact (hnew hs').trans (DataBlock.store_eq hblk).symm

end Coherent

end Copies

end Gem5.Ruby
