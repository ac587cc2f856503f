import Gem5Nvmain.Ruby.MiCoherence

/- The steps of the directory keep the invariant of MI_example.

  A cache joins the chain when its request is taken (`Coherent.start`, `Coherent.join`), and the chain is dissolved by
  the write-back of its only member (`Coherent.release`, `Coherent.finish`). -/
namespace Gem5.Ruby
open Lib List DirSide System

variable {size : Nat}

section DirSteps
variable {s s' : System size} {st st' : DirState} {chain : List Nat} {writer : Option Nat} {r k : Nat} {b : DataBlock size}
  {o : List Nat} {t : Option (DirTBE size)} {blk : DataBlock size}

namespace Coherent

theorem mem_requestsOf {m : RequestMsg size} (hm : s.requests[k]? = some m) : m ∈ (s.view m.requestor).requests :=
  mem_filter.mpr ⟨mem_of_getElem? hm, decide_eq_true rfl⟩

/-- Who asks for the line is off the chain. -/
theorem getx_role (hc : Coherent s st chain writer) (hm : s.requests[k]? = some (.getx r)) :
    r ∉ chain ∧ writer ≠ some r ∧
      ∃ st d b w, Pending st ∧ s.view r = ⟨⟨some ⟨st, d⟩, some ⟨st, b⟩, w⟩, [.getx r], []⟩ := by
  have hmem : RequestMsg.getx r ∈ (s.view r).requests := mem_requestsOf hm
  cases hc.role r with
  | away hr hw h =>
    generalize s.view r = v at h hmem
    cases h with
    | asking hst => exact ⟨hr, hw, _, _, _, _, hst, rfl⟩
    | idle _ | nacked | acked _ => cases hmem
    | unwanted => cases mem_singleton.mp hmem
  | writing _ h =>
    generalize s.view r = v at h hmem
    cases h
    cases hmem
  | first _ h =>
    generalize s.view r = v at h hmem
    generalize s.responses = rs at h
    cases h with
    | fetching _ h | sent _ h =>
      cases h
      cases hmem
    | held _ h =>
      cases h with
      | modified | nacked _ => cases hmem
      | leaving | freed _ _ => cases mem_singleton.mp hmem
  | behind _ h =>
    generalize s.view r = v at h hmem
    cases h
    cases hmem

/-- Who writes the line back has lost it, or has it. -/
theorem putx_role (hc : Coherent s st chain writer) (hm : s.requests[k]? = some (.putx r b)) :
    (r ∉ chain ∧ writer ≠ some r ∧ ∃ d w b, s.view r = ⟨⟨none, some ⟨.II, d⟩, w⟩, [.putx r b], []⟩) ∨
    (∃ l d w b fs, chain = r :: l ∧ st ≠ .IM ∧ s.responses = [] ∧ s.view r = ⟨⟨none, some ⟨.MI, d⟩, w⟩, [.putx r b], fs⟩ ∧
      (fs = queued st l.head? ∨ fs = [] ∧ l.head? = none)) := by
  have hmem : RequestMsg.putx r b ∈ (s.view r).requests := mem_requestsOf hm
  cases hc.role r with
  | away hr hw h =>
    generalize s.view r = v at h hmem
    cases h with
    | unwanted => exact .inl ⟨hr, hw, _, _, _, rfl⟩
    | idle _ | nacked | acked _ => cases hmem
    | asking _ => cases mem_singleton.mp hmem
  | writing _ h =>
    generalize s.view r = v at h hmem
    cases h
    cases hmem
  | first hl h =>
    generalize s.view r = v at h hmem
    generalize s.responses = rs at h
    cases h with
    | fetching _ h | sent _ h =>
      cases h
      cases hmem
    | held hne h =>
      cases h with
      | modified | nacked _ => cases hmem
      | leaving => exact .inr ⟨_, _, _, _, _, hl, hne, rfl, rfl, .inl rfl⟩
      | freed hn _ => exact .inr ⟨_, _, _, _, _, hl, hne, rfl, rfl, .inr ⟨rfl, hn⟩⟩
  | behind _ h =>
    generalize s.view r = v at h hmem
    cases h
    cases hmem

theorem start (hc : Coherent s .I [] none) (hothers : ∀ a, a ≠ r → s'.view a = s.view a)
    (hdir : s'.dir.Is .IM blk [r] none) (hmem : s'.memQueue = [⟨false, some r, b⟩]) (hresp : s'.responses = s.responses)
    (hv : Waiting [] (s'.view r)) : Coherent s' .IM [r] none where
  nodup := nodup_singleton r
  dir := ⟨_, _, _, hdir, hmem ▸ .fetching⟩
  away a ha hw := by
    rw [hothers a fun h => ha (mem_singleton.mpr h)]
    exact hc.away a not_mem_nil hw
  writing _ hw := nomatch hw
  free hnil := nomatch hnil
  first a l hl := by
    cases hl
    rw [hresp, hc.free rfl]
    exact .fetching rfl hv
  behind _ ha := nomatch ha

theorem grant (hc : Coherent s .IM [r] none) (hothers : ∀ a, s'.view a = s.view a) (hdir : s'.dir.Is .M blk [r] none)
    (hmem : s'.memQueue = []) (hresp : s'.responses = s.responses ++ [⟨r, b⟩]) : Coherent s' .M [r] none where
  nodup := hc.nodup
  dir := ⟨_, _, _, hdir, hmem ▸ .modified rfl⟩
  away a ha hw := by
    rw [hothers a]
    exact hc.away a ha hw
  writing _ hw := nomatch hw
  free hnil := nomatch hnil
  first a l hl := by
    cases hl
    have hv := hc.first r [] rfl
    generalize s.responses = rs at hv hresp
    cases hv with
    | fetching _ hv =>
      rw [hresp, hothers r]
      exact .sent nofun hv
    | sent hne _ => exact absurd rfl hne
    | held hne _ => exact absurd rfl hne
  behind _ ha := nomatch ha

theorem quiet (hc : Coherent s st [] none) (hothers : ∀ a, s'.view a = s.view a) (hdir : s'.dir.Is st' blk o t)
    (hp : Phase st' o t.isSome s'.memQueue [] none) (hresp : s'.responses = s.responses) : Coherent s' st' [] none where
  nodup := hc.nodup
  dir := ⟨_, _, _, hdir, hp⟩
  away a ha hw := by
    rw [hothers a]
    exact hc.away a ha hw
  writing _ hw := nomatch hw
  free _ := hresp.trans (hc.free rfl)
  first _ _ hl := nomatch hl
  behind _ ha := nomatch ha

/-- The write-back of the only cache on the chain. -/
theorem release (hc : Coherent s st [r] none) (hothers : ∀ a, a ≠ r → s'.view a = s.view a)
    (hst : st' = .MI ∨ st' = .M_DRDI ∨ st' = .M_DWRI) (hdir : s'.dir.Is st' blk [] t) (ht : t.isSome = true)
    (hmem : s'.memQueue = [⟨true, some r, b⟩]) (hresp : s'.responses = []) (hv : Writing (s'.view r)) :
    Coherent s' st' [] (some r) where
  nodup := nodup_nil
  dir := ⟨_, _, _, hdir, by rw [hmem, ht]; exact .writing hst⟩
  away a _ hw := by
    have hne : a ≠ r := fun h => hw (congrArg some h.symm)
    rw [hothers a hne]
    exact hc.away a (fun h => hne (mem_singleton.mp h)) nofun
  writing a hw := by
    cases hw
    exact hv
  free _ := hresp
  first _ _ hl := nomatch hl
  behind _ ha := nomatch ha

theorem finish (hc : Coherent s st [] (some r)) (hothers : ∀ a, a ≠ r → s'.view a = s.view a)
    (hdir : s'.dir.Is .I blk [] none) (hmem : s'.memQueue = []) (hresp : s'.responses = s.responses)
    (hv : Away r (s'.view r)) : Coherent s' .I [] none where
  nodup := nodup_nil
  dir := ⟨_, _, _, hdir, hmem ▸ .idle⟩
  away a ha _ := by
    by_cases h : a = r
    · rw [h]
      exact hv
    · rw [hothers a h]
      exact hc.away a ha fun hw => h (Option.some.inj hw).symm
  writing _ hw := nomatch hw
  free _ := hresp.trans (hc.free rfl)
  first _ _ hl := nomatch hl
  behind _ ha := nomatch ha

end Coherent

/-- The directory sends a message to the last cache on the chain. -/
def View.told (v : View size) (n : Option Nat) (q : List ForwardMsg) : View size :=
  if n = none then { v with forwards := v.forwards ++ q } else v

theorem System.view_told {a : Nat} {m : ForwardMsg} (hn : chain.Nodup) (hlast : chain.getLast? = some r) (ha : a ∈ chain) :
    (s.view a).told (next chain a) [m] = ⟨s.caches a, s.requestsOf a, (s.forwardTo [r] m).forwards a⟩ := by
  unfold View.told forwardTo
  by_cases har : a = r
  · have hnone : Lib.next chain a = none := (next_eq_none hn ha).mpr (har ▸ hlast)
    simp [har, har ▸ hnone, view]
  · have hsome : Lib.next chain a ≠ none := by
      rw [Ne, next_eq_none hn ha, hlast]
      exact fun h => har (Option.some.inj h).symm
    simp [har, hsome, view]

section Told
variable {v : View size} {c : Nat} {n p : Option Nat} {rs : List (ResponseMsg size)}

theorem Waiting.told (st : DirState) (h : Waiting (queued .M n) v) (hn : n ≠ none → p = n) :
    Waiting (queued st p) (v.told n (queued st p)) := by
  cases n with
  | none =>
    obtain ⟨hst⟩ := h
    exact ⟨hst⟩
  | some b =>
    rw [hn nofun]
    exact h

theorem Holding.told (h : Holding c .M n v) (hn : n ≠ none → p = n) : Holding c st p (v.told n (queued st p)) := by
  cases n with
  | none =>
    cases h with
    | modified => exact .modified
    | leaving => exact .leaving
    | freed _ hst => cases hst
    | nacked h => cases h
  | some b =>
    rw [hn nofun]
    cases h with
    | modified => exact .modified
    | leaving => exact .leaving
    | freed h _ => cases h
    | nacked h => exact .nacked h

theorem First.told (h : First c .M n v rs) (hst : st ≠ .IM) (hn : n ≠ none → p = n) :
    First c st p (v.told n (queued st p)) rs := by
  cases h with
  | fetching h _ => cases h
  | sent _ h => exact .sent hst (h.told st hn)
  | held _ h => exact .held hst (h.told hn)

end Told

namespace Coherent

/-- A cache joins the chain, and the last one is told. -/
theorem join (hc : Coherent s .M chain none) (hr : r ∉ chain)
    (hchain : ∀ a ∈ chain, s'.view a = (s.view a).told (next chain a) [.getx r])
    (hothers : ∀ a, a ∉ chain → a ≠ r → s'.view a = s.view a) (hdir : s'.dir.Is .M blk [r] none) (hmem : s'.memQueue = [])
    (hresp : s'.responses = s.responses) (hne : chain ≠ []) (hv : Waiting [] (s'.view r)) :
    Coherent s' .M (chain ++ [r]) none where
  nodup := by
    apply List.Nodup.append hc.nodup (nodup_singleton r)
    rintro a ha h
    exact hr (mem_singleton.mp h ▸ ha)
  dir := ⟨_, _, _, hdir, hmem ▸ .modified getLast?_concat⟩
  away a ha hw := by
    obtain ⟨hac, har⟩ := not_or.mp (mt mem_append.mpr ha)
    rw [hothers a hac fun h => har (mem_singleton.mpr h)]
    exact hc.away a hac hw
  writing _ hw := nomatch hw
  free hnil := absurd (append_eq_nil_iff.mp hnil).1 hne
  first a l hl := by
    cases chain with
    | nil => exact absurd rfl hne
    | cons c l' =>
      rw [cons_append] at hl
      obtain ⟨rfl, rfl⟩ := cons.inj hl
      have hfirst := hc.first c l' rfl
      rw [hchain c mem_cons_self, hresp, next_cons_self]
      have hhead : (l' ++ [r]).head? = l'.head?.or (some r) := head?_append
      rw [hhead]
      cases hn : l'.head? with
      | none =>
        rw [hn] at hfirst
        exact hfirst.told nofun (absurd rfl)
      | some b =>
        rw [hn] at hfirst
        exact hfirst
  behind a ha := by
    have hcases : a ∈ chain.tail ∨ a = r := by
      rw [tail_append_of_ne_nil hne] at ha
      exact (mem_append.mp ha).imp_right mem_singleton.mp
    rcases hcases with ha | rfl
    · have hmem := mem_of_mem_tail ha
      have hwait := hc.behind a ha
      rw [hchain a hmem, next_concat hmem]
      cases hn : Lib.next chain a with
      | none =>
        rw [hn] at hwait
        exact hwait.told .M (absurd rfl)
      | some b =>
        rw [hn] at hwait
        exact hwait
    · rw [next_concat_self hr]
      exact hv

/-- The directory asks the owner for the line. -/
theorem block (hc : Coherent s .M chain none) (hst : st.blocks = true)
    (hchain : ∀ a ∈ chain, s'.view a = (s.view a).told (next chain a) [.inv])
    (hothers : ∀ a, a ∉ chain → s'.view a = s.view a) (hlast : chain.getLast? = some r)
    (hdir : s'.dir.Is st blk [r] t) (ht : t.isSome = true) (hmem : s'.memQueue = []) (hresp : s'.responses = s.responses) :
    Coherent s' st chain none where
  nodup := hc.nodup
  dir := ⟨_, _, _, hdir, by rw [hmem, ht]; exact .blocked hst hlast⟩
  away a ha hw := by
    rw [hothers a ha]
    exact hc.away a ha hw
  writing _ hw := nomatch hw
  free hnil := by
    rw [hnil] at hlast
    cases hlast
  first a l hl := by
    subst hl
    have hne : st ≠ .IM := by
      rintro rfl
      cases hst
    have hq : queued st none = [.inv] := by simp [queued, hst]
    rw [hchain a mem_cons_self, hresp, next_cons_self]
    have hfirst := hc.first a l rfl
    cases hn : l.head? with
    | none =>
      rw [hn] at hfirst
      exact hq ▸ hfirst.told hne (absurd rfl)
    | some b =>
      rw [hn] at hfirst
      exact hfirst.told hne fun _ => rfl
  behind a ha := by
    have hq : queued st none = [.inv] := by simp [queued, hst]
    rw [hchain a (mem_of_mem_tail ha)]
    have hwait := hc.behind a ha
    cases hn : Lib.next chain a with
    | none =>
      rw [hn] at hwait
      exact hq ▸ hwait.told st (absurd rfl)
    | some b =>
      rw [hn] at hwait
      exact hwait

/-! One step of the directory, for each of its ports. -/

variable {x : Bool} {mem : List (MemoryMsg size)}

theorem dirTransition_getx {o : List Nat} (hp : Phase st o x mem chain writer)
    (hI : st ≠ .I) (hM : st ≠ .M) : dirTransition st .getx = some (.go [.recycleRequestQueue] st) := by
  cases hp with
  | idle => exact absurd rfl hI
  | modified _ => exact absurd rfl hM
  | fetching | dmaRead | dmaWrite => rfl
  | blocked hst _ =>
    cases st with
    | M_DRD | M_DWR => rfl
    | _ => cases hst
  | writing hst => rcases hst with rfl | rfl | rfl <;> rfl

theorem recycled (hc : Coherent s st chain writer)
    (hdir : ∃ blk o t, s'.dir.Is st blk o t ∧ Phase st o t.isSome s'.memQueue chain writer)
    (hothers : ∀ a, s'.view a = s.view a) (hresp : s'.responses = s.responses) : Coherent s' st chain writer where
  nodup := hc.nodup
  dir := hdir
  away a ha hw := by
    rw [hothers a]
    exact hc.away a ha hw
  writing a hw := by
    rw [hothers a]
    exact hc.writing a hw
  free hnil := hresp.trans (hc.free hnil)
  first a l hl := by
    rw [hothers a, hresp]
    exact hc.first a l hl
  behind a ha := by
    rw [hothers a]
    exact hc.behind a ha

variable {d : DirSide size}

theorem getx (hc : Coherent s st chain writer) (hm : s.requests[k]? = some (.getx r))
    (h : s.toDirSide.dirStep k .getx = .ok d) :
    ∃ st' chain', Coherent { s with toDirSide := d } st' chain' writer := by
  obtain ⟨hr, hw, st₁, d₁, b₁, w₁, hpend, hv⟩ := hc.getx_role hm
  obtain ⟨hx, hq, hf⟩ := view_eq hv
  obtain ⟨blk, o, t, hd, hp⟩ := hc.dir
  have herase : ∀ a, a ≠ r → (s.requests.eraseIdx k).filter (fun m => m.requestor = a) = s.requestsOf a :=
    fun a ha => filter_eraseIdx_ne hm (Ne.symm ha)
  have herased : (s.requests.eraseIdx k).filter (fun m => m.requestor = r) = [] := (filter_eraseIdx_self hm hq rfl).2
  by_cases hI : st = .I
  · subst hI
    obtain ⟨rfl, ht, hmem, rfl, rfl⟩ := hp.of_I
    obtain rfl : t = none := by simpa using ht
    obtain ⟨d', his, -, rfl⟩ := DirSide.I_getx hd hm h
    refine ⟨.IM, [r], hc.start (b := blk) (fun a ha => ?_) his ?_ rfl ?_⟩
    · rw [view_dirSide, herase a ha]
      rfl
    · change s.memQueue ++ _ = _
      rw [hmem]
      rfl
    · rw [view_dirSide, herased, hx]
      rw [hf]
      exact .mk hpend
  · by_cases hM : st = .M
    · subst hM
      obtain ⟨c, hlast, rfl, ht, hmem, rfl⟩ := hp.of_M
      obtain rfl : t = none := by simpa using ht
      have hin : c ∈ chain := mem_of_getLast? hlast
      obtain ⟨d', his, -, rfl⟩ := DirSide.M_getx hd hm h
      refine ⟨.M, chain ++ [r], hc.join hr (fun a ha => ?_) (fun a ha har => ?_) his hmem rfl ?_ ?_⟩
      · have har : a ≠ r := fun h => hr (h ▸ ha)
        rw [view_told hc.nodup hlast ha, view_dirSide, herase a har]
        rfl
      · have hac : a ∉ [c] := fun h => ha (mem_singleton.mp h ▸ hin)
        rw [view_dirSide, herase a har]
        rw [forwards_notMem hac]
        rfl
      · exact ne_nil_of_mem hin
      · have hrc : r ∉ [c] := fun h => hr (mem_singleton.mp h ▸ hin)
        rw [view_dirSide, herased, hx]
        rw [forwards_notMem hrc, hf]
        exact .mk hpend
    · obtain ⟨d', his, -, rfl⟩ := recycle hd (.inl (dirTransition_getx hp hI hM)) h hI
      exact ⟨st, chain, hc.recycled ⟨_, _, _, his, hp⟩ (fun _ => rfl) rfl⟩

theorem mem_owner (hp : Phase st o x mem chain writer) : r ∈ o ↔ chain.getLast? = some r := by
  cases hp with
  | idle | dmaRead | dmaWrite | writing _ => simp
  | fetching => simp [eq_comm]
  | modified hlast | blocked _ hlast => simp [hlast, eq_comm]

section
variable (hc : Coherent s st chain writer)
include hc

/-- A write-back of a cache that is not the owner is refused. -/
theorem putxNotOwner (hm : s.requests[k]? = some (.putx r b))
    (hlast : chain.getLast? ≠ some r) (h : s.toDirSide.dirStep k .putxNotOwner = .ok d) :
    Coherent { s with toDirSide := d } st chain writer := by
  obtain ⟨blk, o, t, hd, hp⟩ := hc.dir
  have hdecl := declared_of_ok hd.getState h
  by_cases hbase : st = .I ∨ st = .M
  · obtain rfl : t = none := by
      rcases hbase with rfl | rfl
      · simpa using hp.of_I.2.1
      · obtain ⟨_, -, -, ht, -⟩ := hp.of_M
        simpa using ht
    obtain ⟨d', his, -, rfl⟩ := nack hbase hd hm h
    have hdir : ∃ blk o t, d'.Is st blk o t ∧ Phase st o t.isSome s.memQueue chain writer := ⟨_, _, _, his, hp⟩
    have hothers : ∀ a, a ≠ r → view { s with toDirSide :=
        { s.forwardTo [r] .wbNack with dir := d', requests := s.requests.eraseIdx k } } a = s.view a := by
      intro a ha
      rw [view_dirSide]
      rw [filter_eraseIdx_ne hm (Ne.symm ha), forwards_notMem fun h => ha (mem_singleton.mp h)]
      rfl
    rcases hc.putx_role hm with ⟨hr, hw, d₁, w₁, b₁, hv⟩ | ⟨l, d₁, w₁, b₁, fs, rfl, hne, hresp, hv, hfs⟩
    · obtain ⟨hx, hq, hf⟩ := view_eq hv
      apply hc.keep_away hothers hdir rfl hr hw
      rw [view_dirSide]
      rw [(filter_eraseIdx_self hm hq rfl).2, hx, forwards_self, hf]
      exact .nacked
    · obtain ⟨hx, hq, hf⟩ := view_eq hv
      obtain ⟨c, l, rfl⟩ : ∃ c l', l = c :: l' := by
        cases l with
        | nil => exact absurd rfl hlast
        | cons c l' => exact ⟨c, l', rfl⟩
      apply hc.keep_first hothers hdir rfl
      rw [view_dirSide]
      rw [(filter_eraseIdx_self hm hq rfl).2, hx, forwards_self, hf]
      change First r st _ _ s.responses
      rw [hresp]
      rcases hfs with rfl | ⟨-, hn⟩
      · exact .held hne (.nacked rfl)
      · cases hn
  · have ht : dirTransition st .putxNotOwner = some (.go [.recycleRequestQueue] st) := by
      cases st with
      | I | M => simp at hbase
      | IM | MI | ID | ID_W => rfl
      | M_DRD | M_DWR | M_DWRI | M_DRDI => exact absurd rfl hdecl
    obtain ⟨d', his, -, rfl⟩ := recycle hd (.inl ht) h fun hI => hbase (.inl hI)
    exact hc.recycled ⟨_, _, _, his, hp⟩ (fun _ => rfl) rfl

/-- The write-back of the owner. -/
theorem putx_owner (hm : s.requests[k]? = some (.putx r b))
    (hlast : chain.getLast? = some r) (h : s.toDirSide.dirStep k .putx = .ok d) :
    ∃ st' chain' writer', Coherent { s with toDirSide := d } st' chain' writer' := by
  have hin : r ∈ chain := mem_of_getLast? hlast
  rcases hc.putx_role hm with ⟨hr, -⟩ | ⟨l, d₁, w₁, b₁, fs, rfl, hne, hresp, hv, hfs⟩
  · exact absurd hin hr
  · obtain ⟨hx, hq, hf⟩ := view_eq hv
    obtain rfl : l = [] := by
      cases l with
      | nil => rfl
      | cons c l =>
        rw [getLast?_cons_cons] at hlast
        exact absurd (mem_of_getLast? hlast) (nodup_cons.mp hc.nodup).1
    have hothers : ∀ a, a ≠ r → (s.requests.eraseIdx k).filter (fun m => m.requestor = a) = s.requestsOf a :=
      fun a ha => filter_eraseIdx_ne hm (Ne.symm ha)
    have herased : (s.requests.eraseIdx k).filter (fun m => m.requestor = r) = [] := (filter_eraseIdx_self hm hq rfl).2
    have hwriting : Writing (⟨s.caches r, [], s.forwards r⟩ : View size) := by
      rw [hx, hf]
      apply Writing.mk
      rcases hfs with rfl | ⟨rfl, -⟩
      · unfold queued
        cases st.blocks
        · exact .inl rfl
        · exact .inr rfl
      · exact .inl rfl
    obtain ⟨blk, o, t, hd, hp⟩ := hc.dir
    have hrelease : ∀ {st' : DirState} {d' : Directory size} {blk' m : DataBlock size} {t' : DirTBE size}
        {rs : List (DMAResponseMsg size)}, (st' = .MI ∨ st' = .M_DRDI ∨ st' = .M_DWRI) → d'.Is st' blk' [] (some t') →
        s.memQueue = [] → writer = none → d = { s.toDirSide with
          dir := d'
          memQueue := s.memQueue ++ [⟨true, some r, m⟩]
          requests := s.requests.eraseIdx k
          dmaResponses := rs } →
        ∃ st' chain' writer', Coherent { s with toDirSide := d } st' chain' writer' := by
      rintro st' d' blk' m t' rs hst his hmem rfl rfl
      refine ⟨st', [], some r, hc.release (b := m) (fun a ha => ?_) hst his rfl ?_ hresp ?_⟩
      · rw [view_dirSide, hothers a ha]
        rfl
      · change s.memQueue ++ _ = _
        rw [hmem]
        rfl
      · rw [view_dirSide, herased]
        exact hwriting
    have hdecl := declared_of_ok hd.getState h
    cases st with
    | M =>
      obtain ⟨_, -, -, ht, hmem, hw⟩ := hp.of_M
      obtain rfl : t = none := by simpa using ht
      obtain ⟨d', his, -, hd'⟩ := DirSide.M_putx hd hm h
      exact hrelease (.inl rfl) his hmem hw hd'
    | M_DRD =>
      obtain ⟨_, -, -, ht, hmem, hw⟩ := hp.of_blocks rfl
      obtain ⟨t, rfl⟩ := Option.isSome_iff_exists.mp ht
      obtain ⟨d', rs, his, -, hd'⟩ := DirSide.M_DRD_putx hd hm h
      exact hrelease (.inr (.inl rfl)) his hmem hw hd'
    | M_DWR =>
      obtain ⟨_, -, -, ht, hmem, hw⟩ := hp.of_blocks rfl
      obtain ⟨t, rfl⟩ := Option.isSome_iff_exists.mp ht
      obtain ⟨d', m, his, -, hd'⟩ := DirSide.M_DWR_putx hd hm h
      exact hrelease (.inr (.inr rfl)) his hmem hw hd'
    | IM => exact absurd rfl hne
    | I | M_DWRI | M_DRDI => exact absurd rfl hdecl
    | MI | ID | ID_W =>
      obtain ⟨d', his, -, rfl⟩ := recycle hd (.inl rfl) h nofun
      exact ⟨_, _, _, hc.recycled ⟨_, _, _, his, hp⟩ (fun _ => rfl) rfl⟩

theorem requestPort {m : RequestMsg size} (hm : s.requests[k]? = some m)
    (h : s.toDirSide.dirStep k (s.requestEvent m) = .ok d) :
    ∃ st' chain' writer', Coherent { s with toDirSide := d } st' chain' writer' := by
  cases m with
  | getx r =>
    obtain ⟨st', chain', h⟩ := hc.getx hm h
    exact ⟨st', chain', writer, h⟩
  | putx r b =>
    obtain ⟨blk, o, t, hd, hp⟩ := hc.dir
    have howner : s.owner = o := congrArg DirEntry.owner hd.entry
    unfold requestEvent at h
    dsimp only at h
    rw [howner] at h
    split at h
    · rename_i hmem
      exact hc.putx_owner hm ((mem_owner hp).mp hmem) h
    · rename_i hmem
      exact ⟨st, chain, writer, hc.putxNotOwner hm (mt (mem_owner hp).mpr hmem) h⟩

/-- The port of the DMA controllers. -/
theorem dmaRequestPort {m : DMARequestMsg size}
    (hm : s.dmaRequests[k]? = some m) (h : s.toDirSide.dirStep k m.event = .ok d) :
    ∃ st', Coherent { s with toDirSide := d } st' chain writer := by
  obtain ⟨blk, o, t, hd, hp⟩ := hc.dir
  have hdecl := declared_of_ok hd.getState h
  cases st with
  | I =>
    obtain ⟨rfl, ht, hmem, rfl, rfl⟩ := hp.of_I
    obtain rfl : t = none := by simpa using ht
    unfold DMARequestMsg.event at h
    split at h
    · obtain ⟨d', b, his, -, rfl⟩ := DirSide.I_dmaWrite hd hm h
      refine ⟨.ID_W, hc.quiet (fun _ => rfl) his ?_ rfl⟩
      change Phase _ _ _ (s.memQueue ++ _) _ _
      rw [hmem]
      exact .dmaWrite
    · obtain ⟨d', his, -, rfl⟩ := DirSide.I_dmaRead hd hm h
      refine ⟨.ID, hc.quiet (fun _ => rfl) his ?_ rfl⟩
      change Phase _ _ _ (s.memQueue ++ _) _ _
      rw [hmem]
      exact .dmaRead
  | M =>
    obtain ⟨c, hlast, rfl, ht, hmem, rfl⟩ := hp.of_M
    obtain rfl : t = none := by simpa using ht
    obtain ⟨d', his, -, rfl⟩ := DirSide.M_dma hd hm h
    have hblocks : (blockedFor m.write).blocks = true := by
      unfold blockedFor
      split <;> rfl
    refine ⟨blockedFor m.write, hc.block hblocks (fun a ha => ?_) (fun a ha => ?_) hlast his rfl hmem rfl⟩
    · rw [view_told hc.nodup hlast ha]
      rfl
    · have hac : a ∉ [c] := fun h => ha (mem_singleton.mp h ▸ mem_of_getLast? hlast)
      rw [view_dirSide]
      rw [forwards_notMem hac]
      rfl
  | IM | MI | ID | ID_W =>
    obtain ⟨d', his, -, rfl⟩ := recycle hd (by unfold DMARequestMsg.event; split <;> exact .inr rfl) h nofun
    exact ⟨_, hc.recycled ⟨_, _, _, his, hp⟩ (fun _ => rfl) rfl⟩
  | M_DRD | M_DWR | M_DWRI | M_DRDI =>
    unfold DMARequestMsg.event at hdecl
    split at hdecl <;> exact absurd rfl hdecl

/-- The port of the memory. -/
theorem memPort {m : MemoryMsg size} (hm : s.memQueue[k]? = some m) (h : s.toDirSide.dirStep k m.event = .ok d) :
    ∃ st', Coherent { s with toDirSide := d } st' chain none := by
  obtain ⟨blk, o, t, hd, hp⟩ := hc.dir
  generalize ht : t.isSome = x at hp
  generalize hq : s.memQueue = mem at hp hm
  -- every phase has at most one message in the memory
  have hone : ∀ {w : MemoryMsg size}, mem = [w] → k = 0 ∧ m = w := by
    rintro w rfl
    cases k with
    | zero => exact ⟨rfl, (Option.some.inj hm).symm⟩
    | succ k => cases hm
  have hsome : x = true → ∃ u, t = some u := fun hx => Option.isSome_iff_exists.mp (ht.trans hx)
  cases hp with
  | idle | modified _ | blocked _ _ => cases hm
  | fetching =>
    obtain ⟨rfl, rfl⟩ := hone rfl
    obtain rfl : t = none := by simpa using ht
    obtain ⟨d', his, -, rfl⟩ := DirSide.IM_memoryData hd (hq ▸ hm) rfl h
    refine ⟨.M, hc.grant (fun _ => rfl) his ?_ rfl⟩
    change s.memQueue.eraseIdx 0 = []
    rw [hq]
    rfl
  | dmaRead =>
    obtain ⟨rfl, rfl⟩ := hone rfl
    obtain ⟨u, rfl⟩ := hsome rfl
    obtain ⟨d', rs, his, -, rfl⟩ := DirSide.ID_memoryData hd (hq ▸ hm) h
    refine ⟨.I, hc.quiet (fun _ => rfl) his ?_ rfl⟩
    change Phase _ _ _ (s.memQueue.eraseIdx 0) _ _
    rw [hq]
    exact .idle
  | dmaWrite =>
    obtain ⟨rfl, rfl⟩ := hone rfl
    obtain ⟨u, rfl⟩ := hsome rfl
    obtain ⟨d', rs, his, -, rfl⟩ := DirSide.ID_W_memoryAck hd h
    refine ⟨.I, hc.quiet (fun _ => rfl) his ?_ rfl⟩
    change Phase _ _ _ (s.memQueue.eraseIdx 0) _ _
    rw [hq]
    exact .idle
  | writing hst =>
    rename_i c b
    obtain ⟨rfl, rfl⟩ := hone rfl
    obtain ⟨u, rfl⟩ := hsome rfl
    obtain ⟨d', rs, his, -, rfl⟩ := writeback_memoryAck hst hd (hq ▸ hm) rfl h
    refine ⟨.I, hc.finish (fun a ha => ?_) his ?_ rfl ?_⟩
    · rw [view_dirSide]
      rw [forwards_notMem fun h => ha (mem_singleton.mp h)]
      rfl
    · change s.memQueue.eraseIdx 0 = []
      rw [hq]
      rfl
    · have hv := hc.writing c rfl
      generalize he : s.view c = v at hv
      obtain ⟨hfs⟩ := hv
      obtain ⟨hx, hreq, hf⟩ := view_eq he
      rw [view_dirSide]
      rw [forwards_self, hx, hf]
      change Away c ⟨_, s.requestsOf c, _⟩
      rw [hreq]
      rcases hfs with rfl | rfl
      · exact .acked (.inl rfl)
      · exact .acked (.inr rfl)

end

end Coherent

end DirSteps

end Gem5.Ruby
