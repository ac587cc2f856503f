import Gem5Nvmain.Lib.Succession
import Gem5Nvmain.Ruby.MiSteps

/- The invariant of MI_example.

  `chain` is the queue of the caches that the line goes down: the first one has it, or is about to get it, the last
  one is the owner that the directory knows, and the others wait for the `DATA` of their predecessor. `writer` is the
  cache whose write-back is in memory. What a cache may be in, what it has sent and what is in its forward queue then
  depends on its place only: `First`, `Waiting`, `Writing`, or `Away`. -/
namespace Gem5.Ruby
open Lib List System

variable {size : Nat}

/-- All that concerns one cache. -/
structure View (size : Nat) where
  cache : Cache size
  requests : List (RequestMsg size)
  forwards : List ForwardMsg

namespace System

def requestsOf (s : System size) (c : Nat) : List (RequestMsg size) := s.requests.filter fun m => m.requestor = c

def view (s : System size) (c : Nat) : View size := ⟨s.caches c, s.requestsOf c, s.forwards c⟩

end System

/-- A load or a store waits for data. -/
def Pending (st : CacheState) : Prop := st = .IS ∨ st = .IM

/-- The directory has asked the owner for the line, on behalf of a DMA request. -/
def DirState.blocks (st : DirState) : Bool := st = .M_DRD || st = .M_DWR

/-- The last message to a cache on the chain: the request of its successor, or the invalidation. -/
def queued (st : DirState) : Option Nat → List ForwardMsg
  | some b => [.getx b]
  | none => if st.blocks then [.inv] else []

/-- Caches off the chain. -/
inductive Away (c : Nat) : View size → Prop
  | idle {e w} (he : ∀ y, e = some y → y.cacheState = .I) : Away c ⟨⟨e, none, w⟩, [], []⟩
  | asking {st d b w} (hst : Pending st) : Away c ⟨⟨some ⟨st, d⟩, some ⟨st, b⟩, w⟩, [.getx c], []⟩
  | unwanted {d b w} : Away c ⟨⟨none, some ⟨.II, d⟩, w⟩, [.putx c b], []⟩
  | nacked {d w} : Away c ⟨⟨none, some ⟨.II, d⟩, w⟩, [], [.wbNack]⟩
  | acked {d w fs} (hfs : fs = [.wbAck] ∨ fs = [.inv, .wbAck]) : Away c ⟨⟨none, some ⟨.MI, d⟩, w⟩, [], fs⟩

/-- The cache whose write-back is in memory. -/
inductive Writing : View size → Prop
  | mk {d w fs} (hfs : fs = [] ∨ fs = [.inv]) : Writing ⟨⟨none, some ⟨.MI, d⟩, w⟩, [], fs⟩

inductive Waiting (q : List ForwardMsg) : View size → Prop
  | mk {st d b w} (hst : Pending st) : Waiting q ⟨⟨some ⟨st, d⟩, some ⟨st, b⟩, w⟩, [], q⟩

/-- The cache that has the line. -/
inductive Holding (c : Nat) (st : DirState) (n : Option Nat) : View size → Prop
  | modified {d w} : Holding c st n ⟨⟨some ⟨.M, d⟩, none, w⟩, [], queued st n⟩
  | leaving {d b w} : Holding c st n ⟨⟨none, some ⟨.MI, d⟩, w⟩, [.putx c b], queued st n⟩
  | freed {d b w} (hn : n = none) (hst : st.blocks = true) : Holding c st n ⟨⟨none, some ⟨.MI, d⟩, w⟩, [.putx c b], []⟩
  | nacked {d w b} (hn : n = some b) : Holding c st n ⟨⟨none, some ⟨.MI, d⟩, w⟩, [], [.getx b, .wbNack]⟩

/-- The first cache on the chain, with the response network. -/
inductive First (c : Nat) (st : DirState) (n : Option Nat) (v : View size) : List (ResponseMsg size) → Prop
  | fetching (hst : st = .IM) (h : Waiting (queued st n) v) : First c st n v []
  | sent {d} (hst : st ≠ .IM) (h : Waiting (queued st n) v) : First c st n v [⟨c, d⟩]
  | held (hst : st ≠ .IM) (h : Holding c st n v) : First c st n v []

/-- The directory, with its owners, whether it has a TBE, and the memory. -/
inductive Phase : DirState → List Nat → Bool → List (MemoryMsg size) → List Nat → Option Nat → Prop
  | idle : Phase .I [] false [] [] none
  | fetching {c d} : Phase .IM [c] false [⟨false, some c, d⟩] [c] none
  | modified {chain c} (hlast : chain.getLast? = some c) : Phase .M [c] false [] chain none
  | blocked {st chain c} (hst : st.blocks = true) (hlast : chain.getLast? = some c) : Phase st [c] true [] chain none
  | dmaRead {d} : Phase .ID [] true [⟨false, none, d⟩] [] none
  | dmaWrite {d} : Phase .ID_W [] true [⟨true, none, d⟩] [] none
  | writing {st c d} (hst : st = .MI ∨ st = .M_DRDI ∨ st = .M_DWRI) : Phase st [] true [⟨true, some c, d⟩] [] (some c)

/-- The invariant, with the state of the directory, the chain and the writer. -/
structure Coherent (s : System size) (st : DirState) (chain : List Nat) (writer : Option Nat) : Prop where
  nodup : chain.Nodup
  dir : ∃ blk o t, s.dir.Is st blk o t ∧ Phase st o t.isSome s.memQueue chain writer
  away : ∀ c, c ∉ chain → writer ≠ some c → Away c (s.view c)
  writing : ∀ c, writer = some c → Writing (s.view c)
  free : chain = [] → s.responses = []
  first : ∀ c l, chain = c :: l → First c st l.head? (s.view c) s.responses
  behind : ∀ c ∈ chain.tail, Waiting (queued st (next chain c)) (s.view c)

/-! What a step changes in the views. -/

section Views
variable {s : System size} {b c k : Nat} {x : Cache size} {q : List (RequestMsg size)} {fs : List ForwardMsg}
  {rs : List (ResponseMsg size)} {m m' : RequestMsg size} {l : List (RequestMsg size)}

theorem System.view_eq {v : View size} (h : s.view c = v) :
    s.caches c = v.cache ∧ s.requestsOf c = v.requests ∧ s.forwards c = v.forwards := by
  subst h
  exact ⟨rfl, rfl, rfl⟩

theorem System.view_dirSide {d : DirSide size} :
    view { s with toDirSide := d } b = ⟨s.caches b, d.requests.filter fun m => m.requestor = b, d.forwards b⟩ := rfl

theorem DirSide.forwards_notMem {s : DirSide size} {l : List Nat} {m : ForwardMsg} (h : b ∉ l) :
    (s.forwardTo l m).forwards b = s.forwards b := if_neg h

theorem DirSide.forwards_self {s : DirSide size} {m : ForwardMsg} :
    (s.forwardTo [b] m).forwards b = s.forwards b ++ [m] := if_pos (mem_singleton.mpr rfl)

theorem System.view_after_ne (hq : ∀ m ∈ q, m.requestor = c) (h : b ≠ c) : (s.after c x q fs rs).view b = s.view b := by
  have hnil : q.filter (fun m => m.requestor = b) = [] := by
    apply filter_eq_nil_iff.mpr
    intro m hm hb
    exact h ((of_decide_eq_true hb).symm.trans (hq m hm))
  unfold view requestsOf after
  simp [h, hnil]

theorem System.view_after_self (hq : ∀ m ∈ q, m.requestor = c) :
    (s.after c x q fs rs).view c = ⟨x, s.requestsOf c ++ q, fs⟩ := by
  have hall : q.filter (fun m => m.requestor = c) = q := by
    apply filter_eq_self.mpr
    intro m hm
    exact decide_eq_true (hq m hm)
  unfold view requestsOf after
  simp [hall]

theorem split_at {α : Type} {l : List α} {m : α} (h : l[k]? = some m) :
    l = l.take k ++ m :: l.drop (k + 1) ∧ l.eraseIdx k = l.take k ++ l.drop (k + 1) := by
  obtain ⟨hlt, rfl⟩ := List.getElem?_eq_some_iff.mp h
  refine ⟨?_, eraseIdx_eq_take_drop_succ l k⟩
  rw [getElem_cons_drop, take_append_drop]

theorem filter_eraseIdx_ne (h : l[k]? = some m) (hb : m.requestor ≠ b) :
    (l.eraseIdx k).filter (fun m => m.requestor = b) = l.filter fun m => m.requestor = b := by
  obtain ⟨hl, he⟩ := split_at h
  rw [he]
  conv_rhs => rw [hl]
  simp [hb]

theorem filter_eraseIdx_self (h : l[k]? = some m) (hone : (l.filter fun m => m.requestor = b) = [m'])
    (hb : m.requestor = b) : m = m' ∧ (l.eraseIdx k).filter (fun m => m.requestor = b) = [] := by
  obtain ⟨hl, he⟩ := split_at h
  rw [he]
  rw [hl] at hone
  simp only [filter_append, filter_cons, hb, decide_true, if_true] at hone ⊢
  obtain ⟨hlen₁, hlen₂⟩ : ((l.take k).filter fun m => m.requestor = b).length = 0 ∧
      ((l.drop (k + 1)).filter fun m => m.requestor = b).length = 0 := by
    have hlen := congrArg length hone
    simp only [length_append, length_cons, length_nil] at hlen
    omega
  rw [length_eq_zero_iff.mp hlen₁, length_eq_zero_iff.mp hlen₂] at hone ⊢
  exact ⟨head_eq_of_cons_eq hone, rfl⟩

end Views

/-! Steps of a cache. -/

section CacheSteps
variable {s s' : System size} {c : Nat} {st : DirState} {chain : List Nat} {writer : Option Nat}

/-- The roles a cache can have. -/
inductive Role (s : System size) (st : DirState) (chain : List Nat) (writer : Option Nat) (c : Nat) : Prop
  | away (hc : c ∉ chain) (hw : writer ≠ some c) (h : Away c (s.view c))
  | writing (hw : writer = some c) (h : Writing (s.view c))
  | first {l} (hl : chain = c :: l) (h : First c st l.head? (s.view c) s.responses)
  | behind (hc : c ∈ chain.tail) (h : Waiting (queued st (next chain c)) (s.view c))

namespace Phase
variable {o : List Nat} {x : Bool} {mem : List (MemoryMsg size)}

theorem writer_eq_none (hp : Phase st o x mem chain writer) (h : c ∈ chain) : writer = none := by
  cases hp with
  | writing _ => cases h
  | _ => rfl

theorem of_I (hp : Phase .I o x mem chain writer) : o = [] ∧ x = false ∧ mem = [] ∧ chain = [] ∧ writer = none := by
  cases hp with
  | idle => exact ⟨rfl, rfl, rfl, rfl, rfl⟩
  | blocked hst _ => cases hst
  | writing hst => rcases hst with h | h | h <;> cases h

theorem of_M (hp : Phase .M o x mem chain writer) :
    ∃ c, chain.getLast? = some c ∧ o = [c] ∧ x = false ∧ mem = [] ∧ writer = none := by
  cases hp with
  | modified hlast => exact ⟨_, hlast, rfl, rfl, rfl, rfl⟩
  | blocked hst _ => cases hst
  | writing hst => rcases hst with h | h | h <;> cases h

theorem of_blocks (hp : Phase st o x mem chain writer) (hst : st.blocks = true) :
    ∃ c, chain.getLast? = some c ∧ o = [c] ∧ x = true ∧ mem = [] ∧ writer = none := by
  cases hp with
  | blocked _ hlast => exact ⟨_, hlast, rfl, rfl, rfl, rfl⟩
  | writing h => rcases h with rfl | rfl | rfl <;> cases hst
  | _ => cases hst

theorem tail {b : Nat} {l : List Nat} (hp : Phase st o x mem (c :: b :: l) writer) :
    st ≠ .IM ∧ Phase st o x mem (b :: l) writer := by
  cases hp with
  | modified hlast =>
    exact ⟨by decide, .modified hlast⟩
  | blocked hst hlast =>
    refine ⟨?_, .blocked hst hlast⟩
    rintro rfl
    cases hst

end Phase

namespace Coherent

section
variable (hc : Coherent s st chain writer)
include hc

theorem role (c : Nat) : Role s st chain writer c := by
  by_cases hw : writer = some c
  · exact .writing hw (hc.writing c hw)
  · by_cases hm : c ∈ chain
    · cases hl : chain with
      | nil => simp [hl] at hm
      | cons a l =>
        rw [hl] at hm
        rcases mem_cons.mp hm with rfl | hm
        · exact hl ▸ .first hl (hc.first c l hl)
        · have hmem : c ∈ chain.tail := by rw [hl]; exact hm
          exact hl ▸ .behind hmem (hc.behind c hmem)
    · exact .away hm hw (hc.away c hm hw)

theorem not_writer (hm : c ∈ chain) : writer ≠ some c := by
  obtain ⟨_, _, _, -, hp⟩ := hc.dir
  rw [hp.writer_eq_none hm]
  exact nofun

/-- A step of one cache that keeps the chain: its new view has to fit its role. -/
theorem keep (hothers : ∀ b, b ≠ c → s'.view b = s.view b)
    (hdir : ∃ blk o t, s'.dir.Is st blk o t ∧ Phase st o t.isSome s'.memQueue chain writer)
    (hresp : chain.head? ≠ some c → s'.responses = s.responses)
    (haway : c ∉ chain → writer ≠ some c → Away c (s'.view c)) (hwriting : writer = some c → Writing (s'.view c))
    (hfirst : ∀ l, chain = c :: l → First c st l.head? (s'.view c) s'.responses)
    (hbehind : c ∈ chain.tail → Waiting (queued st (next chain c)) (s'.view c)) : Coherent s' st chain writer where
  nodup := hc.nodup
  dir := hdir
  away b hb hw := by
    by_cases h : b = c
    · subst h
      exact haway hb hw
    · rw [hothers b h]
      exact hc.away b hb hw
  writing b hw := by
    by_cases h : b = c
    · subst h
      exact hwriting hw
    · rw [hothers b h]
      exact hc.writing b hw
  free hnil := by
    rw [hresp (by simp [hnil])]
    exact hc.free hnil
  first b l hl := by
    by_cases h : b = c
    · subst h
      exact hfirst l hl
    · rw [hothers b h, hresp (by simp [hl, h])]
      exact hc.first b l hl
  behind b hb := by
    by_cases h : b = c
    · subst h
      exact hbehind hb
    · rw [hothers b h]
      exact hc.behind b hb

theorem keep_away (hothers : ∀ b, b ≠ c → s'.view b = s.view b)
    (hdir : ∃ blk o t, s'.dir.Is st blk o t ∧ Phase st o t.isSome s'.memQueue chain writer)
    (hresp : s'.responses = s.responses)
    (hm : c ∉ chain) (hw : writer ≠ some c) (h : Away c (s'.view c)) : Coherent s' st chain writer := by
  apply hc.keep hothers hdir (fun _ => hresp) (fun _ _ => h)
  · exact fun h => absurd h hw
  · rintro l rfl
    exact absurd mem_cons_self hm
  · exact fun h => absurd (mem_of_mem_tail h) hm

theorem keep_first {l : List Nat} (hothers : ∀ b, b ≠ c → s'.view b = s.view b)
    (hdir : ∃ blk o t, s'.dir.Is st blk o t ∧ Phase st o t.isSome s'.memQueue chain writer) (hl : chain = c :: l)
    (h : First c st l.head? (s'.view c) s'.responses) : Coherent s' st chain writer := by
  subst hl
  apply hc.keep hothers hdir
  · exact absurd rfl
  · exact absurd mem_cons_self
  · exact fun h => absurd h (hc.not_writer mem_cons_self)
  · rintro l' hl
    cases hl
    exact h
  · exact fun h => absurd h (nodup_cons.mp hc.nodup).1

theorem keep_writing (hothers : ∀ b, b ≠ c → s'.view b = s.view b)
    (hdir : ∃ blk o t, s'.dir.Is st blk o t ∧ Phase st o t.isSome s'.memQueue chain writer)
    (hresp : s'.responses = s.responses)
    (hw : writer = some c) (h : Writing (s'.view c)) : Coherent s' st chain writer := by
  apply hc.keep hothers hdir (fun _ => hresp)
  · exact fun _ hw' => absurd hw hw'
  · exact fun _ => h
  · rintro l rfl
    exact absurd hw (hc.not_writer mem_cons_self)
  · exact fun h => absurd hw (hc.not_writer (mem_of_mem_tail h))

end

/-- The first cache gives the line to the next one. -/
theorem hand_over {b : Nat} {l : List Nat} {d : DataBlock size} (hc : Coherent s st (c :: b :: l) writer)
    (hothers : ∀ b, b ≠ c → s'.view b = s.view b) (hdir : s'.dir = s.dir) (hmem : s'.memQueue = s.memQueue)
    (hresp : s'.responses = [⟨b, d⟩]) (h : Away c (s'.view c)) : Coherent s' st (b :: l) writer := by
  obtain ⟨hcl, hn⟩ := nodup_cons.mp hc.nodup
  obtain ⟨blk, o, t, his, hp⟩ := hc.dir
  obtain ⟨hne, hp'⟩ := hp.tail
  have hnext : ∀ a ∈ b :: l, Lib.next (c :: b :: l) a = Lib.next (b :: l) a := by
    intro a ha
    exact next_cons_ne fun h => hcl (h ▸ ha)
  have hview : ∀ a ∈ b :: l, s'.view a = s.view a := by
    intro a ha
    exact hothers a fun h => hcl (h ▸ ha)
  refine ⟨hn, ⟨blk, o, t, hdir ▸ his, hmem ▸ hp'⟩, ?_, ?_, ?_, ?_, ?_⟩
  · intro a ha hw
    by_cases hac : a = c
    · subst hac
      exact h
    · rw [hothers a hac]
      exact hc.away a (fun hm => (mem_cons.mp hm).elim hac ha) hw
  · intro a hw
    rw [hothers a fun h => hc.not_writer mem_cons_self (h ▸ hw)]
    exact hc.writing a hw
  · intro hnil
    cases hnil
  · intro a l' hl
    cases hl
    rw [hresp, hview b mem_cons_self]
    have hwait := hc.behind b mem_cons_self
    rw [hnext b mem_cons_self, next_cons_self] at hwait
    exact .sent hne hwait
  · intro a ha
    have ha' : a ∈ b :: l := mem_cons_of_mem _ ha
    rw [hview a ha', ← hnext a ha']
    exact hc.behind a ha'

/-- A step that only changes the cache, what it asked for and its forward queue. -/
theorem keep_own {x : Cache size} {q : List (RequestMsg size)} {fs : List ForwardMsg} (hc : Coherent s st chain writer)
    (hq : ∀ m ∈ q, m.requestor = c) (hrole : (c ∉ chain ∧ writer ≠ some c ∧ Away c ⟨x, s.requestsOf c ++ q, fs⟩) ∨
      (writer = some c ∧ Writing ⟨x, s.requestsOf c ++ q, fs⟩) ∨
      ∃ l, chain = c :: l ∧ First c st l.head? ⟨x, s.requestsOf c ++ q, fs⟩ s.responses) :
    Coherent (s.after c x q fs s.responses) st chain writer := by
  have hothers : ∀ b, b ≠ c → (s.after c x q fs s.responses).view b = s.view b := fun b => view_after_ne hq
  have hself : (s.after c x q fs s.responses).view c = ⟨x, s.requestsOf c ++ q, fs⟩ := view_after_self hq
  rw [← hself] at hrole
  rcases hrole with ⟨hm, hw, h⟩ | ⟨hw, h⟩ | ⟨l, hl, h⟩
  · exact hc.keep_away hothers hc.dir rfl hm hw h
  · exact hc.keep_writing hothers hc.dir rfl hw h
  · exact hc.keep_first hothers hc.dir hl h

/-- A cache is without the line, has it, or is busy. -/
theorem shape (hc : Coherent s st chain writer) (c : Nat) :
    (c ∉ chain ∧ writer ≠ some c ∧ ∃ e w, s.view c = ⟨⟨e, none, w⟩, [], []⟩ ∧ ∀ y, e = some y → y.cacheState = .I) ∨
    (∃ l d w, chain = c :: l ∧ st ≠ .IM ∧ s.responses = [] ∧ s.view c = ⟨⟨some ⟨.M, d⟩, none, w⟩, [], queued st l.head?⟩) ∨
    (Pending (s.caches c).getState ∨ (s.caches c).getState = .MI ∨ (s.caches c).getState = .II) := by
  have hcache : (s.caches c).getState = (s.view c).cache.getState := rfl
  cases hc.role c with
  | away hm hw h =>
    generalize hv : s.view c = v at h hcache
    cases h with
    | idle he => exact .inl ⟨hm, hw, _, _, rfl, he⟩
    | asking hst => exact .inr (.inr (.inl (hcache ▸ hst)))
    | unwanted => exact .inr (.inr (.inr (.inr hcache)))
    | nacked => exact .inr (.inr (.inr (.inr hcache)))
    | acked _ => exact .inr (.inr (.inr (.inl hcache)))
  | writing _ h =>
    generalize hv : s.view c = v at h hcache
    cases h
    exact .inr (.inr (.inr (.inl hcache)))
  | first hl h =>
    generalize hv : s.view c = v at h hcache
    generalize hr : s.responses = rs at h
    cases h with
    | fetching _ h =>
      obtain ⟨hst⟩ := h
      exact .inr (.inr (.inl (hcache ▸ hst)))
    | sent _ h =>
      obtain ⟨hst⟩ := h
      exact .inr (.inr (.inl (hcache ▸ hst)))
    | held hne h =>
      cases h with
      | modified => exact .inr (.inl ⟨_, _, _, hl, hne, rfl, rfl⟩)
      | leaving => exact .inr (.inr (.inr (.inl hcache)))
      | freed _ _ => exact .inr (.inr (.inr (.inl hcache)))
      | nacked _ => exact .inr (.inr (.inr (.inl hcache)))
  | behind _ h =>
    generalize hv : s.view c = v at h hcache
    obtain ⟨hst⟩ := h
    exact .inr (.inr (.inl (hcache ▸ hst)))

theorem stalls {st : CacheState} {ev : CacheEvent} (hst : Pending st ∨ st = .MI ∨ st = .II)
    (hev : ev = .load ∨ ev = .store ∨ ev = .replacement) : cacheTransition st ev = some .stall := by
  rcases hst with (rfl | rfl) | rfl | rfl <;> rcases hev with rfl | rfl | rfl <;> rfl

/-- Loads, stores and replacements keep the chain. -/
theorem processor {ev : CacheEvent} {u : Option Write} {k : Nat} (hc : Coherent s st chain writer)
    (hev : (ev = .load ∧ u = none) ∨ (ev = .store ∧ ∃ y, u = some y) ∨ (ev = .replacement ∧ u = none))
    (h : s.cacheStep c k u ev = .ok s') : Coherent s' st chain writer := by
  have hcases : ev = .load ∨ ev = .store ∨ ev = .replacement := by
    rcases hev with ⟨rfl, -⟩ | ⟨rfl, -⟩ | ⟨rfl, -⟩ <;> simp
  rcases hc.shape c with ⟨hm, hw, e, w, hv, he⟩ | ⟨l, d, w, hl, hne, hresp, hv⟩ | hbusy
  · obtain ⟨hx, hq, hf⟩ := view_eq hv
    have hone : ∀ m ∈ ([.getx c] : List (RequestMsg size)), m.requestor = c := forall_mem_singleton.mpr rfl
    rcases hev with ⟨rfl, rfl⟩ | ⟨rfl, y, rfl⟩ | ⟨rfl, rfl⟩
    · rw [cacheStep_ask hx he (.inl ⟨rfl, rfl⟩) h]
      apply hc.keep_own hone (.inl ⟨hm, hw, ?_⟩)
      rw [hq, hf]
      exact .asking (.inl rfl)
    · rw [cacheStep_ask hx he (.inr ⟨rfl, rfl⟩) h]
      apply hc.keep_own hone (.inl ⟨hm, hw, ?_⟩)
      rw [hq, hf]
      exact .asking (.inr rfl)
    · rw [cacheStep_dropInvalid hx he h]
      apply hc.keep_own (forall_mem_nil _) (.inl ⟨hm, hw, ?_⟩)
      rw [hq, hf]
      exact .idle nofun
  · obtain ⟨hx, hq, hf⟩ := view_eq hv
    rcases hev with ⟨rfl, rfl⟩ | ⟨rfl, y, rfl⟩ | ⟨rfl, rfl⟩
    · rw [cacheStep_loadHit hx h]
      exact hc
    · obtain ⟨blk, -, hs'⟩ := cacheStep_storeHit hx h
      rw [hs']
      apply hc.keep_own (forall_mem_nil _) (.inr (.inr ⟨l, hl, ?_⟩))
      rw [hq, hf, hresp]
      exact .held hne .modified
    · rw [cacheStep_leave hx (.inl rfl) h]
      apply hc.keep_own (c := c) (forall_mem_singleton.mpr rfl) (.inr (.inr ⟨l, hl, ?_⟩))
      rw [hq, hf, hresp]
      exact .held hne .leaving
  · rw [stall_spec rfl h (stalls hbusy hcases)]
    exact hc

theorem stalls_forward {st : CacheState} {m : ForwardMsg} (hst : Pending st) (hm : m = .inv ∨ ∃ b, m = .getx b) :
    cacheTransition st m.event = some .stall := by
  rcases hst with rfl | rfl <;> rcases hm with rfl | ⟨b, rfl⟩ <;> rfl

theorem mem_queued {n : Option Nat} {m : ForwardMsg} {fs : List ForwardMsg} (h : queued st n = m :: fs) :
    fs = [] ∧ ((m = .inv ∧ n = none ∧ st.blocks = true) ∨ ∃ b, m = .getx b ∧ n = some b) := by
  unfold queued at h
  split at h
  · cases h
    exact ⟨rfl, .inr ⟨_, rfl, rfl⟩⟩
  · split at h
    · rename_i hst
      cases h
      exact ⟨rfl, .inl ⟨rfl, rfl, hst⟩⟩
    · cases h

theorem waiting_forward {n : Option Nat} {m : ForwardMsg} {k : Nat} (hw : Waiting (queued st n) (s.view c))
    (hm : (s.forwards c).head? = some m) (h : s.cacheStep c k none m.event = .ok s') : s' = s := by
  generalize hv : s.view c = v at hw
  obtain ⟨hst⟩ := hw
  obtain ⟨hx, -, hf⟩ := view_eq hv
  obtain ⟨fs, hfs⟩ := head?_eq_some_iff.mp (hf ▸ hm)
  obtain ⟨-, hkind⟩ := mem_queued hfs
  apply stall_spec rfl h
  rw [hx]
  apply stalls_forward hst
  rcases hkind with ⟨rfl, -⟩ | ⟨b, rfl, -⟩
  · exact .inl rfl
  · exact .inr ⟨b, rfl⟩

/-- The cache that has the line takes a message. -/
theorem forward_held {l : List Nat} {m : ForwardMsg} {k : Nat} (hc : Coherent s st (c :: l) writer) (hne : st ≠ .IM)
    (hr : s.responses = []) (hv : Holding c st l.head? (s.view c)) (hm : (s.forwards c).head? = some m)
    (h : s.cacheStep c k none m.event = .ok s') : ∃ chain', Coherent s' st chain' writer := by
  have hgive : ∀ {b : Nat} {x : Cache size} {fs : List ForwardMsg} {d : DataBlock size}, l.head? = some b →
      s' = s.after c x [] fs (s.responses ++ [⟨b, d⟩]) → Away c ⟨x, s.requestsOf c, fs⟩ →
      ∃ chain', Coherent s' st chain' writer := by
    intro b x fs d hb hs' haway
    obtain ⟨l', rfl⟩ := head?_eq_some_iff.mp hb
    subst hs'
    refine ⟨b :: l', hc.hand_over (d := d) (fun a => view_after_ne (forall_mem_nil _)) rfl rfl ?_ ?_⟩
    · change s.responses ++ _ = _
      rw [hr, nil_append]
    · rw [view_after_self (forall_mem_nil _), append_nil]
      exact haway
  generalize he : s.view c = v at hv
  cases hv with
  | modified =>
    obtain ⟨hx, hq, hf⟩ := view_eq he
    obtain ⟨fs, hfs⟩ := head?_eq_some_iff.mp (hf ▸ hm)
    obtain ⟨rfl, ⟨rfl, hn, hst⟩ | ⟨b, rfl, hn⟩⟩ := mem_queued hfs
    · rw [cacheStep_leave hx (.inr rfl) h]
      refine ⟨c :: l, hc.keep_own (forall_mem_singleton.mpr rfl) (.inr (.inr ⟨l, rfl, ?_⟩))⟩
      rw [hq, hf, hr]
      exact .held hne .leaving
    · apply hgive hn (cacheStep_handOver hx (hf.trans hfs) h)
      rw [hq]
      exact .idle (by rintro _ ⟨⟩; rfl)
  | leaving =>
    obtain ⟨hx, hq, hf⟩ := view_eq he
    obtain ⟨fs, hfs⟩ := head?_eq_some_iff.mp (hf ▸ hm)
    obtain ⟨rfl, ⟨rfl, hn, hst⟩ | ⟨b, rfl, hn⟩⟩ := mem_queued hfs
    · rw [cacheStep_skipInv hx h]
      refine ⟨c :: l, hc.keep_own (forall_mem_nil _) (.inr (.inr ⟨l, rfl, ?_⟩))⟩
      rw [hq, hf.trans hfs, hr]
      exact .held hne (.freed hn hst)
    · apply hgive hn (cacheStep_handOverTBE hx (hf.trans hfs) h)
      rw [hq]
      exact .unwanted
  | freed hn hst =>
    obtain ⟨-, -, hf⟩ := view_eq he
    rw [hf] at hm
    cases hm
  | nacked hn =>
    obtain ⟨hx, hq, hf⟩ := view_eq he
    rw [hf] at hm
    cases hm
    apply hgive hn (cacheStep_handOverTBE hx hf h)
    rw [hq]
    exact .nacked

/-- Taking a message from the directory keeps the invariant; giving the line away moves along the chain. -/
theorem forward {m : ForwardMsg} {k : Nat} (hc : Coherent s st chain writer) (hm : (s.forwards c).head? = some m)
    (h : s.cacheStep c k none m.event = .ok s') : ∃ chain', Coherent s' st chain' writer := by
  cases hc.role c with
  | away hmem hw hv =>
    generalize he : s.view c = v at hv
    cases hv with
    | idle _ | asking _ | unwanted =>
      obtain ⟨-, -, hf⟩ := view_eq he
      rw [hf] at hm
      cases hm
    | nacked =>
      obtain ⟨hx, hq, hf⟩ := view_eq he
      rw [hf] at hm
      cases hm
      rw [cacheStep_left hx (.inr ⟨rfl, rfl⟩) h]
      refine ⟨chain, hc.keep_own (forall_mem_nil _) (.inl ⟨hmem, hw, ?_⟩)⟩
      rw [hq, hf]
      exact .idle nofun
    | acked hfs =>
      obtain ⟨hx, hq, hf⟩ := view_eq he
      rw [hf] at hm
      rcases hfs with rfl | rfl
      · cases hm
        rw [cacheStep_left hx (.inl ⟨rfl, rfl⟩) h]
        refine ⟨chain, hc.keep_own (forall_mem_nil _) (.inl ⟨hmem, hw, ?_⟩)⟩
        rw [hq, hf]
        exact .idle nofun
      · cases hm
        rw [cacheStep_skipInv hx h]
        refine ⟨chain, hc.keep_own (forall_mem_nil _) (.inl ⟨hmem, hw, ?_⟩)⟩
        rw [hq, hf]
        exact .acked (.inl rfl)
  | writing hw hv =>
    generalize he : s.view c = v at hv
    obtain ⟨hfs⟩ := hv
    obtain ⟨hx, hq, hf⟩ := view_eq he
    rw [hf] at hm
    rcases hfs with rfl | rfl
    · cases hm
    · cases hm
      rw [cacheStep_skipInv hx h]
      refine ⟨chain, hc.keep_own (forall_mem_nil _) (.inr (.inl ⟨hw, ?_⟩))⟩
      rw [hq, hf]
      exact .mk (.inl rfl)
  | first hl hv =>
    generalize hr : s.responses = rs at hv
    cases hv with
    | fetching _ hv =>
      rw [waiting_forward hv hm h]
      exact ⟨chain, hc⟩
    | sent _ hv =>
      rw [waiting_forward hv hm h]
      exact ⟨chain, hc⟩
    | held hne hv =>
      subst hl
      exact hc.forward_held hne hr hv hm h
  | behind _ hv =>
    rw [waiting_forward hv hm h]
    exact ⟨chain, hc⟩

/-- The `DATA` arrives. -/
theorem response {m : ResponseMsg size} {k : Nat} (hc : Coherent s st chain writer) (hm : s.responses[k]? = some m)
    (h : s.cacheStep m.destination k none .data = .ok s') : Coherent s' st chain writer := by
  cases hl : chain with
  | nil =>
    rw [hc.free hl] at hm
    cases hm
  | cons c l =>
    have hv := hc.first c l hl
    generalize hr : s.responses = rs at hv hm
    cases hv with
    | fetching _ _ | held _ _ => cases hm
    | sent hne hv =>
      rename_i d
      obtain ⟨hk, rfl⟩ : k = 0 ∧ m = ⟨c, d⟩ := by
        cases k with
        | zero => exact ⟨rfl, (Option.some.inj hm).symm⟩
        | succ k => cases hm
      subst hk
      have hm' : s.responses[0]? = some ⟨c, d⟩ := hr ▸ hm
      have hstay : ∀ {x : Cache size}, (∃ b w, x = ⟨some ⟨.M, b⟩, none, w⟩) →
          s' = s.after c x [] (s.forwards c) (s.responses.eraseIdx 0) → Coherent s' st chain writer := by
        rintro _ ⟨b, w, rfl⟩ rfl
        apply hc.keep_first (fun a => view_after_ne (forall_mem_nil _)) hc.dir hl
        rw [view_after_self (forall_mem_nil _)]
        generalize he : s.view c = v at hv
        obtain ⟨-⟩ := hv
        obtain ⟨-, hq, hf⟩ := view_eq he
        rw [hq, hf]
        change First c st l.head? _ (s.responses.eraseIdx 0)
        rw [hr]
        exact .held hne .modified
      rw [← hl]
      generalize he : s.view c = v at hv
      obtain ⟨hst⟩ := hv
      obtain ⟨hx, -, -⟩ := view_eq he
      rcases hst with rfl | rfl
      · exact hstay ⟨_, _, rfl⟩ (cacheStep_loadData hx hm' h)
      · obtain ⟨_, _, -, -, hs'⟩ := cacheStep_storeData hx hm' h
        exact hstay ⟨_, _, rfl⟩ hs'

end Coherent

end CacheSteps

end Gem5.Ruby
