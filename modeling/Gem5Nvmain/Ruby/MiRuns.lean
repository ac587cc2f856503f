import Gem5Nvmain.Ruby.MiDirSteps

/- Runs of MI_example.

  The invariant holds in every state that is reached (`Coherent.of_run`), so the permission for the line is in one
  place only. -/
namespace Gem5.Ruby
open Lib List System

variable {size : Nat}

section Runs
variable {s s' : System size} {st : DirState} {chain : List Nat} {writer : Option Nat} {i : Input} {useMap : Bool}
  {ram : DataBlock size} {h : List Input}

namespace Coherent

theorem init : Coherent (init useMap ram) .I [] none where
  nodup := nodup_nil
  dir := by
    refine ⟨if useMap then DataBlock.clear else ram, [], none, ⟨rfl, rfl, nofun⟩, .idle⟩
  away _ _ _ := .idle nofun
  writing _ hw := nomatch hw
  free _ := rfl
  first _ _ hl := nomatch hl
  behind _ ha := nomatch ha

theorem dmaStep (hc : Coherent s st chain writer) (h : s.dmaStep i = .ok s') : Coherent s' st chain writer := by
  obtain ⟨hdir, hmem, hreq, hresp, hf, hx⟩ := dmaStep_frame h
  refine hc.recycled ?_ (fun a => ?_) hresp
  · rw [hdir, hmem]
    exact hc.dir
  · unfold view requestsOf
    rw [hx, hreq, hf]

theorem step (hc : Coherent s st chain writer) (h : s.step i = .ok s') :
    ∃ st' chain' writer', Coherent s' st' chain' writer' := by
  rcases step_cases h with ⟨c, ev, he, h⟩ | ⟨ev, d, he, h, rfl⟩ | ⟨-, h⟩
  · rcases event_cache he with ⟨rfl, rfl⟩ | ⟨⟨w, rfl⟩, rfl⟩ | ⟨rfl, rfl⟩ | ⟨rfl, m, hm, rfl⟩ | ⟨k, m, rfl, hm, rfl, rfl⟩
    · exact ⟨st, chain, writer, hc.processor (.inl ⟨rfl, rfl⟩) h⟩
    · exact ⟨st, chain, writer, hc.processor (.inr (.inl ⟨rfl, w, rfl⟩)) h⟩
    · exact ⟨st, chain, writer, hc.processor (.inr (.inr ⟨rfl, rfl⟩)) h⟩
    · obtain ⟨chain', hc'⟩ := hc.forward hm h
      exact ⟨st, chain', writer, hc'⟩
    · exact ⟨st, chain, writer, hc.response hm h⟩
  · rcases event_dir he with ⟨k, m, rfl, hm, rfl⟩ | ⟨k, m, rfl, hm, rfl⟩ | ⟨k, m, rfl, hm, rfl⟩
    · exact hc.requestPort hm h
    · obtain ⟨st', hc'⟩ := hc.dmaRequestPort hm h
      exact ⟨st', chain, writer, hc'⟩
    · obtain ⟨st', hc'⟩ := hc.memPort hm h
      exact ⟨st', chain, none, hc'⟩
  · exact ⟨st, chain, writer, hc.dmaStep h⟩

theorem of_run (hr : Exec (StepOf System.step) (System.init useMap ram) h s) :
    ∃ st chain writer, Coherent s st chain writer := by
  apply hr.invariant
  · exact ⟨.I, [], none, init⟩
  · rintro t i u ⟨st, chain, writer, hc⟩ hs
    exact hc.step hs

theorem modified (hc : Coherent s st chain writer) {c : Nat} (hM : (s.caches c).getState = .M) :
    chain.head? = some c ∧ s.responses = [] := by
  rcases hc.shape c with ⟨-, -, e, w, hv, he⟩ | ⟨l, d, w, rfl, -, hresp, -⟩ | hbusy
  · obtain ⟨hx, -, -⟩ := view_eq hv
    rw [hx] at hM
    cases e with
    | none => cases hM
    | some y => cases (he y rfl).symm.trans hM
  · exact ⟨rfl, hresp⟩
  · rw [hM] at hbusy
    rcases hbusy with (h | h) | h | h <;> cases h

theorem responses_le (hc : Coherent s st chain writer) : s.responses.length ≤ 1 := by
  cases chain with
  | nil => simp [hc.free rfl]
  | cons c l =>
    have hf := hc.first c l rfl
    generalize s.responses = rs at hf
    cases hf <;> simp

theorem owner_length (hc : Coherent s st chain writer) (hne : chain ≠ []) : s.owner.length = 1 ∧ s.dir.getState ≠ .I := by
  obtain ⟨blk, o, t, hd, hp⟩ := hc.dir
  have howner : s.owner = o := congrArg DirEntry.owner hd.entry
  rw [howner, hd.getState]
  generalize t.isSome = x at hp
  generalize s.memQueue = mem at hp
  cases hp with
  | idle | dmaRead | dmaWrite | writing _ => exact absurd rfl hne
  | fetching | modified _ => exact ⟨rfl, nofun⟩
  | blocked hst _ =>
    refine ⟨rfl, ?_⟩
    rintro rfl
    cases hst

end Coherent

theorem countP_le_one {α : Type} {p : α → Bool} {l : List α} (hn : l.Nodup) (h : ∀ a ∈ l, ∀ b ∈ l, p a → p b → a = b) :
    l.countP p ≤ 1 := by
  rw [countP_eq_length_filter]
  have hnodup := hn.filter p
  cases hf : l.filter p with
  | nil => simp
  | cons a k =>
    cases k with
    | nil => simp
    | cons b k =>
      have ha := mem_filter.mp (hf ▸ mem_cons_self : a ∈ l.filter p)
      have hb := mem_filter.mp (hf ▸ mem_cons_of_mem _ mem_cons_self : b ∈ l.filter p)
      rw [hf] at hnodup
      exact absurd (h a ha.1 b hb.1 ha.2 hb.2) fun hab => (nodup_cons.mp hnodup).1 (hab ▸ mem_cons_self)

/-- The permission to use the line is in one cache or in one message, and the directory knows an owner then. -/
theorem single_permission (hr : Exec (StepOf step) (init useMap ram) h s) :
    (∀ n, ((range n).countP fun c => (s.caches c).getState = .M) + s.responses.length ≤ 1) ∧
    ((∃ c, (s.caches c).getState = .M) ∨ s.responses ≠ [] → s.owner.length = 1) ∧
    (s.dir.getState = .I → ∀ c, (s.caches c).getState ≠ .M) := by
  obtain ⟨st, chain, writer, hc⟩ := Coherent.of_run hr
  have hne : (∃ c, (s.caches c).getState = .M) ∨ s.responses ≠ [] → chain ≠ [] := by
    rintro (⟨c, hM⟩ | hresp) hnil
    · rw [hnil] at hc
      cases (hc.modified hM).1
    · exact hresp (hc.free hnil)
  refine ⟨fun n => ?_, fun h => (hc.owner_length (hne h)).1, fun hI c hM => ?_⟩
  · by_cases hM : ∃ c, (s.caches c).getState = .M
    · obtain ⟨c, hM⟩ := hM
      rw [(hc.modified hM).2]
      apply countP_le_one nodup_range
      intro a _ b _ ha hb
      have ha := (hc.modified (of_decide_eq_true ha)).1
      have hb := (hc.modified (of_decide_eq_true hb)).1
      exact Option.some.inj (ha.symm.trans hb)
    · have hzero : ((range n).countP fun c => (s.caches c).getState = .M) = 0 := by
        apply countP_eq_zero.mpr
        intro c _ hc
        exact hM ⟨c, of_decide_eq_true hc⟩
      rw [hzero, Nat.zero_add]
      exact hc.responses_le
  · exact (hc.owner_length (hne (.inl ⟨c, hM⟩))).2 hI

/-- Two caches ask for the line, and the first one has it when the request of the second is forwarded. -/
theorem single_permission_two_caches : ∃ s : System 1, Exec (StepOf step) (init false DataBlock.clear)
        [.load 0, .store 1 ⟨0, [7]⟩, .requestPort 0, .memPort 0, .requestPort 0, .responsePort 0] s ∧
      (s.caches 0).getState = .M ∧ s.owner = [1] ∧ s.owner.length = 1 := by
  refine Exec.ends_with (p := fun s => (s.caches 0).getState = .M && s.owner = [1]) (by decide) fun s hr hs => ?_
  obtain ⟨hM, howner⟩ := Bool.and_eq_true_iff.mp hs
  have hM := of_decide_eq_true hM
  exact ⟨hM, of_decide_eq_true howner, (single_permission hr).2.1 (.inl ⟨0, hM⟩)⟩

end Runs

end Gem5.Ruby
