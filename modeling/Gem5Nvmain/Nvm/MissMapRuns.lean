import Gem5Nvmain.Nvm.MissMap

/- Probes of the miss map.

  The bank only ever moves and copies data blocks, so what holds of all blocks that are written into it holds of all
  that come out (`AllData`). The blocks of fills have no size, so no byte of a vector reaches the bank (`Unsized`),
  and both the probe that hits and the count of the lines of an evicted entry read beyond an array without elements.
  No line is ever found, and no forced eviction is sent. -/
namespace Nvm
open Lib Function List

variable {P : NVMDataBlock → Prop} {addr : Nat} {data : NVMDataBlock} {set : List CacheEntry} {e tmp : CacheEntry}

/-! ## Data blocks of a set -/

def AllData (P : NVMDataBlock → Prop) (set : List CacheEntry) : Prop := ∀ e ∈ set, P e.data

theorem mem_copyBack (stop i : Nat) (h : e ∈ copyBack stop i set) : e ∈ set := by
  induction i generalizing set with
  | zero => exact h
  | succ j ih =>
    unfold copyBack at h
    split at h
    · split at h
      · rename_i x hx
        rcases mem_or_eq_of_mem_set (ih h) with hold | rfl
        · exact hold
        · exact mem_of_getElem? hx
      · exact h
    · exact h

theorem AllData.put {i : Nat} (h : AllData P set) (he : P e.data) : AllData P (set.set i e) := by
  intro x hx
  rcases mem_or_eq_of_mem_set hx with hold | rfl
  · exact h x hold
  · exact he

theorem AllData.toFront (h : AllData P set) (stop i : Nat) (htmp : P tmp.data) : AllData P (toFront stop i tmp set) := by
  have hcopied : AllData P (copyBack stop i set) := fun x hx => h x (mem_copyBack stop i hx)
  exact hcopied.put htmp

theorem AllData.foldl {α β : Type} {f : β → α → β} {Q : β → Prop} (hf : ∀ b a, Q b → Q (f b a)) (l : List α) {b : β}
    (hb : Q b) : Q (l.foldl f b) := by
  induction l generalizing b with
  | nil => exact hb
  | cons a l ih => exact ih (hf b a hb)

theorem AllData.readIn (h : AllData P set) (addr : Nat) :
    AllData P (readIn addr set).1 ∧ ∀ d, (readIn addr set).2 = some d → P d := by
  apply AllData.foldl (Q := fun t : List CacheEntry × Option NVMDataBlock => AllData P t.1 ∧ ∀ d, t.2 = some d → P d)
  · rintro ⟨t, r⟩ i ⟨ht, hr⟩
    unfold readAt
    split
    · rename_i x hx
      have hdata := ht x (mem_of_getElem? hx)
      split
      · refine ⟨ht.toFront 0 i hdata, fun d hd => ?_⟩
        cases hd
        exact hdata
      · exact ⟨ht, hr⟩
    · exact ⟨ht, hr⟩
  · exact ⟨h, nofun⟩

theorem AllData.writeIn (h : AllData P set) (addr : Nat) (hdata : P data) : AllData P (writeIn addr data set) := by
  apply AllData.foldl _ _ h
  intro t i ht
  unfold writeAt
  split
  · split
    · exact (ht.put hdata).toFront 1 i hdata
    · exact ht
  · exact ht

theorem AllData.installIn (h : AllData P set) (addr : Nat) (hdata : P data) : AllData P (installIn addr data set).1 := by
  induction set with
  | nil => exact h
  | cons x set ih =>
    have htail := ih fun y hy => h y (mem_cons_of_mem _ hy)
    unfold Nvm.installIn
    intro y hy
    split at hy
    · rcases mem_cons.mp hy with rfl | hy
      · exact hdata
      · exact h y (mem_cons_of_mem _ hy)
    · rcases mem_cons.mp hy with rfl | hy
      · exact h _ (mem_cons_self ..)
      · exact htail y hy

theorem AllData.evictIn (h : AllData P set) (addr : Nat) :
    AllData P (evictIn addr set).1 ∧ ∀ d dirty, (evictIn addr set).2 = some (d, dirty) → P d := by
  induction set with
  | nil => exact ⟨h, nofun⟩
  | cons x set ih =>
    obtain ⟨htail, hout⟩ := ih fun y hy => h y (mem_cons_of_mem _ hy)
    have hhead := h x (mem_cons_self ..)
    unfold Nvm.evictIn
    split
    · refine ⟨fun y hy => ?_, fun d dirty hd => ?_⟩
      · rcases mem_cons.mp hy with rfl | hy
        · exact hhead
        · exact h y (mem_cons_of_mem _ hy)
      · cases hd
        exact hhead
    · refine ⟨fun y hy => ?_, hout⟩
      rcases mem_cons.mp hy with rfl | hy
      · exact hhead
      · exact htail y hy

/-! ## Data blocks of the bank -/

/-- The entries of the bank and the responses. -/
structure CacheController.All (P : NVMDataBlock → Prop) (s : CacheController) : Prop where
  entries : ∀ k, AllData P (s.bank.cacheEntry k)
  responses : ∀ r ∈ s.responses, P r.data

section Bank
variable {c : CacheConfig} {s s' : CacheController} {bank bank' : CacheBank}

theorem allData_putSet (h : ∀ k, AllData P (bank.cacheEntry k)) (hset : AllData P set) (k : Nat) :
    AllData P ((bank.putSet c addr set).cacheEntry k) := by
  unfold CacheBank.putSet
  dsimp only
  by_cases hk : k = c.decode addr
  · subst hk
    rw [update_self]
    exact hset
  · rw [update_of_ne hk]
    exact h k

theorem CacheController.All.issueRead (h : s.All P) (hnone : P {}) (hs : s.issueRead c addr = .ok s') : s'.All P := by
  obtain ⟨_, -, hs⟩ := of_bind hs
  split at hs
  · obtain ⟨r, hr, hs⟩ := of_bind hs
    obtain ⟨_, -, hr⟩ := of_bind hr
    cases hr
    cases hs
    obtain ⟨hset, hout⟩ := (h.entries (c.decode addr)).readIn addr
    refine ⟨allData_putSet h.entries hset, fun r hr => ?_⟩
    rcases mem_append.mp hr with hr | hr
    · exact h.responses r hr
    · rw [mem_singleton.mp hr]
      cases hd : (readIn addr (s.bank.findSet c addr)).2 with
      | none => exact hnone
      | some d => exact hout d hd
  · cases hs
    refine ⟨h.entries, fun r hr => ?_⟩
    rcases mem_append.mp hr with hr | hr
    · exact h.responses r hr
    · rw [mem_singleton.mp hr]
      exact hnone

theorem makeRoom_all {out : Option CacheRequest} (h : ∀ k, AllData P (bank.cacheEntry k)) (hnone : P {})
    (hs : CacheController.makeRoom c bank addr = .ok (bank', out)) :
    (∀ k, AllData P (bank'.cacheEntry k)) ∧ ∀ r ∈ out.toList, P r.data := by
  unfold CacheController.makeRoom at hs
  split at hs
  · obtain ⟨victim, -, hs⟩ := of_bind hs
    obtain ⟨r, hr, hs⟩ := of_bind hs
    obtain ⟨_, -, hr⟩ := of_bind hr
    cases hr
    cases hs
    obtain ⟨hset, hout⟩ := (h (c.decode victim.1)).evictIn victim.1
    refine ⟨allData_putSet h hset, fun r hr => ?_⟩
    rw [mem_singleton.mp hr]
    cases hd : (evictIn victim.1 (bank.findSet c victim.1)).2 with
    | none => exact hnone
    | some d => exact hout d.1 d.2 hd
  · cases hs
    exact ⟨h, nofun⟩

theorem writeOrInstall_all {hit : Bool} (h : ∀ k, AllData P (bank.cacheEntry k)) (hdata : P data)
    (hs : CacheController.writeOrInstall c bank hit addr data = .ok bank') : ∀ k, AllData P (bank'.cacheEntry k) := by
  unfold CacheController.writeOrInstall at hs
  split at hs
  · obtain ⟨_, -, hs⟩ := of_bind hs
    cases hs
    exact allData_putSet h ((h _).writeIn addr hdata)
  · cases hs
    exact allData_putSet h ((h _).installIn addr hdata)

theorem CacheController.All.issueWrite (h : s.All P) (hnone : P {}) (hdata : P data)
    (hs : s.issueWrite c addr data = .ok s') : s'.All P := by
  obtain ⟨_, -, hs⟩ := of_bind hs
  obtain ⟨⟨bank, out⟩, hroom, hs⟩ := of_bind hs
  obtain ⟨bank', hwrite, hs⟩ := of_bind hs
  cases hs
  obtain ⟨hbank, hout⟩ := makeRoom_all h.entries hnone hroom
  refine ⟨writeOrInstall_all hbank hdata hwrite, fun r hr => ?_⟩
  rcases mem_append.mp hr with hr | hr
  · rcases mem_append.mp hr with hr | hr
    · exact h.responses r hr
    · exact hout r hr
  · rw [mem_singleton.mp hr]
    exact hdata

end Bank

/-! ## Runs -/

namespace MissMap
variable {c : CacheConfig} {missMapQueueSize : Nat} {s s' : MissMap} {req : MissMapRequest} {creq : CacheRequest}

/-- No data block has a size, and nothing was found or evicted. -/
structure Unsized (s : MissMap) : Prop where
  blocks : s.missMap.All fun d => d.rawData = []
  fills : ∀ fill ∈ s.missMapFillQueue, fill.2.size = 0
  found : s.found = []
  forced : s.forced = []

theorem Unsized.init (c : CacheConfig) : Unsized (init c) where
  blocks := ⟨fun _ e he => by rw [eq_of_mem_replicate he], nofun⟩
  fills := nofun
  found := rfl
  forced := rfl

theorem Unsized.issueCommand (h : s.Unsized) (address : Nat) (isRead : Bool) :
    (s.issueCommand missMapQueueSize address isRead).Unsized := by
  unfold MissMap.issueCommand
  split
  · exact ⟨h.blocks, h.fills, h.found, h.forced⟩
  · exact h

theorem assign_rawData {m : LineMap} (h : m.size = 0) : m.assign.rawData = [] := by
  unfold LineMap.assign
  rw [h, take_zero]

theorem Unsized.cycle (h : s.Unsized) (hs : s.cycle c = .ok s') : s'.Unsized := by
  unfold MissMap.cycle at hs
  split at hs
  · rename_i req data rest hqueue
    split at hs
    · cases hs
      exact h
    · obtain ⟨bank, hbank, hs⟩ := of_bind hs
      cases hs
      have hfill : data.size = 0 := h.fills (req, data) (by rw [hqueue]; exact mem_cons_self ..)
      refine ⟨h.blocks.issueWrite rfl (assign_rawData hfill) hbank, fun fill hmem => ?_, h.found, h.forced⟩
      exact h.fills fill (by rw [hqueue]; exact mem_cons_of_mem _ hmem)
  · split at hs
    · split at hs
      · cases hs
        exact h
      · obtain ⟨bank, hbank, hs⟩ := of_bind hs
        cases hs
        exact ⟨h.blocks.issueRead rfl hbank, h.fills, h.found, h.forced⟩
    · cases hs
      exact h

theorem readLineMap_error {d : NVMDataBlock} (h : d.rawData = []) : readLineMap d = .error .outOfRange := by
  unfold readLineMap
  rw [h]
  rfl

theorem next_spec (hnext : s.next = some (req, creq)) : creq ∈ s.missMap.responses ∧
    s.missMap.requestComplete = .ok { s.missMap with busy := false, delivered := s.missMap.delivered + 1 } := by
  unfold next at hnext
  split at hnext
  · rename_i hcreq
    cases hnext
    have hlt := (List.getElem?_eq_some_iff.mp hcreq).1
    exact ⟨mem_of_getElem? hcreq, if_pos hlt⟩
  · cases hnext

theorem bankComplete_eq (hnext : s.next = some (req, creq)) : s.bankComplete = match req.tag with
    | .read => probeComplete { s with missMap := { s.missMap with busy := false, delivered := s.missMap.delivered + 1 } } req creq
    | .write => fillComplete { s with missMap := { s.missMap with busy := false, delivered := s.missMap.delivered + 1 } } req creq := by
  unfold MissMap.bankComplete
  rw [hnext]
  rw [(next_spec hnext).2]
  rfl

/-- A response that reads a vector. -/
def ReadsVector (req : MissMapRequest) (creq : CacheRequest) : Prop :=
  req.tag = .read ∧ creq.hit = true ∨ req.tag = .write ∧ creq.optype = .evict

theorem Unsized.stops (h : s.Unsized) (hnext : s.next = some (req, creq)) (hreads : ReadsVector req creq) :
    s.bankComplete = .error .outOfRange := by
  have hempty := readLineMap_error (h.blocks.responses creq (next_spec hnext).1)
  rw [bankComplete_eq hnext]
  rcases hreads with ⟨htag, hhit⟩ | ⟨htag, hevict⟩
  · rw [htag]
    simp only [probeComplete, hhit, hempty]
    rfl
  · rw [htag]
    simp only [fillComplete, hevict, hempty]
    rfl

theorem Unsized.notFound (h : s.Unsized) (req : MissMapRequest) (lineMap : BitVec 64) : (s.notFound req lineMap).Unsized := by
  refine ⟨h.blocks, fun fill hmem => ?_, h.found, h.forced⟩
  rcases mem_append.mp hmem with hmem | hmem
  · exact h.fills fill hmem
  · rw [mem_singleton.mp hmem]

theorem Unsized.bankComplete (h : s.Unsized) (hs : s.bankComplete = .ok s') : s'.Unsized := by
  cases hnext : s.next with
  | none =>
    unfold MissMap.bankComplete at hs
    rw [hnext] at hs
    cases hs
    exact h
  | some response =>
    obtain ⟨req, creq⟩ := response
    by_cases hreads : ReadsVector req creq
    · rw [h.stops hnext hreads] at hs
      cases hs
    · have hidle : Unsized { s with missMap := { s.missMap with busy := false, delivered := s.missMap.delivered + 1 } } :=
        ⟨⟨h.blocks.entries, h.blocks.responses⟩, h.fills, h.found, h.forced⟩
      rw [bankComplete_eq hnext] at hs
      cases htag : req.tag with
      | read =>
        have hhit : ¬creq.hit = true := fun hhit => hreads (.inl ⟨htag, hhit⟩)
        rw [htag] at hs
        simp only [probeComplete, if_neg hhit] at hs
        cases hs
        exact hidle.notFound req _
      | write =>
        have hkept : ¬creq.optype = .evict := fun hevict => hreads (.inr ⟨htag, hevict⟩)
        rw [htag] at hs
        simp only [fillComplete, if_neg hkept] at hs
        cases hs
        exact hidle

theorem Unsized.memoryComplete (h : s.Unsized) (i : Nat) : (s.memoryComplete i).Unsized := by
  unfold MissMap.memoryComplete
  split
  · exact ⟨h.blocks, h.fills, h.found, h.forced⟩
  · exact h

theorem Unsized.step {op : Op} (h : s.Unsized) (hs : s.step c missMapQueueSize op = .ok s') : s'.Unsized := by
  cases op with
  | issueCommand address isRead =>
    cases hs
    exact h.issueCommand address isRead
  | cycle => exact h.cycle hs
  | bankComplete => exact h.bankComplete hs
  | memoryComplete i =>
    cases hs
    exact h.memoryComplete i

theorem Unsized.of_run {ops : List Op} (hr : Exec (StepOf (MissMap.step c missMapQueueSize)) (MissMap.init c) ops s) :
    s.Unsized := by
  apply hr.invariant (Unsized.init c)
  intro t op u ht hu
  exact ht.step hu

/-- In no run is a line found in the map or a forced eviction sent: a probe that hits an entry and a fill that evicted
  one stop at their vector. -/
theorem no_line_is_found {ops : List Op} (hr : Exec (StepOf (MissMap.step c missMapQueueSize)) (MissMap.init c) ops s) :
    s.found = [] ∧ s.forced = [] ∧
    ∀ req creq, s.next = some (req, creq) → ReadsVector req creq → s.bankComplete = .error .outOfRange :=
  ⟨(Unsized.of_run hr).found, (Unsized.of_run hr).forced, fun _ _ => (Unsized.of_run hr).stops⟩

/-- One set of one way. -/
def onePage : CacheConfig where
  numAssoc := 1
  decode := fun _ => 0

/-- The request of the next response, and what it evicted or whether it hit. -/
def nextIs (s : MissMap) (address : Nat) (tag : MissMapTag) (optype : CacheOperation) (page : Nat) (hit : Bool) : Bool :=
  match s.next with
  | some (req, creq) =>
    req.address = address && req.tag = tag && creq.optype = optype && creq.address = page && creq.hit = hit
  | none => false

theorem nextIs_iff {address page : Nat} {tag : MissMapTag} {optype : CacheOperation} {hit : Bool} :
    s.nextIs address tag optype page hit = true ↔ ∃ req creq, s.next = some (req, creq) ∧ req.address = address ∧
      req.tag = tag ∧ creq.optype = optype ∧ creq.address = page ∧ creq.hit = hit := by
  unfold nextIs
  cases hnext : s.next with
  | none => simp
  | some response =>
    obtain ⟨req, creq⟩ := response
    simp [and_assoc]

/-- A page and then a second one, whose fill evicts the first: the forced eviction would go out under the address of
  the second one. -/
def twoPages : List Op :=
  [.issueCommand 0 true, .cycle, .bankComplete, .cycle, .bankComplete,
   .issueCommand 262144 true, .cycle, .bankComplete, .cycle]

theorem no_line_is_found_evicted : ∃ s, Exec (StepOf (MissMap.step onePage 32)) (MissMap.init onePage) twoPages s ∧
      s.nextIs 262144 .write .evict 0 false = true ∧ s.bankComplete = .error .outOfRange := by
  refine Exec.ends_with (p := fun s => s.nextIs 262144 .write .evict 0 false) (by decide) fun s hr hs => ?_
  obtain ⟨req, creq, hnext, -, htag, hevict, -⟩ := nextIs_iff.mp hs
  exact ⟨hs, (no_line_is_found hr).2.2 req creq hnext (.inr ⟨htag, hevict⟩)⟩

/-- The fill for address 0 has completed and its entry is in the map, and the next probe of that address stops. -/
theorem filled_line_is_not_found : ∃ s, Exec (StepOf (MissMap.step onePage 32)) (MissMap.init onePage)
        [.issueCommand 0 true, .cycle, .bankComplete, .cycle, .bankComplete, .issueCommand 0 true, .cycle] s ∧
      s.missMap.bank.present onePage 0 = true ∧ s.nextIs 0 .read .read 0 true = true ∧
      s.bankComplete = .error .outOfRange := by
  refine Exec.ends_with (p := fun s => s.missMap.bank.present onePage 0 && s.nextIs 0 .read .read 0 true)
    (by decide) fun s hr hs => ?_
  obtain ⟨hpresent, hprobe⟩ := Bool.and_eq_true_iff.mp hs
  obtain ⟨req, creq, hnext, -, htag, -, -, hhit⟩ := nextIs_iff.mp hprobe
  exact ⟨hpresent, hprobe, (Unsized.of_run hr).stops hnext (.inl ⟨htag, hhit⟩)⟩

end MissMap

end Nvm
