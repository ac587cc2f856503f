import Gem5Nvmain.Lib.Chains
import Gem5Nvmain.Mem.PageLists

/- The list surgeries of the migrating crossbar, as operations on chains.

  `Shape s L free` says that the pointers of `s` link the lists `L`, which share no page and have every page but
  `free`. Each surgery of the source is shown to be one of three operations on chains, or two of them in a row: taking
  a page out (`takeOut`), putting it in front (`putFront`) and putting it last (`putBack`). The page is free between
  taking it out and putting it in. -/
namespace Gem5.Mem.XBarControl
open Lib List Function

variable {s t : XBarControl} {L : PageList → List Nat} {id : PageList} {x y q : Nat} {free : Option Nat}

/-! ## The pointers as a heap -/

def heap (s : XBarControl) : Heap Nat := ⟨fun i => (s.page i).next, fun i => (s.page i).pre⟩

def ends (s : XBarControl) (id : PageList) : Ends Nat := ⟨s.head id, s.tail id⟩

/-- The records with the pointers of `h`. -/
def relink (s : XBarControl) (h : Heap Nat) : XBarControl :=
  { s with page := fun i => { s.page i with next := h.next i, pre := h.pre i } }

def setEnds (s : XBarControl) (id : PageList) (e : Ends Nat) : XBarControl := (s.setHead id e.head).setTail id e.tail

/-- The record without its pointers. -/
def label (s : XBarControl) (x : Nat) : PageInfo := { s.page x with pre := none, next := none }

@[simp] theorem heap_relink (h : Heap Nat) : (s.relink h).heap = h := rfl

@[simp] theorem relink_relink (h h' : Heap Nat) : (s.relink h).relink h' = s.relink h' := rfl

@[simp] theorem heap_setEnds (e : Ends Nat) : (s.setEnds id e).heap = s.heap := rfl

@[simp] theorem ends_relink (h : Heap Nat) : (s.relink h).ends = s.ends := rfl

@[simp] theorem head_relink (h : Heap Nat) : (s.relink h).head = s.head := rfl

@[simp] theorem label_relink (h : Heap Nat) : (s.relink h).label x = s.label x := rfl

@[simp] theorem label_setEnds (e : Ends Nat) : (s.setEnds id e).label x = s.label x := rfl

theorem ends_setEnds_self (e : Ends Nat) : (s.setEnds id e).ends id = e := by
  simp [ends, setEnds, setHead, setTail]

theorem ends_setEnds_ne {id' : PageList} (e : Ends Nat) (hne : id' ≠ id) : (s.setEnds id e).ends id' = s.ends id' := by
  simp [ends, setEnds, setHead, setTail, hne]

theorem setNext_eq (v : Option Nat) : s.setNext x v = s.relink (s.heap.setNext x v) := by
  unfold setNext setPage relink
  congr 1
  funext i
  by_cases hi : i = x
  · subst hi
    simp [Heap.setNext, heap]
  · simp [Heap.setNext, heap, hi]

theorem setPre_eq (v : Option Nat) : s.setPre x v = s.relink (s.heap.setPre x v) := by
  unfold setPre setPage relink
  congr 1
  funext i
  by_cases hi : i = x
  · subst hi
    simp [Heap.setPre, heap]
  · simp [Heap.setPre, heap, hi]

variable {f : PageInfo → PageInfo}

theorem heap_setPage (hf : ∀ p, (f p).pre = p.pre ∧ (f p).next = p.next) : (s.setPage x f).heap = s.heap := by
  unfold heap setPage
  congr 1
  · funext i
    by_cases hi : i = x
    · subst hi
      simp [(hf _).2]
    · simp [hi]
  · funext i
    by_cases hi : i = x
    · subst hi
      simp [(hf _).1]
    · simp [hi]

/-! ## The lists -/

/-- The lists `L` are linked, share no page, and have all pages but `free`. -/
structure Shape (s : XBarControl) (L : PageList → List Nat) (free : Option Nat) : Prop where
  chain : ∀ id, Chain s.heap (s.ends id) (L id)
  apart : ∀ id id' x, x ∈ L id → x ∈ L id' → id = id'
  bound : ∀ id x, x ∈ L id → x < s.numPcmPages + s.numDramPages
  all : ∀ x < s.numPcmPages + s.numDramPages, some x ≠ free → ∃ id, x ∈ L id
  queues : ∀ q, numQueues ≤ q → L (.MQ q) = []
  free : ∀ x, free = some x → x < s.numPcmPages + s.numDramPages ∧ ∀ id, x ∉ L id

theorem Shape.congr (hs : Shape s L free) (hheap : t.heap = s.heap) (hends : t.ends = s.ends)
    (hpcm : t.numPcmPages = s.numPcmPages) (hdram : t.numDramPages = s.numDramPages) : Shape t L free where
  chain := by
    intro id
    rw [hheap, hends]
    exact hs.chain id
  apart := hs.apart
  bound := by
    rw [hpcm, hdram]
    exact hs.bound
  all := by
    rw [hpcm, hdram]
    exact hs.all
  queues := hs.queues
  free := by
    rw [hpcm, hdram]
    exact hs.free

theorem Shape.setPage (hs : Shape s L free)
    (hf : ∀ p, (f p).pre = p.pre ∧ (f p).next = p.next) : Shape (s.setPage x f) L free :=
  hs.congr (heap_setPage hf) rfl rfl rfl

def takeOut (s : XBarControl) (id : PageList) (x : Nat) : XBarControl :=
  (s.relink (s.heap.unlink x)).setEnds id ((s.ends id).unlink s.heap x)

variable {a b : List Nat}

theorem Shape.takeOut (hs : Shape s L none) (hx : L id = a ++ x :: b) :
    Shape (s.takeOut id x) (update L id (a ++ b)) (some x) := by
  have hc : Chain s.heap (s.ends id) (a ++ x :: b) := hx ▸ hs.chain id
  have hmem : ∀ y, y ∈ a ++ b ↔ y ∈ L id ∧ y ≠ x := by
    intro y
    have hnd := hc.nodup
    rw [nodup_middle, nodup_cons] at hnd
    rw [hx]
    simp only [mem_append, mem_cons] at hnd ⊢
    constructor
    · intro hy
      refine ⟨by tauto, ?_⟩
      rintro rfl
      exact hnd.1 hy
    · tauto
  have hxL : x ∈ L id := by simp [hx]
  have hsub : ∀ id' y, y ∈ update L id (a ++ b) id' → y ∈ L id' ∧ y ≠ x := by
    intro id' y hy
    by_cases hid : id' = id
    · subst hid
      rw [update_self] at hy
      exact (hmem y).mp hy
    · rw [update_of_ne hid] at hy
      refine ⟨hy, ?_⟩
      rintro rfl
      exact hid (hs.apart _ _ _ hy hxL)
  refine ⟨?_, ?_, ?_, ?_, ?_, ?_⟩
  · intro id'
    by_cases hid : id' = id
    · subst hid
      rw [update_self]
      unfold XBarControl.takeOut
      rw [ends_setEnds_self, heap_setEnds, heap_relink]
      exact hc.unlink
    · rw [update_of_ne hid]
      unfold XBarControl.takeOut
      rw [ends_setEnds_ne _ hid, heap_setEnds, heap_relink, ends_relink]
      have helse : ∀ y ∈ L id', y ∉ a ++ x :: b := by
        intro y hy hy'
        exact hid (hs.apart _ _ _ hy (hx ▸ hy'))
      exact (hs.chain id').congr (fun y hy => (hc.unlink_elsewhere (helse y hy)).1)
        fun y hy => (hc.unlink_elsewhere (helse y hy)).2
  · intro id' id'' y hy hy'
    exact hs.apart _ _ _ (hsub _ _ hy).1 (hsub _ _ hy').1
  · intro id' y hy
    exact hs.bound _ _ (hsub _ _ hy).1
  · intro y hy hne
    obtain ⟨id', hmem'⟩ := hs.all y hy (Option.some_ne_none y)
    refine ⟨id', ?_⟩
    by_cases hid : id' = id
    · subst hid
      rw [update_self, hmem]
      exact ⟨hmem', fun h => hne (congrArg some h)⟩
    · rwa [update_of_ne hid]
  · intro q hq
    by_cases hid : PageList.MQ q = id
    · subst hid
      rw [hs.queues q hq] at hxL
      cases hxL
    · rw [update_of_ne hid]
      exact hs.queues q hq
  · intro y hy
    cases hy
    refine ⟨hs.bound _ _ hxL, ?_⟩
    intro id' hmem'
    exact (hsub _ _ hmem').2 rfl

/-- The free page goes onto a list. -/
theorem Shape.put {h : Heap Nat} {e : Ends Nat} {k : List Nat} (hs : Shape s L (some x))
    (hid : ∀ q, id = .MQ q → q < numQueues) (hc : Chain h e k) (hk : ∀ y, y ∈ k ↔ y = x ∨ y ∈ L id)
    (helse : ∀ y, y ∉ L id → y ≠ x → h.next y = s.heap.next y ∧ h.pre y = s.heap.pre y) :
    Shape ((s.relink h).setEnds id e) (update L id k) none := by
  obtain ⟨hbound, hfree⟩ := hs.free x rfl
  have hcase : ∀ id' y, y ∈ update L id k id' → (y = x ∧ id' = id) ∨ (y ≠ x ∧ y ∈ L id') := by
    intro id' y hy
    by_cases hsame : id' = id
    · subst hsame
      rw [update_self, hk] at hy
      rcases hy with rfl | hy
      · exact .inl ⟨rfl, rfl⟩
      · exact .inr ⟨fun h => hfree _ (h ▸ hy), hy⟩
    · rw [update_of_ne hsame] at hy
      exact .inr ⟨fun h => hfree _ (h ▸ hy), hy⟩
  refine ⟨?_, ?_, ?_, ?_, ?_, ?_⟩
  · intro id'
    by_cases hsame : id' = id
    · subst hsame
      rw [update_self, ends_setEnds_self, heap_setEnds, heap_relink]
      exact hc
    · rw [update_of_ne hsame, ends_setEnds_ne _ hsame, heap_setEnds, heap_relink, ends_relink]
      have hother : ∀ y ∈ L id', y ∉ L id ∧ y ≠ x := by
        intro y hy
        exact ⟨fun hy' => hsame (hs.apart _ _ _ hy hy'), fun h => hfree _ (h ▸ hy)⟩
      exact (hs.chain id').congr (fun y hy => (helse y (hother y hy).1 (hother y hy).2).1)
        fun y hy => (helse y (hother y hy).1 (hother y hy).2).2
  · intro id' id'' y hy hy'
    rcases hcase _ _ hy with ⟨rfl, hid'⟩ | ⟨hne, hy⟩
    · rcases hcase _ _ hy' with ⟨-, hid''⟩ | ⟨hne, -⟩
      · rw [hid', hid'']
      · exact absurd rfl hne
    · rcases hcase _ _ hy' with ⟨heq, -⟩ | ⟨-, hy'⟩
      · exact absurd heq hne
      · exact hs.apart _ _ _ hy hy'
  · intro id' y hy
    rcases hcase _ _ hy with ⟨rfl, -⟩ | ⟨-, hy⟩
    · exact hbound
    · exact hs.bound _ _ hy
  · intro y hy _
    by_cases hyx : y = x
    · refine ⟨id, ?_⟩
      rw [update_self, hk]
      exact .inl hyx
    · obtain ⟨id', hmem⟩ := hs.all y hy fun h => hyx (Option.some.inj h)
      refine ⟨id', ?_⟩
      by_cases hsame : id' = id
      · subst hsame
        rw [update_self, hk]
        exact .inr hmem
      · rwa [update_of_ne hsame]
  · intro q hq
    have hne : PageList.MQ q ≠ id := fun h => Nat.not_lt_of_le hq (hid q h.symm)
    rw [update_of_ne hne]
    exact hs.queues q hq
  · intro y hy
    cases hy

def putFront (s : XBarControl) (id : PageList) (x : Nat) : XBarControl :=
  (s.relink (s.heap.pushFront (s.ends id) x)).setEnds id ((s.ends id).pushFront x)

def putBack (s : XBarControl) (id : PageList) (x : Nat) : XBarControl :=
  (s.relink (s.heap.pushBack (s.ends id) x)).setEnds id ((s.ends id).pushBack x)

theorem Shape.putFront (hs : Shape s L (some x)) (hid : ∀ q, id = .MQ q → q < numQueues) :
    Shape (s.putFront id x) (update L id (x :: L id)) none := by
  have hfree := (hs.free x rfl).2 id
  apply hs.put hid ((hs.chain id).pushFront hfree)
  · intro y
    exact mem_cons
  · intro y hy hyx
    exact (hs.chain id).pushFront_elsewhere hy hyx

theorem Shape.putBack (hs : Shape s L (some x)) (hid : ∀ q, id = .MQ q → q < numQueues) :
    Shape (s.putBack id x) (update L id (L id ++ [x])) none := by
  have hfree := (hs.free x rfl).2 id
  apply hs.put hid ((hs.chain id).pushBack hfree)
  · intro y
    rw [mem_append, mem_singleton]
    exact or_comm
  · intro y hy hyx
    exact (hs.chain id).pushBack_elsewhere hy hyx

/-! ## The surgeries of the source -/

theorem setEnds_head (v : Option Nat) : s.setEnds id ⟨v, s.tail id⟩ = s.setHead id v := by
  simp [setEnds, setHead, setTail]

theorem setEnds_tail (v : Option Nat) : s.setEnds id ⟨s.head id, v⟩ = s.setTail id v := by
  simp [setEnds, setHead]

theorem setEnds_same : s.setEnds id (s.ends id) = s := by
  simp [setEnds, ends, setHead, setTail]

/-- `insert_into_MQ` puts the page in front. -/
theorem insert_into_MQ_eq (hs : Shape s L free) (hq : q < numQueues) :
    s.insert_into_MQ x q = .ok ((s.setPage x fun i => { i with queue_number := q }).putFront (.MQ q) x) := by
  unfold insert_into_MQ
  rw [decide_eq_true hq]
  simp only
  generalize ht : (s.setPage x fun i => { i with queue_number := q }) = t
  have ht' : Shape t L free := by
    rw [← ht]
    exact hs.setPage fun _ => ⟨rfl, rfl⟩
  have hc := ht'.chain (.MQ q)
  cases hL : L (.MQ q) with
  | nil =>
    rw [hL] at hc
    have hhead : t.head (.MQ q) = none := hc.head
    have htail : t.tail (.MQ q) = none := hc.tail
    have hends : t.ends (.MQ q) = ⟨none, none⟩ := by rw [ends, hhead, htail]
    rw [htail]
    simp only [setPre_eq, setNext_eq, putFront, hends]
    rfl
  | cons y l =>
    rw [hL] at hc
    have hhead : t.head (.MQ q) = some y := hc.head
    obtain ⟨z, hz⟩ : ∃ z, (y :: l).getLast? = some z := ⟨_, getLast?_eq_some_getLast (cons_ne_nil y l)⟩
    have htail : t.tail (.MQ q) = some z := by rw [← hz]; exact hc.tail
    have hends : t.ends (.MQ q) = ⟨some y, t.tail (.MQ q)⟩ := by rw [ends, hhead]
    have hpush : (t.ends (.MQ q)).pushFront x = ⟨some x, t.tail (.MQ q)⟩ := by simp [hends, Ends.pushFront, htail]
    rw [putFront, hpush, htail]
    simp only [hhead, setPre_eq, setNext_eq, hends, heap_relink, head_relink, relink_relink]
    rw [← htail]
    exact congrArg Except.ok (setEnds_head _).symm

/-- `insert_into_victim` and `insert_into_unranked` put the page last. -/
theorem insertLast_eq (hs : Shape s L free) : s.insertLast id x = s.putBack id x := by
  have hc := hs.chain id
  unfold insertLast
  rcases eq_nil_or_concat (L id) with hL | ⟨l, z, hL⟩
  · rw [hL] at hc
    have hhead : s.head id = none := hc.head
    have htail : s.tail id = none := hc.tail
    have hends : s.ends id = ⟨none, none⟩ := by rw [ends, hhead, htail]
    rw [htail]
    simp only [setPre_eq, setNext_eq, putBack, hends]
    rfl
  · rw [hL, concat_eq_append] at hc
    have htail : s.tail id = some z := by
      rw [show s.tail id = (l ++ [z]).getLast? from hc.tail, getLast?_append]
      rfl
    have hends : s.ends id = ⟨s.head id, some z⟩ := by rw [ends, htail]
    have hpush : (s.ends id).pushBack x = ⟨s.head id, some x⟩ := by simp [hends, Ends.pushBack]
    rw [putBack, hpush, htail]
    simp only [setPre_eq, setNext_eq, hends, heap_relink, relink_relink]
    exact (setEnds_tail _).symm

/-- `takeUnaccessed` takes the page out of its list. -/
theorem takeUnaccessed_eq (hs : Shape s L none) (hx : L id = a ++ x :: b) :
    s.takeUnaccessed id x = s.takeOut id x := by
  have hc : Chain s.heap (s.ends id) (a ++ x :: b) := hx ▸ hs.chain id
  obtain ⟨hpre, hnext⟩ := hc.split
  have hpre' : (s.page x).pre = a.getLast? := hpre
  have hnext' : (s.page x).next = b.head? := hnext
  have hxb : x ∉ b := (nodup_cons.mp (nodup_append.mp hc.nodup).2.1).1
  unfold takeUnaccessed takeOut Heap.unlink Ends.unlink
  rw [hpre, hnext, hpre', hnext']
  -- the first write leaves the record of `x` alone
  have hkeep : ∀ n, b.head? = some n → ((s.setPre n a.getLast?).page x).pre = a.getLast? ∧
      ((s.setPre n a.getLast?).page x).next = b.head? := by
    intro n hn
    have hne : x ≠ n := by
      rintro rfl
      exact hxb (mem_of_mem_head? hn)
    unfold setPre setPage
    dsimp only
    rw [update_of_ne hne]
    exact ⟨hpre', hnext'⟩
  cases hn : b.head? with
  | none =>
    rw [hn] at hnext'
    cases hp : a.getLast? with
    | none =>
      rw [hp] at hpre'
      simp only [setTail, hpre', hnext']
      rfl
    | some p =>
      rw [hp] at hpre'
      simp only [setTail, hpre', hnext', setNext_eq]
      exact (setEnds_tail (s := s.relink _) _).symm
  | some n =>
    obtain ⟨hkp, hkn⟩ := hkeep n hn
    rw [hn] at hkn
    cases hp : a.getLast? with
    | none =>
      rw [hp] at hkp hkn
      simp only [hkp, hkn]
      rw [setPre_eq]
      exact (setEnds_head _).symm
    | some p =>
      rw [hp] at hkp hkn
      simp only [hkp, hkn]
      rw [setPre_eq, setNext_eq]
      exact (setEnds_same).symm

theorem setEnds_setEnds (e e' : Ends Nat) : (s.setEnds id e).setEnds id e' = s.setEnds id e' := by
  simp [setEnds, setHead, setTail]

theorem putFront_takeOut : (s.takeOut id x).putFront id x =
    (s.relink ((s.heap.unlink x).pushFront ((s.ends id).unlink s.heap x) x)).setEnds id
      (((s.ends id).unlink s.heap x).pushFront x) := by
  unfold putFront takeOut
  rw [ends_setEnds_self, heap_setEnds, heap_relink]
  exact setEnds_setEnds (s := s.relink _) _ _

/-- `change_queue` takes the page out of its queue and puts it in front. -/
theorem change_queue_eq (hs : Shape s L none) (hx : L (.MQ q) = a ++ x :: b) (ha : a ≠ [])
    (hq : (s.page x).queue_number = q) (hlt : q < numQueues) :
    s.change_queue x = .ok ((s.takeOut (.MQ q) x).putFront (.MQ q) x) := by
  have hc : Chain s.heap (s.ends (.MQ q)) (a ++ x :: b) := hx ▸ hs.chain (.MQ q)
  obtain ⟨hpre, hnext⟩ := hc.split
  obtain ⟨-, hnd, hdisj⟩ := nodup_append.mp hc.nodup
  have hxa : x ∉ a := fun h => hdisj x h x mem_cons_self rfl
  have hpre' : (s.page x).pre = a.getLast? := hpre
  have hnext' : (s.page x).next = b.head? := hnext
  obtain ⟨p, hp⟩ : ∃ p, a.getLast? = some p := ⟨_, getLast?_eq_some_getLast ha⟩
  obtain ⟨y, hy⟩ : ∃ y, a.head? = some y := ⟨_, head?_eq_some_head ha⟩
  have hhead : s.head (.MQ q) = some y := by
    rw [show s.head (.MQ q) = (a ++ x :: b).head? from hc.head, head?_append, hy]
    rfl
  have hyx : x ≠ y := by
    rintro rfl
    exact hxa (mem_of_mem_head? hy)
  have hpx : x ≠ p := by
    rintro rfl
    exact hxa (mem_of_getLast? hp)
  rw [hp] at hpre'
  -- the first write leaves the record of `x` alone
  have hkp : ((s.setNext p b.head?).page x).pre = some p := by
    unfold setNext setPage
    dsimp only
    rw [update_of_ne hpx]
    exact hpre'
  have hkn : ((s.setNext p b.head?).page x).next = b.head? := by
    unfold setNext setPage
    dsimp only
    rw [update_of_ne hpx]
    exact hnext'
  unfold change_queue
  simp only [hq, decide_eq_true hlt, hhead]
  rw [if_neg fun h => hyx (Option.some.inj h)]
  simp only [hpre', hnext', hkp, hkn]
  have hunlink : (s.ends (.MQ q)).unlink s.heap x = ⟨some y, if b.head? = none then some p else s.tail (.MQ q)⟩ := by
    unfold Ends.unlink
    rw [hpre, hnext, hp, if_neg (Option.some_ne_none p)]
    simp only [ends, hhead]
  have htail : s.tail (.MQ q) ≠ none := by
    rw [show s.tail (.MQ q) = (a ++ x :: b).getLast? from hc.tail]
    simp
  rw [putFront_takeOut, hunlink]
  unfold Heap.unlink Heap.pushFront Ends.pushFront
  rw [hpre, hnext, hp]
  cases hn : b.head? with
  | none =>
    simp only [setNext_eq, setPre_eq]
    have hH := Heap.setPre_comm (h := ((s.heap.setNext p none).setNext x (some y))) (p := none) (q := some x) hyx
    change Except.ok (((s.relink (((s.heap.setNext p none).setNext x (some y)).setPre x none |>.setPre y (some x))).setTail
      (.MQ q) (some p)).setHead (.MQ q) (some x)) = _
    rw [hH]
    rfl
  | some n =>
    simp only [setNext_eq, setPre_eq, relink_relink]
    have hH := Heap.setPre_comm (h := (((s.heap.setPre n (some p)).setNext p (some n)).setNext x (some y))) (p := none)
      (q := some x) hyx
    change Except.ok ((s.relink ((((s.heap.setPre n (some p)).setNext p (some n)).setNext x (some y)).setPre x none
      |>.setPre y (some x))).setHead (.MQ q) (some x)) = _
    rw [hH, if_neg (Option.some_ne_none n), if_neg htail]
    exact congrArg Except.ok (setEnds_head _).symm

theorem pre_setNext (v : Option Nat) : ((s.setNext y v).page x).pre = (s.page x).pre := by
  rw [setNext_eq]
  rfl

theorem next_setPre (v : Option Nat) : ((s.setPre y v).page x).next = (s.page x).next := by
  rw [setPre_eq]
  rfl

/-- The last page of a queue is cut off. -/
theorem cutLast_eq (hs : Shape t L none) (hx : L id = a ++ [x]) : t.cutLast id x = .ok (t.takeOut id x) := by
  have hc : Chain t.heap (t.ends id) (a ++ x :: []) := hx ▸ hs.chain id
  obtain ⟨hpre, hnext⟩ := hc.split
  have hpre' : (t.page x).pre = a.getLast? := hpre
  have hhead : t.head id = (a ++ [x]).head? := hc.head
  unfold cutLast takeOut Heap.unlink Ends.unlink
  rw [hpre, hnext, hhead, hpre']
  rcases eq_nil_or_concat a with rfl | ⟨a, p, rfl⟩
  · exact if_pos rfl
  · have hp : (a.concat p).getLast? = some p := by simp
    have hxa : x ∉ a.concat p := fun h => (nodup_append.mp hc.nodup).2.2 x h x mem_cons_self rfl
    have hne : ¬some x = (a.concat p ++ [x]).head? := by
      intro h
      obtain ⟨y, hy⟩ : ∃ y, (a.concat p).head? = some y := ⟨_, head?_eq_some_head (by simp)⟩
      rw [head?_append, hy] at h
      exact hxa (Option.some.inj h ▸ mem_of_mem_head? hy)
    rw [if_neg hne]
    rw [hp] at hpre' ⊢
    simp only [deref, bind_ok, pre_setNext, hpre']
    rw [setNext_eq]
    exact congrArg Except.ok (setEnds_tail _).symm

theorem cutFirst_eq (hs : Shape t L none) (hx : L id = x :: b) : t.cutFirst id x = .ok (t.takeOut id x) := by
  have hc : Chain t.heap (t.ends id) ([] ++ x :: b) := hx ▸ hs.chain id
  obtain ⟨hpre, hnext⟩ := hc.split
  have hnext' : (t.page x).next = b.head? := hnext
  have htail : t.tail id = (x :: b).getLast? := hc.tail
  unfold cutFirst takeOut Heap.unlink Ends.unlink
  rw [hpre, hnext, htail, hnext']
  cases b with
  | nil => exact if_pos rfl
  | cons n b =>
    have hne : ¬some x = (x :: n :: b).getLast? := by
      intro h
      exact (nodup_cons.mp hc.nodup).1 (mem_of_getLast? h.symm)
    rw [if_neg hne]
    rw [head?_cons] at hnext' ⊢
    simp only [deref, bind_ok, next_setPre, hnext']
    rw [setPre_eq]
    exact congrArg Except.ok (setEnds_head _).symm

theorem setPre_same (h : (s.page x).pre = none) : s.setPre x none = s := by
  have hheap : s.heap.setPre x none = s.heap := by
    unfold Heap.setPre
    rw [show none = s.heap.pre x from h.symm, update_eq_self]
  rw [setPre_eq, hheap]
  rfl

theorem setNext_same (h : (s.page x).next = none) : s.setNext x none = s := by
  have hheap : s.heap.setNext x none = s.heap := by
    unfold Heap.setNext
    rw [show none = s.heap.next x from h.symm, update_eq_self]
  rw [setNext_eq, hheap]
  rfl

end Gem5.Mem.XBarControl
