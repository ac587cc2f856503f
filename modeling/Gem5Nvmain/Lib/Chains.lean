import Mathlib.Data.List.Basic
import Mathlib.Data.List.Nodup
import Mathlib.Logic.Function.Basic

/- Doubly linked lists that share one heap.

  A heap holds the two pointers of every element, and a list is known by its two ends. `Chain h e l` says that the
  ends `e` and the pointers of `h` link the elements of `l`, in this order: the head has no predecessor, the tail no
  successor, and `next` and `pre` of neighbours point to each other. `Seg h p l n` is the same for a stretch of a list
  between the elements `p` and `n`; it splits at any place (`Seg.append`), and it only reads the pointers of its own
  elements (`Seg.congr`).

  Taking an element out (`unlink`), and putting one that is on no list in front (`pushFront`) or at the back
  (`pushBack`), write pointers of that element and of elements of the one list only (`unlink_elsewhere`,
  `pushFront_elsewhere`, `pushBack_elsewhere`), so every other list stays as it is. -/
namespace Lib
open List Function Option

@[ext]
structure Heap (α : Type) where
  next : α → Option α
  pre : α → Option α

@[ext]
structure Ends (α : Type) where
  head : Option α
  tail : Option α

section Chains
variable {α : Type} {h h' : Heap α} {e : Ends α} {l k : List α} {p n : Option α} {x y : α}

/-- The stretch `l` of a list, between `p` and `n`. -/
def Seg (h : Heap α) (p : Option α) : List α → Option α → Prop
  | [], _ => True
  | x :: l, n => h.pre x = p ∧ h.next x = l.head?.or n ∧ Seg h (some x) l n

structure Chain (h : Heap α) (e : Ends α) (l : List α) : Prop where
  nodup : l.Nodup
  head : e.head = l.head?
  tail : e.tail = l.getLast?
  seg : Seg h none l none

theorem Seg.congr (hn : ∀ x ∈ l, h'.next x = h.next x) (hp : ∀ x ∈ l, h'.pre x = h.pre x) (hs : Seg h p l n) :
    Seg h' p l n := by
  induction l generalizing p with
  | nil => trivial
  | cons x l ih =>
    obtain ⟨hpre, hnext, hrest⟩ := hs
    refine ⟨?_, ?_, ?_⟩
    · rw [hp x mem_cons_self, hpre]
    · rw [hn x mem_cons_self, hnext]
    · exact ih (fun y hy => hn y (mem_cons_of_mem x hy)) (fun y hy => hp y (mem_cons_of_mem x hy)) hrest

theorem Seg.append : Seg h p (l ++ k) n ↔ Seg h p l (k.head?.or n) ∧ Seg h (l.getLast?.or p) k n := by
  induction l generalizing p with
  | nil => simp [Seg]
  | cons x l ih =>
    have hhead : (l ++ k).head?.or n = l.head?.or (k.head?.or n) := by rw [head?_append, Option.or_assoc]
    have hlast : (x :: l).getLast?.or p = l.getLast?.or (some x) := by
      cases l with
      | nil => rfl
      | cons y l =>
        rfl
    rw [cons_append, Seg, Seg, ih, hhead, hlast, and_assoc, and_assoc]

theorem Chain.congr (hn : ∀ x ∈ l, h'.next x = h.next x) (hp : ∀ x ∈ l, h'.pre x = h.pre x) (hc : Chain h e l) :
    Chain h' e l where
  nodup := hc.nodup
  head := hc.head
  tail := hc.tail
  seg := hc.seg.congr hn hp

theorem Chain.nil : Chain h ⟨none, none⟩ [] := ⟨nodup_nil, rfl, rfl, trivial⟩

theorem Chain.split {a b : List α} (hc : Chain h e (a ++ x :: b)) : h.pre x = a.getLast? ∧ h.next x = b.head? := by
  obtain ⟨-, hpre, hnext, -⟩ := Seg.append.mp hc.seg
  exact ⟨by rw [hpre, or_none], by rw [hnext, or_none]⟩

end Chains

/-! ## Writing pointers -/

section Writes
variable {α : Type} [DecidableEq α] {h : Heap α} {e : Ends α} {l a b : List α} {p q n : Option α} {x y : α}

def Heap.setNext (h : Heap α) (x : α) (v : Option α) : Heap α := { h with next := update h.next x v }

def Heap.setPre (h : Heap α) (x : α) (v : Option α) : Heap α := { h with pre := update h.pre x v }

/-- `x->next = v`, if there is an `x`. -/
def Heap.setNext? (h : Heap α) (x : Option α) (v : Option α) : Heap α :=
  match x with
  | some x => h.setNext x v
  | none => h

def Heap.setPre? (h : Heap α) (x : Option α) (v : Option α) : Heap α :=
  match x with
  | some x => h.setPre x v
  | none => h

@[simp] theorem Heap.setNext_pre : (h.setNext x q).pre = h.pre := rfl

@[simp] theorem Heap.setPre_next : (h.setPre x q).next = h.next := rfl

theorem Heap.setNext_self : (h.setNext x q).next x = q := update_self ..

theorem Heap.setPre_self : (h.setPre x q).pre x = q := update_self ..

theorem Heap.setNext_ne (hne : y ≠ x) : (h.setNext x q).next y = h.next y := update_of_ne hne ..

theorem Heap.setPre_ne (hne : y ≠ x) : (h.setPre x q).pre y = h.pre y := update_of_ne hne ..

theorem Heap.setPre_comm (hne : x ≠ y) : (h.setPre x p).setPre y q = (h.setPre y q).setPre x p := by
  unfold Heap.setPre
  rw [update_comm hne]

theorem Heap.setNext?_pre : (h.setNext? p q).pre = h.pre := by cases p <;> rfl

theorem Heap.setPre?_next : (h.setPre? p q).next = h.next := by cases p <;> rfl

theorem Heap.setNext?_ne (hne : p ≠ some y) : (h.setNext? p q).next y = h.next y := by
  cases p with
  | none => rfl
  | some x => exact Heap.setNext_ne fun hxy => hne (congrArg some hxy.symm)

theorem Heap.setPre?_ne (hne : p ≠ some y) : (h.setPre? p q).pre y = h.pre y := by
  cases p with
  | none => rfl
  | some x => exact Heap.setPre_ne fun hxy => hne (congrArg some hxy.symm)

omit [DecidableEq α] in
theorem getLast?_ne_of_notMem (hy : y ∉ l) : l.getLast? ≠ some y := fun h => hy (mem_of_getLast? h)

omit [DecidableEq α] in
theorem head?_ne_of_notMem (hy : y ∉ l) : l.head? ≠ some y := fun h => hy (mem_of_mem_head? h)

theorem Seg.setNext?_of_notMem (hp : ∀ y ∈ l, q ≠ some y) (hs : Seg h p l n) {v : Option α} :
    Seg (h.setNext? q v) p l n := by
  apply hs.congr
  · intro y hy
    exact Heap.setNext?_ne (hp y hy)
  · intro y _
    rw [Heap.setNext?_pre]

theorem Seg.setPre?_of_notMem (hp : ∀ y ∈ l, q ≠ some y) (hs : Seg h p l n) {v : Option α} :
    Seg (h.setPre? q v) p l n := by
  apply hs.congr
  · intro y _
    rw [Heap.setPre?_next]
  · intro y hy
    exact Heap.setPre?_ne (hp y hy)

theorem Seg.setPre_first (hnd : l.Nodup) (hs : Seg h p l n) : Seg (h.setPre? l.head? q) q l n := by
  cases l with
  | nil => trivial
  | cons x l =>
    obtain ⟨hx, -⟩ := nodup_cons.mp hnd
    obtain ⟨-, hnext, hrest⟩ := hs
    refine ⟨Heap.setPre_self, hnext, ?_⟩
    apply hrest.setPre?_of_notMem
    rintro y hy heq
    exact hx (some.inj heq ▸ hy)

theorem Seg.setNext_last (hnd : l.Nodup) (hs : Seg h p l n) : Seg (h.setNext? l.getLast? q) p l q := by
  rcases eq_nil_or_concat l with rfl | ⟨l, x, rfl⟩
  · trivial
  · rw [concat_eq_append] at hnd hs ⊢
    have hx : x ∉ l := fun hmem => (nodup_append.mp hnd).2.2 x hmem x (mem_singleton_self x) rfl
    obtain ⟨hs, hpre, -, -⟩ := Seg.append.mp hs
    rw [getLast?_append, getLast?_singleton, some_or]
    refine Seg.append.mpr ⟨?_, hpre, Heap.setNext_self, trivial⟩
    apply Seg.setNext?_of_notMem _ hs
    rintro y hy heq
    exact hx (some.inj heq ▸ hy)

/-! ## Taking an element out -/

/-- The neighbours of `x` are linked to each other. -/
def Heap.unlink (h : Heap α) (x : α) : Heap α := (h.setPre? (h.next x) (h.pre x)).setNext? (h.pre x) (h.next x)

/-- The ends of the list after `x` is taken out of it. -/
def Ends.unlink (e : Ends α) (h : Heap α) (x : α) : Ends α where
  head := if h.pre x = none then h.next x else e.head
  tail := if h.next x = none then h.pre x else e.tail

theorem Chain.unlink (hc : Chain h e (a ++ x :: b)) : Chain (h.unlink x) (e.unlink h x) (a ++ b) := by
  obtain ⟨hpre, hnext⟩ := hc.split
  obtain ⟨ha, hx, hdisj⟩ := nodup_append.mp hc.nodup
  obtain ⟨-, hb⟩ := nodup_cons.mp hx
  obtain ⟨hsa, -, -, hsb⟩ := Seg.append.mp hc.seg
  have hapart : ∀ y ∈ a, y ∉ b := fun y hya hyb => hdisj y hya y (mem_cons_of_mem x hyb) rfl
  refine ⟨?_, ?_, ?_, ?_⟩
  · exact nodup_append.mpr ⟨ha, hb, fun y hya z hzb hyz => hapart y hya (hyz ▸ hzb)⟩
  · unfold Ends.unlink
    rw [hpre, hnext, hc.head]
    cases a <;> simp
  · unfold Ends.unlink
    rw [hpre, hnext, hc.tail]
    dsimp only
    cases b with
    | nil => simp
    | cons y b => rw [if_neg (by simp), getLast?_append, getLast?_append, getLast?_cons_cons]
  · unfold Heap.unlink
    rw [hpre, hnext]
    refine Seg.append.mpr ⟨?_, ?_⟩
    · rw [or_none]
      apply Seg.setNext_last ha
      apply Seg.setPre?_of_notMem _ hsa
      intro y hy heq
      exact hapart y hy (mem_of_mem_head? heq)
    · rw [or_none]
      apply Seg.setNext?_of_notMem
      · intro y hy heq
        exact hapart y (mem_of_getLast? heq) hy
      · exact Seg.setPre_first hb hsb

theorem Chain.unlink_elsewhere (hc : Chain h e (a ++ x :: b)) (hy : y ∉ a ++ x :: b) :
    (h.unlink x).next y = h.next y ∧ (h.unlink x).pre y = h.pre y := by
  obtain ⟨hpre, hnext⟩ := hc.split
  have hya : y ∉ a := fun h => hy (mem_append_left _ h)
  have hyb : y ∉ b := fun h => hy (mem_append_right _ (mem_cons_of_mem x h))
  unfold Heap.unlink
  rw [hpre, hnext]
  constructor
  · rw [Heap.setNext?_ne (getLast?_ne_of_notMem hya), Heap.setPre?_next]
  · rw [Heap.setNext?_pre, Heap.setPre?_ne (head?_ne_of_notMem hyb)]

/-! ## Putting an element in -/

def Heap.pushFront (h : Heap α) (e : Ends α) (x : α) : Heap α :=
  ((h.setPre? e.head (some x)).setNext x e.head).setPre x none

def Ends.pushFront (e : Ends α) (x : α) : Ends α where
  head := some x
  tail := if e.tail = none then some x else e.tail

theorem Chain.pushFront (hc : Chain h e l) (hx : x ∉ l) : Chain (h.pushFront e x) (e.pushFront x) (x :: l) := by
  refine ⟨nodup_cons.mpr ⟨hx, hc.nodup⟩, rfl, ?_, Heap.setPre_self, ?_, ?_⟩
  · unfold Ends.pushFront
    rw [hc.tail]
    cases l with
    | nil => rfl
    | cons y l => rw [if_neg (by simp), getLast?_cons_cons]
  · unfold Heap.pushFront
    rw [Heap.setPre_next, Heap.setNext_self, hc.head, or_none]
  · unfold Heap.pushFront
    rw [hc.head]
    have hfirst : Seg (h.setPre? l.head? (some x)) (some x) l none := Seg.setPre_first hc.nodup hc.seg
    have hne : ∀ y ∈ l, some x ≠ some y := fun y hy heq => hx (some.inj heq ▸ hy)
    exact Seg.setPre?_of_notMem hne (Seg.setNext?_of_notMem hne hfirst)

theorem Chain.pushFront_elsewhere (hc : Chain h e l) (hy : y ∉ l) (hyx : y ≠ x) :
    (h.pushFront e x).next y = h.next y ∧ (h.pushFront e x).pre y = h.pre y := by
  unfold Heap.pushFront
  rw [hc.head]
  constructor
  · rw [Heap.setPre_next, Heap.setNext_ne hyx, Heap.setPre?_next]
  · rw [Heap.setPre_ne hyx, Heap.setNext_pre, Heap.setPre?_ne (head?_ne_of_notMem hy)]

def Heap.pushBack (h : Heap α) (e : Ends α) (x : α) : Heap α :=
  ((h.setNext? e.tail (some x)).setPre x e.tail).setNext x none

def Ends.pushBack (e : Ends α) (x : α) : Ends α where
  head := if e.tail = none then some x else e.head
  tail := some x

theorem Chain.pushBack (hc : Chain h e l) (hx : x ∉ l) : Chain (h.pushBack e x) (e.pushBack x) (l ++ [x]) := by
  have hne : ∀ y ∈ l, some x ≠ some y := fun y hy heq => hx (some.inj heq ▸ hy)
  refine ⟨?_, ?_, ?_, ?_⟩
  · exact nodup_append.mpr ⟨hc.nodup, nodup_singleton x, fun y hy z hz => by
      rw [mem_singleton.mp hz]
      exact fun heq => hx (heq ▸ hy)⟩
  · unfold Ends.pushBack
    rw [hc.head, hc.tail]
    cases l <;> simp
  · simp [Ends.pushBack]
  · unfold Heap.pushBack
    rw [hc.tail]
    refine Seg.append.mpr ⟨?_, ?_, ?_, trivial⟩
    · have hlast : Seg (h.setNext? l.getLast? (some x)) none l (some x) := Seg.setNext_last hc.nodup hc.seg
      exact Seg.setNext?_of_notMem hne (Seg.setPre?_of_notMem hne hlast)
    · rw [Heap.setNext_pre, Heap.setPre_self, or_none]
    · exact Heap.setNext_self

theorem Chain.pushBack_elsewhere (hc : Chain h e l) (hy : y ∉ l) (hyx : y ≠ x) :
    (h.pushBack e x).next y = h.next y ∧ (h.pushBack e x).pre y = h.pre y := by
  unfold Heap.pushBack
  rw [hc.tail]
  constructor
  · rw [Heap.setNext_ne hyx, Heap.setPre_next, Heap.setNext?_ne (getLast?_ne_of_notMem hy)]
  · rw [Heap.setNext_pre, Heap.setPre_ne hyx, Heap.setNext?_pre]

end Writes

end Lib
