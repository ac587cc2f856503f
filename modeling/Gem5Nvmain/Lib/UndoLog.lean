import Mathlib.Data.List.Basic

/- Logs of changes that can be taken back.

  A log lists the changes made to a state, the newest first; `undo e s` takes the change `e` back and `Made e s` says
  that `s` shows the change `e`. A log is `Undoable` in `s` when each change shows in the state that undoing the newer
  ones leaves. The oldest changes may be forgotten (`Undoable.of_append`) and the newest taken back
  (`Undoable.rollback`).

  `Marks` relates a log to the states at which its parts began: rolling the changes after a mark back gives the state
  of that mark (`Marks.rollback_newer`). A log is in order, so what is newer than a number is what a scan from the
  newest end takes (`takeWhile_eq_filter`, `dropWhile_eq_filter`). -/
namespace Lib
open List

section UndoLog
variable {σ ε : Type} {undo : ε → σ → σ} {Made : ε → σ → Prop} {s t : σ} {e : ε} {es fs : List ε}

def rollback (undo : ε → σ → σ) : List ε → σ → σ
  | [], s => s
  | e :: es, s => rollback undo es (undo e s)

@[simp] theorem rollback_nil : rollback undo [] s = s := rfl

@[simp] theorem rollback_cons : rollback undo (e :: es) s = rollback undo es (undo e s) := rfl

theorem rollback_append : rollback undo (es ++ fs) s = rollback undo fs (rollback undo es s) := by
  induction es generalizing s with
  | nil => simp
  | cons e es ih => simp [ih]

/-- The log is the log of the state: undoing it newest first meets each change. -/
inductive Undoable (undo : ε → σ → σ) (Made : ε → σ → Prop) : σ → List ε → Prop where
  | nil (s : σ) : Undoable undo Made s []
  | cons {s : σ} {e : ε} {es : List ε} : Made e s → Undoable undo Made (undo e s) es → Undoable undo Made s (e :: es)

theorem Undoable.push (h : Undoable undo Made s es) (hundo : undo e t = s) (hmade : Made e t) :
    Undoable undo Made t (e :: es) := by
  subst hundo
  exact .cons hmade h

theorem Undoable.of_append (h : Undoable undo Made s (es ++ fs)) : Undoable undo Made s es := by
  induction es generalizing s with
  | nil => exact .nil s
  | cons e es ih =>
    cases h with
    | cons hmade h => exact .cons hmade (ih h)

end UndoLog

/-! Scans of a list that is in order. -/

section Scans
variable {α : Type} {p : α → Bool} {l : List α}

theorem takeWhile_eq_filter (h : l.Pairwise fun a b => p b = true → p a = true) : l.takeWhile p = l.filter p := by
  induction l with
  | nil => simp
  | cons a l ih =>
    obtain ⟨ha, hl⟩ := pairwise_cons.mp h
    by_cases hp : p a = true
    · simp [hp, ih hl]
    · have hnone : ∀ b ∈ l, ¬ p b = true := fun b hb hpb => hp (ha b hb hpb)
      simp [hp, filter_eq_nil_iff.mpr hnone]

theorem dropWhile_eq_filter (h : l.Pairwise fun a b => p b = true → p a = true) :
    l.dropWhile p = l.filter fun a => !p a := by
  induction l with
  | nil => simp
  | cons a l ih =>
    obtain ⟨ha, hl⟩ := pairwise_cons.mp h
    by_cases hp : p a = true
    · simp [hp, ih hl]
    · have hall : ∀ b ∈ l, (!p b) = true := fun b hb => by
        simpa using fun hpb => hp (ha b hb hpb)
      simp [hp, filter_eq_self.mpr hall]

end Scans

/-! Marks in a log. -/

section Marks
variable {σ ε : Type} {undo : ε → σ → σ} {s base : σ} {n : Nat}

/-- A numbered part of a log and the state when it had been made. -/
structure Mark (σ ε : Type) where
  number : Nat
  entries : List ε
  after : σ

variable {m : Mark σ ε} {ms ns : List (Mark σ ε)}

/-- The state has come from `base` by the marked parts, the newest of them first. -/
inductive Marks (undo : ε → σ → σ) (base : σ) : List (Mark σ ε) → σ → Prop where
  | nil : Marks undo base [] base
  | cons {m : Mark σ ε} {ms : List (Mark σ ε)} :
      Marks undo base ms (rollback undo m.entries m.after) → Marks undo base (m :: ms) m.after

theorem Marks.tail {m : Mark σ ε} {ms : List (Mark σ ε)} (h : Marks undo base (m :: ms) s) :
    Marks undo base ms (Lib.rollback undo m.entries m.after) := by
  cases h with
  | cons h => exact h

/-- The state when the newest part whose number is at most `n` had been made. -/
def stateAt (base : σ) (n : Nat) (ms : List (Mark σ ε)) : σ :=
  ((ms.find? fun m => decide (m.number ≤ n)).map Mark.after).getD base

/-- The changes of the parts whose numbers are greater than `n`. -/
def newer (n : Nat) (ms : List (Mark σ ε)) : List ε :=
  (ms.filter fun m => decide (n < m.number)).flatMap Mark.entries

/-- Numbers fall from the newest part to the oldest. -/
def Numbered (ms : List (Mark σ ε)) : Prop := ms.Pairwise fun a b => b.number < a.number

theorem newer_cons_of_lt (h : n < m.number) : newer n (m :: ms) = m.entries ++ newer n ms := by
  simp [newer, h]

theorem newer_cons_of_le (hnum : Numbered (m :: ms)) (h : m.number ≤ n) : newer n (m :: ms) = [] := by
  have hle : ∀ a ∈ m :: ms, a.number ≤ n := by
    intro a ha
    obtain rfl | ha := mem_cons.mp ha
    · exact h
    · have hlt := (pairwise_cons.mp hnum).1 a ha
      omega
  have hnone : (m :: ms).filter (fun m => decide (n < m.number)) = [] := by
    apply filter_eq_nil_iff.mpr
    intro a ha
    have hle := hle a ha
    simpa using hle
  simp [newer, hnone]

theorem stateAt_cons_of_lt (h : n < m.number) : stateAt base n (m :: ms) = stateAt base n ms := by
  have hnot : ¬ m.number ≤ n := by omega
  simp [stateAt, hnot]

theorem stateAt_cons_of_le (h : m.number ≤ n) : stateAt base n (m :: ms) = m.after := by
  simp [stateAt, h]

theorem Marks.rollback_newer (hnum : Numbered ms) (h : Marks undo base ms s) :
    rollback undo (newer n ms) s = stateAt base n ms := by
  induction h with
  | nil => simp [newer, stateAt]
  | @cons m ms _ ih =>
    by_cases hlt : n < m.number
    · rw [newer_cons_of_lt hlt, stateAt_cons_of_lt hlt, rollback_append]
      exact ih (pairwise_cons.mp hnum).2
    · rw [newer_cons_of_le hnum (by omega), stateAt_cons_of_le (by omega), rollback_nil]

/-- Forgetting the marks newer than `n` leaves the marks of the state at `n`. -/
theorem Marks.forget (hnum : Numbered ms) (h : Marks undo base ms s) :
    Marks undo base (ms.filter fun m => decide (m.number ≤ n)) (stateAt base n ms) := by
  induction h with
  | nil => simpa [stateAt] using Marks.nil
  | @cons m ms h ih =>
    by_cases hlt : n < m.number
    · have hnot : ¬ m.number ≤ n := by omega
      rw [stateAt_cons_of_lt hlt]
      simpa [hnot] using ih (pairwise_cons.mp hnum).2
    · have hall : (m :: ms).filter (fun m => decide (m.number ≤ n)) = m :: ms := by
        apply filter_eq_self.mpr
        intro a ha
        obtain rfl | ha := mem_cons.mp ha
        · simpa using hlt
        · have hlt' := (pairwise_cons.mp hnum).1 a ha
          simp
          omega
      rw [stateAt_cons_of_le (by omega), hall]
      exact .cons h

/-! Entries that carry the number of their part. -/

variable {num : ε → Nat} {k : Nat}

def Stamped (num : ε → Nat) (ms : List (Mark σ ε)) : Prop := ∀ m ∈ ms, ∀ e ∈ m.entries, num e = m.number

theorem filter_flatMap_stamped (h : Stamped num ms) (p : Nat → Bool) :
    (ms.flatMap Mark.entries).filter (fun e => p (num e)) = (ms.filter fun m => p m.number).flatMap Mark.entries := by
  induction ms with
  | nil => simp
  | cons m ms ih =>
    have hm : ∀ e ∈ m.entries, num e = m.number := h m mem_cons_self
    have hms : Stamped num ms := fun m' hm' => h m' (mem_cons_of_mem _ hm')
    rw [flatMap_cons, filter_append, ih hms]
    by_cases hp : p m.number = true
    · have hall : m.entries.filter (fun e => p (num e)) = m.entries := by
        apply filter_eq_self.mpr
        intro e he
        rw [hm e he, hp]
      rw [hall, filter_cons_of_pos (p := fun m : Mark σ ε => p m.number) hp, flatMap_cons]
    · have hnone : m.entries.filter (fun e => p (num e)) = [] := by
        apply filter_eq_nil_iff.mpr
        intro e he
        rw [hm e he]
        exact hp
      rw [hnone, filter_cons_of_neg (p := fun m : Mark σ ε => p m.number) hp, nil_append]

theorem Stamped.filter (h : Stamped num ms) (p : Mark σ ε → Bool) : Stamped num (ms.filter p) :=
  fun m hm => h m (mem_filter.mp hm).1

/-- The entries of parts in order are in order. -/
theorem pairwise_newer (hnum : Numbered ms) (h : Stamped num ms) : (newer n ms).Pairwise fun a b => num b ≤ num a := by
  induction ms with
  | nil => simp [newer]
  | cons m ms ih =>
    obtain ⟨hfirst, hrest⟩ := pairwise_cons.mp hnum
    have hm : ∀ e ∈ m.entries, num e = m.number := h m mem_cons_self
    have hms : Stamped num ms := fun m' hm' => h m' (mem_cons_of_mem _ hm')
    by_cases hlt : n < m.number
    · rw [newer_cons_of_lt hlt]
      refine pairwise_append.mpr ⟨?_, ih hrest hms, ?_⟩
      · apply pairwise_of_forall_mem_list
        intro a ha b hb
        exact Nat.le_of_eq ((hm b hb).trans (hm a ha).symm)
      · intro a ha b hb
        obtain ⟨m', hm', hb⟩ := mem_flatMap.mp hb
        have hmem := (mem_filter.mp hm').1
        rw [hm a ha, hms m' hmem b hb]
        exact Nat.le_of_lt (hfirst m' hmem)
    · rw [newer_cons_of_le hnum (by omega)]
      exact List.Pairwise.nil

theorem takeWhile_newer (hnum : Numbered ms) (h : Stamped num ms) (hle : n ≤ k) :
    (newer n ms).takeWhile (fun e => decide (k < num e)) = newer k ms := by
  have hord : (newer n ms).Pairwise fun a b => decide (k < num b) = true → decide (k < num a) = true := by
    apply (pairwise_newer hnum h).imp
    intro a b hab
    simpa using fun hb => by omega
  rw [takeWhile_eq_filter hord]
  unfold newer
  rw [filter_flatMap_stamped (h.filter _) fun i => decide (k < i), filter_filter]
  congr 2
  funext m
  simp
  omega

theorem dropWhile_newer (hnum : Numbered ms) (h : Stamped num ms) :
    (newer n ms).dropWhile (fun e => decide (k < num e)) = newer n (ms.filter fun m => decide (m.number ≤ k)) := by
  have hord : (newer n ms).Pairwise fun a b => decide (k < num b) = true → decide (k < num a) = true := by
    apply (pairwise_newer hnum h).imp
    intro a b hab
    simpa using fun hb => by omega
  rw [dropWhile_eq_filter hord]
  unfold newer
  rw [filter_flatMap_stamped (h.filter _) fun i => !decide (k < i), filter_filter, filter_filter]
  congr 2
  funext m
  apply Bool.eq_iff_iff.mpr
  simp
  omega

/-- Taking what is not newer than `k` off the back of the entries newer than `n`. -/
theorem dropWhile_reverse_newer (hnum : Numbered ms) (h : Stamped num ms) :
    ((newer n ms).reverse.dropWhile fun e => decide (num e ≤ k)).reverse = newer (max n k) ms := by
  have hord : (newer n ms).reverse.Pairwise fun a b => decide (num b ≤ k) = true → decide (num a ≤ k) = true := by
    apply pairwise_reverse.mpr
    apply (pairwise_newer hnum h).imp
    intro a b hab
    simpa using fun hb => by omega
  rw [dropWhile_eq_filter hord, filter_reverse, reverse_reverse]
  unfold newer
  rw [filter_flatMap_stamped (h.filter _) fun i => !decide (i ≤ k), filter_filter]
  have hfun : (fun m : Mark σ ε => decide (n < m.number) && !decide (m.number ≤ k)) =
      fun m => decide (max n k < m.number) := by
    funext m
    apply Bool.eq_iff_iff.mpr
    simp only [Bool.and_eq_true, Bool.not_eq_true', decide_eq_true_eq, decide_eq_false_iff_not]
    omega
  simpa [Bool.and_comm] using congrArg (fun q => (ms.filter q).flatMap Mark.entries) hfun

end Marks

end Lib
