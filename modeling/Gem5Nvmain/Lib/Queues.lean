import Mathlib.Data.List.Perm.Basic
import Mathlib.Logic.Function.Basic

/- Families of queues.

  `pooled n f` is all that the first `n` queues of the family `f` hold. Where it does not matter in which queue an
  element stands, a push, a change of a head and a filter of all queues are what they do to this list, up to its
  order.

  Commands that wait in such a family act on cells, and the queues interleave freely. `Predicted` says that the
  commands that wait for a cell all stand in one queue and take the cell, in their order, to the state that was
  predicted for it. Issuing the head of any queue keeps this (`Predicted.issue`), and so does queueing commands that
  move the prediction along (`Predicted.push`): once the queues are empty, the prediction holds (`Predicted.drained`). -/
namespace Lib
open Function List

section Pooled
variable {α : Type} {n q : Nat} {f : Nat → List α}

def pooled (n : Nat) (f : Nat → List α) : List α := (range n).flatMap f

theorem mem_pooled {x : α} : x ∈ pooled n f ↔ ∃ q < n, x ∈ f q := by
  simp [pooled]

theorem pooled_split (hq : q < n) : ∃ others, ∀ l, (pooled n (update f q l)).Perm (l ++ others) := by
  induction n with
  | zero => omega
  | succ n ih =>
    have hsucc (g : Nat → List α) : pooled (n + 1) g = pooled n g ++ g n := by
      simp [pooled, range_succ]
    by_cases heq : q = n
    · subst heq
      refine ⟨pooled q f, fun l => ?_⟩
      have hsame : pooled q (update f q l) = pooled q f := by
        refine flatMap_congr fun i hi => ?_
        rw [update_of_ne (Nat.ne_of_lt (mem_range.mp hi))]
      rw [hsucc, hsame, update_self]
      exact perm_append_comm
    · obtain ⟨others, hothers⟩ := ih (by omega)
      refine ⟨others ++ f n, fun l => ?_⟩
      rw [hsucc, update_of_ne (Ne.symm heq), ← append_assoc]
      exact (hothers l).append_right _

theorem pooled_append (n : Nat) (f g : Nat → List α) :
    (pooled n fun q => f q ++ g q).Perm (pooled n g ++ pooled n f) := by
  induction n with
  | zero => exact List.Perm.refl _
  | succ n ih =>
    have hsucc (g : Nat → List α) : pooled (n + 1) g = pooled n g ++ g n := by
      simp [pooled, range_succ]
    rw [hsucc, hsucc, hsucc]
    calc (pooled n (fun q => f q ++ g q) ++ (f n ++ g n)).Perm (pooled n g ++ pooled n f ++ (f n ++ g n)) :=
          ih.append_right _
      _ = pooled n g ++ ((pooled n f ++ f n) ++ g n) := by simp only [append_assoc]
      (pooled n g ++ ((pooled n f ++ f n) ++ g n)).Perm (pooled n g ++ (g n ++ (pooled n f ++ f n))) :=
          perm_append_comm.append_left _
      _ = pooled n g ++ g n ++ (pooled n f ++ f n) := (append_assoc _ _ _).symm

theorem pooled_singleton (hq : q < n) (x : α) : (pooled n (update (fun _ => []) q [x])).Perm [x] := by
  obtain ⟨others, hothers⟩ := pooled_split (f := fun _ => ([] : List α)) hq
  have hnone := hothers []
  rw [update_eq_self] at hnone
  have hempty : others = [] := by
    have hnil : pooled n (fun _ => ([] : List α)) = [] := by simp [pooled]
    rw [hnil] at hnone
    simpa using hnone.symm.eq_nil
  simpa [hempty] using hothers [x]

theorem pooled_push (hq : q < n) (x : α) : (pooled n (update f q (f q ++ [x]))).Perm (x :: pooled n f) := by
  have hpush : update f q (f q ++ [x]) = fun r => f r ++ update (fun _ => []) q [x] r := by
    funext r
    simp only [update_apply]
    split
    · rename_i hr
      rw [hr]
    · rw [append_nil]
  rw [hpush]
  exact (pooled_append n f _).trans ((pooled_singleton hq x).append_right _)

theorem pooled_remove (hq : q < n) {x : α} {l₁ l₂ : List α} (hx : f q = l₁ ++ x :: l₂) :
    (pooled n f).Perm (x :: pooled n (update f q (l₁ ++ l₂))) := by
  obtain ⟨others, hothers⟩ := pooled_split hq
  have hold := hothers (f q)
  rw [update_eq_self, hx] at hold
  calc (pooled n f).Perm (l₁ ++ x :: l₂ ++ others) := hold
    (l₁ ++ x :: l₂ ++ others).Perm (x :: (l₁ ++ l₂) ++ others) := perm_middle.append_right _
    (x :: (l₁ ++ l₂) ++ others).Perm (x :: pooled n (update f q (l₁ ++ l₂))) := (hothers _).symm.cons x

theorem pooled_head (hq : q < n) {x : α} {l : List α} (hx : f q = x :: l) :
    ∃ others, (pooled n f).Perm (x :: others) ∧ ∀ y, (pooled n (update f q (y :: l))).Perm (y :: others) := by
  obtain ⟨others, hothers⟩ := pooled_split hq
  have hold := hothers (x :: l)
  rw [← hx, update_eq_self, hx] at hold
  exact ⟨l ++ others, hold, fun y => hothers (y :: l)⟩

theorem pooled_filter (keep : α → Bool) : pooled n (fun q => (f q).filter keep) = (pooled n f).filter keep := by
  rw [pooled, pooled, filter_flatMap]

end Pooled

/-! ## Queues that act on cells -/

section Interleave
variable {κ σ α : Type} {acts : α → κ → Bool} {next : σ → α → Option σ} {queues : Nat → List α} {cells : κ → σ}
  {predicted : κ → σ} {q : Nat} {c : α} {k : κ}

/-- The commands of a queue that act on a cell. -/
def actingOn (acts : α → κ → Bool) (l : List α) (k : κ) : List α := l.filter fun c => acts c k

@[simp] theorem actingOn_nil (k : κ) : actingOn acts [] k = [] := rfl

theorem actingOn_append (l l' : List α) (k : κ) : actingOn acts (l ++ l') k = actingOn acts l k ++ actingOn acts l' k :=
  filter_append l l'

theorem actingOn_cons_of_true {l : List α} (h : acts c k = true) : actingOn acts (c :: l) k = c :: actingOn acts l k :=
  filter_cons_of_pos h

theorem actingOn_cons_of_false {l : List α} (h : acts c k = false) : actingOn acts (c :: l) k = actingOn acts l k :=
  filter_cons_of_neg (by simp [h])

/-- What commands make of a state, if each of them is legal. -/
def after (next : σ → α → Option σ) (s : σ) (l : List α) : Option σ := l.foldlM next s

@[simp] theorem after_nil (s : σ) : after next s [] = some s := rfl

theorem after_cons (s : σ) (l : List α) : after next s (c :: l) = (next s c).bind fun s' => after next s' l := by
  rfl

theorem after_append {s s' : σ} {l l' : List α} (h : after next s l = some s') :
    after next s (l ++ l') = after next s' l' := by
  rw [after, foldlM_append]
  show (after next s l).bind (fun s => after next s l') = after next s' l'
  rw [h, Option.bind_some]

/-- All commands that wait for a cell stand in one queue, and lead to what is predicted. -/
def Predicted (acts : α → κ → Bool) (next : σ → α → Option σ) (queues : Nat → List α) (cells predicted : κ → σ) : Prop :=
  ∀ k, ∃ q, (∀ q', q' ≠ q → actingOn acts (queues q') k = []) ∧
    after next (cells k) (actingOn acts (queues q) k) = some (predicted k)

namespace Predicted

section
variable (h : Predicted acts next queues cells predicted)
include h

theorem eq_of_none (hk : ∀ q, actingOn acts (queues q) k = []) : cells k = predicted k := by
  obtain ⟨q, -, hq⟩ := h k
  rw [hk q, after_nil] at hq
  exact Option.some.inj hq

theorem drained (hq : ∀ q, queues q = []) (k : κ) : cells k = predicted k := by
  refine h.eq_of_none fun q => ?_
  rw [hq, actingOn_nil]

theorem at_queue (hc : c ∈ queues q) (hk : acts c k = true) : (∀ q', q' ≠ q → actingOn acts (queues q') k = []) ∧
      after next (cells k) (actingOn acts (queues q) k) = some (predicted k) := by
  obtain ⟨q₀, hothers, hafter⟩ := h k
  have hq : q = q₀ := by
    by_contra hne
    have hmem : c ∈ actingOn acts (queues q) k := mem_filter.mpr ⟨hc, hk⟩
    rw [hothers q hne] at hmem
    cases hmem
  subst hq
  exact ⟨hothers, hafter⟩

theorem head {l : List α} (hq : queues q = c :: l) (hk : acts c k = true) : ∃ s, next (cells k) c = some s := by
  have hmem : c ∈ queues q := hq ▸ mem_cons_self ..
  obtain ⟨-, hafter⟩ := h.at_queue hmem hk
  rw [hq, actingOn_cons_of_true hk, after_cons] at hafter
  obtain ⟨s, hs, -⟩ := Option.bind_eq_some_iff.mp hafter
  exact ⟨s, hs⟩

theorem waits_of_ne (hk : cells k ≠ predicted k) : ∃ q, ∃ c ∈ queues q, acts c k = true := by
  by_contra hnone
  refine hk (h.eq_of_none fun q => ?_)
  refine filter_eq_nil_iff.mpr fun c hc hact => ?_
  exact hnone ⟨q, c, hc, hact⟩

theorem issue {l : List α} {cells' : κ → σ} (hq : queues q = c :: l)
    (hacts : ∀ k, acts c k = true → next (cells k) c = some (cells' k))
    (hothers : ∀ k, acts c k = false → cells' k = cells k) :
    Predicted acts next (update queues q l) cells' predicted := by
  intro k
  cases hk : acts c k with
  | true =>
    have hmem : c ∈ queues q := hq ▸ mem_cons_self ..
    obtain ⟨hne, hafter⟩ := h.at_queue hmem hk
    refine ⟨q, fun q' hq' => ?_, ?_⟩
    · rw [update_of_ne hq']
      exact hne q' hq'
    · rw [hq, actingOn_cons_of_true hk, after_cons, hacts k hk, Option.bind_some] at hafter
      rw [update_self]
      exact hafter
  | false =>
    have hsame (q' : Nat) : actingOn acts (update queues q l q') k = actingOn acts (queues q') k := by
      by_cases hq' : q' = q
      · rw [hq', update_self, hq, actingOn_cons_of_false hk]
      · rw [update_of_ne hq']
    obtain ⟨q₀, hne, hafter⟩ := h k
    refine ⟨q₀, fun q' hq' => ?_, ?_⟩
    · rw [hsame]
      exact hne q' hq'
    · rw [hsame, hothers k hk]
      exact hafter

theorem push {cs : List α} {predicted' : κ → σ}
    (halone : ∀ c ∈ cs, ∀ k, acts c k = true → ∀ q', q' ≠ q → actingOn acts (queues q') k = [])
    (hafter : ∀ k, after next (predicted k) (actingOn acts cs k) = some (predicted' k)) :
    Predicted acts next (update queues q (queues q ++ cs)) cells predicted' := by
  intro k
  obtain ⟨q₀, hne, hcells⟩ := h k
  by_cases hk : actingOn acts cs k = []
  · have hsame (q' : Nat) : actingOn acts (update queues q (queues q ++ cs) q') k = actingOn acts (queues q') k := by
      by_cases hq' : q' = q
      · rw [hq', update_self, actingOn_append, hk, append_nil]
      · rw [update_of_ne hq']
    have hpredicted := hafter k
    rw [hk, after_nil] at hpredicted
    refine ⟨q₀, fun q' hq' => ?_, ?_⟩
    · rw [hsame]
      exact hne q' hq'
    · rw [hsame, ← hpredicted]
      exact hcells
  · obtain ⟨c, hc⟩ := exists_mem_of_ne_nil _ hk
    obtain ⟨hmem, hact⟩ := mem_filter.mp hc
    have hothers := halone c hmem k hact
    refine ⟨q, fun q' hq' => ?_, ?_⟩
    · rw [update_of_ne hq']
      exact hothers q' hq'
    · have hqueue : after next (cells k) (actingOn acts (queues q) k) = some (predicted k) := by
        by_cases hq₀ : q₀ = q
        · rw [← hq₀]
          exact hcells
        · rw [hne q fun h => hq₀ h.symm, ← hothers q₀ hq₀]
          exact hcells
      rw [update_self, actingOn_append, after_append hqueue]
      exact hafter k

end

end Predicted

end Interleave

end Lib
