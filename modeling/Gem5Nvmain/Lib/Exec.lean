import Mathlib.Algebra.Ring.Int.Defs
import Mathlib.Algebra.Ring.Nat
import Mathlib.Data.List.Basic

/- Runs of a labelled transition system, and partial computations.

  `Exec R s h t` says that the system whose steps are `R` can start in `s`, take the labelled steps `h` (oldest first)
  and be in `t`. An invariant of such runs is proved from what one step preserves (`Exec.invariant`,
  `Exec.history_invariant`). `EachStep` says something of every step that a run takes.

  A computation that can stop without a result is an `Except Stop`: a failed assertion, a fatal error, an access
  outside an array, or a loop model that ran out of fuel. `of_bind` takes a sequence of such computations apart.
  `StepOf f` is the system whose steps are those of a step function, and `StepIf c f` that of the steps that meet a
  condition; their runs can be computed (`Exec.of_endsIn`, `Exec.of_endsInIf`). `foldlM_range_eq` is the rule of a
  loop whose states are known in advance, `foldlM_ok` where only the end matters. -/
namespace Lib
open List

section Runs
variable {σ ε : Type} {R : σ → ε → σ → Prop} {s t u : σ} {h k : List ε}

inductive Exec (R : σ → ε → σ → Prop) (s : σ) : List ε → σ → Prop where
  | nil : Exec R s [] s
  | snoc {h : List ε} {t u : σ} {e : ε} : Exec R s h t → R t e u → Exec R s (h ++ [e]) u

theorem Exec.history_invariant {P : List ε → σ → Prop} (h0 : P [] s)
    (hstep : ∀ h t e u, P h t → R t e u → P (h ++ [e]) u) (hr : Exec R s h t) : P h t := by
  induction hr with
  | nil => exact h0
  | snoc _ hs ih => exact hstep _ _ _ _ ih hs

variable {P : σ → Prop}

theorem Exec.invariant (h0 : P s) (hstep : ∀ t e u, P t → R t e u → P u) (hr : Exec R s h t) : P t :=
  hr.history_invariant h0 fun _ t e u => hstep t e u

variable {e : ε}

theorem Exec.one (hs : R s e t) : Exec R s [e] t := .snoc .nil hs

theorem Exec.mono {R' : σ → ε → σ → Prop} (hsub : ∀ s e t, R s e t → R' s e t) (hr : Exec R s h t) :
    Exec R' s h t := by
  induction hr with
  | nil => exact .nil
  | snoc _ hs ih => exact .snoc ih (hsub _ _ _ hs)

theorem Exec.append (h₁ : Exec R s h t) (h₂ : Exec R t k u) : Exec R s (h ++ k) u := by
  induction h₂ with
  | nil => simpa using h₁
  | snoc _ hs ih =>
    rw [← append_assoc]
    exact .snoc ih hs

/-- `Q` holds of every step that a run of `l` from `s` takes. -/
def EachStep (R : σ → ε → σ → Prop) (s : σ) (l : List ε) (Q : σ → ε → σ → Prop) : Prop :=
  ∀ h e t u, h ++ [e] <+: l → Exec R s h t → R t e u → Q t e u

variable {Q : σ → ε → σ → Prop}

theorem EachStep.congr {Q' : σ → ε → σ → Prop} {l : List ε} (h0 : P s)
    (hstep : ∀ t e u, P t → R t e u → P u) (hQ : ∀ t e u, P t → R t e u → (Q t e u ↔ Q' t e u)) :
    EachStep R s l Q ↔ EachStep R s l Q' := by
  constructor
  · intro h k e t u hk hr hs
    exact (hQ t e u (hr.invariant h0 hstep) hs).mp (h k e t u hk hr hs)
  · intro h k e t u hk hr hs
    exact (hQ t e u (hr.invariant h0 hstep) hs).mpr (h k e t u hk hr hs)

/-- Where a step has one result, a run has one. -/
theorem Exec.eq (hdet : ∀ s e t u, R s e t → R s e u → t = u) (hr : Exec R s h t) (hr' : Exec R s h u) : t = u := by
  induction hr generalizing u with
  | nil =>
    generalize hnil : ([] : List ε) = l at hr'
    cases hr' with
    | nil => rfl
    | snoc _ _ => exact absurd hnil.symm (append_ne_nil_of_right_ne_nil _ (cons_ne_nil _ _))
  | @snoc h t v e _ hs ih =>
    generalize hl : h ++ [e] = l at hr'
    cases hr' with
    | nil => exact absurd hl (append_ne_nil_of_right_ne_nil _ (cons_ne_nil _ _))
    | snoc hk hs' =>
      obtain ⟨rfl, he⟩ := append_inj' hl rfl
      obtain rfl := (cons.inj he).1
      obtain rfl := ih hk
      exact hdet _ _ _ _ hs hs'

theorem EachStep.snoc_iff (hdet : ∀ s e t u, R s e t → R s e u → t = u)
    (hr : Exec R s h t) (hs : R t e u) : EachStep R s (h ++ [e]) Q ↔ EachStep R s h Q ∧ Q t e u := by
  constructor
  · intro hall
    exact ⟨fun k e' t' u' hk => hall k e' t' u' (hk.trans (prefix_append _ _)), hall h e t u prefix_rfl hr hs⟩
  · rintro ⟨hall, hlast⟩ k e' t' u' hk hr' hs'
    obtain heq | hk := prefix_concat_iff.mp hk
    · obtain ⟨rfl, he⟩ := append_inj' heq rfl
      obtain rfl := (cons.inj he).1
      obtain rfl := hr.eq hdet hr'
      obtain rfl := hdet _ _ _ _ hs hs'
      exact hlast
    · exact hall k e' t' u' hk hr' hs'

end Runs

/-! Computations that may stop. -/

/-- Why a computation stopped without a result. -/
inductive Stop where
  | assertFailed
  | fatal (msg : String)
  | outOfRange
  | outOfFuel
  deriving DecidableEq, Repr

/-- `assert(c)`. -/
def require (c : Bool) : Except Stop Unit := if c then .ok () else .error .assertFailed

/-- `a[i]`, stopping when `i` is outside the array. -/
def index {α : Type} (a : List α) (i : Nat) : Except Stop α :=
  match a[i]? with
  | some x => .ok x
  | none => .error .outOfRange

section Partial
variable {α β : Type}

@[simp] theorem bind_ok (a : α) (f : α → Except Stop β) : (.ok a >>= f) = f a := rfl

@[simp] theorem bind_error (e : Stop) (f : α → Except Stop β) :
    ((.error e : Except Stop α) >>= f) = .error e := rfl

theorem bind_eq_ok {x : Except Stop α} {f : α → Except Stop β} {b : β} :
    x >>= f = .ok b ↔ ∃ a, x = .ok a ∧ f a = .ok b := by
  cases x <;> simp

theorem of_bind {x : Except Stop α} {f : α → Except Stop β} {b : β} (h : x >>= f = .ok b) :
    ∃ a, x = .ok a ∧ f a = .ok b := bind_eq_ok.mp h

@[simp] theorem pure_eq_ok (a : α) : (pure a : Except Stop α) = .ok a := rfl

@[simp] theorem require_eq_ok {c : Bool} {u : Unit} : require c = .ok u ↔ c = true := by
  cases c <;> simp [require]

@[simp] theorem index_eq_ok {a : List α} {i : Nat} {x : α} : index a i = .ok x ↔ a[i]? = some x := by
  unfold index
  cases a[i]? <;> simp

end Partial

/-! Systems given by a step function. -/

section StepFunction
variable {σ τ ε : Type} {f : σ → ε → Except Stop σ} {s t : σ} {l : List ε}

def StepOf (f : σ → ε → Except Stop σ) (s : σ) (e : ε) (t : σ) : Prop := f s e = .ok t

theorem StepOf.eq (s : σ) (e : ε) (t u : σ) (hs : StepOf f s e t) (hs' : StepOf f s e u) : t = u :=
  Except.ok.inj (hs.symm.trans hs')

def run (f : σ → ε → Except Stop σ) (s : σ) : List ε → Except Stop σ
  | [] => .ok s
  | e :: l => do
    let s ← f s e
    run f s l

theorem Exec.of_run (h : run f s l = .ok t) : Exec (StepOf f) s l t := by
  induction l generalizing s with
  | nil =>
    cases h
    exact .nil
  | cons e l ih =>
    obtain ⟨u, hu, h⟩ := of_bind h
    exact .append (.one hu) (ih h)

/-- The steps have a result, and it has the property. -/
def endsIn (f : σ → ε → Except Stop σ) (s : σ) (l : List ε) (p : σ → Bool) : Bool :=
  match run f s l with
  | .ok t => p t
  | .error _ => false

variable {p : σ → Bool}

theorem Exec.of_endsIn (h : endsIn f s l p = true) : ∃ t, Exec (StepOf f) s l t ∧ p t = true := by
  unfold endsIn at h
  split at h
  · rename_i t ht
    exact ⟨t, Exec.of_run ht, h⟩
  · cases h

/-- What a run that was computed ends in shows what was to be found at its end. -/
theorem Exec.ends_with {Q : σ → Prop} (h : endsIn f s l p = true)
    (hQ : ∀ t, Exec (StepOf f) s l t → p t = true → Q t) : ∃ t, Exec (StepOf f) s l t ∧ Q t := by
  obtain ⟨t, hr, ht⟩ := Exec.of_endsIn h
  exact ⟨t, hr, hQ t hr ht⟩

variable {Q : σ → τ → Prop}

theorem Exec.ends_with_two (h : endsIn f s l p = true)
    (hQ : ∀ t, Exec (StepOf f) s l t → p t = true → ∃ u, Q t u) : ∃ t u, Exec (StepOf f) s l t ∧ Q t u := by
  obtain ⟨t, hr, ht⟩ := Exec.of_endsIn h
  obtain ⟨u, hu⟩ := hQ t hr ht
  exact ⟨t, u, hr, hu⟩

/-- The steps of a step function that are taken where a condition holds. -/
def StepIf (c : σ → ε → Bool) (f : σ → ε → Except Stop σ) (s : σ) (e : ε) (t : σ) : Prop := c s e = true ∧ f s e = .ok t

/-- The steps meet the condition and have a result, and it has the property. -/
def endsInIf (c : σ → ε → Bool) (f : σ → ε → Except Stop σ) (s : σ) : List ε → (σ → Bool) → Bool
  | [], p => p s
  | e :: l, p => c s e &&
    match f s e with
    | .ok t => endsInIf c f t l p
    | .error _ => false

variable {c : σ → ε → Bool}

theorem Exec.of_endsInIf (h : endsInIf c f s l p = true) : ∃ t, Exec (StepIf c f) s l t ∧ p t = true := by
  induction l generalizing s with
  | nil => exact ⟨s, .nil, h⟩
  | cons e l ih =>
    obtain ⟨hc, h⟩ := Bool.and_eq_true_iff.mp h
    split at h
    · rename_i u hu
      obtain ⟨t, hr, ht⟩ := ih h
      exact ⟨t, .append (.one ⟨hc, hu⟩) hr, ht⟩
    · cases h

theorem Exec.ends_withIf {Q : σ → Prop} (h : endsInIf c f s l p = true)
    (hQ : ∀ t, Exec (StepIf c f) s l t → p t = true → Q t) : ∃ t, Exec (StepIf c f) s l t ∧ Q t := by
  obtain ⟨t, hr, ht⟩ := Exec.of_endsInIf h
  exact ⟨t, hr, hQ t hr ht⟩

theorem Exec.ends_withIf_two (h : endsInIf c f s l p = true)
    (hQ : ∀ t, Exec (StepIf c f) s l t → p t = true → ∃ u, Q t u) : ∃ t u, Exec (StepIf c f) s l t ∧ Q t u := by
  obtain ⟨t, hr, ht⟩ := Exec.of_endsInIf h
  obtain ⟨u, hu⟩ := hQ t hr ht
  exact ⟨t, u, hr, hu⟩

end StepFunction

/-! Loops. A loop over a counter or over a list is a `foldlM`. -/

section Loops
variable {α β : Type} {n : Nat} {l : List α}

theorem foldlM_range_eq {g : β → Nat → Except Stop β} (f : Nat → β) (h : ∀ i < n, g (f i) i = .ok (f (i + 1))) :
    (range n).foldlM g (f 0) = .ok (f n) := by
  induction n with
  | zero => rfl
  | succ n ih =>
    rw [range_succ, foldlM_append, ih fun i hi => h i (Nat.lt_succ_of_lt hi), bind_ok, foldlM_cons,
      h n (Nat.lt_succ_self n)]
    rfl

variable {g : β → α → Except Stop β}

theorem foldlM_ok (h : ∀ b, ∀ a ∈ l, ∃ b', g b a = .ok b') (b : β) : ∃ b', l.foldlM g b = .ok b' := by
  induction l generalizing b with
  | nil => exact ⟨b, rfl⟩
  | cons a l ih =>
    obtain ⟨b', hb'⟩ := h b a mem_cons_self
    rw [foldlM_cons, hb', bind_ok]
    exact ih (fun b x hx => h b x (mem_cons_of_mem a hx)) b'

theorem foldlM_keeps {I : β → Prop} {b : β}
    (h : ∀ b, ∀ a ∈ l, I b → ∃ b', g b a = .ok b' ∧ I b') (hb : I b) : ∃ b', l.foldlM g b = .ok b' ∧ I b' := by
  induction l generalizing b with
  | nil => exact ⟨b, rfl, hb⟩
  | cons a l ih =>
    obtain ⟨b', hb', hI⟩ := h b a mem_cons_self hb
    rw [foldlM_cons, hb', bind_ok]
    exact ih (fun b a ha => h b a (mem_cons_of_mem _ ha)) hI

theorem foldl_congr {f f' : β → α → β} (h : ∀ a ∈ l, ∀ b, f b a = f' b a) (b : β) : l.foldl f b = l.foldl f' b := by
  induction l generalizing b with
  | nil => rfl
  | cons a l ih =>
    rw [foldl_cons, foldl_cons, h a mem_cons_self]
    exact ih (fun x hx => h x (mem_cons_of_mem a hx)) _

/-- A loop over a counter in which one turn alone does something. -/
theorem foldl_range_single {f : β → Nat → β} {s t : β} {i : Nat} (hbefore : ∀ j < i, f s j = s) (hat : f s i = t)
    (hafter : ∀ j, i < j → j < n → f t j = t) (hi : i < n) : (range n).foldl f s = t := by
  have hbefore : ∀ m ≤ i, (range m).foldl f s = s := by
    intro m hm
    induction m with
    | zero => rfl
    | succ m ih => rw [range_succ, foldl_append, ih (by omega), foldl_cons, hbefore m hm, foldl_nil]
  induction n with
  | zero => cases hi
  | succ n ih =>
    rw [range_succ, foldl_append, foldl_cons, foldl_nil]
    obtain rfl | hne := Nat.eq_or_lt_of_le (Nat.le_of_lt_succ hi)
    · rw [hbefore i (Nat.le_refl i), hat]
    · rw [ih (fun j hij hjn => hafter j hij (Nat.lt_succ_of_lt hjn)) hne]
      exact hafter n hne (Nat.lt_succ_self n)

end Loops

theorem eight_pos : 0 < 8 := by decide

end Lib
