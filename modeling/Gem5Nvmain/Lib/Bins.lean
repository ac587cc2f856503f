import Mathlib.Order.Lattice
import Mathlib.Data.List.Nodup
import Mathlib.Data.List.Perm.Basic
import Mathlib.Data.List.TakeWhile

/- Sorted lists of stacks, linked by pointers.

  A bin is a stack of elements of one key, given as its top and what is beneath it. `Binned` lists have bins of
  increasing keys. A new element becomes the top of the bin of its key, or a bin of its own (`insertBin`), so it comes
  before the others of its key, and behind all that have a smaller one (`Binned.insert_place`). An element is taken
  out of its bin, which goes when it was the only one (`removeBin`); the others keep their order
  (`Binned.remove_flat`).

  In memory, each element has a pointer `down` to the one beneath it, and each top a pointer `right` to the top of the
  next bin (`Row`). What an element that is no top has in `right` does not matter. -/
namespace Lib
open List

variable {α K : Type} [LinearOrder K] {key : α → K} {x y : α} {bins pre post : List (α × List α)} {b c : α × List α} {l : List α}

/-- The elements, bin by bin, each bin from its top. -/
def flat (bins : List (α × List α)) : List α := bins.flatMap fun b => b.1 :: b.2

structure Binned (key : α → K) (bins : List (α × List α)) : Prop where
  same : ∀ b ∈ bins, ∀ x ∈ b.2, key x = key b.1
  increasing : bins.Pairwise fun b c => key b.1 < key c.1
  nodup : (flat bins).Nodup

/-- The element on top of the first bin, or before it. -/
def pushBin (key : α → K) (x : α) : List (α × List α) → List (α × List α)
  | [] => [(x, [])]
  | c :: bins => if key x < key c.1 then (x, []) :: c :: bins else (x, c.1 :: c.2) :: bins

/-- The bins that are passed on the way to the bin of a key. -/
def passed (key : α → K) (x : α) (bins : List (α × List α)) : List (α × List α) := bins.takeWhile (key ·.1 < key x)
def ahead (key : α → K) (x : α) (bins : List (α × List α)) : List (α × List α) := bins.dropWhile (key ·.1 < key x)

def insertBin (key : α → K) (x : α) (bins : List (α × List α)) : List (α × List α) :=
  passed key x bins ++ pushBin key x (ahead key x bins)

/-- What is left of a bin without its top. -/
def popBin : α × List α → Option (α × List α)
  | (_, []) => none
  | (_, y :: l) => some (y, l)

def eraseBin [DecidableEq α] (x : α) (c : α × List α) : Option (α × List α) :=
  if x = c.1 then popBin c else some (c.1, c.2.erase x)

def removeBin [DecidableEq α] (key : α → K) (x : α) (bins : List (α × List α)) : List (α × List α) :=
  passed key x bins ++
    match ahead key x bins with
    | [] => []
    | c :: post => (eraseBin x c).toList ++ post

/-! ## The order -/

@[simp] theorem flat_nil : flat ([] : List (α × List α)) = [] := rfl
@[simp] theorem flat_cons : flat (b :: bins) = b.1 :: b.2 ++ flat bins := rfl
@[simp] theorem flat_append : flat (pre ++ post) = flat pre ++ flat post := flatMap_append

theorem mem_flat : x ∈ flat bins ↔ ∃ b ∈ bins, x ∈ b.1 :: b.2 := mem_flatMap

theorem length_le_flat : bins.length ≤ (flat bins).length := by
  induction bins with
  | nil => exact Nat.le_refl 0
  | cons b bins ih =>
    rw [flat_cons, length_append, length_cons, length_cons]
    omega

theorem passed_ahead (key : α → K) (x : α) (bins : List (α × List α)) : passed key x bins ++ ahead key x bins = bins :=
  takeWhile_append_dropWhile

theorem flat_pushBin : flat (pushBin key x bins) = x :: flat bins := by
  cases bins with
  | nil => rfl
  | cons c bins =>
    unfold pushBin
    dsimp only
    split <;> rfl

theorem Binned.key_eq (h : Binned key bins) (hb : b ∈ bins) (hx : x ∈ b.1 :: b.2) : key x = key b.1 := by
  rcases mem_cons.mp hx with rfl | hx
  · rfl
  · exact h.same b hb x hx

theorem Binned.tail (h : Binned key (b :: bins)) : Binned key bins where
  same c hc := h.same c (mem_cons_of_mem b hc)
  increasing := (pairwise_cons.mp h.increasing).2
  nodup := (nodup_append.mp h.nodup).2.1

theorem passed_lt (hb : b ∈ passed key x bins) : b ∈ bins ∧ key b.1 < key x := by
  have hlt := mem_takeWhile_imp hb
  exact ⟨(takeWhile_sublist _).subset hb, of_decide_eq_true hlt⟩

section
variable (h : Binned key bins)
include h

theorem Binned.ahead_le (hb : b ∈ ahead key x bins) : b ∈ bins ∧ key x ≤ key b.1 := by
  refine ⟨(dropWhile_sublist _).subset hb, ?_⟩
  induction bins with
  | nil => cases hb
  | cons c bins ih =>
    unfold ahead at hb
    by_cases hc : key c.1 < key x
    · rw [dropWhile_cons_of_pos (by simpa using hc)] at hb
      exact ih h.tail hb
    · rw [dropWhile_cons_of_neg (by simpa using hc)] at hb
      rcases mem_cons.mp hb with rfl | hb
      · exact not_lt.mp hc
      · exact (not_lt.mp hc).trans ((pairwise_cons.mp h.increasing).1 b hb).le

theorem Binned.insert_place (x : α) : ∃ l₁ l₂, flat bins = l₁ ++ l₂ ∧ flat (insertBin key x bins) = l₁ ++ x :: l₂ ∧
    (∀ y ∈ l₁, key y < key x) ∧ ∀ y ∈ l₂, key x ≤ key y := by
  refine ⟨flat (passed key x bins), flat (ahead key x bins), ?_, ?_, fun y hy => ?_, fun y hy => ?_⟩
  · rw [← flat_append, passed_ahead]
  · unfold insertBin
    rw [flat_append, flat_pushBin]
  · obtain ⟨b, hb, hy⟩ := mem_flat.mp hy
    obtain ⟨hmem, hlt⟩ := passed_lt hb
    exact (h.key_eq hmem hy).trans_lt hlt
  · obtain ⟨b, hb, hy⟩ := mem_flat.mp hy
    obtain ⟨hmem, hle⟩ := h.ahead_le hb
    exact hle.trans (h.key_eq hmem hy).ge

theorem Binned.head_le (hx : flat bins = x :: l) : ∀ y ∈ flat bins, key x ≤ key y := by
  intro y hy
  cases bins with
  | nil => cases hx
  | cons b bins =>
    cases hx
    obtain ⟨c, hc, hy⟩ := mem_flat.mp hy
    rw [h.key_eq hc hy]
    rcases mem_cons.mp hc with rfl | hc
    · exact le_refl _
    · exact ((pairwise_cons.mp h.increasing).1 c hc).le

theorem Binned.sorted : (flat bins).Pairwise (key · ≤ key ·) := by
  induction bins with
  | nil => exact List.Pairwise.nil
  | cons b bins ih =>
    rw [flat_cons, pairwise_append]
    refine ⟨pairwise_of_forall_mem_list fun x hx y hy => ?_, ih h.tail, fun x hx y hy => ?_⟩
    · rw [h.key_eq mem_cons_self hx, h.key_eq mem_cons_self hy]
    · obtain ⟨c, hc, hy⟩ := mem_flat.mp hy
      rw [h.key_eq mem_cons_self hx, h.tail.key_eq hc hy]
      exact ((pairwise_cons.mp h.increasing).1 c hc).le

theorem Binned.insert (hx : x ∉ flat bins) : Binned key (insertBin key x bins) := by
  have hnodup : (flat (insertBin key x bins)).Nodup := by
    obtain ⟨l₁, l₂, hflat, hflat', -⟩ := h.insert_place x
    rw [hflat', perm_middle.nodup_iff, nodup_cons, ← hflat]
    exact ⟨hx, h.nodup⟩
  have hinc := h.increasing
  rw [← passed_ahead key x bins] at hinc
  obtain ⟨hpre, hpost, hbetween⟩ := pairwise_append.mp hinc
  have hle : ∀ b ∈ ahead key x bins, key x ≤ key b.1 := fun b hb => (h.ahead_le hb).2
  have hmem : ∀ b ∈ ahead key x bins, b ∈ bins := fun b hb => (h.ahead_le hb).1
  unfold insertBin at hnodup ⊢
  generalize ahead key x bins = post at hpost hbetween hle hmem hnodup
  cases post with
  | nil =>
    refine ⟨fun b hb y hy => ?_, pairwise_append.mpr ⟨hpre, pairwise_singleton _ _, fun b hb c hc => ?_⟩, hnodup⟩
    · rcases mem_append.mp hb with hb | hb
      · exact h.same b (passed_lt hb).1 y hy
      · rw [mem_singleton.mp hb] at hy
        cases hy
    · rw [mem_singleton.mp hc]
      exact (passed_lt hb).2
  | cons d post =>
    obtain ⟨hd, hrest⟩ := pairwise_cons.mp hpost
    unfold pushBin at hnodup ⊢
    dsimp only at hnodup ⊢
    split at hnodup
    · rename_i hlt
      rw [if_pos hlt]
      refine ⟨fun b hb y hy => ?_, pairwise_append.mpr ⟨hpre, pairwise_cons.mpr ⟨fun c hc => ?_, hpost⟩, fun b hb c hc => ?_⟩, hnodup⟩
      · rcases mem_append.mp hb with hb | hb
        · exact h.same b (passed_lt hb).1 y hy
        · rcases mem_cons.mp hb with rfl | hb
          · cases hy
          · exact h.same b (hmem b hb) y hy
      · rcases mem_cons.mp hc with rfl | hc
        · exact hlt
        · exact hlt.trans (hd c hc)
      · rcases mem_cons.mp hc with rfl | hc
        · exact (passed_lt hb).2
        · exact hbetween b hb c hc
    · rename_i hlt
      have heq : key x = key d.1 := le_antisymm (hle d mem_cons_self) (not_lt.mp hlt)
      rw [if_neg hlt]
      refine ⟨fun b hb y hy => ?_, pairwise_append.mpr ⟨hpre, pairwise_cons.mpr ⟨fun c hc => ?_, hrest⟩, fun b hb c hc => ?_⟩, hnodup⟩
      · rcases mem_append.mp hb with hb | hb
        · exact h.same b (passed_lt hb).1 y hy
        · rcases mem_cons.mp hb with rfl | hb
          · exact (h.key_eq (hmem d mem_cons_self) hy).trans heq.symm
          · exact h.same b (hmem b (mem_cons_of_mem d hb)) y hy
      · exact heq.trans_lt (hd c hc)
      · rcases mem_cons.mp hc with rfl | hc
        · exact (passed_lt hb).2
        · exact hbetween b hb c (mem_cons_of_mem d hc)

theorem Binned.find (hx : x ∈ flat bins) : ∃ c post, ahead key x bins = c :: post ∧ x ∈ c.1 :: c.2 := by
  induction bins with
  | nil => cases hx
  | cons b bins ih =>
    unfold ahead
    rcases mem_append.mp hx with hx | hx
    · have heq := h.key_eq mem_cons_self hx
      rw [dropWhile_cons_of_neg (by simp [heq])]
      exact ⟨b, bins, rfl, hx⟩
    · obtain ⟨c, hc, hmem⟩ := mem_flat.mp hx
      have hlt : key b.1 < key x := by
        rw [h.tail.key_eq hc hmem]
        exact (pairwise_cons.mp h.increasing).1 c hc
      rw [dropWhile_cons_of_pos (by simpa using hlt)]
      exact ih h.tail hx

end

section Erase
variable [DecidableEq α]

theorem flat_eraseBin (hx : x ∈ c.1 :: c.2) : flat (eraseBin x c).toList = (c.1 :: c.2).erase x := by
  unfold eraseBin
  split
  · rename_i heq
    obtain ⟨t, l⟩ := c
    rw [heq, erase_cons_head]
    cases l <;> simp [popBin]
  · rename_i hne
    rw [erase_cons_tail (by simpa using Ne.symm hne)]
    simp

theorem Binned.remove_flat (h : Binned key bins) (hx : x ∈ flat bins) : flat (removeBin key x bins) = (flat bins).erase x := by
  obtain ⟨c, post, hahead, hmem⟩ := h.find hx
  have hflat : flat bins = flat (passed key x bins) ++ (c.1 :: c.2 ++ flat post) := by
    conv_lhs => rw [← passed_ahead key x bins]
    rw [hahead, flat_append, flat_cons]
  have hnot : x ∉ flat (passed key x bins) := by
    have hnodup := h.nodup
    rw [hflat] at hnodup
    exact fun hpre => (nodup_append.mp hnodup).2.2 x hpre x (mem_append_left _ hmem) rfl
  unfold removeBin
  rw [hahead, hflat, erase_append_right _ hnot, erase_append_left _ hmem, flat_append]
  rw [flat_append, flat_eraseBin hmem]

theorem Binned.remove (h : Binned key bins) (hx : x ∈ flat bins) : Binned key (removeBin key x bins) := by
  have hflat := h.remove_flat hx
  obtain ⟨c, post, hahead, hmem⟩ := h.find hx
  have hbins : bins = passed key x bins ++ c :: post := by rw [← hahead, passed_ahead]
  have hc : c ∈ bins := by
    rw [hbins]
    exact mem_append_right _ mem_cons_self
  -- what is left of the bin has its key
  have hleft : ∀ d ∈ eraseBin x c, key d.1 = key c.1 ∧ ∀ y ∈ d.2, key y = key c.1 := by
    intro d hd
    unfold eraseBin at hd
    split at hd
    · obtain ⟨t, l⟩ := c
      cases l with
      | nil => cases hd
      | cons y l =>
        cases hd
        exact ⟨h.same _ hc y mem_cons_self, fun z hz => h.same _ hc z (mem_cons_of_mem y hz)⟩
    · cases hd
      exact ⟨rfl, fun z hz => h.same _ hc z (mem_of_mem_erase hz)⟩
  have hinc := h.increasing
  rw [hbins] at hinc
  obtain ⟨hpre, hpost, hbetween⟩ := pairwise_append.mp hinc
  obtain ⟨hcpost, hpost⟩ := pairwise_cons.mp hpost
  have hnodup : (flat (removeBin key x bins)).Nodup := by
    rw [hflat]
    exact h.nodup.erase x
  unfold removeBin at hnodup ⊢
  rw [hahead] at hnodup ⊢
  refine ⟨fun b hb y hy => ?_, ?_, hnodup⟩
  · rcases mem_append.mp hb with hb | hb
    · exact h.same b (passed_lt hb).1 y hy
    · rcases mem_append.mp hb with hb | hb
      · obtain ⟨htop, hrest⟩ := hleft b (Option.mem_toList.mp hb)
        exact (hrest y hy).trans htop.symm
      · exact h.same b (by rw [hbins]; exact mem_append_right _ (mem_cons_of_mem c hb)) y hy
  · refine pairwise_append.mpr ⟨hpre, pairwise_append.mpr ⟨?_, hpost, fun d hd e he => ?_⟩, fun b hb d hd => ?_⟩
    · cases eraseBin x c with
      | none => exact List.Pairwise.nil
      | some d => exact pairwise_singleton _ d
    · rw [(hleft d (Option.mem_toList.mp hd)).1]
      exact hcpost e he
    · rcases mem_append.mp hd with hd | hd
      · rw [(hleft d (Option.mem_toList.mp hd)).1]
        exact hbetween b hb c mem_cons_self
      · exact hbetween b hb d (mem_cons_of_mem c hd)

end Erase

theorem Binned.congr {key' : α → K} (h : Binned key bins) (hk : ∀ y ∈ flat bins, key' y = key y) : Binned key' bins := by
  have htop : ∀ b ∈ bins, key' b.1 = key b.1 := fun b hb => hk b.1 (mem_flat.mpr ⟨b, hb, mem_cons_self⟩)
  refine ⟨fun b hb x hx => ?_, h.increasing.imp_of_mem fun {b c} hb hc hlt => ?_, h.nodup⟩
  · rw [htop b hb, hk x (mem_flat.mpr ⟨b, hb, mem_cons_of_mem _ hx⟩)]
    exact h.same b hb x hx
  · rw [htop b hb, htop c hc]
    exact hlt

/-! ## The order of arrival -/

section Arrival
variable {order l₁ l₂ : List α}

/-- Among the elements of one key, the latest comes first. -/
def Lifo (key : α → K) (l order : List α) : Prop := ∀ k, l.filter (key · = k) = (order.filter (key · = k)).reverse

theorem Lifo.perm (h : Lifo key l order) : l.Perm order := by
  classical
  rw [perm_iff_count]
  intro x
  have hx := congrArg (count x) (h (key x))
  rwa [count_reverse, count_filter (by simp), count_filter (by simp)] at hx

theorem Lifo.congr {key' : α → K} (h : Lifo key l order) (hk : ∀ y ∈ l, key' y = key y) : Lifo key' l order := by
  intro k
  have hl : l.filter (key' · = k) = l.filter (key · = k) := filter_congr fun y hy => by rw [hk y hy]
  have ho : order.filter (key' · = k) = order.filter (key · = k) := filter_congr fun y hy => by rw [hk y (h.perm.mem_iff.mpr hy)]
  rw [hl, ho, h k]

theorem Lifo.insert (h : Lifo key (l₁ ++ l₂) order) (hlt : ∀ y ∈ l₁, key y < key x) : Lifo key (l₁ ++ x :: l₂) (order ++ [x]) := by
  intro k
  have hk := h k
  rw [filter_append] at hk ⊢
  rw [filter_append, reverse_append, ← hk, filter_cons]
  by_cases hx : key x = k
  · have hnone : l₁.filter (key · = k) = [] := by
      rw [filter_eq_nil_iff]
      intro y hy heq
      exact absurd (of_decide_eq_true heq) (hx ▸ (hlt y hy).ne)
    simp [hx, hnone]
  · simp [hx]

theorem Lifo.erase [DecidableEq α] (h : Lifo key l order) (hnodup : l.Nodup) (x : α) : Lifo key (l.erase x) (order.erase x) := by
  intro k
  rw [hnodup.erase_eq_filter, (h.perm.nodup hnodup).erase_eq_filter, filter_comm, h k, filter_reverse, filter_comm]

/-- An order comes back as it was when the keys are different, and only then. -/
theorem Lifo.eq_iff (h : Lifo key l order) (hl : l.Pairwise (key · ≤ key ·)) (ho : order.Pairwise (key · ≤ key ·)) (hnodup : order.Nodup) :
    l = order ↔ ∀ x y, x ∈ order → y ∈ order → key x = key y → x = y := by
  constructor
  · rintro rfl x y hx hy heq
    have hrev := h (key x)
    have hfilter : (l.filter (key · = key x)).Nodup := hnodup.filter _
    have hx : x ∈ l.filter (key · = key x) := by simp [hx]
    have hy : y ∈ l.filter (key · = key x) := by simp [hy, heq]
    generalize l.filter (key · = key x) = f at hrev hfilter hx hy
    -- the first one is the last one
    cases f with
    | nil => cases hx
    | cons z f =>
      cases f with
      | nil => rw [mem_singleton.mp hx, mem_singleton.mp hy]
      | cons w f =>
        have hlast := congrArg head? hrev
        rw [head?_reverse, getLast?_cons_cons] at hlast
        exact absurd (mem_of_getLast? hlast.symm) (nodup_cons.mp hfilter).1
  · intro hkeys
    refine h.perm.eq_of_pairwise (fun x y hx hy hxy hyx => ?_) hl ho
    exact hkeys x y (h.perm.mem_iff.mp hx) hy (le_antisymm hxy hyx)

/-- The first element is the latest one of its key. -/
theorem Lifo.head (h : Lifo key (x :: l) order) (hnodup : (x :: l).Nodup) : ∃ older newer, order = older ++ x :: newer ∧ ∀ y ∈ newer, key y ≠ key x := by
  obtain ⟨older, newer, rfl⟩ := append_of_mem (h.perm.mem_iff.mp mem_cons_self)
  refine ⟨older, newer, rfl, fun y hy heq => ?_⟩
  have hx := h (key x)
  rw [filter_append, filter_cons_of_pos (by simp), filter_cons_of_pos (by simp), reverse_append, reverse_cons] at hx
  cases hrev : (newer.filter (key · = key x)).reverse with
  | nil =>
    have hmem : y ∈ (newer.filter (key · = key x)).reverse := by simpa [heq] using hy
    rw [hrev] at hmem
    cases hmem
  | cons z r =>
    rw [hrev] at hx
    have hz : x = z := (cons.inj hx).1
    have hnew : x ∈ newer := by
      have hmem : z ∈ (newer.filter (key · = key x)).reverse := by rw [hrev]; exact mem_cons_self
      rw [mem_reverse] at hmem
      exact hz ▸ (mem_filter.mp hmem).1
    have ho := h.perm.nodup hnodup
    exact (nodup_cons.mp (nodup_append.mp ho).2.1).1 hnew

end Arrival

/-! ## The pointers -/

section Pointers
variable {right right' down down' : α → Option α} {n : Option α} {z p : α}

/-- The elements beneath an element. -/
def Stack (down : α → Option α) : α → List α → Prop
  | x, [] => down x = none
  | x, y :: l => down x = some y ∧ Stack down y l

/-- The top of the first bin. -/
def first (bins : List (α × List α)) : Option α := bins.head?.map (·.1)

/-- The pointers link the bins, of which the last one points to `n`. -/
def Row (right down : α → Option α) : List (α × List α) → Option α → Prop
  | [], _ => True
  | b :: bins, n => Stack down b.1 b.2 ∧ right b.1 = (first bins).or n ∧ Row right down bins n

omit [LinearOrder K]

theorem Stack.congr (h : ∀ y ∈ x :: l, down' y = down y) (hs : Stack down x l) : Stack down' x l := by
  induction l generalizing x with
  | nil => exact (h x mem_cons_self).trans hs
  | cons y l ih => exact ⟨(h x mem_cons_self).trans hs.1, ih (fun w hw => h w (mem_cons_of_mem x hw)) hs.2⟩

theorem Row.congr (hr : ∀ b ∈ bins, right' b.1 = right b.1) (hd : ∀ y ∈ flat bins, down' y = down y) (h : Row right down bins n) :
    Row right' down' bins n := by
  induction bins with
  | nil => trivial
  | cons b bins ih =>
    obtain ⟨hstack, hnext, hrest⟩ := h
    refine ⟨hstack.congr fun y hy => hd y (mem_append_left _ hy), ?_, ?_⟩
    · rw [hr b mem_cons_self, hnext]
    · exact ih (fun c hc => hr c (mem_cons_of_mem b hc)) (fun y hy => hd y (mem_append_right _ hy)) hrest

theorem Row.append : Row right down (pre ++ post) n ↔ Row right down pre ((first post).or n) ∧ Row right down post n := by
  induction pre with
  | nil => simp [Row]
  | cons b pre ih =>
    have hfirst : (first (pre ++ post)).or n = (first pre).or ((first post).or n) := by
      cases pre <;> simp [first]
    show _ ∧ right b.1 = (first (pre ++ post)).or n ∧ Row right down (pre ++ post) n ↔ (_ ∧ _ ∧ Row right down pre ((first post).or n)) ∧ _
    rw [ih, hfirst]
    tauto

theorem Row.relink {post' : List (α × List α)} (h : Row right down (pre ++ b :: post) none) (hpost : Row right' down' post' none)
    (hr : ∀ c ∈ pre, right' c.1 = right c.1) (hb : right' b.1 = first post') (hd : ∀ y ∈ flat (pre ++ [b]), down' y = down y) :
    Row right' down' (pre ++ b :: post') none := by
  obtain ⟨hpre, hstack, -, -⟩ := Row.append.mp h
  rw [flat_append] at hd
  refine Row.append.mpr ⟨hpre.congr hr fun y hy => hd y (mem_append_left _ hy), hstack.congr fun y hy => ?_, ?_, hpost⟩
  · exact hd y (mem_append_right _ (mem_append_left _ hy))
  · rw [hb, Option.or_none]

theorem Row.pop (h : Row right down ((x, y :: l) :: bins) none) (hnodup : (flat ((x, y :: l) :: bins)).Nodup)
    (hr : ∀ w, w ≠ y → right' w = right w) (hy : right' y = right x) : Row right' down ((y, l) :: bins) none := by
  obtain ⟨hstack, hnext, hrest⟩ := h
  refine ⟨hstack.2, hy.trans hnext, hrest.congr (fun c hc => hr c.1 ?_) fun _ _ => rfl⟩
  rintro rfl
  have hyl : c.1 ∈ x :: c.1 :: l := mem_cons_of_mem x mem_cons_self
  exact (nodup_append.mp hnodup).2.2 c.1 hyl c.1 (mem_flat.mpr ⟨c, hc, mem_cons_self⟩) rfl

/-- The element right above another one. -/
def above [DecidableEq α] (z : α) : α → List α → α
  | x, [] => x
  | x, y :: l => if y = z then x else above z y l

theorem above_mem [DecidableEq α] : above z x l ∈ x :: l := by
  induction l generalizing x with
  | nil => exact mem_cons_self
  | cons y l ih =>
    unfold above
    split
    · exact mem_cons_self
    · exact mem_cons_of_mem x ih

/-- An element is taken out of a stack by the pointer of the one above it. -/
theorem Stack.erase [DecidableEq α] (hs : Stack down x l) (hz : z ∈ l) (hnodup : (x :: l).Nodup) (hd : ∀ w, w ≠ above z x l → down' w = down w)
    (hp : down' (above z x l) = down z) : Stack down' x (l.erase z) := by
  induction l generalizing x with
  | nil => cases hz
  | cons y l ih =>
    obtain ⟨hx, hl⟩ := nodup_cons.mp hnodup
    unfold above at hd hp
    by_cases heq : y = z
    · subst heq
      rw [if_pos rfl] at hd hp
      rw [erase_cons_head]
      have hbelow : ∀ w ∈ y :: l, down' w = down w := by
        intro w hw
        refine hd w ?_
        rintro rfl
        exact hx hw
      cases l with
      | nil => exact hp.trans hs.2
      | cons w l => exact ⟨hp.trans hs.2.1, hs.2.2.congr fun v hv => hbelow v (mem_cons_of_mem y hv)⟩
    · rw [if_neg heq] at hd hp
      rw [erase_cons_tail (by simpa using heq)]
      have hne : x ≠ above z y l := by
        rintro rfl
        exact hx above_mem
      exact ⟨(hd x hne).trans hs.1, ih hs.2 ((mem_cons.mp hz).resolve_left (Ne.symm heq)) hl hd hp⟩

end Pointers

/-- A new top, or a new bin before the first one. -/
theorem Row.push {right right' down down' : α → Option α} (h : Row right down bins none) (hx : x ∉ flat bins)
    (hr : ∀ y, y ≠ x → right' y = right y) (hd : ∀ y, y ≠ x → down' y = down y) (hset : match bins with
      | [] => right' x = none ∧ down' x = none
      | c :: _ => if key x < key c.1 then right' x = some c.1 ∧ down' x = none else right' x = right c.1 ∧ down' x = some c.1) :
    Row right' down' (pushBin key x bins) none := by
  have hne : ∀ y ∈ flat bins, y ≠ x := fun y hy heq => hx (heq ▸ hy)
  have hsame : Row right' down' bins none :=
    h.congr (fun b hb => hr b.1 (hne b.1 (mem_flat.mpr ⟨b, hb, mem_cons_self⟩))) fun y hy => hd y (hne y hy)
  cases bins with
  | nil => exact ⟨hset.2, hset.1, trivial⟩
  | cons c bins =>
    unfold pushBin
    dsimp only at hset ⊢
    split at hset
    · rename_i hlt
      rw [if_pos hlt]
      exact ⟨hset.2, hset.1, hsame⟩
    · rename_i hlt
      rw [if_neg hlt]
      exact ⟨⟨hset.2, hsame.1⟩, hset.1.trans h.2.1, hsame.2.2⟩

end Lib
