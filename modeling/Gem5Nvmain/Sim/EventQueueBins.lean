import Gem5Nvmain.Sim.EventQueue

/- What the operations of the event queue do to its bins.

  The queue holds a list of bins (`Holds`): the pointers link them, and they are sorted by time and priority.
  `insert`, `remove` and `serviceOne` then do what `Lib.insertBin`, `Lib.removeBin` and `Lib.popBin` say. The pointers
  `nextBin` of events that are no tops may be stale: none of these reads one. -/
namespace Gem5.Sim
open Lib Function List EventQueue

variable {events events' : Nat → Event} {q t : EventQueue} {bins post : List (Nat × List Nat)} {b c : Nat × List Nat} {l : List Nat}
  {event x y fuel : Nat}

namespace Event

theorem lt_iff (l r : Event) : l.lt r = true ↔ l.key < r.key := by
  simp [lt, key, Prod.Lex.toLex_lt_toLex]

theorem le_iff (l r : Event) : l.le r = true ↔ l.key ≤ r.key := by
  simp [le, key, Prod.Lex.toLex_le_toLex]

theorem eq_iff (l r : Event) : l.eq r = true ↔ l.key = r.key := by
  simp [eq, key]

end Event

/-- The pointers may differ, but not the rest of the events. -/
def SameData (events events' : Nat → Event) : Prop :=
  ∀ e, (events' e).key = (events e).key ∧ (events' e).scheduled = (events e).scheduled ∧ (events' e).squashed = (events e).squashed

theorem SameData.refl (events : Nat → Event) : SameData events events := fun _ => ⟨rfl, rfl, rfl⟩

theorem SameData.trans {events'' : Nat → Event} (h : SameData events events') (h' : SameData events' events'') : SameData events events'' :=
  fun e => ⟨(h' e).1.trans (h e).1, (h' e).2.1.trans (h e).2.1, (h' e).2.2.trans (h e).2.2⟩

theorem SameData.set {v : Event} (hk : v.key = (events x).key) (hs : v.scheduled = (events x).scheduled) (hq : v.squashed = (events x).squashed) :
    SameData events (update events x v) := by
  intro e
  by_cases heq : e = x
  · subst heq
    rw [update_self]
    exact ⟨hk, hs, hq⟩
  · rw [update_of_ne heq]
    exact ⟨rfl, rfl, rfl⟩

theorem SameData.keys (h : SameData events events') : (fun e => (events' e).key) = fun e => (events e).key := by
  funext e
  exact (h e).1

theorem SameData.binned (h : SameData events events') (hb : Binned (fun e => (events e).key) bins) : Binned (fun e => (events' e).key) bins := by
  rw [h.keys]
  exact hb

/-- The pointers of the events link the bins. -/
def Linked (events : Nat → Event) (bins : List (Nat × List Nat)) : Prop :=
  Row (fun e => (events e).nextBin) (fun e => (events e).nextInBin) bins none

structure Holds (q : EventQueue) (bins : List (Nat × List Nat)) : Prop where
  head : q.head = first bins
  linked : Linked q.events bins
  binned : Binned (fun e => (q.events e).key) bins

/-- Other bins behind a bin, whose top then points to them. -/
theorem Linked.relink {pre post' : List (Nat × List Nat)} (h : Linked events (pre ++ c :: post)) (hnodup : (flat (pre ++ c :: post')).Nodup)
    (hpost : Linked events' post') (hsame : ∀ y ∈ flat (pre ++ [c]), events' y = events y) :
    Linked (update events' c.1 { events' c.1 with nextBin := first post' }) (pre ++ c :: post') := by
  rw [flat_append, flat_cons] at hnodup
  obtain ⟨-, hcpost, hpre⟩ := nodup_append.mp hnodup
  have hmem : ∀ d ∈ pre, d.1 ∈ flat pre := fun d hd => mem_flat.mpr ⟨d, hd, mem_cons_self⟩
  have hc : c.1 ∈ c.1 :: c.2 ++ flat post' := mem_append_left _ mem_cons_self
  have hdown (y : Nat) : (update events' c.1 { events' c.1 with nextBin := first post' } y).nextInBin = (events' y).nextInBin := by
    by_cases heq : y = c.1
    · rw [heq, update_self]
    · rw [update_of_ne heq]
  refine Row.relink h (hpost.congr (fun d hd => ?_) fun y _ => hdown y) (fun d hd => ?_) ?_ fun y hy => ?_
  · have hne : d.1 ≠ c.1 := by
      intro heq
      exact (nodup_append.mp hcpost).2.2 c.1 mem_cons_self d.1 (mem_flat.mpr ⟨d, hd, mem_cons_self⟩) heq.symm
    exact congrArg Event.nextBin (update_of_ne hne _ _)
  · have hne : d.1 ≠ c.1 := hpre d.1 (hmem d hd) c.1 hc
    rw [update_of_ne hne, hsame d.1]
    rw [flat_append]
    exact mem_append_left _ (hmem d hd)
  · rw [update_self]
  · rw [hdown, hsame y hy]

theorem first_append_cons {pre : List (Nat × List Nat)} : first (pre ++ c :: post) = first (pre ++ [c]) := by
  cases pre <;> rfl

/-! ## Insertion -/

/-- The event on top of the first bin, or before it. -/
theorem insertBefore_linked (h : Linked events post) (hx : x ∉ flat post) :
    Linked (Event.insertBefore events x (first post)) (pushBin (fun e => (events e).key) x post) ∧
    (∀ y, y ≠ x → Event.insertBefore events x (first post) y = events y) ∧
    SameData events (Event.insertBefore events x (first post)) := by
  cases post with
  | nil =>
    refine ⟨Row.push h hx (fun y hy => ?_) (fun y hy => ?_) ?_, fun y hy => update_of_ne hy _ _, SameData.set rfl rfl rfl⟩
    · exact congrArg Event.nextBin (update_of_ne hy _ _)
    · exact congrArg Event.nextInBin (update_of_ne hy _ _)
    · simp [Event.insertBefore, first]
  | cons c post =>
    have hother (y : Nat) (hy : y ≠ x) : Event.insertBefore events x (some c.1) y = events y := by
      unfold Event.insertBefore
      dsimp only
      split <;> exact update_of_ne hy _ _
    refine ⟨Row.push h hx (fun y hy => ?_) (fun y hy => ?_) ?_, hother, ?_⟩
    · exact congrArg Event.nextBin (hother y hy)
    · exact congrArg Event.nextInBin (hother y hy)
    · by_cases hlt : (events x).key < (events c.1).key
      · simp [Event.insertBefore, first, hlt, (Event.lt_iff _ _).mpr hlt]
      · have hnot : ¬ (events x).lt (events c.1) = true := fun h => hlt ((Event.lt_iff _ _).mp h)
        simp [Event.insertBefore, first, hlt, hnot]
    · show SameData events (Event.insertBefore events x (some c.1))
      unfold Event.insertBefore
      dsimp only
      split <;> exact SameData.set rfl rfl rfl

/-- The loop stops behind the bins that are passed. -/
theorem findBin_spec (h : Linked events (b :: bins)) (hfuel : bins.length ≤ fuel) :
    ∃ pre c, b :: passed (fun e => (events e).key) x bins = pre ++ [c] ∧
      findBin events x fuel b.1 (first bins) = .ok (c.1, first (ahead (fun e => (events e).key) x bins)) := by
  induction bins generalizing b fuel with
  | nil =>
    refine ⟨[], b, rfl, ?_⟩
    cases fuel <;> rfl
  | cons d bins ih =>
    obtain ⟨-, -, hrest⟩ := h
    by_cases hlt : (events d.1).key < (events x).key
    · obtain ⟨fuel, rfl⟩ := Nat.exists_eq_add_of_le' ((Nat.succ_le_succ (Nat.zero_le bins.length)).trans hfuel)
      obtain ⟨pre, c, hpre, hfind⟩ := ih hrest (Nat.le_of_succ_le_succ hfuel)
      refine ⟨b :: pre, c, ?_, ?_⟩
      · unfold passed at hpre ⊢
        rw [takeWhile_cons_of_pos (by simpa using hlt), hpre]
        rfl
      · have hnext : (events d.1).nextBin = first bins := hrest.2.1.trans (Option.or_none)
        unfold ahead at hfind ⊢
        rw [dropWhile_cons_of_pos (by simpa using hlt), ← hfind, ← hnext]
        show findBin events x (fuel + 1) b.1 (some d.1) = _
        rw [findBin, if_pos ((Event.lt_iff _ _).mpr hlt)]
    · refine ⟨[], b, ?_, ?_⟩
      · unfold passed
        rw [takeWhile_cons_of_neg (by simpa using hlt)]
        rfl
      · unfold ahead
        rw [dropWhile_cons_of_neg (by simpa using hlt)]
        show findBin events x fuel b.1 (some d.1) = .ok (b.1, some d.1)
        cases fuel <;> exact if_neg fun h => hlt ((Event.lt_iff _ _).mp h)

theorem first_pushBin {K : Type} [LinearOrder K] {key : Nat → K} : first (pushBin key x post) = some x := by
  cases post with
  | nil => rfl
  | cons c post =>
    unfold pushBin
    dsimp only
    split <;> rfl

/-- An insertion always succeeds. -/
theorem insert_spec (h : Holds q bins) (hx : x ∉ flat bins) (hfuel : bins.length ≤ fuel) :
    ∃ t, q.insert fuel x = .ok t ∧ Holds t (insertBin (fun e => (q.events e).key) x bins) ∧ SameData q.events t.events ∧
      t._curTick = q._curTick := by
  have hbinned := h.binned.insert hx
  cases bins with
  | nil =>
    obtain ⟨hlinked, -, hsame⟩ := insertBefore_linked h.linked hx
    unfold EventQueue.insert
    rw [h.head]
    exact ⟨_, rfl, ⟨rfl, hlinked, hsame.binned hbinned⟩, hsame, rfl⟩
  | cons b bins =>
    unfold EventQueue.insert
    rw [h.head]
    dsimp only [first, head?_cons, Option.map_some]
    by_cases hle : (q.events x).key ≤ (q.events b.1).key
    · obtain ⟨hlinked, -, hsame⟩ := insertBefore_linked h.linked hx
      have hinsert : insertBin (fun e => (q.events e).key) x (b :: bins) = pushBin (fun e => (q.events e).key) x (b :: bins) := by
        unfold insertBin passed ahead
        rw [takeWhile_cons_of_neg (by simpa using hle), dropWhile_cons_of_neg (by simpa using hle)]
        rfl
      rw [if_pos ((Event.le_iff _ _).mpr hle)]
      rw [hinsert] at hbinned ⊢
      exact ⟨_, rfl, ⟨first_pushBin.symm, hlinked, hsame.binned hbinned⟩, hsame, rfl⟩
    · have hlt : (q.events b.1).key < (q.events x).key := not_le.mp hle
      obtain ⟨pre, c, hpre, hfind⟩ := findBin_spec h.linked (Nat.le_of_succ_le hfuel)
      have hnext : (q.events b.1).nextBin = first bins := h.linked.2.1.trans Option.or_none
      have hpassed : passed (fun e => (q.events e).key) x (b :: bins) = pre ++ [c] := by
        rw [← hpre]
        exact takeWhile_cons_of_pos (by simpa using hlt)
      have hahead : ahead (fun e => (q.events e).key) x (b :: bins) = ahead (fun e => (q.events e).key) x bins :=
        dropWhile_cons_of_pos (by simpa using hlt)
      have hsplit : b :: bins = pre ++ c :: ahead (fun e => (q.events e).key) x bins := by
        rw [← passed_ahead (fun e => (q.events e).key) x (b :: bins), hpassed, hahead, append_assoc]
        rfl
      have hinsert : insertBin (fun e => (q.events e).key) x (b :: bins) =
          pre ++ c :: pushBin (fun e => (q.events e).key) x (ahead (fun e => (q.events e).key) x bins) := by
        unfold insertBin
        rw [hpassed, hahead, append_assoc]
        rfl
      rw [if_neg fun h => hle ((Event.le_iff _ _).mp h), hnext, hfind]
      rw [hinsert] at hbinned ⊢
      generalize ahead (fun e => (q.events e).key) x bins = post at *
      have hlinked := h.linked
      rw [hsplit] at hx hlinked
      have hxpost : x ∉ flat post := by
        rw [flat_append, flat_cons] at hx
        exact fun hmem => hx (mem_append_right _ (mem_append_right _ hmem))
      have hxpre : ∀ y ∈ flat (pre ++ [c]), y ≠ x := by
        rintro y hy rfl
        rw [append_cons, flat_append] at hx
        exact hx (mem_append_left _ hy)
      obtain ⟨hpush, hother, hsame⟩ := insertBefore_linked (Row.append.mp hlinked).2.2.2 hxpost
      have hrelink := Linked.relink hlinked hbinned.nodup hpush fun y hy => hother y (hxpre y hy)
      have hfirst : first (pushBin (fun e => (q.events e).key) x post) = some x := first_pushBin
      rw [hfirst] at hrelink
      have hset := hsame.trans (SameData.set (v := { Event.insertBefore q.events x (first post) c.1 with nextBin := some x }) rfl rfl rfl)
      refine ⟨_, rfl, ⟨?_, hrelink, hset.binned hbinned⟩, hset, rfl⟩
      rw [first_append_cons, ← hpre]
      rfl

/-! ## Removal -/

theorem findItem_spec (h : Stack (fun e => (events e).nextInBin) y l) (hx : x ∈ l) (hfuel : l.length ≤ fuel) :
    Event.findItem events x fuel y (events y).nextInBin = .ok (above x y l) := by
  induction l generalizing y fuel with
  | nil => cases hx
  | cons z l ih =>
    obtain ⟨hz, hl⟩ := h
    have hz : (events y).nextInBin = some z := hz
    obtain ⟨fuel, rfl⟩ := Nat.exists_eq_add_of_le' ((Nat.succ_le_succ (Nat.zero_le l.length)).trans hfuel)
    rw [hz]
    unfold above
    by_cases heq : z = x
    · rw [if_pos heq]
      exact if_pos heq.symm
    · rw [if_neg heq, ← ih hl ((mem_cons.mp hx).resolve_left (Ne.symm heq)) (Nat.le_of_succ_le_succ hfuel)]
      exact if_neg (Ne.symm heq)

/-- What is left of the bin of an event. -/
theorem removeItem_spec (h : Linked events (c :: post)) (hnodup : (flat (c :: post)).Nodup) (hx : x ∈ c.1 :: c.2) (hfuel : c.2.length ≤ fuel) :
    ∃ events', Event.removeItem fuel events x c.1 = .ok (events', first ((eraseBin x c).toList ++ post)) ∧
      Linked events' ((eraseBin x c).toList ++ post) ∧ (∀ y, y ∉ c.1 :: c.2 → events' y = events y) ∧ SameData events events' := by
  obtain ⟨top, l⟩ := c
  obtain ⟨hstack, hright, hrest⟩ := id h
  have hnext : (events top).nextBin = first post := hright.trans Option.or_none
  unfold Event.removeItem eraseBin
  by_cases heq : x = top
  · rw [if_pos heq, if_pos heq]
    cases l with
    | nil =>
      have hnone : (events top).nextInBin = none := hstack
      refine ⟨events, ?_, hrest, fun _ _ => rfl, .refl events⟩
      rw [hnone]
      rw [hnext]
      rfl
    | cons y l =>
      have hsome : (events top).nextInBin = some y := hstack.1
      refine ⟨update events y { events y with nextBin := (events top).nextBin }, ?_, ?_, fun z hz => ?_, SameData.set rfl rfl rfl⟩
      · rw [hsome]
        rfl
      · have hdown : (fun e => (update events y { events y with nextBin := (events top).nextBin } e).nextInBin) = fun e => (events e).nextInBin := by
          funext e
          by_cases he : e = y
          · rw [he, update_self]
          · rw [update_of_ne he]
        unfold Linked
        rw [hdown]
        refine Row.pop h hnodup (fun w hw => ?_) ?_
        · rw [update_of_ne hw]
        · rw [update_self]
      · refine update_of_ne ?_ _ _
        rintro rfl
        exact hz (mem_cons_of_mem _ mem_cons_self)
  · have hxl : x ∈ l := (mem_cons.mp hx).resolve_left heq
    have hl : (top :: l).Nodup := (nodup_append.mp hnodup).1
    have habove : above x top l ∈ top :: l := above_mem
    rw [if_neg heq, if_neg heq]
    rw [findItem_spec hstack hxl hfuel]
    refine ⟨_, rfl, ?_, fun z hz => ?_, SameData.set rfl rfl rfl⟩
    · have hright (e : Nat) : (update events (above x top l) { events (above x top l) with nextInBin := (events x).nextInBin } e).nextBin = (events e).nextBin := by
        by_cases he : e = above x top l
        · rw [he, update_self]
        · rw [update_of_ne he]
      refine ⟨hstack.erase hxl hl (fun w hw => ?_) ?_, (hright top).trans (hnext.trans Option.or_none.symm), hrest.congr (fun d _ => hright d.1) fun w hw => ?_⟩
      · rw [update_of_ne hw]
      · rw [update_self]
      · rw [update_of_ne]
        rintro rfl
        exact (nodup_append.mp hnodup).2.2 _ habove _ hw rfl
    · refine update_of_ne ?_ _ _
      rintro rfl
      exact hz habove

/-- An event that is in the queue is found and removed. -/
theorem remove_spec (h : Holds q bins) (hx : x ∈ flat bins) (hfuel : (flat bins).length ≤ fuel) :
    ∃ t, q.remove fuel x = .ok t ∧ Holds t (removeBin (fun e => (q.events e).key) x bins) ∧ SameData q.events t.events ∧
      t._curTick = q._curTick := by
  have hbinned := h.binned.remove hx
  obtain ⟨c, post, hahead, hmem⟩ := h.binned.find hx
  have hsplit := passed_ahead (fun e => (q.events e).key) x bins
  rw [hahead] at hsplit
  have hc : c ∈ bins := by
    rw [← hsplit]
    exact mem_append_right _ mem_cons_self
  have hkey : (q.events x).key = (q.events c.1).key := h.binned.key_eq hc hmem
  have hlen : c.2.length ≤ fuel := by
    refine le_trans ?_ hfuel
    rw [← hsplit, flat_append, flat_cons, length_append, length_append, length_cons]
    omega
  have hlinked := h.linked
  have hnodup := h.binned.nodup
  have hremove : removeBin (fun e => (q.events e).key) x bins =
      passed (fun e => (q.events e).key) x bins ++ ((eraseBin x c).toList ++ post) := by
    unfold removeBin
    rw [hahead]
  rw [hremove] at hbinned ⊢
  cases bins with
  | nil => cases hx
  | cons b bins =>
    unfold remove
    rw [h.head]
    dsimp only [first, head?_cons, Option.map_some]
    by_cases heq : (q.events b.1).key = (q.events x).key
    · -- the bin of the head
      have hpassed : passed (fun e => (q.events e).key) x (b :: bins) = [] := takeWhile_cons_of_neg (by simp [heq])
      rw [hpassed, nil_append] at hsplit hbinned ⊢
      cases hsplit
      obtain ⟨events', hitem, hlinked', -, hsame⟩ := removeItem_spec hlinked hnodup hmem hlen
      rw [if_pos ((Event.eq_iff _ _).mpr heq), hitem]
      exact ⟨_, rfl, ⟨rfl, hlinked', hsame.binned hbinned⟩, hsame, rfl⟩
    · have hlt : (q.events b.1).key < (q.events x).key := by
        by_contra hge
        have hnone : ahead (fun e => (q.events e).key) x (b :: bins) = b :: bins := dropWhile_cons_of_neg (by simpa using hge)
        cases hnone.symm.trans hahead
        exact heq hkey.symm
      have hpassed : passed (fun e => (q.events e).key) x (b :: bins) = b :: passed (fun e => (q.events e).key) x bins :=
        takeWhile_cons_of_pos (by simpa using hlt)
      have hahead' : ahead (fun e => (q.events e).key) x bins = c :: post := by
        rw [← hahead]
        exact (dropWhile_cons_of_pos (by simpa using hlt)).symm
      have hbins : bins.length ≤ fuel := by
        have hle : bins.length ≤ (flat bins).length := length_le_flat
        rw [flat_cons, length_append] at hfuel
        omega
      obtain ⟨pre, d, hpre, hfind⟩ := findBin_spec hlinked hbins
      have hnext : (q.events b.1).nextBin = first bins := hlinked.2.1.trans Option.or_none
      rw [hpassed, hpre, append_assoc] at hsplit hbinned ⊢
      rw [← hsplit] at hlinked hnodup
      have hrest := (Row.append.mp hlinked).2.2.2
      have hnodup' := hnodup
      rw [singleton_append, append_cons, flat_append] at hnodup'
      obtain ⟨-, hrestnd, hdisjoint⟩ := nodup_append.mp hnodup'
      obtain ⟨events', hitem, hlinked', hother, hsame⟩ := removeItem_spec hrest hrestnd hmem hlen
      have hrelink := Linked.relink hlinked hbinned.nodup hlinked' fun y hy => hother y fun hyc =>
        hdisjoint y hy y (mem_append_left _ hyc) rfl
      have hset := hsame.trans (SameData.set
        (v := { events' d.1 with nextBin := first ((eraseBin x c).toList ++ post) }) rfl rfl rfl)
      rw [if_neg fun h => heq ((Event.eq_iff _ _).mp h), hnext, hfind, hahead']
      show ∃ t, (if (q.events c.1).eq (q.events x) then _ else _) = Except.ok t ∧ _
      rw [if_pos ((Event.eq_iff _ _).mpr hkey.symm), hitem]
      refine ⟨_, rfl, ⟨?_, hrelink, hset.binned hbinned⟩, hset, rfl⟩
      rw [singleton_append, first_append_cons, ← hpre]
      rfl

end Gem5.Sim
