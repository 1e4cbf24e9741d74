import BoundedCache.Proofs.Chain.Arena

/-!
# Chains as lists of slots and values

A chain stands for a list of slots with their values when it links the nodes of that list and uses
no other slots. Every operation of a chain is an operation on that list.

## Main definitions

- `Chain.Represents` — a chain stands for a list

## Main results

- `Chain.Represents.toSlots_eq`, `Chain.Represents.toSlotsBack_eq` — listing a chain
- `Chain.Represents.insertAt`, `Chain.Represents.removeAt`, `Chain.Represents.moveAt` — a value is
  added, taken away or moved at a given place of the list
- `Chain.Represents.pushFront`, `.insertBefore`, `.remove`, `.moveBefore` and the others — the
  operations, which find that place through a slot
-/

namespace BoundedCache.Chain

open Keyed

variable {α : Type} {c d : Chain α} {i : Slot} {v : α} {l xs ys as bs : List (Slot × α)}

/-- The chain holds the values of a list, in its order and in the slots that the list tells. -/
structure Represents (c : Chain α) (l : List (Slot × α)) : Prop where
  linked : c.Linked l
  arena : c.Arena (l.map Prod.fst)

theorem represents_empty : (∅ : Chain α).Represents [] where
  linked := ⟨List.nodup_nil, ⟨trivial, rfl⟩, rfl⟩
  arena := arena_empty

namespace Represents

/-! ## Reading -/

theorem distinct (h : c.Represents l) : Distinct Prod.fst l := h.linked.distinct

theorem size_eq (h : c.Represents l) : c.size = l.length := by
  rw [h.arena.size_eq, List.length_map]

theorem length_le (h : c.Represents l) : l.length ≤ c.slots.size := by
  have hle := h.arena.length_le
  rwa [List.length_map] at hle

theorem frontSlot_eq (h : c.Represents l) : c.frontSlot = l.head?.map Prod.fst := by
  rw [h.linked.2.1.2, firstSlot_none]

theorem backSlot_eq (h : c.Represents l) : c.backSlot = l.getLast?.map Prod.fst := by
  rw [h.linked.2.2, lastSlot_none]

theorem toSlots_eq (h : c.Represents l) : c.toSlots = l := by
  rw [toSlots, h.linked.2.1.2]
  exact h.linked.2.1.1.walk_after h.length_le

theorem toSlotsBack_eq (h : c.Represents l) : c.toSlotsBack = l.reverse := by
  rw [toSlotsBack, h.linked.2.2]
  exact h.linked.2.1.1.walk_before h.length_le

theorem toList_eq (h : c.Represents l) : c.toList = l.map Prod.snd := by
  rw [toList, h.toSlots_eq]

theorem toListBack_eq (h : c.Represents l) : c.toListBack = (l.map Prod.snd).reverse := by
  rw [toListBack, h.toSlotsBack_eq, List.map_reverse]

/-- What the node of a listed value holds. -/
theorem node?_eq (h : c.Represents (xs ++ (i, v) :: ys)) :
    c.node? i = some ⟨v, xs.getLast?.map Prod.fst, ys.head?.map Prod.fst⟩ := by
  rw [h.linked.node?_eq, lastSlot_none, firstSlot_none]

theorem node?_eq_none (h : c.Represents l) (hi : ∀ x ∈ l, x.1 ≠ i) : c.node? i = none := by
  rw [← isLive_eq_false_iff, Bool.eq_false_iff, ne_eq, h.arena.isLive_iff, List.mem_map]
  rintro ⟨x, hx, rfl⟩
  exact hi x hx rfl

theorem get?_eq (h : c.Represents l) (i : Slot) :
    c.get? i = (find? Prod.fst i l).map Prod.snd := by
  rcases hfind : find? Prod.fst i l with _ | ⟨i', v⟩
  · rw [get?, h.node?_eq_none (find?_eq_none_iff.1 hfind)]
    rfl
  · obtain ⟨xs, ys, rfl, rfl⟩ := exists_split_of_find?_eq_some hfind
    rw [get?, h.node?_eq]
    rfl

theorem isLive_eq (h : c.Represents l) (i : Slot) : c.isLive i = (find? Prod.fst i l).isSome := by
  rw [isLive_iff_get?_isSome, h.get?_eq, Option.isSome_map]

theorem get?_eq_some_iff (h : c.Represents l) : c.get? i = some v ↔ (i, v) ∈ l := by
  rw [h.get?_eq, Option.map_eq_some_iff]
  constructor
  · rintro ⟨x, hfind, rfl⟩
    obtain ⟨hx, rfl⟩ := mem_of_find?_eq_some hfind
    exact hx
  · intro hx
    exact ⟨(i, v), (find?_eq_some_iff h.distinct).2 ⟨hx, rfl⟩, rfl⟩

theorem before?_eq (h : c.Represents (xs ++ (i, v) :: ys)) :
    c.before? i = xs.getLast?.map Prod.fst := by
  rw [before?, h.node?_eq]
  rfl

theorem after?_eq (h : c.Represents (xs ++ (i, v) :: ys)) :
    c.after? i = ys.head?.map Prod.fst := by
  rw [after?, h.node?_eq]
  rfl

theorem front?_eq (h : c.Represents l) : c.front? = l.head?.map Prod.snd := by
  rw [front?, h.frontSlot_eq]
  cases l with
  | nil => rfl
  | cons x l => exact h.get?_eq_some_iff.2 List.mem_cons_self

theorem back?_eq (h : c.Represents l) : c.back? = l.getLast?.map Prod.snd := by
  rw [back?, h.backSlot_eq]
  rcases hlast : l.getLast? with _ | x
  · rfl
  · exact h.get?_eq_some_iff.2 (List.mem_of_getLast? hlast)

/-- The next slot differs from all that are listed. -/
theorem nextSlot_ne (h : c.Represents l) : ∀ x ∈ l, x.1 ≠ c.nextSlot := by
  intro x hx hnext
  refine h.arena.nextSlot_not_mem ?_
  rw [← hnext]
  exact List.mem_map_of_mem hx

/-! ## Changes at a given place -/

/-- Putting a value into a slot leaves the list as it was. -/
theorem linked_allocate (h : c.Represents l) (v : α) : (c.allocate v).2.Linked l := by
  obtain ⟨hd, ⟨hseg, hfront⟩, hback⟩ := h.linked
  refine ⟨hd, ⟨hseg.congr fun x hx => ?_, ?_⟩, ?_⟩
  · rw [h.arena.node?_allocate, if_neg (h.nextSlot_ne x hx)]
  · rw [frontSlot_allocate, hfront]
  · rw [backSlot_allocate, hback]

/-- A new value is linked at the place of a cut. -/
theorem insertAt (h : c.Represents (xs ++ ys)) (v : α) :
    ((c.allocate v).2.linkBefore c.nextSlot (firstSlot ys none)).Represents
      (xs ++ (c.nextSlot, v) :: ys) where
  linked := by
    refine (h.linked_allocate v).linkBefore h.nextSlot_ne ?_
    rw [get?, h.arena.node?_allocate, if_pos rfl]
    rfl
  arena := by
    have harena := (sameSlots_linkBefore _ c.nextSlot (firstSlot ys none)).arena
      (h.arena.allocate v)
    refine harena.perm ?_
    exact (List.perm_middle (a := (c.nextSlot, v))).symm.map Prod.fst

/-- The value in a slot is taken away. -/
theorem removeAt (h : c.Represents (xs ++ (i, v) :: ys)) :
    ((c.unlink i).release i).Represents (xs ++ ys) where
  linked := by
    -- The slot is emptied only now that no listed node is in it.
    obtain ⟨hd, ⟨hseg, hfront⟩, hback⟩ := h.linked.unlink
    refine ⟨hd, ⟨hseg.congr fun x hx => ?_, hfront⟩, hback⟩
    have hne : i ≠ x.1 := (h.distinct.ne_of_append_cons x hx).symm
    rw [release, node?, node?, Array.getElem?_setIfInBounds_ne hne]
  arena := by
    refine Arena.release ((sameSlots_unlink c i).arena (h.arena.perm ?_))
    exact (List.perm_middle (a := (i, v))).map Prod.fst

/-- The value in a slot is linked again at the place of a cut through the others. -/
theorem moveAt (h : c.Represents (xs ++ (i, v) :: ys)) (hcut : xs ++ ys = as ++ bs) :
    ((c.unlink i).linkBefore i (firstSlot bs none)).Represents (as ++ (i, v) :: bs) where
  linked := by
    have hunlink := h.linked.unlink
    have hne := h.distinct.ne_of_append_cons
    rw [hcut] at hunlink hne
    refine hunlink.linkBefore hne ?_
    rw [get?_unlink, h.get?_eq_some_iff]
    simp
  arena := by
    -- The slot is never given back, so only the order of those in use changes.
    have hsame := (sameSlots_unlink c i).trans (sameSlots_linkBefore _ i (firstSlot bs none))
    refine (hsame.arena h.arena).perm (List.Perm.map Prod.fst ?_)
    calc (xs ++ (i, v) :: ys).Perm ((i, v) :: (xs ++ ys)) := List.perm_middle
      _ = (i, v) :: (as ++ bs) := by rw [hcut]
      List.Perm _ (as ++ (i, v) :: bs) := List.perm_middle.symm

/-! ## Adding values -/

theorem pushFront_fst (c : Chain α) (v : α) : (c.pushFront v).1 = c.nextSlot :=
  allocate_fst c v

theorem pushBack_fst (c : Chain α) (v : α) : (c.pushBack v).1 = c.nextSlot :=
  allocate_fst c v

theorem insertBefore_fst (c : Chain α) (anchor : Slot) (v : α) :
    (c.insertBefore anchor v).1 = c.nextSlot :=
  allocate_fst c v

theorem pushFront (h : c.Represents l) (v : α) :
    (c.pushFront v).2.Represents ((c.nextSlot, v) :: l) := by
  have hnil : c.Represents ([] ++ l) := h
  have hins := hnil.insertAt v
  rw [← h.linked.2.1.2, ← frontSlot_allocate c v, ← allocate_fst c v] at hins
  rw [← allocate_fst c v]
  exact hins

theorem pushBack (h : c.Represents l) (v : α) :
    (c.pushBack v).2.Represents (l ++ [(c.nextSlot, v)]) := by
  have hl : c.Represents (l ++ []) := by rwa [List.append_nil]
  have hins := hl.insertAt v
  rw [← allocate_fst c v] at hins ⊢
  exact hins

theorem insertBefore (h : c.Represents l) (anchor : Slot) (v : α) :
    (c.insertBefore anchor v).2.Represents
      (insertAhead Prod.fst anchor (c.nextSlot, v) l) := by
  have hlive := h.isLive_eq anchor
  rcases hfind : find? Prod.fst anchor l with _ | ⟨anchor', w⟩
  · -- Also when the slot of the anchor is the next one to be given out.
    rw [insertAhead_of_forall_ne (find?_eq_none_iff.1 hfind)]
    have hpush := h.pushBack v
    rw [Chain.pushBack] at hpush
    rw [Chain.insertBefore, hlive, hfind]
    exact hpush
  · obtain ⟨xs, ys, rfl, rfl⟩ := exists_split_of_find?_eq_some hfind
    rw [insertAhead_append_cons h.distinct]
    have hins := h.insertAt v
    rw [← allocate_fst c v] at hins ⊢
    rw [Chain.insertBefore, hlive, hfind]
    exact hins

/-! ## Removing values -/

theorem remove_eq (h : c.Represents (xs ++ (i, v) :: ys)) :
    c.remove i = (some v, (c.unlink i).release i) := by
  rw [Chain.remove, h.node?_eq]

theorem remove_eq_of_forall_ne (h : c.Represents l) (hi : ∀ x ∈ l, x.1 ≠ i) :
    c.remove i = (none, c) := by
  rw [Chain.remove, h.node?_eq_none hi]

theorem remove_fst (h : c.Represents l) (i : Slot) :
    (c.remove i).1 = (find? Prod.fst i l).map Prod.snd := by
  rw [← h.get?_eq, Chain.remove, get?]
  cases c.node? i <;> rfl

theorem remove (h : c.Represents l) (i : Slot) :
    (c.remove i).2.Represents (erase Prod.fst i l) := by
  rcases hfind : find? Prod.fst i l with _ | ⟨i', v⟩
  · have hne := find?_eq_none_iff.1 hfind
    rw [h.remove_eq_of_forall_ne hne, erase_eq_self hne]
    exact h
  · obtain ⟨xs, ys, rfl, rfl⟩ := exists_split_of_find?_eq_some hfind
    rw [h.remove_eq, erase_append_cons h.distinct]
    exact h.removeAt

theorem popFront_nil (h : c.Represents []) : c.popFront = (none, c) := by
  rw [Chain.popFront, h.frontSlot_eq]
  rfl

theorem popFront_cons (h : c.Represents ((i, v) :: l)) :
    c.popFront = (some v, (c.unlink i).release i) := by
  have hx : c.Represents ([] ++ (i, v) :: l) := h
  rw [Chain.popFront, h.frontSlot_eq]
  exact hx.remove_eq

theorem popFront_fst (h : c.Represents l) : c.popFront.1 = l.head?.map Prod.snd := by
  cases l with
  | nil => rw [h.popFront_nil]; rfl
  | cons x l => rw [h.popFront_cons]; rfl

theorem popFront (h : c.Represents l) : c.popFront.2.Represents l.tail := by
  cases l with
  | nil => rwa [h.popFront_nil]
  | cons x l =>
    have hx : c.Represents ([] ++ (x.1, x.2) :: l) := h
    rw [h.popFront_cons]
    exact hx.removeAt

theorem popBack_nil (h : c.Represents []) : c.popBack = (none, c) := by
  rw [Chain.popBack, h.backSlot_eq]
  rfl

theorem popBack_append_singleton (h : c.Represents (l ++ [(i, v)])) :
    c.popBack = (some v, (c.unlink i).release i) := by
  rw [Chain.popBack, h.backSlot_eq, List.getLast?_concat]
  exact h.remove_eq

theorem popBack_fst (h : c.Represents l) : c.popBack.1 = l.getLast?.map Prod.snd := by
  induction l using List.reverseRecOn with
  | nil => rw [h.popBack_nil]; rfl
  | append_singleton l x _ => rw [h.popBack_append_singleton, List.getLast?_concat]; rfl

theorem popBack (h : c.Represents l) : c.popBack.2.Represents l.dropLast := by
  induction l using List.reverseRecOn with
  | nil => rwa [h.popBack_nil]
  | append_singleton l x _ =>
    rw [h.popBack_append_singleton, List.dropLast_concat, ← List.append_nil l]
    exact h.removeAt

/-! ## Changing values and their order -/

theorem modify (h : c.Represents l) (i : Slot) (f : α → α) :
    (c.modify i f).Represents (Keyed.modify Prod.fst i (fun x => (x.1, f x.2)) l) := by
  have harena := (sameSlots_modifyNode c i fun node => { node with value := f node.value }).arena
    h.arena
  rcases hfind : find? Prod.fst i l with _ | ⟨i', v⟩
  · have hne := find?_eq_none_iff.1 hfind
    rw [modify_eq_self hne]
    obtain ⟨hd, hlead, hback⟩ := h.linked
    exact ⟨⟨hd, hlead.modifyNode hne, hback⟩, harena⟩
  · obtain ⟨xs, ys, rfl, rfl⟩ := exists_split_of_find?_eq_some hfind
    rw [modify_append_cons h.distinct]
    obtain ⟨hd, hxs, hi, hys⟩ := linked_append_cons.1 h.linked
    obtain ⟨hix, hiy⟩ := hd.ne_of_split
    refine ⟨linked_append_cons.2 ⟨?_, hxs.modifyNode hix, ?_, hys.modifyNode hiy⟩, ?_⟩
    · simpa [Distinct] using hd
    · rw [Chain.modify, node?_modifyNode, if_pos rfl, hi]
      rfl
    · rw [List.map_append, List.map_cons] at harena ⊢
      exact harena

theorem replace_fst (h : c.Represents l) (i : Slot) (w : α) :
    (c.replace i w).1 = (find? Prod.fst i l).map Prod.snd :=
  h.get?_eq i

theorem replace (h : c.Represents l) (i : Slot) (w : α) :
    (c.replace i w).2.Represents (Keyed.modify Prod.fst i (fun x => (x.1, w)) l) :=
  h.modify i fun _ => w

theorem moveToFront_fst (h : c.Represents l) (i : Slot) :
    (c.moveToFront i).1 = (find? Prod.fst i l).isSome := by
  rw [Chain.moveToFront, h.isLive_eq]
  cases (find? Prod.fst i l).isSome with
  | false => rfl
  | true =>
    by_cases hfront : c.frontSlot = some i
    · rw [if_pos rfl, if_pos hfront]
    · rw [if_pos rfl, if_neg hfront]

theorem moveToFront_eq_of_forall_ne (h : c.Represents l) (hi : ∀ x ∈ l, x.1 ≠ i) :
    c.moveToFront i = (false, c) := by
  rw [Chain.moveToFront, h.isLive_eq, find?_eq_none_iff.2 hi]
  rfl

theorem moveToFront (h : c.Represents (xs ++ (i, v) :: ys)) :
    (c.moveToFront i).2.Represents ((i, v) :: (xs ++ ys)) := by
  rw [Chain.moveToFront, h.isLive_eq, find?_append_cons h.distinct, Option.isSome_some, if_pos rfl]
  by_cases hfront : c.frontSlot = some i
  · rw [if_pos hfront]
    -- The front is the first slot of the list, which is met only once.
    cases xs with
    | nil => exact h
    | cons x xs =>
      rw [h.frontSlot_eq] at hfront
      exact absurd (Option.some.inj hfront) (h.distinct.ne_of_split.1 x List.mem_cons_self)
  · -- Elsewhere it is linked again at the cut ahead of all others.
    rw [if_neg hfront]
    have hcut : xs ++ ys = [] ++ (xs ++ ys) := rfl
    have hmoved := h.moveAt hcut
    rw [← h.linked.unlink.2.1.2] at hmoved
    exact hmoved

theorem moveBefore_eq_of_not (h : c.Represents l) {anchor : Slot}
    (hnot : ¬(i ≠ anchor ∧ (find? Prod.fst i l).isSome ∧ (find? Prod.fst anchor l).isSome)) :
    c.moveBefore i anchor = (false, c) := by
  rw [Chain.moveBefore, h.isLive_eq, h.isLive_eq, if_neg hnot]

theorem moveBefore_fst (h : c.Represents l) (i anchor : Slot) :
    (c.moveBefore i anchor).1 =
      decide (i ≠ anchor ∧ (find? Prod.fst i l).isSome ∧ (find? Prod.fst anchor l).isSome) := by
  rw [Chain.moveBefore, h.isLive_eq, h.isLive_eq]
  split
  · next hlive =>
    rw [decide_eq_true hlive]
    split <;> rfl
  · next hlive =>
    rw [decide_eq_false hlive]

theorem moveBefore (h : c.Represents (xs ++ (i, v) :: ys)) {anchor : Slot} {w : α}
    (hcut : xs ++ ys = as ++ (anchor, w) :: bs) :
    (c.moveBefore i anchor).2.Represents (as ++ (i, v) :: (anchor, w) :: bs) := by
  have hne : anchor ≠ i := by
    refine h.distinct.ne_of_append_cons (anchor, w) ?_
    rw [hcut]
    simp
  have hanchor : find? Prod.fst anchor (xs ++ (i, v) :: ys) = some (anchor, w) := by
    rw [find?_eq_some_iff h.distinct]
    have hmem : (anchor, w) ∈ xs ++ ys := by rw [hcut]; simp
    refine ⟨?_, rfl⟩
    rw [List.mem_append] at hmem ⊢
    exact hmem.imp_right (List.mem_cons_of_mem _)
  have hmoved := h.moveAt hcut
  rw [Chain.moveBefore, h.isLive_eq, h.isLive_eq, find?_append_cons h.distinct, hanchor,
    if_pos ⟨hne.symm, rfl, rfl⟩]
  split
  · next hafter =>
    -- The anchor follows already, so the cut is where the value was taken from.
    rw [h.after?_eq] at hafter
    cases ys with
    | nil => simp at hafter
    | cons y ys =>
      have hd := (distinct_cons_iff.1 (distinct_append_cons_iff.1 h.distinct)).2
      obtain ⟨rfl, rfl, rfl⟩ := hd.append_cons_inj hcut (Option.some.inj hafter)
      exact h
  · exact hmoved

end Represents

end BoundedCache.Chain
