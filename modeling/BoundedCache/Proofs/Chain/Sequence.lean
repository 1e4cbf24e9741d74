import BoundedCache.Chain.Run
import BoundedCache.Proofs.Chain.Represents

/-!
# Chains behave as sequences with handles

The operations of a chain, described on a plain list of slots with their values, and the proof that
a chain behaves as that list whatever sequence of operations led to it. The slots that the
operations are given are arbitrary: in use, given back, or in use again for another value.

## Main definitions

- `Chain.Sequence.perform` — the effect of an operation on a list
- `Chain.Reads` — every reading operation of a chain tells what a list holds
- `Chain.Refines` — an operation does the same to a chain and to a list

## Main results

- `Chain.Represents.perform` — one operation
- `Chain.performAll_refines_sequence` — every operation after every sequence of them
-/

namespace BoundedCache.Chain

open Keyed

variable {α : Type} {c : Chain α} {i : Slot} {v : α} {l : List (Slot × α)}

/-! ## Operations on a list -/

namespace Sequence

/-- The value in a slot. -/
def valueAt (i : Slot) (l : List (Slot × α)) : Option α :=
  (find? Prod.fst i l).map Prod.snd

/-- The value of a slot goes to the front. -/
def moveToFront (i : Slot) (l : List (Slot × α)) : Bool × List (Slot × α) :=
  match find? Prod.fst i l with
  | none => (false, l)
  | some x => (true, x :: erase Prod.fst i l)

/-- The value of a slot goes directly ahead of that of another one. -/
def moveBefore (i anchor : Slot) (l : List (Slot × α)) : Bool × List (Slot × α) :=
  match find? Prod.fst i l, find? Prod.fst anchor l with
  | some x, some _ =>
    if i = anchor then (false, l)
    else (true, insertAhead Prod.fst anchor x (erase Prod.fst i l))
  | _, _ => (false, l)

/-- The effect of an operation on a list of slots with their values. A new value gets the slot
`fresh`. -/
def perform (fresh : Slot) (l : List (Slot × α)) : Command α → Answer α × List (Slot × α)
  | .pushFront value => (.slot fresh, (fresh, value) :: l)
  | .pushBack value => (.slot fresh, l ++ [(fresh, value)])
  | .insertBefore anchor value => (.slot fresh, insertAhead Prod.fst anchor (fresh, value) l)
  | .remove slot => (.value (valueAt slot l), erase Prod.fst slot l)
  | .popFront => (.value (l.head?.map Prod.snd), l.tail)
  | .popBack => (.value (l.getLast?.map Prod.snd), l.dropLast)
  | .moveToFront slot => (moveToFront slot l).map .moved id
  | .moveBefore slot anchor => (moveBefore slot anchor l).map .moved id
  | .replace slot value =>
    (.value (valueAt slot l), Keyed.modify Prod.fst slot (fun x => (x.1, value)) l)
  | .clear => (.done, [])

/-- Moving one value does not change the order of the others. -/
theorem erase_moveToFront (i : Slot) (l : List (Slot × α)) :
    erase Prod.fst i (moveToFront i l).2 = erase Prod.fst i l := by
  rw [moveToFront]
  split
  · rfl
  · next x hfind =>
    obtain ⟨-, rfl⟩ := mem_of_find?_eq_some hfind
    rw [erase_cons_self, erase_erase]

theorem erase_moveBefore (i anchor : Slot) (l : List (Slot × α)) :
    erase Prod.fst i (moveBefore i anchor l).2 = erase Prod.fst i l := by
  rw [moveBefore]
  split
  · next x y hfind _ =>
    split
    · rfl
    · obtain ⟨-, rfl⟩ := mem_of_find?_eq_some hfind
      rw [erase_insertAhead_self, erase_erase]
  · rfl

end Sequence

/-! ## Reading -/

/-- Every reading operation of a chain tells what a list of slots with their values holds. -/
structure Reads (c : Chain α) (l : List (Slot × α)) : Prop where
  distinct : (l.map Prod.fst).Nodup
  toList : c.toList = l.map Prod.snd
  toListBack : c.toListBack = (l.map Prod.snd).reverse
  size : c.size = l.length
  isEmpty : c.isEmpty = l.isEmpty
  frontSlot : c.frontSlot = l.head?.map Prod.fst
  backSlot : c.backSlot = l.getLast?.map Prod.fst
  front : c.front? = l.head?.map Prod.snd
  back : c.back? = l.getLast?.map Prod.snd
  listed : ∀ xs i v ys, l = xs ++ (i, v) :: ys →
    c.isLive i ∧ c.get? i = some v ∧ c.before? i = xs.getLast?.map Prod.fst ∧
      c.after? i = ys.head?.map Prod.fst
  unlisted : ∀ i, i ∉ l.map Prod.fst →
    c.isLive i = false ∧ c.get? i = none ∧ c.before? i = none ∧ c.after? i = none

theorem Represents.reads (h : c.Represents l) : Reads c l where
  distinct := h.distinct
  toList := h.toList_eq
  toListBack := h.toListBack_eq
  size := h.size_eq
  isEmpty := by
    rw [Chain.isEmpty, h.size_eq]
    cases l <;> rfl
  frontSlot := h.frontSlot_eq
  backSlot := h.backSlot_eq
  front := h.front?_eq
  back := h.back?_eq
  listed xs i v ys hl := by
    subst hl
    refine ⟨?_, h.get?_eq_some_iff.2 (by simp), h.before?_eq, h.after?_eq⟩
    rw [isLive_eq_true_iff]
    exact ⟨_, h.node?_eq⟩
  unlisted i hi := by
    have hnone : c.node? i = none := by
      apply h.node?_eq_none
      rintro x hx rfl
      exact hi (List.mem_map_of_mem hx)
    exact ⟨isLive_eq_false_iff.2 hnone, by rw [get?, hnone]; rfl, by rw [before?, hnone]; rfl,
      by rw [after?, hnone]; rfl⟩

/-! ## One operation -/

theorem Represents.moveToFront_sequence (h : c.Represents l) (i : Slot) :
    (c.moveToFront i).1 = (Sequence.moveToFront i l).1 ∧
      (c.moveToFront i).2.Represents (Sequence.moveToFront i l).2 := by
  rw [Sequence.moveToFront]
  rcases hfind : find? Prod.fst i l with _ | ⟨i', v⟩
  · rw [h.moveToFront_eq_of_forall_ne (find?_eq_none_iff.1 hfind)]
    exact ⟨rfl, h⟩
  · refine ⟨by rw [h.moveToFront_fst, hfind]; rfl, ?_⟩
    obtain ⟨xs, ys, rfl, rfl⟩ := exists_split_of_find?_eq_some hfind
    rw [erase_append_cons h.distinct]
    exact h.moveToFront

theorem Represents.moveBefore_sequence (h : c.Represents l) (i anchor : Slot) :
    (c.moveBefore i anchor).1 = (Sequence.moveBefore i anchor l).1 ∧
      (c.moveBefore i anchor).2.Represents (Sequence.moveBefore i anchor l).2 := by
  rw [Sequence.moveBefore]
  rcases hfind : find? Prod.fst i l with _ | ⟨i', v⟩
  · rw [h.moveBefore_eq_of_not (by simp [hfind])]
    exact ⟨rfl, h⟩
  rcases hanchor : find? Prod.fst anchor l with _ | ⟨anchor', w⟩
  · rw [h.moveBefore_eq_of_not (by simp [hanchor])]
    exact ⟨rfl, h⟩
  by_cases hne : i = anchor
  · rw [h.moveBefore_eq_of_not (by simp [hne])]
    simp only [if_pos hne]
    exact ⟨trivial, h⟩
  · simp only [if_neg hne]
    refine ⟨by rw [h.moveBefore_fst, hfind, hanchor]; simpa using hne, ?_⟩
    -- Cut the other values at the anchor: this is where the value goes.
    obtain ⟨xs, ys, rfl, rfl⟩ := exists_split_of_find?_eq_some hfind
    rw [erase_append_cons h.distinct]
    obtain ⟨hmem, rfl⟩ := mem_of_find?_eq_some hanchor
    have hother : (anchor', w) ∈ xs ++ ys := by
      rw [List.mem_append, List.mem_cons] at hmem
      rw [List.mem_append]
      rcases hmem with hmem | heq | hmem
      · exact .inl hmem
      · exact absurd (congrArg Prod.fst heq).symm hne
      · exact .inr hmem
    obtain ⟨as, bs, hcut⟩ := List.append_of_mem hother
    have hd : Distinct Prod.fst (as ++ (anchor', w) :: bs) := by
      rw [← hcut]
      exact (distinct_cons_iff.1 (distinct_append_cons_iff.1 h.distinct)).2
    rw [hcut, insertAhead_append_cons hd]
    exact h.moveBefore hcut

/-- An operation does to a chain what it does to the list that the chain stands for. -/
theorem Represents.perform (h : c.Represents l) (command : Command α) :
    (c.perform command).1 = (Sequence.perform c.nextSlot l command).1 ∧
      (c.perform command).2.Represents (Sequence.perform c.nextSlot l command).2 := by
  cases command with
  | pushFront value => exact ⟨congrArg Answer.slot (pushFront_fst c value), h.pushFront value⟩
  | pushBack value => exact ⟨congrArg Answer.slot (pushBack_fst c value), h.pushBack value⟩
  | insertBefore anchor value =>
    exact ⟨congrArg Answer.slot (insertBefore_fst c anchor value), h.insertBefore anchor value⟩
  | remove slot => exact ⟨congrArg Answer.value (h.remove_fst slot), h.remove slot⟩
  | popFront => exact ⟨congrArg Answer.value h.popFront_fst, h.popFront⟩
  | popBack => exact ⟨congrArg Answer.value h.popBack_fst, h.popBack⟩
  | moveToFront slot =>
    obtain ⟨hfst, hsnd⟩ := h.moveToFront_sequence slot
    exact ⟨congrArg Answer.moved hfst, hsnd⟩
  | moveBefore slot anchor =>
    obtain ⟨hfst, hsnd⟩ := h.moveBefore_sequence slot anchor
    exact ⟨congrArg Answer.moved hfst, hsnd⟩
  | replace slot value =>
    exact ⟨congrArg Answer.value (h.replace_fst slot value), h.replace slot value⟩
  | clear => exact ⟨rfl, represents_empty⟩

/-! ## Operations without effect -/

theorem remove_snd_of_none (h : (c.remove i).1 = none) : (c.remove i).2 = c := by
  rw [remove] at h ⊢
  split at h
  · rfl
  · exact absurd h (Option.some_ne_none _)

theorem remove?_snd_of_none {i : Option Slot} (h : (c.remove? i).1 = none) :
    (c.remove? i).2 = c := by
  cases i with
  | none => rfl
  | some i => exact remove_snd_of_none h

theorem modify_of_get?_eq_none {f : α → α} (h : c.get? i = none) : c.modify i f = c := by
  rw [get?, Option.map_eq_none_iff, node?] at h
  have hslots : (c.slots.modify i fun slot =>
      slot.map fun node => { node with value := f node.value }) = c.slots := by
    apply Array.ext_getElem?
    intro j
    rw [Array.getElem?_modify]
    split
    · next hij =>
      subst hij
      rcases hslot : c.slots[i]? with _ | _ | node
      · rfl
      · rfl
      · rw [hslot] at h
        exact absurd h (Option.some_ne_none node)
    · rfl
  show { c with slots := _ } = c
  rw [hslots]

theorem moveToFront_snd_of_false (h : (c.moveToFront i).1 = false) : (c.moveToFront i).2 = c := by
  rw [moveToFront] at h ⊢
  split
  · next hlive =>
    rw [if_pos hlive] at h
    split at h <;> exact absurd h Bool.true_eq_false.mp
  · rfl

theorem moveBefore_snd_of_false {anchor : Slot} (h : (c.moveBefore i anchor).1 = false) :
    (c.moveBefore i anchor).2 = c := by
  rw [moveBefore] at h ⊢
  split
  · next hlive =>
    rw [if_pos hlive] at h
    split at h <;> exact absurd h Bool.true_eq_false.mp
  · rfl

/-- The operation found no value, or could not move one. -/
def Answer.isRefusal : Answer α → Bool
  | .slot _ => false
  | .value found => found.isNone
  | .moved success => !success
  | .done => false

/-- An operation that is refused leaves even the slots as they were. -/
theorem perform_of_isRefusal {command : Command α} (h : (c.perform command).1.isRefusal) :
    (c.perform command).2 = c := by
  cases command with
  | pushFront value => exact absurd h Bool.false_ne_true
  | pushBack value => exact absurd h Bool.false_ne_true
  | insertBefore anchor value => exact absurd h Bool.false_ne_true
  | remove slot => exact remove_snd_of_none (Option.isNone_iff_eq_none.1 h)
  | popFront => exact remove?_snd_of_none (Option.isNone_iff_eq_none.1 h)
  | popBack => exact remove?_snd_of_none (Option.isNone_iff_eq_none.1 h)
  | moveToFront slot => exact moveToFront_snd_of_false (((Bool.not_eq_true' _).mp h))
  | moveBefore slot anchor => exact moveBefore_snd_of_false (((Bool.not_eq_true' _).mp h))
  | replace slot value =>
    have hnone : c.get? slot = none := Option.isNone_iff_eq_none.1 h
    show c.modify slot (fun _ => value) = c
    exact modify_of_get?_eq_none hnone
  | clear => exact absurd h Bool.false_ne_true

/-! ## Every operation after every sequence of operations -/

/-- An operation does to a chain what it does to a list, a new value getting a slot that is not in
use. -/
structure Refines (c : Chain α) (l : List (Slot × α)) (command : Command α) : Prop where
  answer : (c.perform command).1 = (Sequence.perform c.nextSlot l command).1
  result : (c.perform command).2.toSlots = (Sequence.perform c.nextSlot l command).2
  fresh : c.nextSlot ∉ l.map Prod.fst
  /-- Where a value is added, every slot in use keeps its value. -/
  inserted : ∀ i, (c.perform command).1 = .slot i →
    ∀ j, c.isLive j → j ≠ i ∧ (c.perform command).2.get? j = c.get? j
  /-- Where a value is moved, the others keep their order. -/
  relinked : ∀ i anchor, command = .moveToFront i ∨ command = .moveBefore i anchor →
    erase Prod.fst i (c.perform command).2.toSlots = erase Prod.fst i l
  movedToFront : ∀ i, command = .moveToFront i → (c.perform command).1 = .moved (c.isLive i)
  movedBefore : ∀ i anchor, command = .moveBefore i anchor →
    (c.perform command).1 = .moved (decide (i ≠ anchor ∧ c.isLive i ∧ c.isLive anchor))
  refused : (c.perform command).1.isRefusal → (c.perform command).2 = c

/-- Adding a value to a list, wherever it goes, leaves the others in their slots. -/
theorem Represents.get?_insert {d : Chain α} {l' : List (Slot × α)} (h : c.Represents l)
    (hd : d.Represents l') (hp : l'.Perm ((c.nextSlot, v) :: l)) (hi : c.isLive i) :
    i ≠ c.nextSlot ∧ d.get? i = c.get? i := by
  have hne : i ≠ c.nextSlot := by
    rintro rfl
    exact h.arena.nextSlot_not_mem ((h.arena.isLive_iff _).1 hi)
  refine ⟨hne, ?_⟩
  have hfind : find? Prod.fst i ((c.nextSlot, v) :: l) = find? Prod.fst i l :=
    find?_cons_of_ne hne.symm
  rw [hd.get?_eq, h.get?_eq, find?_perm hd.distinct hp, hfind]

theorem Represents.inserted (h : c.Represents l) {command : Command α} {i j : Slot}
    (hi : (c.perform command).1 = .slot i) (hj : c.isLive j) :
    j ≠ i ∧ (c.perform command).2.get? j = c.get? j := by
  obtain ⟨hanswer, hresult⟩ := h.perform command
  rw [hi] at hanswer
  -- Only the three operations that add a value answer with a slot, and it is the next one.
  cases command with
  | pushFront value =>
    cases hanswer
    exact h.get?_insert hresult (.refl _) hj
  | pushBack value =>
    cases hanswer
    exact h.get?_insert hresult List.perm_append_comm hj
  | insertBefore anchor value =>
    cases hanswer
    exact h.get?_insert hresult (insertAhead_perm ..) hj
  | _ => cases hanswer

theorem Represents.refines (h : c.Represents l) (command : Command α) : Refines c l command where
  answer := (h.perform command).1
  result := (h.perform command).2.toSlots_eq
  fresh := h.arena.nextSlot_not_mem
  inserted _ hi _ hj := h.inserted hi hj
  relinked i anchor hcommand := by
    rw [(h.perform command).2.toSlots_eq]
    rcases hcommand with rfl | rfl
    · exact Sequence.erase_moveToFront i l
    · exact Sequence.erase_moveBefore i anchor l
  movedToFront i hcommand := by
    subst hcommand
    rw [h.isLive_eq, ← h.moveToFront_fst]
    rfl
  movedBefore i anchor hcommand := by
    subst hcommand
    rw [h.isLive_eq, h.isLive_eq, ← h.moveBefore_fst]
    rfl
  refused := perform_of_isRefusal

theorem Represents.performAll (h : c.Represents l) (commands : List (Command α)) :
    ∃ l', (c.performAll commands).Represents l' := by
  induction commands generalizing c l with
  | nil => exact ⟨l, h⟩
  | cons command commands ih => exact ih (h.perform command).2

/-- Whatever operations led to a chain, it behaves as the list of its slots and values: reading it
tells what the list holds, and every further operation does the same to both. -/
theorem performAll_refines_sequence (commands : List (Command α)) (command : Command α) :
    (∅ : Chain α).toSlots = [] ∧
      Reads (performAll ∅ commands) (performAll ∅ commands : Chain α).toSlots ∧
      Refines (performAll ∅ commands) (performAll ∅ commands : Chain α).toSlots command := by
  obtain ⟨l, h⟩ := represents_empty.performAll commands
  rw [h.toSlots_eq]
  exact ⟨represents_empty.toSlots_eq, h.reads, h.refines command⟩

end BoundedCache.Chain
