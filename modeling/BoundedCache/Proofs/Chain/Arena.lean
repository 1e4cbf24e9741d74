import BoundedCache.Proofs.Chain.Links
import Mathlib.Data.List.Permutation
import Mathlib.Data.List.Range

/-!
# Slots of a chain

Which slots of a chain are in use, and which of the others are free to be given out again. The links
between the nodes play no part here: linking and unlinking leave every slot in use or not as it was.

## Main definitions

- `Chain.Arena` — the slots in use, the size and the free list agree
- `Chain.nextSlot` — the slot that the next new value gets

## Main results

- `Chain.Arena.allocate`, `Chain.Arena.release` — a slot comes into use, or is given back
- `Chain.Arena.unlink`, `Chain.Arena.linkBefore` — links play no part
- `Chain.Arena.perm_range`, `Chain.Arena.slots_size` — every slot is either in use or free
-/

namespace BoundedCache.Chain

open Keyed

variable {α : Type} {c d : Chain α} {i j : Slot} {v : α} {used : List Slot}

/-- The given slots are the ones in use, and the free list holds the others. -/
structure Arena (c : Chain α) (used : List Slot) : Prop where
  nodup : used.Nodup
  isLive_iff : ∀ i, c.isLive i ↔ i ∈ used
  size_eq : c.size = used.length
  free_nodup : c.free.Nodup
  mem_free_iff : ∀ i, i ∈ c.free ↔ i < c.slots.size ∧ i ∉ used

/-- The slot that the next new value gets. -/
def nextSlot (c : Chain α) : Slot := c.free.headD c.slots.size

/-! ## What is in use -/

theorem isLive_eq_true_iff : c.isLive i ↔ ∃ node, c.node? i = some node :=
  Option.isSome_iff_exists

theorem isLive_eq_false_iff : c.isLive i = false ↔ c.node? i = none := by
  rw [isLive, Option.isSome_eq_false_iff, Option.isNone_iff_eq_none]

theorem isLive_iff_get?_isSome : c.isLive i = (c.get? i).isSome := by
  rw [isLive, get?, Option.isSome_map]

/-- Only slots of the array are in use. -/
theorem lt_of_isLive (h : c.isLive i) : i < c.slots.size := by
  by_contra hi
  rw [isLive, node?, Array.getElem?_eq_none (Nat.le_of_not_lt hi)] at h
  exact Bool.false_ne_true h

theorem Arena.lt_of_mem (h : c.Arena used) (hi : i ∈ used) : i < c.slots.size :=
  lt_of_isLive ((h.isLive_iff i).2 hi)

/-- Every place of the array is either in use or free, and not both. -/
theorem Arena.perm_range (h : c.Arena used) : (used ++ c.free).Perm (List.range c.slots.size) := by
  have hnodup : (used ++ c.free).Nodup := by
    refine List.nodup_append.2 ⟨h.nodup, h.free_nodup, ?_⟩
    rintro i hi _ hfree rfl
    exact ((h.mem_free_iff i).1 hfree).2 hi
  refine (List.perm_ext_iff_of_nodup hnodup List.nodup_range).2 fun i => ?_
  rw [List.mem_append, List.mem_range, h.mem_free_iff]
  constructor
  · rintro (hi | hi)
    · exact h.lt_of_mem hi
    · exact hi.1
  · intro hi
    by_cases hused : i ∈ used
    · exact .inl hused
    · exact .inr ⟨hi, hused⟩

theorem Arena.slots_size (h : c.Arena used) : c.slots.size = used.length + c.free.length := by
  have hlength := h.perm_range.length_eq
  rw [List.length_append, List.length_range] at hlength
  exact hlength.symm

theorem Arena.length_le (h : c.Arena used) : used.length ≤ c.slots.size := by
  rw [h.slots_size]
  exact Nat.le_add_right ..

theorem Arena.perm {used' : List Slot} (h : c.Arena used) (hp : used.Perm used') :
    c.Arena used' where
  nodup := hp.nodup_iff.1 h.nodup
  isLive_iff i := (h.isLive_iff i).trans hp.mem_iff
  size_eq := h.size_eq.trans hp.length_eq
  free_nodup := h.free_nodup
  mem_free_iff i := by rw [h.mem_free_iff, hp.mem_iff]

/-- The next slot is not in use. -/
theorem Arena.nextSlot_not_mem (h : c.Arena used) : c.nextSlot ∉ used := by
  intro hmem
  rcases hfree : c.free with _ | ⟨i, free⟩
  · rw [nextSlot, hfree] at hmem
    exact Nat.lt_irrefl _ (h.lt_of_mem hmem)
  · rw [nextSlot, hfree] at hmem
    have hi := (h.mem_free_iff i).1 (by rw [hfree]; exact List.mem_cons_self)
    exact hi.2 hmem

theorem arena_empty : (∅ : Chain α).Arena [] where
  nodup := List.nodup_nil
  isLive_iff i := by
    show (none : Option (Node α)).isSome ↔ i ∈ []
    simp
  size_eq := rfl
  free_nodup := List.nodup_nil
  mem_free_iff i := by
    show i ∈ [] ↔ i < 0 ∧ i ∉ []
    simp

/-! ## Links play no part -/

/-- Two chains that differ in the contents of their nodes only. -/
structure SameSlots (c d : Chain α) : Prop where
  isLive_eq : ∀ i, d.isLive i = c.isLive i
  size_eq : d.size = c.size
  free_eq : d.free = c.free
  slots_size_eq : d.slots.size = c.slots.size

theorem SameSlots.refl (c : Chain α) : SameSlots c c := ⟨fun _ => rfl, rfl, rfl, rfl⟩

theorem SameSlots.trans {e : Chain α} (h : SameSlots c d) (h' : SameSlots d e) : SameSlots c e where
  isLive_eq i := (h'.isLive_eq i).trans (h.isLive_eq i)
  size_eq := h'.size_eq.trans h.size_eq
  free_eq := h'.free_eq.trans h.free_eq
  slots_size_eq := h'.slots_size_eq.trans h.slots_size_eq

theorem SameSlots.arena (h : SameSlots c d) (ha : c.Arena used) : d.Arena used where
  nodup := ha.nodup
  isLive_iff i := by rw [h.isLive_eq, ha.isLive_iff]
  size_eq := h.size_eq.trans ha.size_eq
  free_nodup := by rw [h.free_eq]; exact ha.free_nodup
  mem_free_iff i := by rw [h.free_eq, h.slots_size_eq, ha.mem_free_iff]

theorem sameSlots_modifyNode (c : Chain α) (i : Slot) (f : Node α → Node α) :
    SameSlots c (c.modifyNode i f) where
  isLive_eq j := by
    rw [isLive, isLive, node?_modifyNode]
    split
    · exact Option.isSome_map
    · rfl
  size_eq := rfl
  free_eq := rfl
  slots_size_eq := Array.size_modify

theorem sameSlots_setAfter (c : Chain α) (i target : Option Slot) :
    SameSlots c (c.setAfter i target) := by
  cases i with
  | none => exact ⟨fun _ => rfl, rfl, rfl, rfl⟩
  | some i => exact sameSlots_modifyNode ..

theorem sameSlots_setBefore (c : Chain α) (i target : Option Slot) :
    SameSlots c (c.setBefore i target) := by
  cases i with
  | none => exact ⟨fun _ => rfl, rfl, rfl, rfl⟩
  | some i => exact sameSlots_modifyNode ..

theorem sameSlots_linkBefore (c : Chain α) (i : Slot) (anchor : Option Slot) :
    SameSlots c (c.linkBefore i anchor) :=
  ((sameSlots_modifyNode ..).trans (sameSlots_setAfter ..)).trans (sameSlots_setBefore ..)

theorem sameSlots_unlink (c : Chain α) (i : Slot) : SameSlots c (c.unlink i) := by
  rw [unlink]
  split
  · exact .refl c
  · exact (sameSlots_setAfter ..).trans (sameSlots_setBefore ..)

/-! ## Values -/

/-- Writing links changes no value. -/
theorem get?_modifyNode_of_value {f : Node α → Node α} (hf : ∀ node, (f node).value = node.value) :
    (c.modifyNode i f).get? j = c.get? j := by
  rw [get?, get?, node?_modifyNode]
  split
  · cases c.node? j with
    | none => rfl
    | some node => exact congrArg some (hf node)
  · rfl

theorem get?_setAfter (i target : Option Slot) : (c.setAfter i target).get? j = c.get? j := by
  cases i with
  | none => rfl
  | some i => exact get?_modifyNode_of_value fun _ => rfl

theorem get?_setBefore (i target : Option Slot) : (c.setBefore i target).get? j = c.get? j := by
  cases i with
  | none => rfl
  | some i => exact get?_modifyNode_of_value fun _ => rfl

theorem get?_unlink : (c.unlink i).get? j = c.get? j := by
  rw [unlink]
  split
  · rfl
  · rw [get?_setBefore, get?_setAfter]

/-! ## Giving out and taking back slots -/

theorem allocate_fst (c : Chain α) (v : α) : (c.allocate v).1 = c.nextSlot := by
  rw [allocate, nextSlot]
  cases c.free <;> rfl

/-- A new value is put into a slot of its own. -/
theorem Arena.node?_allocate (h : c.Arena used) (v : α) (j : Slot) :
    (c.allocate v).2.node? j = if j = c.nextSlot then some { value := v } else c.node? j := by
  rcases hfree : c.free with _ | ⟨i, free⟩
  · simp only [allocate, nextSlot, hfree, node?, List.headD_nil, Array.getElem?_push]
    split
    · rfl
    · rfl
  · have hi : i < c.slots.size := ((h.mem_free_iff i).1 (by rw [hfree]; exact .head _)).1
    simp only [allocate, nextSlot, hfree, node?, List.headD_cons, Array.getElem?_setIfInBounds]
    by_cases hij : i = j
    · subst hij
      simp [hi]
    · simp [hij, Ne.symm hij]

theorem frontSlot_allocate (c : Chain α) (v : α) : (c.allocate v).2.frontSlot = c.frontSlot := by
  rw [allocate]
  cases c.free <;> rfl

theorem backSlot_allocate (c : Chain α) (v : α) : (c.allocate v).2.backSlot = c.backSlot := by
  rw [allocate]
  cases c.free <;> rfl

/-- A slot comes into use. -/
theorem Arena.allocate (h : c.Arena used) (v : α) :
    (c.allocate v).2.Arena (c.nextSlot :: used) where
  nodup := List.nodup_cons.2 ⟨h.nextSlot_not_mem, h.nodup⟩
  isLive_iff j := by
    rw [isLive, h.node?_allocate, List.mem_cons, ← h.isLive_iff]
    split
    · next hj => simp [hj]
    · next hj => simp [hj, isLive]
  size_eq := by
    rw [List.length_cons, ← h.size_eq, Chain.allocate]
    cases c.free <;> rfl
  free_nodup := by
    have hnodup := h.free_nodup
    rw [Chain.allocate]
    rcases hfree : c.free with _ | ⟨i, free⟩
    · rw [hfree] at hnodup
      exact hnodup
    · rw [hfree] at hnodup
      exact (List.nodup_cons.1 hnodup).2
  mem_free_iff j := by
    have hnodup := h.free_nodup
    have hmem := h.mem_free_iff j
    rw [Chain.allocate, nextSlot]
    rcases hfree : c.free with _ | ⟨i, free⟩
    · -- The array grows by the slot that is given out.
      rw [hfree] at hmem
      show j ∈ [] ↔ j < (c.slots.push (some { value := v })).size ∧ j ∉ c.slots.size :: used
      rw [Array.size_push, List.mem_cons, not_or]
      constructor
      · intro hj
        exact absurd hj List.not_mem_nil
      · rintro ⟨hlt, hne, hj⟩
        exact hmem.2 ⟨Nat.lt_of_le_of_ne (Nat.le_of_lt_succ hlt) hne, hj⟩
    · rw [hfree, List.mem_cons] at hmem
      rw [hfree, List.nodup_cons] at hnodup
      simp only [Array.size_setIfInBounds, List.headD_cons, List.mem_cons]
      have hne : j ∈ free → j ≠ i := fun hj hji => hnodup.1 (hji ▸ hj)
      tauto

/-- A slot is given back. -/
theorem Arena.release (h : c.Arena (i :: used)) : (c.release i).Arena used where
  nodup := (List.nodup_cons.1 h.nodup).2
  isLive_iff j := by
    have hi := (List.nodup_cons.1 h.nodup).1
    have hlive := h.isLive_iff j
    rw [isLive, node?, List.mem_cons] at hlive
    rw [isLive, node?, Chain.release, Array.getElem?_setIfInBounds]
    by_cases hij : i = j
    · subst hij
      rw [if_pos rfl]
      split <;> simp [hi]
    · simpa [hij, Ne.symm hij] using hlive
  size_eq := by
    rw [Chain.release, h.size_eq]
    rfl
  free_nodup := List.nodup_cons.2
    ⟨fun hfree => ((h.mem_free_iff i).1 hfree).2 List.mem_cons_self, h.free_nodup⟩
  mem_free_iff j := by
    have hlt := h.lt_of_mem (List.mem_cons_self (a := i) (l := used))
    have hi := (List.nodup_cons.1 h.nodup).1
    rw [Chain.release, List.mem_cons, h.mem_free_iff, Array.size_setIfInBounds, List.mem_cons]
    by_cases hij : j = i
    · subst hij
      tauto
    · tauto

end BoundedCache.Chain
