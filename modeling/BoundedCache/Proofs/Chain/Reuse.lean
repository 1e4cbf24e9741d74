import BoundedCache.Proofs.Chain.Sequence

/-!
# Slots are given out again

A chain takes a new slot only when none of its slots is free, so it has as many slots as were in use
at a time since it was last cleared. For this, a slot must be on the free list once it is emptied,
and never twice: a slot that is listed twice would be given out to two values.

## Main definitions

- `Chain.liveCount` — the number of slots in use
- `Chain.peak` — the largest number of slots in use at a time since the last clear

## Main results

- `Chain.Represents.slots_size_perform` — the number of slots after one operation
- `Chain.slots_size_performAll` — the number of slots after a sequence of operations
- `Chain.lt_peak_of_slot` — a slot that is given out is below that number
-/

namespace BoundedCache.Chain

variable {α : Type} {c d : Chain α} {i : Slot} {v : α} {l : List (Slot × α)} {used : List Slot}

/-! ## Counting -/

/-- The number of slots in use. -/
def liveCount (c : Chain α) : Nat := (List.range c.slots.size).countP c.isLive

/-- The number of slots in use grows and shrinks, and its largest value is kept until a clear. -/
def peakAfter (most : Nat) (command : Command α) (d : Chain α) : Nat :=
  match command with
  | .clear => 0
  | _ => max most d.liveCount

/-- The largest number of slots in use at a time, `most` being the one up to the start. -/
def peakFrom (c : Chain α) (most : Nat) : List (Command α) → Nat
  | [] => most
  | command :: rest =>
    let d := (c.perform command).2
    d.peakFrom (peakAfter most command d) rest

/-- The largest number of slots in use at a time since the last clear. -/
def peak (commands : List (Command α)) : Nat := peakFrom ∅ 0 commands

theorem liveCount_le (c : Chain α) : c.liveCount ≤ c.slots.size :=
  List.countP_le_length.trans_eq List.length_range

theorem Arena.liveCount_eq (h : c.Arena used) : c.liveCount = used.length := by
  have hused : used.countP c.isLive = used.length :=
    List.countP_eq_length.2 fun i hi => (h.isLive_iff i).2 hi
  have hfree : c.free.countP c.isLive = 0 := by
    refine List.countP_eq_zero.2 fun i hi hlive => ?_
    exact ((h.mem_free_iff i).1 hi).2 ((h.isLive_iff i).1 hlive)
  rw [liveCount, ← h.perm_range.countP_eq, List.countP_append, hused, hfree]
  rfl

theorem Represents.liveCount_eq (h : c.Represents l) : c.liveCount = c.size := by
  rw [h.arena.liveCount_eq, h.arena.size_eq]

/-- The free slots are the empty places of the array. -/
theorem Arena.mem_free_iff_empty (h : c.Arena used) (i : Slot) :
    i ∈ c.free ↔ c.slots[i]? = some none := by
  have hlive := h.isLive_iff i
  rw [isLive, node?] at hlive
  rw [h.mem_free_iff, ← hlive]
  rcases hslot : c.slots[i]? with _ | _ | node
  · simpa using hslot
  · simpa using (Array.getElem?_eq_some_iff.1 hslot).1
  · simp

/-! ## The number of slots -/

/-- A slot that is free is taken before a new one. -/
theorem Arena.slots_size_allocate (h : c.Arena used) (v : α) :
    (c.allocate v).2.slots.size = max c.slots.size (c.size + 1) := by
  have hsize := h.slots_size
  rw [← h.size_eq] at hsize
  rw [Chain.allocate]
  rcases hfree : c.free with _ | ⟨i, free⟩
  · rw [hfree, List.length_nil, Nat.add_zero] at hsize
    rw [Array.size_push, hsize, Nat.max_eq_right (Nat.le_succ _)]
  · rw [hfree, List.length_cons] at hsize
    rw [Array.size_setIfInBounds, Nat.max_eq_left (by omega)]

theorem slots_size_linkBefore (c : Chain α) (i : Slot) (anchor : Option Slot) :
    (c.linkBefore i anchor).slots.size = c.slots.size :=
  (sameSlots_linkBefore c i anchor).slots_size_eq

theorem slots_size_modify (c : Chain α) (i : Slot) (f : α → α) :
    (c.modify i f).slots.size = c.slots.size :=
  (sameSlots_modifyNode ..).slots_size_eq

/-- A slot is emptied, not given up. -/
theorem slots_size_remove (c : Chain α) (i : Slot) : (c.remove i).2.slots.size = c.slots.size := by
  rw [remove]
  split
  · rfl
  · show ((c.unlink i).slots.setIfInBounds i none).size = _
    rw [Array.size_setIfInBounds, (sameSlots_unlink c i).slots_size_eq]

theorem slots_size_remove? (c : Chain α) (i : Option Slot) :
    (c.remove? i).2.slots.size = c.slots.size := by
  cases i with
  | none => rfl
  | some i => exact slots_size_remove c i

theorem slots_size_moveToFront (c : Chain α) (i : Slot) :
    (c.moveToFront i).2.slots.size = c.slots.size := by
  rw [moveToFront]
  split
  · split
    · rfl
    · exact (slots_size_linkBefore ..).trans (sameSlots_unlink c i).slots_size_eq
  · rfl

theorem slots_size_moveBefore (c : Chain α) (i anchor : Slot) :
    (c.moveBefore i anchor).2.slots.size = c.slots.size := by
  rw [moveBefore]
  split
  · split
    · rfl
    · exact (slots_size_linkBefore ..).trans (sameSlots_unlink c i).slots_size_eq
  · rfl

namespace Represents

theorem slots_size_pushFront (h : c.Represents l) (v : α) :
    (c.pushFront v).2.slots.size = max c.slots.size (c.size + 1) :=
  (slots_size_linkBefore ..).trans (h.arena.slots_size_allocate v)

theorem slots_size_pushBack (h : c.Represents l) (v : α) :
    (c.pushBack v).2.slots.size = max c.slots.size (c.size + 1) :=
  (slots_size_linkBefore ..).trans (h.arena.slots_size_allocate v)

theorem slots_size_insertBefore (h : c.Represents l) (anchor : Slot) (v : α) :
    (c.insertBefore anchor v).2.slots.size = max c.slots.size (c.size + 1) :=
  (slots_size_linkBefore ..).trans (h.arena.slots_size_allocate v)

/-- A list that is longer by one value has one more slot in use. -/
theorem liveCount_of_perm {l' : List (Slot × α)} (h : c.Represents l) (hd : d.Represents l')
    (hp : l'.Perm ((i, v) :: l)) : d.liveCount = c.size + 1 := by
  rw [hd.liveCount_eq, hd.size_eq, hp.length_eq, List.length_cons, h.size_eq]

/-- After an operation there are as many slots as before it, or as are in use now if these are
more. Clearing gives up all slots. -/
theorem slots_size_perform (h : c.Represents l) (command : Command α) :
    (c.perform command).2.slots.size =
      peakAfter c.slots.size command (c.perform command).2 := by
  have hresult := (h.perform command).2
  -- Where the array stays as large, there cannot be more slots in use than it has.
  have hkept : ∀ {d : Chain α}, d.slots.size = c.slots.size →
      d.slots.size = max c.slots.size d.liveCount := by
    intro d hd
    rw [← hd, Nat.max_eq_left (liveCount_le d)]
  cases command with
  | pushFront value =>
    have hlive := h.liveCount_of_perm hresult (.refl _)
    exact (h.slots_size_pushFront value).trans (congrArg _ hlive.symm)
  | pushBack value =>
    have hlive := h.liveCount_of_perm hresult List.perm_append_comm
    exact (h.slots_size_pushBack value).trans (congrArg _ hlive.symm)
  | insertBefore anchor value =>
    have hlive := h.liveCount_of_perm hresult (Keyed.insertAhead_perm ..)
    exact (h.slots_size_insertBefore anchor value).trans (congrArg _ hlive.symm)
  | remove slot => exact hkept (slots_size_remove c slot)
  | popFront => exact hkept (slots_size_remove? c c.frontSlot)
  | popBack => exact hkept (slots_size_remove? c c.backSlot)
  | moveToFront slot => exact hkept (slots_size_moveToFront c slot)
  | moveBefore slot anchor => exact hkept (slots_size_moveBefore c slot anchor)
  | replace slot value => exact hkept (slots_size_modify c slot fun _ => value)
  | clear => rfl

/-- A slot that is given out is in use afterwards. -/
theorem isLive_of_slot (h : c.Represents l) {command : Command α}
    (hi : (c.perform command).1 = .slot i) : (c.perform command).2.isLive i := by
  obtain ⟨hanswer, hresult⟩ := h.perform command
  rw [hi] at hanswer
  rw [hresult.arena.isLive_iff]
  cases command with
  | pushFront value =>
    cases hanswer
    exact List.mem_cons_self
  | pushBack value =>
    cases hanswer
    exact List.mem_map_of_mem (List.mem_append_right l (List.mem_singleton_self _))
  | insertBefore anchor value =>
    cases hanswer
    have hmem : (c.nextSlot, value) ∈ Keyed.insertAhead Prod.fst anchor (c.nextSlot, value) l :=
      (Keyed.insertAhead_perm ..).mem_iff.2 List.mem_cons_self
    exact List.mem_map_of_mem hmem
  | _ => cases hanswer

end Represents

/-! ## Sequences of operations -/

theorem performAll_concat (c : Chain α) (commands : List (Command α)) (command : Command α) :
    c.performAll (commands ++ [command]) = ((c.performAll commands).perform command).2 := by
  rw [performAll, List.foldl_append]
  rfl

theorem Represents.slots_size_performAll (h : c.Represents l) (commands : List (Command α)) :
    (c.performAll commands).slots.size = c.peakFrom c.slots.size commands := by
  induction commands generalizing c l with
  | nil => rfl
  | cons command rest ih =>
    rw [peakFrom, ← h.slots_size_perform command]
    exact ih (h.perform command).2

/-- There are as many slots as were in use at a time since the last clear. -/
theorem slots_size_performAll (commands : List (Command α)) :
    (performAll ∅ commands).slots.size = peak commands :=
  represents_empty.slots_size_performAll commands

/-- A slot that is given out is below the largest number of slots in use at a time. -/
theorem lt_peak_of_slot (commands : List (Command α)) {command : Command α}
    (hi : ((performAll ∅ commands).perform command).1 = .slot i) :
    i < peak (commands ++ [command]) := by
  obtain ⟨l, h⟩ := represents_empty.performAll commands
  rw [← slots_size_performAll, performAll_concat]
  exact lt_of_isLive (h.isLive_of_slot hi)

end BoundedCache.Chain
