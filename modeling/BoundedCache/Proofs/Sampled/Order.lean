import BoundedCache.Proofs.Sampled.Lawful

/-!
# The order of sampled stores

The slots of a store are in no order, but the times of last use put their entries into one. Whatever
is done to the slots, the order changes in one of three ways: an entry leaves it, comes to its end,
or moves there.

## Main definitions

- `Sampled.InOrder` — the entries of a store, from the one unused the longest
- `Sampled.Ticked` — the clock is ahead of all entries

## Main results

- `Sampled.InOrder.removeAt`, `Sampled.InOrder.insertNew`, `Sampled.InOrder.modify` — the three ways
- `Sampled.lastUseAt_stalest?_le` — the stalest of some places is no more recent than any of them
- `Sampled.InOrder.evict_cons` — an eviction that inspects all entries drops the first one
-/

namespace BoundedCache.Sampled

open Keyed

variable {κ ν : Type} [DecidableEq κ] [Hashable κ] {c : Sampled κ ν} {i : Nat} {x : Stamped κ ν}
  {l as bs : List (Stamped κ ν)}

/-- The entries of a store, from the one unused the longest. No two carry the same time, and none a
time ahead of the clock. -/
structure InOrder (c : Sampled κ ν) (l : List (Stamped κ ν)) : Prop where
  perm : l.Perm c.slots.toList
  pairwise : l.Pairwise fun x y => x.lastUse < y.lastUse
  le_clock : ∀ x ∈ l, x.lastUse ≤ c.clock

/-- The clock is ahead of all entries, so that a new one can be told from them. -/
def Ticked (c : Sampled κ ν) : Prop := ∀ x ∈ c.slots.toList, x.lastUse < c.clock

/-! ## Slots -/

theorem clock_removeAt (c : Sampled κ ν) (i : Nat) : (c.removeAt i).2.clock = c.clock := by
  rw [removeAt]
  split <;> rfl

theorem random_removeAt (c : Sampled κ ν) (i : Nat) : (c.removeAt i).2.random = c.random := by
  rw [removeAt]
  split <;> rfl

/-- The entry in a slot goes, and the others keep their times. -/
theorem slots_removeAt (hx : c.slots[i]? = some x) :
    c.slots.toList.Perm (x :: (c.removeAt i).2.slots.toList) := by
  rw [removeAt, hx]
  rcases List.eq_nil_or_concat' c.slots.toList with hnil | ⟨xs, y, hslots⟩
  · rw [← Array.getElem?_toList, hnil] at hx
    cases hx
  rw [← Array.getElem?_toList, hslots] at hx
  have hi : i ≤ xs.length := by
    have hlt := (List.getElem?_eq_some_iff.1 hx).1
    rw [List.length_append, List.length_singleton] at hlt
    omega
  show c.slots.toList.Perm (x :: (c.slots.swapIfInBounds i (c.slots.size - 1)).pop.toList)
  rw [toList_swapRemove hslots hi, hslots]
  exact perm_set hx

/-- The entry in a slot changes, and the others stay as they are. -/
theorem slots_modify (hx : c.slots[i]? = some x) (f : Stamped κ ν → Stamped κ ν) :
    ∃ rest, c.slots.toList.Perm (x :: rest) ∧ (c.slots.modify i f).toList.Perm (f x :: rest) := by
  rw [← Array.getElem?_toList] at hx
  obtain ⟨hi, -⟩ := List.getElem?_eq_some_iff.1 hx
  obtain ⟨xs, y, ys, hslots, hlength, hmodify⟩ := List.exists_of_modify f hi
  obtain rfl : y = x := by
    rw [hslots, List.getElem?_append_right (Nat.le_of_eq hlength), hlength, Nat.sub_self] at hx
    exact Option.some.inj hx
  refine ⟨xs ++ ys, ?_, ?_⟩
  · rw [hslots]
    exact List.perm_middle
  · rw [Array.toList_modify, hmodify]
    exact List.perm_middle

/-! ## Changes of the order -/

namespace InOrder

theorem entries_perm (h : InOrder c l) : (l.map Stamped.entry).Perm c.entries :=
  h.perm.map Stamped.entry

theorem length_eq (h : InOrder c l) : l.length = c.size := by
  rw [h.perm.length_eq, Array.length_toList]
  rfl

theorem clear (c : Sampled κ ν) : InOrder c.clear [] where
  perm := .refl _
  pairwise := .nil
  le_clock _ hx := absurd hx List.not_mem_nil

theorem create {n : Nat} {seed : UInt64} (hc : create n seed = .ok c) : InOrder c [] := by
  obtain ⟨-, rfl⟩ := create_eq_ok_iff.1 hc
  exact ⟨.refl _, .nil, fun x hx => absurd hx List.not_mem_nil⟩

/-- The number of samples has no part in the order. -/
theorem setSamples (h : InOrder c l) {samples : Nat} {d : Sampled κ ν}
    (hd : c.setSamples samples = .ok d) : InOrder d l := by
  obtain ⟨-, rfl⟩ := setSamples_eq_ok_iff.1 hd
  exact ⟨h.perm, h.pairwise, h.le_clock⟩

/-- Nor has what was drawn. -/
theorem withRandom (h : InOrder c l) (g : Random) : InOrder { c with random := g } l :=
  ⟨h.perm, h.pairwise, h.le_clock⟩

/-- Nor has the capacity. -/
theorem withCapacity (h : InOrder c l) (n : Nat) : InOrder { c with capacity := n } l :=
  ⟨h.perm, h.pairwise, h.le_clock⟩

/-- The clock may move on. -/
theorem advance (h : InOrder c l) : InOrder c.advance l :=
  ⟨h.perm, h.pairwise, fun x hx => Nat.le_succ_of_le (h.le_clock x hx)⟩

/-- The entry in a slot stands at one place of the order. -/
theorem exists_split (h : InOrder c l) (hx : c.slots[i]? = some x) : ∃ as bs, l = as ++ x :: bs :=
  List.append_of_mem (h.perm.mem_iff.2 (Array.mem_toList_iff.2 (Array.mem_of_getElem? hx)))

/-- An entry leaves the order. -/
theorem removeAt (h : InOrder c (as ++ x :: bs)) (hx : c.slots[i]? = some x) :
    InOrder (c.removeAt i).2 (as ++ bs) where
  perm := by
    have hp := h.perm.trans (slots_removeAt hx)
    exact (List.perm_middle.symm.trans hp).cons_inv
  pairwise := h.pairwise.sublist (.append_left (List.sublist_cons_self ..) as)
  le_clock y hy := by
    rw [clock_removeAt]
    exact forall_mem_remove h.le_clock y hy

/-- An entry comes to the end of the order, with a time later than all others. -/
theorem append {d : Sampled κ ν} (hlt : ∀ y ∈ l, y.lastUse < x.lastUse)
    (hpairwise : l.Pairwise fun x y => x.lastUse < y.lastUse)
    (hp : (x :: l).Perm d.slots.toList) (hx : x.lastUse = d.clock) : InOrder d (l ++ [x]) where
  perm := (List.perm_append_singleton ..).trans hp
  pairwise := by
    rw [List.pairwise_append]
    refine ⟨hpairwise, List.pairwise_singleton .., fun y hy z hz => ?_⟩
    rw [List.mem_singleton.1 hz]
    exact hlt y hy
  le_clock := by
    rw [List.forall_mem_append, List.forall_mem_singleton]
    refine ⟨fun y hy => ?_, Nat.le_of_eq hx⟩
    have hlater := hlt y hy
    omega

theorem ticked_advance (h : InOrder c l) : c.advance.Ticked :=
  fun x hx => Nat.lt_succ_of_le (h.le_clock x (h.perm.mem_iff.2 hx))

/-- A new entry comes to the end of the order, after the clock moved on. -/
theorem insertNew (h : InOrder c l) (hclock : c.Ticked) (k : κ) (v : ν) :
    InOrder (c.insertNew k v) (l ++ [⟨⟨k, v⟩, c.clock⟩]) := by
  refine append (fun y hy => hclock y (h.perm.subset hy)) h.pairwise ?_ rfl
  rw [Sampled.insertNew, Array.toList_push]
  exact (h.perm.cons _).trans (List.perm_append_singleton ..).symm

/-- An entry that changes as the clock moves on moves to the end of the order. -/
theorem modify (h : InOrder c (as ++ x :: bs)) (hx : c.slots[i]? = some x)
    {f : Stamped κ ν → Stamped κ ν} (hf : (f x).lastUse = c.clock + 1) :
    InOrder { c.advance with slots := c.slots.modify i f } (as ++ bs ++ [f x]) := by
  obtain ⟨rest, hbefore, hafter⟩ := slots_modify hx f
  have hrest : (as ++ bs).Perm rest :=
    (List.perm_middle.symm.trans (h.perm.trans hbefore)).cons_inv
  refine append ?_ (h.removeAt hx).pairwise ((hrest.cons _).trans hafter.symm) hf
  intro y hy
  have hle := forall_mem_remove h.le_clock y hy
  omega

end InOrder

/-- No eviction brings an entry up to the clock. -/
theorem Ticked.removeAt (h : c.Ticked) (i : Nat) : (c.removeAt i).2.Ticked := by
  rcases hx : c.slots[i]? with _ | x
  · rw [Sampled.removeAt, hx]
    exact h
  · intro y hy
    rw [clock_removeAt]
    exact h y ((slots_removeAt hx).mem_iff.2 (List.mem_cons_of_mem _ hy))

theorem Ticked.evict (h : c.Ticked) : c.evict.2.Ticked := by
  have hdrawn : Ticked { c with random := c.candidates.2 } := h
  rw [Sampled.evict]
  dsimp only
  split
  · exact hdrawn
  · exact hdrawn.removeAt _

theorem Ticked.makeRoom (h : c.Ticked) : c.makeRoom.2.Ticked := by
  rw [Sampled.makeRoom]
  split
  · exact h.evict
  · exact h

/-! ## The stalest entry -/

/-- The stalest of some places is no more recent than any of them. -/
theorem lastUseAt_stalest?_le {places : List Nat} (h : c.stalest? places = some i) :
    ∀ j ∈ places, c.lastUseAt i ≤ c.lastUseAt j := by
  cases places with
  | nil => cases h
  | cons first rest =>
    obtain rfl := Option.some.inj h
    clear h
    -- The best place so far is at least as stale as the first one, and all that follow.
    induction rest generalizing first with
    | nil => simp
    | cons j rest ih =>
      rw [List.foldl_cons, List.forall_mem_cons, List.forall_mem_cons]
      by_cases hlt : c.lastUseAt j < c.lastUseAt first
      · obtain ⟨hbest, hrest⟩ := List.forall_mem_cons.1 (ih j)
        rw [if_pos hlt]
        exact ⟨by omega, hbest, hrest⟩
      · obtain ⟨hbest, hrest⟩ := List.forall_mem_cons.1 (ih first)
        rw [if_neg hlt]
        exact ⟨hbest, by omega, hrest⟩

theorem lastUseAt_eq (hx : c.slots[i]? = some x) : c.lastUseAt i = x.lastUse := by
  rw [lastUseAt, hx]
  rfl

/-- What an eviction chooses, it takes out. -/
theorem evict_eq_removeAt (hi : c.stalest? c.candidates.1 = some i) :
    c.evict = removeAt { c with random := c.candidates.2 } i := by
  have hchoice : stalest? { c with random := c.candidates.2 } c.candidates.1 = some i := hi
  rw [evict]
  dsimp only
  rw [hchoice]

/-- When all places are inspected, nothing is drawn. -/
theorem candidates_of_size_le (h : c.size ≤ c.samples) :
    c.candidates = (List.range c.size, c.random) := if_pos h

namespace InOrder

/-- An eviction that inspects all entries finds none in an empty store. -/
theorem evict_nil (h : InOrder c []) (hsize : c.size ≤ c.samples) : c.evict = (none, c) := by
  have hzero : c.size = 0 := h.length_eq.symm
  rw [Sampled.evict, candidates_of_size_le hsize, hzero]
  rfl

/-- An eviction that inspects all entries drops the one unused the longest. -/
theorem evict_cons (h : InOrder c (x :: l)) (hsize : c.size ≤ c.samples) :
    ∃ i, c.slots[i]? = some x ∧ c.evict = c.removeAt i := by
  have hlength : l.length + 1 = c.size := h.length_eq
  have hx : x ∈ c.slots := Array.mem_toList_iff.1 (h.perm.subset List.mem_cons_self)
  obtain ⟨j, hj⟩ := Array.mem_iff_getElem?.1 hx
  have hjsize : j < c.size := (Array.getElem?_eq_some_iff.1 hj).1
  obtain ⟨i, hi⟩ : ∃ i, c.stalest? (List.range c.size) = some i := by
    rw [← hlength, List.range_succ_eq_map]
    exact ⟨_, rfl⟩
  have hisize : i < c.size := List.mem_range.1 (stalest?_mem hi)
  have hy : c.slots[i]? = some c.slots[i] := Array.getElem?_eq_getElem hisize
  have hle := lastUseAt_stalest?_le hi j (List.mem_range.2 hjsize)
  rw [lastUseAt_eq hj, lastUseAt_eq hy] at hle
  refine ⟨i, ?_, ?_⟩
  · -- No entry but the first one is as stale as that.
    have hmem : c.slots[i] ∈ x :: l :=
      h.perm.mem_iff.2 (Array.mem_toList_iff.2 (Array.getElem_mem hisize))
    rcases List.mem_cons.1 hmem with heq | hrest
    · rw [hy, heq]
    · have hlt := List.rel_of_pairwise_cons h.pairwise hrest
      omega
  · have hchosen : c.stalest? c.candidates.1 = some i := by
      rw [candidates_of_size_le hsize]
      exact hi
    rw [evict_eq_removeAt hchosen, candidates_of_size_le hsize]

end InOrder

end BoundedCache.Sampled
