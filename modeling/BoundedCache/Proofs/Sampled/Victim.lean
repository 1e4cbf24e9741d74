import BoundedCache.Proofs.Sampled.Order

/-!
# What gives way in a sampled store

An eviction inspects all entries, if there are few enough of them, or draws as many places as there
are samples. Either way it drops the entry inspected that was unused the longest, of which there is
only one since no two entries carry the same time. Requests evict in no other way, and draw for no
other purpose.

## Main definitions

- `Sampled.Inspects` — the places that an eviction inspects, and the generator after it
- `Sampled.Stalest` — the entry at one of some places that was unused the longest
- `Sampled.Drops`, `Sampled.DropsAll` — what an eviction drops, and several one after the other
- `Sampled.Orderly` — a valid store whose entries have an order
- `Sampled.ready` — a store as a request finds it when it starts to evict

## Main results

- `Sampled.Orderly.evict_cases` — an eviction drops the stalest of the entries that it inspects
- `Sampled.Orderly.perform_drops` — what a request evicts goes that way, and nothing else is drawn
-/

namespace BoundedCache.Sampled

open Keyed

variable {κ ν : Type} [DecidableEq κ] [Hashable κ] {c : Sampled κ ν} {x y : Stamped κ ν} {i j : Nat}
  {l : List (Stamped κ ν)} {places : List Nat}

/-! ## The rule -/

/-- The places that an eviction inspects, and the generator after it. Nothing is drawn to inspect
all places; where there are too many, each sample is a draw of one that is in use. -/
structure Inspects (c : Sampled κ ν) (places : List Nat) (g : Random) : Prop where
  all : c.size ≤ c.samples → places = List.range c.size ∧ g = c.random
  drawn : c.samples < c.size →
    (places, g) = draw c.size c.samples c.random ∧ places.length = c.samples
  lt_size : ∀ i ∈ places, i < c.size

/-- The entry at one of some places was unused longer than those at all the others. -/
structure Stalest (c : Sampled κ ν) (places : List Nat) (i : Nat) (x : Stamped κ ν) : Prop where
  mem : i ∈ places
  slot_eq : c.slots[i]? = some x
  lt : ∀ j ∈ places, j ≠ i → ∀ y, c.slots[j]? = some y → x.lastUse < y.lastUse

/-- An eviction drops an entry, the stalest of those that it inspects, and leaves the others. -/
structure Drops (c : Sampled κ ν) (e : Entry κ ν) (d : Sampled κ ν) : Prop where
  evict_eq : c.evict = (some e, d)
  exists_stalest : ∃ places i x, Inspects c places d.random ∧ Stalest c places i x ∧ x.entry = e ∧
    c.slots.toList.Perm (x :: d.slots.toList)

/-- Evictions one after the other, each of which drops an entry. -/
inductive DropsAll : Sampled κ ν → List (Entry κ ν) → Sampled κ ν → Prop where
  | nil (c : Sampled κ ν) : DropsAll c [] c
  | cons {c d last : Sampled κ ν} {e : Entry κ ν} {later : List (Entry κ ν)}
    (first : Drops c e d) (rest : DropsAll d later last) : DropsAll c (e :: later) last

/-- The store as a request finds it when it starts to evict: a put has moved the clock on before. -/
def ready (c : Sampled κ ν) : Request κ ν → Sampled κ ν
  | .put _ _ => c.advance
  | _ => c

/-- The entries of a valid store have an order. -/
structure Orderly (c : Sampled κ ν) : Prop where
  valid : c.Valid
  exists_order : ∃ l, InOrder c l

/-! ## One eviction -/

theorem Valid.inspects (h : c.Valid) : Inspects c c.candidates.1 c.candidates.2 where
  all hsize := by
    rw [candidates_of_size_le hsize]
    exact ⟨rfl, rfl⟩
  drawn hmany := by
    rw [Sampled.candidates, if_neg (Nat.not_le.2 hmany)]
    exact ⟨rfl, length_draw ..⟩
  lt_size := h.candidates.1

namespace InOrder

/-- Entries in different slots carry different times. -/
theorem lastUse_ne (h : InOrder c l) (hx : c.slots[i]? = some x) (hy : c.slots[j]? = some y)
    (hij : i ≠ j) : x.lastUse ≠ y.lastUse := by
  have hl : (l.map Stamped.lastUse).Nodup := List.pairwise_map.2 (h.pairwise.imp Nat.ne_of_lt)
  have hnodup : (c.slots.toList.map Stamped.lastUse).Nodup := (h.perm.map _).nodup_iff.1 hl
  intro heq
  have hi : i < (c.slots.toList.map Stamped.lastUse).length := by
    rw [List.length_map, Array.length_toList]
    exact (Array.getElem?_eq_some_iff.1 hx).1
  refine hij ((List.getElem?_inj hi hnodup).1 ?_)
  rw [List.getElem?_map, List.getElem?_map, Array.getElem?_toList, Array.getElem?_toList, hx, hy,
    Option.map_some, Option.map_some, heq]

/-- The first of the stalest entries is the only one. -/
theorem stalest (h : InOrder c l) (hlt : ∀ i ∈ places, i < c.size)
    (hi : c.stalest? places = some i) : ∃ x, Stalest c places i x := by
  have hmem : i ∈ places := stalest?_mem hi
  have hsize : i < c.slots.size := hlt i hmem
  have hx : c.slots[i]? = some c.slots[i] := Array.getElem?_eq_getElem hsize
  refine ⟨_, hmem, hx, ?_⟩
  intro j hj hne y hy
  have hle := lastUseAt_stalest?_le hi j hj
  rw [lastUseAt_eq hx, lastUseAt_eq hy] at hle
  exact Nat.lt_of_le_of_ne hle (h.lastUse_ne hx hy hne.symm)

end InOrder

namespace Orderly

theorem advance (h : c.Orderly) : c.advance.Orderly := by
  obtain ⟨l, hl⟩ := h.exists_order
  exact ⟨h.valid.advance, l, hl.advance⟩

/-- If an eviction finds nothing to drop, there are no entries. -/
theorem evict_of_none (h : c.Orderly) (hnone : c.stalest? c.candidates.1 = none) :
    c.evict = (none, c) ∧ c.size = 0 := by
  obtain ⟨l, hl⟩ := h.exists_order
  have hplaces : c.candidates.1 = [] := by
    cases hall : c.candidates.1 with
    | nil => rfl
    | cons first rest =>
      rw [hall] at hnone
      cases hnone
  have hsize : c.size = 0 := h.valid.candidates.2 hplaces
  obtain rfl : l = [] := List.length_eq_zero_iff.1 (hl.length_eq.trans hsize)
  exact ⟨hl.evict_nil (hsize ▸ Nat.zero_le _), hsize⟩

/-- The stalest of the entries that an eviction inspects leaves the order. -/
theorem evict_of_some (h : c.Orderly) (hi : c.stalest? c.candidates.1 = some i) :
    ∃ e d, Drops c e d ∧ d.Orderly := by
  obtain ⟨l, hl⟩ := h.exists_order
  obtain ⟨x, hx⟩ := hl.stalest h.valid.candidates.1 hi
  have hslot := hx.slot_eq
  obtain ⟨as, bs, rfl⟩ := hl.exists_split hslot
  -- What is drawn changes neither the slots nor their order.
  obtain ⟨d, hremove, -, hholds⟩ := (h.valid.withRandom c.candidates.2).removeAt hslot
  have horder := (hl.withRandom c.candidates.2).removeAt hslot
  have hslots := slots_removeAt (c := { c with random := c.candidates.2 }) hslot
  have hrandom := random_removeAt { c with random := c.candidates.2 } i
  rw [hremove] at horder hslots hrandom
  refine ⟨x.entry, d, ⟨(evict_eq_removeAt hi).trans hremove, ?_⟩, hholds.inv, _, horder⟩
  have hinspects : Inspects c c.candidates.1 d.random := hrandom.symm ▸ h.valid.inspects
  exact ⟨_, i, x, hinspects, hx, rfl, hslots⟩

/-- An eviction drops the stalest of the entries that it inspects, if there are any entries. -/
theorem evict_cases (h : c.Orderly) :
    (c.evict = (none, c) ∧ c.size = 0) ∨ ∃ e d, Drops c e d ∧ d.Orderly := by
  cases hstalest : c.stalest? c.candidates.1 with
  | none => exact .inl (h.evict_of_none hstalest)
  | some i => exact .inr (h.evict_of_some hstalest)

/-! ## Requests -/

theorem dropsAll_evict (h : c.Orderly) : DropsAll c c.evict.1.toList c.evict.2 := by
  rcases h.evict_cases with ⟨hnone, -⟩ | ⟨e, d, hfirst, -⟩
  · rw [hnone]
    exact .nil c
  · rw [hfirst.evict_eq]
    exact .cons hfirst (.nil d)

theorem dropsAll_makeRoom (h : c.Orderly) : DropsAll c c.makeRoom.1.toList c.makeRoom.2 := by
  rw [makeRoom]
  split
  · exact h.dropsAll_evict
  · exact .nil c

theorem dropsAll_evictMany (h : c.Orderly) (n : Nat) :
    DropsAll c (evictMany evict n c).1 (evictMany evict n c).2 := by
  induction n generalizing c with
  | zero => exact .nil c
  | succ n ih =>
    rcases h.evict_cases with ⟨hnone, -⟩ | ⟨e, d, hfirst, hnext⟩
    · rw [evictMany_succ_of_none hnone]
      exact .nil c
    · rw [evictMany_succ_of_some hfirst.evict_eq]
      exact .cons hfirst (ih hnext)

/-- What a request evicts goes one after the other, each time the stalest of the entries that are
inspected. Where nothing is evicted, nothing is drawn. -/
theorem perform_drops (h : c.Orderly) (request : Request κ ν) :
    ∃ d, DropsAll (c.ready request) (Store.perform c request).1.evicted d ∧
      (Store.perform c request).2.random = d.random := by
  cases request with
  | put key value =>
    rw [Store.evicted_put]
    show ∃ d, DropsAll c.advance (c.put key value).1.toList d ∧
      (c.put key value).2.random = d.random
    rw [put_def]
    split
    · exact ⟨c.advance, .nil _, rfl⟩
    · exact ⟨c.advance.makeRoom.2, h.advance.dropsAll_makeRoom, rfl⟩
  | get key =>
    rw [lawful.perform_get h.valid]
    refine ⟨c, .nil c, ?_⟩
    show (c.get key).2.random = c.random
    rw [get_def]
    split <;> rfl
  | peek key => exact ⟨c, .nil c, rfl⟩
  | contains key => exact ⟨c, .nil c, rfl⟩
  | remove key =>
    refine ⟨c, .nil c, ?_⟩
    show (c.remove key).2.random = c.random
    rw [remove]
    split
    · rfl
    · exact random_removeAt c _
  | evict =>
    rw [Store.evicted_evict]
    exact ⟨c.evict.2, h.dropsAll_evict, rfl⟩
  | clear => exact ⟨c, .nil c, rfl⟩
  | drain =>
    rw [Store.perform_drain, Outcome.evicted_evicting, Store.drain_eq]
    exact ⟨_, h.dropsAll_evictMany c.size, rfl⟩
  | resize n =>
    rw [Store.perform_resize]
    rcases hresize : Store.resize c n with cause | ⟨dropped, t⟩
    · exact ⟨c, .nil c, rfl⟩
    · obtain ⟨-, -, hd⟩ := resize_eq_ok_iff.1 hresize
      cases hd
      rw [Outcome.evicted_evicting]
      exact ⟨_, h.dropsAll_evictMany (c.size - n), rfl⟩

end Orderly

end BoundedCache.Sampled
