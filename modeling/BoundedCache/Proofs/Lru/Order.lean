import BoundedCache.Proofs.Lru.Lawful
import BoundedCache.Proofs.Store.Drain

/-!
# The order of recency stores

What the operations of a valid store do to the list of its entries, element by element. A store that
is part of another one is used within its limits, so nothing is displaced unasked.

## Main results

- `Lru.Valid.put_entries` — a binding goes to the end of the list if it is a new one for its key or
  if there is room for it
- `Lru.Valid.exists_makeRoom_eq` — the head of the list gives way in a full store
- `Lru.Valid.evict_entries`, `Lru.Valid.remove_entries`, `Lru.Valid.get_entries` — the other
  operations
- `Lru.evictsInOrder` — evictions take the entries as they are listed
- `Lru.Valid.resize_entries` — a smaller capacity drops entries from the head of the list
-/

namespace BoundedCache

namespace Lru

open Keyed

variable {κ ν : Type} [DecidableEq κ] [Hashable κ] {c : Lru κ ν} {k : κ} {v : ν}

theorem makeRoom_of_room (hroom : c.size < c.capacity) : c.makeRoom = (none, c) := by
  refine if_neg ?_
  rw [isFull, decide_eq_true_iff]
  exact Nat.not_le_of_lt hroom

namespace Valid

theorem wellFormed (h : c.Valid) : c.WellFormed := by
  obtain ⟨_, ⟨hwf, -⟩, -⟩ := h
  exact hwf

/-- A binding goes to the end of the list, and displaces nothing if there is room for it. -/
theorem put_entries (h : c.Valid) (hroom : k ∈ keys c.entries ∨ c.size < c.capacity) (v : ν) :
    (c.put k v).1 = none ∧
      (c.put k v).2.entries = erase Entry.key k c.entries ++ [⟨k, v⟩] := by
  obtain ⟨hfst, -, hview⟩ := h.wellFormed.put k v
  have hentries : (c.put k v).2.entries = _ := congrArg Recency.entries hview
  rw [hfst, hentries]
  by_cases hk : k ∈ keys c.entries
  · rw [Recency.put_of_mem hk]
    exact ⟨rfl, rfl⟩
  · have hopen : c.view.entries.length < c.view.capacity := by
      rw [h.size_eq] at hroom
      exact hroom.resolve_left hk
    rw [erase_eq_self_of_not_mem hk, Recency.put_of_room hk hopen]
    exact ⟨rfl, rfl⟩

/-- While there is room, a new key comes to the end of the list. -/
theorem put_entries_of_new (h : c.Valid) (hk : k ∉ keys c.entries) (hroom : c.size < c.capacity)
    (v : ν) : (c.put k v).1 = none ∧ (c.put k v).2.entries = c.entries ++ [⟨k, v⟩] := by
  obtain ⟨hnone, hentries⟩ := h.put_entries (.inr hroom) v
  rw [erase_eq_self_of_not_mem hk] at hentries
  exact ⟨hnone, hentries⟩

/-- A new key comes to the end of the list, from whose front an entry may have to go. -/
theorem put_entries_suffix (h : c.Valid) (hk : k ∉ keys c.entries) (v : ν) :
    (c.put k v).2.entries <:+ c.entries ++ [⟨k, v⟩] := by
  obtain ⟨-, -, hview⟩ := h.wellFormed.put k v
  have hentries : (c.put k v).2.entries = (c.view.put k v).2.entries :=
    congrArg Recency.entries hview
  rw [hentries]
  rcases Nat.lt_or_ge c.view.entries.length c.view.capacity with hroom | hfull
  · rw [Recency.put_of_room hk hroom]
    exact List.suffix_refl _
  · rw [Recency.put_of_full hk hfull]
    exact (List.suffix_append_self_iff ..).2 (List.tail_suffix _)

theorem evict_entries (h : c.Valid) :
    c.evict.1 = c.entries.head? ∧ c.evict.2.entries = c.entries.tail := by
  obtain ⟨hfst, -, hview⟩ := h.wellFormed.evict
  exact ⟨hfst, congrArg Recency.entries hview⟩

/-- In a full store the head of the list gives way, and leaves room behind. -/
theorem exists_makeRoom_eq (h : c.Valid) (hfull : c.size = c.capacity) :
    ∃ e rest, c.entries = e :: rest ∧ c.makeRoom = (some e, c.evict.2) ∧ c.evict.2.Valid ∧
      c.evict.2.entries = rest ∧ c.evict.2.size < c.evict.2.capacity := by
  have hpos := h.capacity_pos
  have hne : c.entries ≠ [] := by
    intro hnil
    rw [h.size_eq, hnil, List.length_nil] at hfull
    omega
  obtain ⟨e, rest, hrest⟩ := List.exists_cons_of_ne_nil hne
  obtain ⟨hhead, htail⟩ := h.evict_entries
  rw [hrest] at hhead htail
  have hmakeRoom : c.makeRoom = (some e, c.evict.2) := by
    rw [Lru.makeRoom, isFull, if_pos (decide_eq_true (Nat.le_of_eq hfull.symm))]
    exact Prod.ext hhead rfl
  obtain ⟨_, -, hholds⟩ := h.evict.exists_rest
  have hcapacity : c.evict.2.capacity = c.capacity := hholds.capacity_eq
  have hcount := h.size_eq
  rw [hrest, List.length_cons] at hcount
  have hlength : c.evict.2.size = rest.length := by
    rw [hholds.inv.size_eq, htail, List.tail_cons]
  exact ⟨e, rest, hrest, hmakeRoom, hholds.inv, htail, by omega⟩

theorem remove_entries (h : c.Valid) (k : κ) :
    (c.remove k).1 = lookup? k c.entries ∧
      (c.remove k).2.entries = erase Entry.key k c.entries := by
  obtain ⟨hfst, -, hview⟩ := h.wellFormed.remove k
  exact ⟨hfst, congrArg Recency.entries hview⟩

theorem get_entries (h : c.Valid) (hv : lookup? k c.entries = some v) :
    (c.get k).1 = some v ∧
      (c.get k).2.entries = erase Entry.key k c.entries ++ [⟨k, v⟩] := by
  obtain ⟨hfst, -, hview⟩ := h.wellFormed.get k
  have hentries : (c.get k).2.entries = (c.view.use k).entries := congrArg Recency.entries hview
  obtain ⟨e, he, rfl⟩ := Option.map_eq_some_iff.1 hv
  obtain ⟨-, rfl⟩ := mem_of_find?_eq_some he
  have he' : find? Entry.key e.key c.view.entries = some e := he
  rw [hentries, Recency.use, he']
  exact ⟨hfst.trans hv, rfl⟩

theorem clear_entries (c : Lru κ ν) : c.clear.entries = [] :=
  congrArg Recency.entries (view_clear c)

end Valid

/-! ## Evicting in order -/

/-- Nothing but the capacity outlasts a clear, and only a resize changes that. -/
theorem clear_evict (c : Lru κ ν) : c.evict.2.clear = c.clear := by
  rw [evict]
  split <;> rfl

theorem clear_get (c : Lru κ ν) (k : κ) : (c.get k).2.clear = c.clear := by
  rw [get_def]
  split <;> rfl

theorem clear_remove (c : Lru κ ν) (k : κ) : (c.remove k).2.clear = c.clear := by
  rw [remove]
  split <;> rfl

theorem clear_makeRoom (c : Lru κ ν) : c.makeRoom.2.clear = c.clear := by
  rw [makeRoom]
  split
  · exact c.clear_evict
  · rfl

theorem clear_put (c : Lru κ ν) (k : κ) (v : ν) : (c.put k v).2.clear = c.clear := by
  rw [put_def]
  split
  · rfl
  · exact c.clear_makeRoom

/-- Evictions take the entries as they are listed. -/
theorem evictsInOrder : Store.EvictsInOrder (Store.Lists (Valid : Lru κ ν → Prop)) :=
  .of_lawful lawful (fun h => h.evict_entries) fun {c} _ => c.clear_evict

/-- A resize drops what no longer fits from the front of the list, and leaves the rest as it was. -/
theorem Valid.resize_entries (h : c.Valid) {n : Nat} {dropped : List (Entry κ ν)} {d : Lru κ ν}
    (hd : c.resize n = .ok (dropped, d)) :
    dropped = c.entries.take (c.size - n) ∧ d.entries = c.entries.drop (c.size - n) := by
  rw [resize_eq] at hd
  obtain ⟨-, hd⟩ := ite_throw_eq_ok_iff.1 hd
  obtain ⟨hdropped, -, hentries⟩ := evictsInOrder.evictMany ⟨h, rfl⟩ (c.size - n)
  cases hd
  exact ⟨hdropped, hentries⟩

end Lru

end BoundedCache
