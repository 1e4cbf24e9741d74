import BoundedCache.Proofs.Lfu.Lawful
import BoundedCache.Proofs.Store.Drain

/-!
# The order of frequency stores

## Main results

- `Lfu.Valid.evict_entries`, `Lfu.Valid.next?_eq` — the head of the list gives way, and is named
- `Lfu.Valid.evict_ranking` — the others keep their numbers of uses
- `Lfu.evictsInOrder` — evictions take the entries as they are listed
- `Lfu.Valid.resize_entries` — a smaller capacity drops entries from the head of the list
-/

namespace BoundedCache

theorem Ranking.next?_eq_head? {κ ν : Type} (m : Ranking κ ν) : m.next? = m.entries.head? := by
  rw [next?, entries, List.head?_reverse, List.getLast?_map]

theorem Ranking.entries_evict {κ ν : Type} (m : Ranking κ ν) :
    m.evict.2.entries = m.entries.tail := by
  rw [entries, entries, List.tail_reverse, ← List.map_dropLast]
  rfl

namespace Lfu

variable {κ ν : Type} [DecidableEq κ] [Hashable κ] {c : Lfu κ ν}

theorem clear_takeAt (c : Lfu κ ν) (i : Slot) : (c.takeAt i).2.clear = c.clear := by
  rw [takeAt]
  split <;> rfl

/-- Nothing but the capacity outlasts a clear, and no eviction changes that. -/
theorem clear_evict (c : Lfu κ ν) : c.evict.2.clear = c.clear := by
  rw [evict]
  split
  · rfl
  · exact c.clear_takeAt _

theorem WellFormed.ranking_eq (h : c.WellFormed) : c.ranking = c.view.ranked.reverse := by
  obtain ⟨often, once, h⟩ := h
  rw [view_eq h.indexed, ranking, h.indexed.represents.toListBack_eq]

namespace Valid

theorem wellFormed (h : c.Valid) : c.WellFormed := by
  obtain ⟨_, ⟨hwf, -⟩, -⟩ := h
  exact hwf

theorem next?_eq (h : c.Valid) : c.next? = c.entries.head? := by
  rw [h.wellFormed.next?_eq, h.wellFormed.entries_eq, Ranking.next?_eq_head?]

/-- The head of the list gives way. -/
theorem evict_entries (h : c.Valid) :
    c.evict.1 = c.entries.head? ∧ c.evict.2.entries = c.entries.tail := by
  obtain ⟨hfst, hwf, hview⟩ := h.wellFormed.evict
  constructor
  · rw [hfst, h.wellFormed.entries_eq, ← Ranking.next?_eq_head?]
    rfl
  · rw [hwf.entries_eq, hview, h.wellFormed.entries_eq, Ranking.entries_evict]

/-- The head of the list gives way, and the others keep their numbers of uses and their order. -/
theorem evict_ranking (h : c.Valid) :
    c.evict.1 = c.ranking.head?.map Counted.entry ∧ c.evict.2.ranking = c.ranking.tail := by
  obtain ⟨hfst, hwf, hview⟩ := h.wellFormed.evict
  constructor
  · rw [hfst, h.wellFormed.ranking_eq, List.head?_reverse]
    rfl
  · rw [hwf.ranking_eq, hview, h.wellFormed.ranking_eq, List.tail_reverse]
    rfl

end Valid

/-- Evictions take the entries as they are listed. -/
theorem evictsInOrder : Store.EvictsInOrder (Store.Lists (Valid : Lfu κ ν → Prop)) :=
  .of_lawful lawful (fun h => h.evict_entries) fun {c} _ => c.clear_evict

/-- A resize drops what no longer fits from the front of the list, and leaves the rest as it was. -/
theorem Valid.resize_entries (h : c.Valid) {n : Nat} {dropped : List (Entry κ ν)} {d : Lfu κ ν}
    (hd : c.resize n = .ok (dropped, d)) :
    dropped = c.entries.take (c.size - n) ∧ d.entries = c.entries.drop (c.size - n) := by
  rw [resize_eq] at hd
  obtain ⟨-, hd⟩ := ite_throw_eq_ok_iff.1 hd
  obtain ⟨hdropped, -, hentries⟩ := evictsInOrder.evictMany ⟨h, rfl⟩ (c.size - n)
  cases hd
  exact ⟨hdropped, hentries⟩

end Lfu

end BoundedCache
