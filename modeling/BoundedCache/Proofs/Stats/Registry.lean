import BoundedCache.Stats.Registry
import Mathlib.Data.List.Permutation

/-!
# Names and cells of a registry

What each operation of a registry does to the cells that names are bound to, and to the tallies of
cells. Bindings and tallies are apart: naming a cell counts nothing, and counting binds nothing.

## Main definitions

- `Registry.Valid` — no name is bound twice, and the cells of names were given out

## Main results

- `Registry.tally_record`, `Registry.tally_zero` — one cell changes, for all who hold it
- `Registry.cell?_register` — one name changes, and no other
- `Registry.Valid.nodup_names`, `Registry.mem_names_iff` — every bound name is listed once
-/

namespace BoundedCache

variable {r : Registry} {cell other : Cell} {name : String}

namespace Registry

/-- No name is bound twice, and the cells that names are bound to were given out. -/
structure Valid (r : Registry) : Prop where
  nodup : (r.bindings.map Prod.fst).Nodup
  lt_size : ∀ name cell, r.cell? name = some cell → cell < r.cells.size

/-! ## Tallies -/

theorem tally_eq_getD (r : Registry) (cell : Cell) : r.tally cell = r.cells[cell]?.getD {} :=
  Array.getD_eq_getD_getElem? ..

/-- A new cell is at zero, as every cell is before it is given out. -/
theorem tally_fresh (r : Registry) (cell : Cell) : r.fresh.2.tally cell = r.tally cell := by
  rw [tally_eq_getD, tally_eq_getD, fresh, Array.getElem?_push]
  split
  · next h => rw [h, Array.getElem?_eq_none (Nat.le_refl _)]; rfl
  · rfl

/-- What is counted in a cell is counted there only. -/
theorem tally_record (h : cell < r.cells.size) (events : List Event) (other : Cell) :
    (r.record cell events).tally other =
      if other = cell then (r.tally cell).recordAll events else r.tally other := by
  rw [tally_eq_getD, tally_eq_getD, tally_eq_getD, record, Array.getElem?_modify]
  by_cases heq : cell = other
  · subst heq
    rw [if_pos rfl, if_pos rfl, Array.getElem?_eq_getElem h]
    rfl
  · rw [if_neg heq, if_neg (Ne.symm heq)]

theorem tally_zero (r : Registry) (cell other : Cell) :
    (r.zero cell).tally other = if other = cell then {} else r.tally other := by
  rw [tally_eq_getD, tally_eq_getD, zero, Array.getElem?_modify]
  by_cases heq : cell = other
  · subst heq
    rw [if_pos rfl, if_pos rfl]
    cases r.cells[cell]? <;> rfl
  · rw [if_neg heq, if_neg (Ne.symm heq)]

/-! ## Cells given out -/

theorem size_cells_record (r : Registry) (cell : Cell) (events : List Event) :
    (r.record cell events).cells.size = r.cells.size :=
  Array.size_modify

theorem size_cells_zero (r : Registry) (cell : Cell) : (r.zero cell).cells.size = r.cells.size :=
  Array.size_modify

theorem size_cells_fresh (r : Registry) : r.fresh.2.cells.size = r.cells.size + 1 :=
  Array.size_push ..

/-! ## Names -/

/-- Dropping the bindings of one name hides those of no other. -/
theorem find?_filter_ne {other : String} (hne : other ≠ name) (l : List (String × Cell)) :
    (l.filter (·.1 != name)).find? (·.1 == other) = l.find? (·.1 == other) := by
  rw [List.find?_filter]
  refine congrArg (List.find? · l) (funext fun b => ?_)
  rw [Bool.eq_iff_iff, decide_eq_true_iff, and_iff_right_iff_imp, beq_iff_eq, bne_iff_ne]
  rintro rfl
  exact hne

/-- A name that is bound anew leads to the new cell, and all others lead where they did. -/
theorem cell?_register (r : Registry) (name : String) (cell : Cell) (other : String) :
    (r.register name cell).cell? other = if other = name then some cell else r.cell? other := by
  rw [cell?, register, List.find?_cons]
  by_cases heq : other = name
  · rw [if_pos heq, beq_iff_eq.2 heq.symm]
    rfl
  · rw [if_neg heq, beq_false_of_ne (Ne.symm heq)]
    exact congrArg (Option.map Prod.snd) (find?_filter_ne heq r.bindings)

theorem reset_of_none (h : r.cell? name = none) : r.reset name = (false, r) := by
  rw [reset, h]

theorem reset_of_some (h : r.cell? name = some cell) : r.reset name = (true, r.zero cell) := by
  rw [reset, h]

theorem size_cells_reset (r : Registry) (name : String) :
    (r.reset name).2.cells.size = r.cells.size := by
  rcases hcell : r.cell? name with _ | cell
  · rw [reset_of_none hcell]
  · rw [reset_of_some hcell]
    exact size_cells_zero r cell

/-- Every bound name is listed. -/
theorem mem_names_iff : name ∈ r.names ↔ (r.cell? name).isSome := by
  rw [names, List.mem_mergeSort, cell?, Option.isSome_map, List.find?_isSome, List.mem_map]
  constructor
  · rintro ⟨b, hb, rfl⟩
    exact ⟨b, hb, beq_self_eq_true _⟩
  · rintro ⟨b, hb, hname⟩
    exact ⟨b, hb, beq_iff_eq.1 hname⟩

theorem Valid.nodup_names (h : r.Valid) : r.names.Nodup :=
  (List.mergeSort_perm ..).nodup_iff.2 h.nodup

/-! ## Validity -/

theorem valid_empty : ({} : Registry).Valid where
  nodup := List.nodup_nil
  lt_size _ _ h := absurd h (Option.some_ne_none _).symm

theorem Valid.fresh (h : r.Valid) : r.fresh.2.Valid where
  nodup := h.nodup
  lt_size name cell hcell := by
    rw [size_cells_fresh]
    exact Nat.lt_succ_of_lt (h.lt_size name cell hcell)

theorem Valid.record (h : r.Valid) (cell : Cell) (events : List Event) :
    (r.record cell events).Valid where
  nodup := h.nodup
  lt_size name cell hcell := by
    rw [size_cells_record]
    exact h.lt_size name cell hcell

theorem Valid.zero (h : r.Valid) (cell : Cell) : (r.zero cell).Valid where
  nodup := h.nodup
  lt_size name cell hcell := by
    rw [size_cells_zero]
    exact h.lt_size name cell hcell

theorem Valid.register (h : r.Valid) (hcell : cell < r.cells.size) (name : String) :
    (r.register name cell).Valid where
  nodup := by
    rw [Registry.register, List.map_cons, List.nodup_cons]
    refine ⟨?_, h.nodup.sublist (List.filter_sublist.map _)⟩
    intro hmem
    obtain ⟨b, hb, hname⟩ := List.mem_map.1 hmem
    have hne := (List.mem_filter.1 hb).2
    rw [hname] at hne
    simp at hne
  lt_size other cell' h' := by
    rw [cell?_register] at h'
    split at h'
    · cases h'
      exact hcell
    · exact h.lt_size other cell' h'

theorem valid_clear (r : Registry) : r.clear.Valid where
  nodup := List.nodup_nil
  lt_size _ _ hcell := absurd hcell (Option.some_ne_none _).symm

theorem Valid.reset (h : r.Valid) (name : String) : (r.reset name).2.Valid := by
  rcases hcell : r.cell? name with _ | cell
  · rw [reset_of_none hcell]
    exact h
  · rw [reset_of_some hcell]
    exact h.zero cell

end Registry

end BoundedCache
