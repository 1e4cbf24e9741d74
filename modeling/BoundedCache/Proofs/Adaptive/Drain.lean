import BoundedCache.Proofs.Adaptive.Lawful
import BoundedCache.Proofs.Lfu.Order
import BoundedCache.Proofs.Lru.Order

/-!
# The order in which adaptive replacement gives way

Evictions alone leave the target as it is. So the recency part gives way until it has come down to
its target, then the whole frequency part does, and then what is left of the recency part.

## Main definitions

- `Adaptive.surplus` — by how many entries the recency part exceeds its target
- `Adaptive.drainOrder` — the entries in the order in which evictions take them

## Main results

- `Adaptive.evictsInOrder` — evictions take the entries in that order
- `Adaptive.Valid.resize_drainOrder` — a smaller capacity takes entries in that order, and leaves
  the rest of it
-/

namespace BoundedCache.Adaptive

variable {κ ν : Type} [DecidableEq κ] [Hashable κ] {c : Adaptive κ ν} {e : Entry κ ν}

/-- By how many entries the recency part exceeds its target. -/
def surplus (c : Adaptive κ ν) : Nat := c.recent.entries.length - c.target

/-- The entries in the order in which evictions take them. -/
def drainOrder (c : Adaptive κ ν) : List (Entry κ ν) :=
  c.recent.entries.take c.surplus ++ (c.frequent.entries ++ c.recent.entries.drop c.surplus)

/-- The two parts are in order, and evictions would take their entries as a list has them. -/
structure DrainsAs (c : Adaptive κ ν) (order : List (Entry κ ν)) : Prop where
  recent : c.recent.Valid
  frequent : c.frequent.Valid
  order_eq : c.drainOrder = order

theorem length_drainOrder (c : Adaptive κ ν) :
    c.drainOrder.length = c.recent.entries.length + c.frequent.entries.length := by
  rw [drainOrder, List.length_append, List.length_append, Nat.add_left_comm, ← List.length_append,
    List.take_append_drop, Nat.add_comm]

/-- The recency part gives way if it exceeds its target, or if there is nothing else to give way. -/
theorem givesRecent_iff (hrecent : c.recent.Valid) (hfrequent : c.frequent.Valid) :
    c.givesRecent false = true ↔
      0 < c.surplus ∨ c.recent.entries ≠ [] ∧ c.frequent.entries = [] := by
  have hfrom : c.givesRecent false = true ↔
      0 < c.recent.size ∧ (c.target < c.recent.size ∨ c.frequent.size = 0) := by
    simp [givesRecent, Lfu.isEmpty]
  rw [hfrom, surplus, hrecent.size_eq, hfrequent.size_eq, ← List.length_pos_iff,
    ← List.length_eq_zero_iff]
  omega

/-! ## One eviction -/

/-- An eviction from the recency part, but for the ghost that it leaves. -/
theorem evict_of_recent (hfrom : c.givesRecent false = true) :
    c.evict.1 = c.recent.evict.1 ∧ c.evict.2.recent = c.recent.evict.2 ∧
      c.evict.2.frequent = c.frequent ∧ c.evict.2.target = c.target := by
  rw [evict, displace, if_pos hfrom]
  rcases c.recent.evict with ⟨_ | e, r⟩ <;> exact ⟨rfl, rfl, rfl, rfl⟩

theorem evict_of_frequent (hfrom : ¬ c.givesRecent false = true) :
    c.evict.1 = c.frequent.evict.1 ∧ c.evict.2.recent = c.recent ∧
      c.evict.2.frequent = c.frequent.evict.2 ∧ c.evict.2.target = c.target := by
  rw [evict, displace, if_neg hfrom]
  rcases c.frequent.evict with ⟨_ | e, f⟩ <;> exact ⟨rfl, rfl, rfl, rfl⟩

/-- Cleared parts are as good as new, whatever was evicted from them. -/
theorem clear_evict (c : Adaptive κ ν) : c.evict.2.clear = c.clear := by
  rw [evict, displace]
  split
  · have hclear := c.recent.clear_evict
    rcases hevict : c.recent.evict with ⟨_ | e, r⟩ <;> rw [hevict] at hclear
    · simp [clear, hclear]
    · simp [clear, hclear, Lru.clear_put]
  · have hclear := c.frequent.clear_evict
    rcases hevict : c.frequent.evict with ⟨_ | e, f⟩ <;> rw [hevict] at hclear
    · simp [clear, hclear]
    · simp [clear, hclear, Lru.clear_put]

/-- The order begins with the recency part if that gives way next. -/
theorem drainOrder_of_recent {rest : List (Entry κ ν)} (hrest : c.recent.entries = e :: rest)
    (hnext : 0 < c.surplus ∨ c.frequent.entries = []) :
    c.drainOrder = e :: (rest.take (c.surplus - 1) ++
      (c.frequent.entries ++ rest.drop (c.surplus - 1))) := by
  rw [drainOrder, hrest]
  cases hsurplus : c.surplus with
  | zero =>
    have hnil : c.frequent.entries = [] := hnext.resolve_left (by omega)
    rw [hnil]
    rfl
  | succ n => rfl

/-- The order begins with the frequency part if the recency part does not exceed its target. -/
theorem drainOrder_of_frequent (hsurplus : c.surplus = 0) :
    c.drainOrder = c.frequent.entries ++ c.recent.entries := by
  rw [drainOrder, hsurplus]
  rfl

namespace DrainsAs

variable {order : List (Entry κ ν)}

theorem evict_recent (h : c.DrainsAs order) (hfrom : c.givesRecent false = true) :
    Matches DrainsAs c.evict (dropHead order) := by
  obtain ⟨hrecent, hfrequent, rfl⟩ := h
  obtain ⟨hdropped, hrecent', hfrequent', htarget⟩ := evict_of_recent hfrom
  obtain ⟨hhead, hvalid, htail⟩ := Lru.evictsInOrder.evict ⟨hrecent, rfl⟩
  have hnext := (givesRecent_iff hrecent hfrequent).1 hfrom
  have hne : c.recent.entries ≠ [] := by
    rcases hnext with hsurplus | ⟨hne, -⟩
    · intro hnil
      simp [surplus, hnil] at hsurplus
    · exact hne
  obtain ⟨e, rest, hrest⟩ := List.exists_cons_of_ne_nil hne
  have hentries : c.evict.2.recent.entries = rest := by
    rw [hrecent']
    exact htail.trans (congrArg List.tail hrest)
  -- The target stays, so the surplus goes down with the part.
  have hsurplus : c.evict.2.surplus = c.surplus - 1 := by
    rw [surplus, surplus, hentries, htarget, hrest, List.length_cons]
    omega
  rw [drainOrder_of_recent hrest (hnext.imp_right And.right)]
  refine ⟨?_, ?_, ?_, ?_⟩
  · exact hdropped.trans (hhead.trans (congrArg List.head? hrest))
  · exact hrecent' ▸ hvalid
  · exact hfrequent' ▸ hfrequent
  · rw [drainOrder, hsurplus, hentries, hfrequent']
    rfl

theorem evict_frequent (h : c.DrainsAs order) (hfrom : ¬ c.givesRecent false = true) :
    Matches DrainsAs c.evict (dropHead order) := by
  obtain ⟨hrecent, hfrequent, rfl⟩ := h
  obtain ⟨hdropped, hrecent', hfrequent', htarget⟩ := evict_of_frequent hfrom
  obtain ⟨hhead, hvalid, htail⟩ := Lfu.evictsInOrder.evict ⟨hfrequent, rfl⟩
  have hnext := mt (givesRecent_iff hrecent hfrequent).2 hfrom
  rw [not_or] at hnext
  have hsurplus : c.surplus = 0 := by omega
  have hsurplus' : c.evict.2.surplus = 0 := by rwa [surplus, hrecent', htarget]
  have hentries : c.evict.2.frequent.entries = c.frequent.entries.tail := by
    rw [hfrequent']
    exact htail
  -- An empty frequency part gives way only if there is nothing in the other one either.
  have hdrop : dropHead c.drainOrder =
      (c.frequent.entries.head?, c.frequent.entries.tail ++ c.recent.entries) := by
    rw [drainOrder_of_frequent hsurplus]
    cases hlist : c.frequent.entries with
    | nil =>
      have hnil : c.recent.entries = [] := by
        by_contra hne
        exact hnext.2 ⟨hne, hlist⟩
      rw [hnil]
      rfl
    | cons e l => rfl
  rw [hdrop]
  refine ⟨hdropped.trans hhead, hrecent' ▸ hrecent, hfrequent' ▸ hvalid, ?_⟩
  rw [drainOrder_of_frequent hsurplus', hentries, hrecent']

/-- An eviction drops the head of the order. -/
theorem evict (h : c.DrainsAs order) : Matches DrainsAs c.evict (dropHead order) := by
  by_cases hfrom : c.givesRecent false = true
  · exact h.evict_recent hfrom
  · exact h.evict_frequent hfrom

end DrainsAs

/-- Evictions take the entries in the order that the target gives them. -/
theorem evictsInOrder :
    Store.EvictsInOrder (DrainsAs : Adaptive κ ν → List (Entry κ ν) → Prop) where
  size_eq := by
    rintro c _ ⟨hrecent, hfrequent, rfl⟩
    rw [length_drainOrder, ← hrecent.size_eq, ← hfrequent.size_eq]
    rfl
  evict h := h.evict
  clear_evict {c _} _ := c.clear_evict

/-- A resize drops what no longer fits from the front of the order, and leaves the rest of it. A
target that is cut down to the new capacity still exceeds the recency part. -/
theorem Valid.resize_drainOrder (h : c.Valid) {n : Nat} {dropped : List (Entry κ ν)}
    {d : Adaptive κ ν} (hd : c.resize n = .ok (dropped, d)) :
    dropped = c.drainOrder.take (c.size - n) ∧ d.drainOrder = c.drainOrder.drop (c.size - n) := by
  have horder : c.DrainsAs c.drainOrder := ⟨h.recent, h.frequent, rfl⟩
  let p := evictMany Adaptive.evict (c.size - n) c
  have hkept : Matches DrainsAs p
      (c.drainOrder.take (c.size - n), c.drainOrder.drop (c.size - n)) :=
    evictsInOrder.evictMany horder (c.size - n)
  have hfits : p.2.recent.size + p.2.frequent.size ≤ n := by
    have hsize : p.2.size = (c.drainOrder.drop (c.size - n)).length :=
      evictsInOrder.size_eq hkept.related
    have hall : c.size = c.drainOrder.length := evictsInOrder.size_eq horder
    rw [List.length_drop, ← hall] at hsize
    show p.2.size ≤ n
    omega
  obtain ⟨hdropped, hr, hf, hrest⟩ := hkept
  rw [resize_def] at hd
  obtain ⟨_, -, hd⟩ := bind_eq_ok_iff.1 hd
  obtain ⟨⟨_, recent⟩, hrecent, hd⟩ := bind_eq_ok_iff.1 hd
  obtain ⟨⟨_, frequent⟩, hfrequent, hd⟩ := bind_eq_ok_iff.1 hd
  obtain ⟨_, -, hd⟩ := bind_eq_ok_iff.1 hd
  obtain ⟨_, -, hd⟩ := bind_eq_ok_iff.1 hd
  cases hd
  -- What is left fits into both parts, so neither of them loses an entry.
  have hrecent' : recent.entries = p.2.recent.entries := by
    rw [(hr.resize_entries hrecent).2, Nat.sub_eq_zero_of_le (by omega), List.drop_zero]
  have hfrequent' : frequent.entries = p.2.frequent.entries := by
    rw [(hf.resize_entries hfrequent).2, Nat.sub_eq_zero_of_le (by omega), List.drop_zero]
  refine ⟨hdropped, Eq.trans ?_ hrest⟩
  have hsurplus : recent.entries.length - min p.2.target n = p.2.surplus := by
    rw [hrecent', surplus, ← hr.size_eq]
    omega
  show recent.entries.take (recent.entries.length - min p.2.target n) ++ (frequent.entries ++
    recent.entries.drop (recent.entries.length - min p.2.target n)) = p.2.drainOrder
  rw [hsurplus, hrecent', hfrequent', drainOrder]

end BoundedCache.Adaptive
