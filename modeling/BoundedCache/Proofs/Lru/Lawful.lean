import BoundedCache.Proofs.Error
import BoundedCache.Proofs.Lru.Recency
import BoundedCache.Proofs.Store.Lawful

/-!
# Recency stores are lawful

The laws of a bounded map, first for the plain list of entries, then for the store that acts like
it.

## Main definitions

- `Recency.Valid` — distinct keys, and no more entries than fit
- `Lru.Valid` — chain and index agree, and the list that they stand for is valid

## Main results

- `Recency.lawful`, `Lru.lawful` — the laws
-/

namespace BoundedCache

open Keyed

namespace Recency

variable {κ ν : Type} [DecidableEq κ] {m : Recency κ ν} {k : κ} {v : ν} {e : Entry κ ν}
  {l : List (Entry κ ν)}

/-- No key occurs twice, and there is room for the entries and for at least one. -/
structure Valid (m : Recency κ ν) : Prop where
  distinct : Distinct Entry.key m.entries
  length_le : m.entries.length ≤ m.capacity
  capacity_pos : 0 < m.capacity

theorem holds_mk {n : Nat} {l' : List (Entry κ ν)} (hp : l'.Perm l) (hd : Distinct Entry.key l)
    (hlength : l.length ≤ n) (hpos : 0 < n) : Store.Holds Valid n l ⟨n, l'⟩ where
  inv := ⟨hd.perm hp.symm, hp.length_eq.trans_le hlength, hpos⟩
  capacity_eq := rfl
  perm := hp

theorem Valid.use (h : m.Valid) (k : κ) : Store.Holds Valid m.capacity m.entries (m.use k) := by
  rw [Recency.use]
  split
  · exact holds_mk (.refl _) h.distinct h.length_le h.capacity_pos
  · next e he =>
    obtain ⟨hmem, rfl⟩ := mem_of_find?_eq_some he
    refine holds_mk ?_ h.distinct h.length_le h.capacity_pos
    exact (List.perm_append_singleton ..).trans (perm_cons_erase h.distinct hmem).symm

theorem contains_eq_lookup? (m : Recency κ ν) (k : κ) :
    m.contains k = (lookup? k m.entries).isSome :=
  (lookup?_isSome k m.entries).symm

theorem contains_iff_mem_keys : m.contains k = true ↔ k ∈ keys m.entries := by
  rw [contains_eq_lookup?, Option.isSome_iff_ne_none]
  exact lookup?_ne_none_iff

theorem use_of_not_mem (hk : k ∉ keys m.entries) : m.use k = m := by
  have hnone : find? Entry.key k m.entries = none :=
    Option.map_eq_none_iff.1 (lookup?_eq_none_iff.2 hk)
  rw [use, hnone]

theorem put_of_mem (hk : k ∈ keys m.entries) :
    m.put k v = (none, { m with entries := erase Entry.key k m.entries ++ [⟨k, v⟩] }) :=
  if_pos (contains_iff_mem_keys.2 hk)

theorem put_of_full (hk : k ∉ keys m.entries) (hfull : m.capacity ≤ m.entries.length) :
    m.put k v = (m.entries.head?, { m with entries := m.entries.tail ++ [⟨k, v⟩] }) := by
  rw [put, if_neg (mt contains_iff_mem_keys.1 hk), makeRoom, isFull, if_pos (decide_eq_true hfull)]
  rfl

theorem put_of_room (hk : k ∉ keys m.entries) (hroom : m.entries.length < m.capacity) :
    m.put k v = (none, { m with entries := m.entries ++ [⟨k, v⟩] }) := by
  rw [put, if_neg (mt contains_iff_mem_keys.1 hk), makeRoom, isFull,
    if_neg (by rw [decide_eq_true_iff]; exact Nat.not_le.2 hroom)]
  rfl

theorem Valid.evict (h : m.Valid) : Store.Evicts Valid m m.evict := by
  obtain ⟨hd, hlength, hpos⟩ := h
  rw [Recency.evict]
  cases hm : m.entries with
  | nil => exact Store.evicts_none hm (holds_mk (.refl _) List.nodup_nil (Nat.zero_le _) hpos)
  | cons e l =>
    rw [hm] at hd hlength
    refine Store.evicts_some (.of_eq hm) ?_
    exact holds_mk (.refl _) (distinct_cons_iff.1 hd).2 (Nat.le_of_succ_le hlength) hpos

theorem Valid.makeRoom (h : m.Valid) : Store.MakesRoom Valid m m.makeRoom :=
  Store.makesRoom_of_evicts h rfl h.length_le h.capacity_pos decide_eq_true_iff h.evict

theorem Valid.insertNew (h : m.Valid) (hk : k ∉ keys m.entries)
    (hroom : m.entries.length < m.capacity) (v : ν) :
    Store.Holds Valid m.capacity (⟨k, v⟩ :: m.entries) (m.insertNew k v) := by
  have hinsert := distinct_insert h.distinct k v
  rw [erase_eq_self_of_not_mem hk] at hinsert
  exact holds_mk (List.perm_append_singleton ..) hinsert hroom h.capacity_pos

/-- A binding goes to the end of the list, after the entry at its head went if there was no room. -/
theorem Valid.put (h : m.Valid) (k : κ) (v : ν) : Store.Puts Valid m k v (m.put k v) := by
  rw [Recency.put, contains_eq_lookup?]
  by_cases hk : k ∈ keys m.entries
  · obtain ⟨w, hw⟩ := exists_lookup?_eq_some hk
    have hlength := length_erase_of_lookup? h.distinct hw
    rw [hw]
    refine Store.puts_none (.inl (lookup?_ne_none_iff.2 hk)) ?_
    exact holds_mk (List.perm_append_singleton ..) (distinct_insert h.distinct k v)
      (hlength.trans_le h.length_le) h.capacity_pos
  · have hroom := h.makeRoom
    obtain ⟨hinv, hcapacity, hlt⟩ := hroom.size_lt fun _ => rfl
    rw [lookup?_eq_none_iff.2 hk]
    refine hroom.puts hk ?_
    rw [← hcapacity] at hlt ⊢
    exact hinv.insertNew (hroom.not_mem_keys hk) hlt v

theorem Valid.resize (h : m.Valid) {n : Nat} {dropped : List (Entry κ ν)} {d : Recency κ ν}
    (hd : m.resize n = .ok (dropped, d)) :
    ∃ rest, m.entries.Perm (dropped ++ rest) ∧ Store.Holds Valid n rest d := by
  rw [Recency.resize] at hd
  split at hd
  · cases hd
  · next hn =>
    cases hd
    refine ⟨m.entries.drop (m.entries.length - n), ?_, ?_⟩
    · rw [List.take_append_drop]
    · refine holds_mk (.refl _) (h.distinct.sublist (List.drop_sublist ..)) ?_
        (Nat.pos_of_ne_zero hn)
      rw [List.length_drop]
      show m.entries.length - (m.entries.length - n) ≤ n
      omega

theorem lawful : Store.Lawful (Valid : Recency κ ν → Prop) where
  distinct h := h.distinct
  size_eq _ := rfl
  size_le h := h.length_le
  capacity_pos h := h.capacity_pos
  contains_eq {m} _ k := contains_eq_lookup? m k
  peek_eq _ _ := rfl
  get h k := ⟨rfl, h.use k⟩
  put h k v := h.put k v
  remove {m} h k := by
    exact ⟨rfl, holds_mk (.refl _) (h.distinct.sublist erase_sublist)
      ((length_erase_le k m.entries).trans h.length_le) h.capacity_pos⟩
  evict h := h.evict
  clear h := holds_mk (.refl _) List.nodup_nil (Nat.zero_le _) h.capacity_pos
  resize {m} h n _ _ hd := h.resize (m.store_resize_eq n ▸ hd)
  getAloud_eq _ _ := rfl
  setSamples h _ := ⟨h, rfl, .refl _⟩

end Recency

namespace Lru

variable {κ ν : Type} [DecidableEq κ] [Hashable κ] {c : Lru κ ν} {k : κ}

/-- Chain and index agree, and the list that they stand for is valid. -/
def Valid (c : Lru κ ν) : Prop := ∃ m, c.StandsFor m ∧ m.Valid

theorem lawful : Store.Lawful (Valid : Lru κ ν → Prop) := by
  refine .of_simulation simulation ?_ ?_ Recency.lawful
  · rintro c _ ⟨-, rfl⟩
    rfl
  · rintro c _ ⟨-, rfl⟩
    rfl

theorem create_eq_ok_iff {n : Nat} : create n = .ok c ↔ 0 < n ∧ empty n = c := by
  constructor
  · intro h
    obtain ⟨_, hn, h⟩ := bind_eq_ok_iff.1 h
    exact ⟨requireCapacity_eq_ok_iff.1 hn, Except.ok.inj h⟩
  · rintro ⟨hn, rfl⟩
    exact bind_eq_ok_iff.2 ⟨(), requireCapacity_eq_ok_iff.2 hn, rfl⟩

theorem create_eq_error {n : Nat} {cause : SetupError}
    (h : (create n : Except SetupError (Lru κ ν)) = .error cause) : cause = .zeroCapacity := by
  obtain h | ⟨_, -, h⟩ := bind_eq_error_iff.1 h
  · exact requireCapacity_eq_error h
  · cases h

theorem resize_eq_error {n : Nat} {cause : SetupError} (h : c.resize n = .error cause) :
    cause = .zeroCapacity := by
  rw [resize_def] at h
  obtain h | ⟨_, -, h⟩ := bind_eq_error_iff.1 h
  · exact requireCapacity_eq_error h
  · cases h

theorem empty_valid {n : Nat} (hn : 0 < n) : (empty n : Lru κ ν).Valid := by
  refine ⟨_, ⟨empty_wellFormed n, rfl⟩, ?_⟩
  have hempty : (empty n : Lru κ ν).chain.Indexed Entry.key (empty n : Lru κ ν).index [] := .empty
  rw [view_eq hempty]
  exact ⟨List.nodup_nil, Nat.zero_le n, hn⟩

theorem create_holds {n : Nat} (hc : create n = .ok c) : Store.Holds Valid n [] c := by
  obtain ⟨hn, rfl⟩ := create_eq_ok_iff.1 hc
  exact ⟨empty_valid hn, rfl, .refl _⟩

theorem size_of_holds {n : Nat} {l : List (Entry κ ν)} (h : Store.Holds Valid n l c) :
    c.size = l.length :=
  (lawful.size_eq h.inv).trans h.perm.length_eq

theorem capacity_of_resize {n : Nat} {dropped : List (Entry κ ν)} {d : Lru κ ν}
    (hd : c.resize n = .ok (dropped, d)) : d.capacity = n := by
  rw [resize_eq] at hd
  obtain ⟨-, hd⟩ := ite_throw_eq_ok_iff.1 hd
  cases hd
  rfl

theorem resize_of_pos {n : Nat} (hn : 0 < n) : c.resize n = .ok (c.shrink n) := by
  rw [resize_eq, if_neg (Nat.ne_of_gt hn)]

theorem resize_of_fits {n : Nat} (hn : 0 < n) (hfits : c.size ≤ n) :
    c.resize n = .ok ([], { c with capacity := n }) := by
  rw [resize_of_pos hn, shrink, Nat.sub_eq_zero_of_le hfits]
  rfl

namespace Valid

/-! ### The laws for a store that is part of another one -/

theorem distinct (h : c.Valid) : Distinct Entry.key c.entries := lawful.distinct h

theorem size_eq (h : c.Valid) : c.size = c.entries.length := lawful.size_eq h

theorem size_le (h : c.Valid) : c.size ≤ c.capacity := lawful.size_le h

theorem capacity_pos (h : c.Valid) : 0 < c.capacity := lawful.capacity_pos h

theorem contains_iff (h : c.Valid) (k : κ) : c.contains k = true ↔ k ∈ keys c.entries :=
  lawful.contains_iff h k

theorem peek_eq (h : c.Valid) (k : κ) : c.peek k = lookup? k c.entries := lawful.peek_eq h k

theorem get (h : c.Valid) (k : κ) : Store.Gets Valid c k (c.get k) := lawful.get h k

theorem put (h : c.Valid) (k : κ) (v : ν) : Store.Puts Valid c k v (c.put k v) := lawful.put h k v

theorem remove (h : c.Valid) (k : κ) : Store.Removes Valid c k (c.remove k) := lawful.remove h k

theorem evict (h : c.Valid) : Store.Evicts Valid c c.evict := lawful.evict h

theorem clear (h : c.Valid) : Store.Holds Valid c.capacity [] c.clear := lawful.clear h

theorem remove_of_not_mem (h : c.Valid) (hk : k ∉ keys c.entries) : c.remove k = (none, c) := by
  have hindex : c.index[k]? = none := by
    rw [← h.contains_iff, contains, Std.HashMap.contains_eq_isSome_getElem?] at hk
    exact Option.not_isSome_iff_eq_none.1 hk
  rw [Lru.remove, hindex]

theorem makeRoom (h : c.Valid) : Store.MakesRoom Valid c c.makeRoom :=
  Store.makesRoom_of_evicts h h.size_eq h.size_le h.capacity_pos decide_eq_true_iff h.evict

theorem oldest?_eq_none_iff (h : c.Valid) : c.oldest? = none ↔ c.entries = [] := by
  obtain ⟨m, ⟨hwf, -⟩, -⟩ := h
  rw [hwf.oldest?_eq, List.head?_eq_none_iff]

theorem evict_cases (h : c.Valid) :
    (c.evict = (none, c.evict.2) ∧ c.entries = [] ∧ Store.Holds Valid c.capacity [] c.evict.2) ∨
      ∃ e rest, c.evict = (some e, c.evict.2) ∧ c.entries.Perm (e :: rest) ∧
        Store.Holds Valid c.capacity rest c.evict.2 := h.evict.cases

/-- What the removal of a bound key gives. -/
theorem exists_remove_eq (h : c.Valid) (hk : k ∈ keys c.entries) :
    ∃ v, lookup? k c.entries = some v ∧ c.remove k = (some v, (c.remove k).2) := by
  obtain ⟨v, hv⟩ := exists_lookup?_eq_some hk
  exact ⟨v, hv, Prod.ext ((h.remove k).value_eq.trans hv) rfl⟩

/-- The capacity may change to any number that is not too small for the entries. -/
theorem withCapacity (h : c.Valid) {n : Nat} (hn : 0 < n) (hfits : c.size ≤ n) :
    Store.Holds Valid n c.entries { c with capacity := n } where
  inv := by
    obtain ⟨_, ⟨hwf, rfl⟩, hd, -, -⟩ := h
    rw [hwf.size_eq] at hfits
    exact ⟨⟨n, c.entries⟩, ⟨hwf, rfl⟩, hd, hfits, hn⟩
  capacity_eq := rfl
  perm := .refl _

theorem exists_resize (h : c.Valid) {n : Nat} (hn : 0 < n) :
    ∃ dropped d rest, c.resize n = .ok (dropped, d) ∧ c.entries.Perm (dropped ++ rest) ∧
      Store.Holds Valid n rest d := by
  obtain ⟨rest, hp, hrest⟩ := lawful.resize h n _ _ (resize_of_pos hn)
  exact ⟨_, _, rest, resize_of_pos hn, hp, hrest⟩

/-- A resize has nothing to drop if what is too much was evicted before. -/
theorem resize_evictMany (h : c.Valid) {n : Nat} (hn : 0 < n) :
    (evictMany Lru.evict (c.size - n) c).2.resize n = .ok ([], (c.shrink n).2) := by
  obtain ⟨_, -, -, hfits⟩ := Store.evictMany_excess_of_evicts size_eq evict h n
  exact resize_of_fits hn hfits

end Valid

end Lru

end BoundedCache
