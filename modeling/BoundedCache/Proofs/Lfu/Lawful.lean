import BoundedCache.Proofs.Error
import BoundedCache.Proofs.Lfu.Refinement
import BoundedCache.Proofs.Store.Lawful

/-!
# Frequency stores are lawful

The laws of a bounded map, first for the plain list of entries with their counts, then for the store
that acts like it. As the order of the list does not matter here, all that is to be known of the
search for a place is that it rearranges the list.

## Main definitions

- `Ranking.Valid` — distinct keys, and no more entries than fit
- `Lfu.Valid` — the store is well-formed, and the list that it stands for is valid

## Main results

- `Ranking.insertOnce_perm`, `Ranking.overtake_perm` — finding a place rearranges the list
- `Ranking.lawful`, `Lfu.lawful` — the laws
-/

namespace BoundedCache

open Keyed

namespace Ranking

variable {κ ν : Type}

theorem insertOnce_perm (new : Counted κ ν) (l : List (Counted κ ν)) :
    (insertOnce new l).Perm (new :: l) := by
  induction l with
  | nil => exact .refl _
  | cons x l ih =>
    rw [insertOnce]
    split
    · exact .refl _
    · exact (ih.cons x).trans (.swap new x l)

/-! ## The entries of a list -/

theorem entries_perm (m : Ranking κ ν) : m.entries.Perm (m.ranked.map Counted.entry) :=
  List.reverse_perm _

theorem distinct_map_entry {ranked : List (Counted κ ν)} :
    Distinct Entry.key (ranked.map Counted.entry) ↔ Distinct Counted.key ranked := by
  rw [Distinct, Distinct, List.map_map]
  rfl

theorem length_entries (m : Ranking κ ν) : m.entries.length = m.ranked.length := by
  rw [entries, List.length_reverse, List.length_map]

variable [DecidableEq κ] {m : Ranking κ ν} {k : κ} {v : ν} {l : List (Entry κ ν)}

theorem overtake_perm (k : κ) (l : List (Counted κ ν)) : (overtake k l).Perm l := by
  induction l with
  | nil => exact .refl _
  | cons x l ih =>
    cases l with
    | nil => exact .refl _
    | cons y l =>
      rw [overtake]
      split
      · split
        · exact .swap x y l
        · exact .refl _
      · exact ih.cons x

/-! ## Validity -/

/-- No key occurs twice, and there is room for the elements and for at least one. -/
structure Valid (m : Ranking κ ν) : Prop where
  distinct : Distinct Counted.key m.ranked
  length_le : m.ranked.length ≤ m.capacity
  capacity_pos : 0 < m.capacity

theorem holds_mk {n : Nat} {ranked : List (Counted κ ν)}
    (hp : (ranked.map Counted.entry).Perm l) (hd : Distinct Entry.key l) (hlength : l.length ≤ n)
    (hpos : 0 < n) : Store.Holds Valid n l ⟨n, ranked⟩ where
  inv := by
    refine ⟨distinct_map_entry.1 (hd.perm hp.symm), ?_, hpos⟩
    have hlength' := hp.length_eq
    rw [List.length_map] at hlength'
    exact hlength'.trans_le hlength
  capacity_eq := rfl
  perm := (entries_perm _).trans hp

omit [DecidableEq κ] in
theorem Valid.distinct_entries (h : m.Valid) : Distinct Entry.key m.entries :=
  (distinct_map_entry.2 h.distinct).perm (entries_perm m).symm

theorem find?_map_entry (k : κ) (ranked : List (Counted κ ν)) :
    Keyed.find? Entry.key k (ranked.map Counted.entry) =
      (Keyed.find? Counted.key k ranked).map Counted.entry :=
  find?_map (fun _ => rfl) ranked

theorem erase_map_entry (k : κ) (ranked : List (Counted κ ν)) :
    Keyed.erase Entry.key k (ranked.map Counted.entry) =
      (Keyed.erase Counted.key k ranked).map Counted.entry :=
  erase_map (fun _ => rfl) ranked

theorem Valid.peek_eq (h : m.Valid) (k : κ) : m.peek k = lookup? k m.entries := by
  rw [lookup?_perm h.distinct_entries (entries_perm m), lookup?, find?_map_entry, Option.map_map]
  rfl

theorem Valid.contains_eq (h : m.Valid) (k : κ) : m.contains k = (lookup? k m.entries).isSome := by
  rw [← h.peek_eq, peek, Option.isSome_map]
  rfl

/-! ## Operations -/

theorem map_entry_modify_used (k : κ) (ranked : List (Counted κ ν)) :
    (modify Counted.key k Counted.used ranked).map Counted.entry = ranked.map Counted.entry := by
  rw [Keyed.modify, List.map_map]
  apply List.map_congr_left
  intro x _
  show Counted.entry (if x.key = k then x.used else x) = x.entry
  split <;> rfl

/-- Counting a use rearranges the entries. -/
theorem Valid.use (h : m.Valid) (k : κ) : Store.Holds Valid m.capacity m.entries (m.use k) := by
  have hd := h.distinct_entries
  have hlength := (length_entries m).trans_le h.length_le
  have hmap := map_entry_modify_used k m.ranked
  rw [Ranking.use]
  split
  · exact holds_mk (entries_perm m).symm hd hlength h.capacity_pos
  · next x hx =>
    obtain ⟨hmem, rfl⟩ := mem_of_find?_eq_some hx
    refine holds_mk ?_ hd hlength h.capacity_pos
    refine ((overtake_perm _ _).map _).trans (.trans ?_ (entries_perm m).symm)
    split
    · refine ((insertOnce_perm _ _).map _).trans ?_
      rw [List.map_cons, ← erase_map_entry, hmap]
      exact (perm_cons_erase (distinct_map_entry.2 h.distinct) (List.mem_map_of_mem hmem)).symm
    · rw [hmap]

/-- Changing the value of a key replaces its entry. -/
theorem Valid.map_entry_modify_withValue (h : m.Valid) (hk : m.contains k = true) (v : ν) :
    ((modify Counted.key k (Counted.withValue v) m.ranked).map Counted.entry).Perm
      (⟨k, v⟩ :: erase Entry.key k m.entries) := by
  obtain ⟨x, hx⟩ := Option.isSome_iff_exists.1 hk
  obtain ⟨xs, ys, hranked, rfl⟩ := exists_split_of_find?_eq_some hx
  have hd := h.distinct
  have hd' := distinct_map_entry.2 hd
  have herase := erase_perm (entries_perm m) x.key
  rw [hranked] at hd hd' herase ⊢
  rw [List.map_append, List.map_cons] at hd' herase
  rw [modify_append_cons hd, List.map_append, List.map_cons]
  refine List.perm_middle.trans ?_
  refine List.Perm.cons _ (.trans ?_ herase.symm)
  rw [show x.key = x.entry.key from rfl, erase_append_cons hd']

theorem Valid.evict (h : m.Valid) : Store.Evicts Valid m m.evict := by
  obtain ⟨n, ranked⟩ := m
  rcases List.eq_nil_or_concat' ranked with rfl | ⟨ranked, x, rfl⟩
  · rw [evict_nil]
    exact Store.evicts_none rfl (holds_mk (.refl _) List.nodup_nil (Nat.zero_le _) h.capacity_pos)
  · have hsub := List.sublist_append_left ranked [x]
    have hlength : (ranked.map Counted.entry).length ≤ n := by
      rw [List.length_map]
      exact hsub.length_le.trans h.length_le
    have hd := distinct_map_entry.2 (h.distinct.sublist hsub)
    rw [evict_concat]
    refine Store.evicts_some ?_ (holds_mk (.refl _) hd hlength h.capacity_pos)
    show (entries ⟨n, ranked ++ [x]⟩).Perm _
    rw [entries_concat]
    exact (entries_perm _).cons _

theorem Valid.makeRoom (h : m.Valid) : Store.MakesRoom Valid m m.makeRoom :=
  Store.makesRoom_of_evicts h (length_entries m).symm h.length_le h.capacity_pos decide_eq_true_iff
    h.evict

theorem Valid.insertNew (h : m.Valid) (hk : k ∉ keys m.entries)
    (hroom : m.ranked.length < m.capacity) (v : ν) :
    Store.Holds Valid m.capacity (⟨k, v⟩ :: m.entries) (m.insertNew k v) := by
  have hinsert := distinct_insert h.distinct_entries k v
  rw [erase_eq_self_of_not_mem hk] at hinsert
  refine holds_mk ?_ hinsert ?_ h.capacity_pos
  · exact ((insertOnce_perm _ _).map _).trans ((entries_perm m).symm.cons _)
  · rw [List.length_cons, length_entries]
    exact hroom

/-- A bound key gets its value in place; a new one finds a place once there is room. -/
theorem Valid.put (h : m.Valid) (k : κ) (v : ν) : Store.Puts Valid m k v (m.put k v) := by
  rw [Ranking.put]
  split
  · next hcontains =>
    have hbound := hcontains
    rw [h.contains_eq] at hbound
    obtain ⟨w, hw⟩ := Option.isSome_iff_exists.1 hbound
    have hlength := length_erase_of_lookup? h.distinct_entries hw
    rw [length_entries] at hlength
    refine Store.puts_none (.inl (Option.isSome_iff_ne_none.1 hbound)) ?_
    exact holds_mk (h.map_entry_modify_withValue hcontains v)
      (distinct_insert h.distinct_entries k v) (hlength.trans_le h.length_le) h.capacity_pos
  · next hfree =>
    have hk : k ∉ keys m.entries := by
      rwa [h.contains_eq, Option.isSome_iff_ne_none, lookup?_ne_none_iff] at hfree
    have hroom := h.makeRoom
    obtain ⟨hinv, hcapacity, hlt⟩ := hroom.size_lt fun {m} _ => (length_entries m).symm
    refine hroom.puts hk ?_
    rw [← hcapacity] at hlt ⊢
    exact hinv.insertNew (hroom.not_mem_keys hk) hlt v

theorem Valid.remove (h : m.Valid) (k : κ) :
    Store.Holds Valid m.capacity (erase Entry.key k m.entries) (m.remove k).2 := by
  have hlength := length_erase_le k m.entries
  rw [length_entries] at hlength
  refine holds_mk ?_ (h.distinct_entries.sublist erase_sublist) (hlength.trans h.length_le)
    h.capacity_pos
  rw [← erase_map_entry]
  exact erase_perm (entries_perm m).symm k

theorem Valid.resize (h : m.Valid) {n : Nat} {dropped : List (Entry κ ν)} {d : Ranking κ ν}
    (hd : m.resize n = .ok (dropped, d)) :
    ∃ rest, m.entries.Perm (dropped ++ rest) ∧ Store.Holds Valid n rest d := by
  rw [Ranking.resize] at hd
  split at hd
  · cases hd
  · next hn =>
    cases hd
    have hlength : ((m.ranked.take n).map Counted.entry).length ≤ n := by
      rw [List.length_map, List.length_take]
      exact Nat.min_le_left ..
    have hd := distinct_map_entry.2 (h.distinct.sublist (List.take_sublist n m.ranked))
    refine ⟨(m.ranked.take n).map Counted.entry, ?_, holds_mk (.refl _) hd hlength
      (Nat.pos_of_ne_zero hn)⟩
    calc m.entries.Perm (m.ranked.map Counted.entry) := entries_perm m
      _ = (m.ranked.take n).map Counted.entry ++ (m.ranked.drop n).map Counted.entry := by
        rw [← List.map_append, List.take_append_drop]
      List.Perm _ ((m.ranked.drop n).map Counted.entry ++ (m.ranked.take n).map Counted.entry) :=
        List.perm_append_comm
      List.Perm _ (((m.ranked.drop n).map Counted.entry).reverse ++ _) :=
        (List.reverse_perm _).symm.append_right _

theorem lawful : Store.Lawful (Valid : Ranking κ ν → Prop) where
  distinct h := h.distinct_entries
  size_eq {m} _ := (length_entries m).symm
  size_le h := h.length_le
  capacity_pos h := h.capacity_pos
  contains_eq h k := h.contains_eq k
  peek_eq h k := h.peek_eq k
  get h k := ⟨h.peek_eq k, h.use k⟩
  put h k v := h.put k v
  remove h k := ⟨h.peek_eq k, h.remove k⟩
  evict h := h.evict
  clear h := holds_mk (.refl _) List.nodup_nil (Nat.zero_le _) h.capacity_pos
  resize {m} h n _ _ hd := h.resize (m.store_resize_eq n ▸ hd)
  getAloud_eq _ _ := rfl
  setSamples h _ := ⟨h, rfl, .refl _⟩

end Ranking

namespace Lfu

variable {κ ν : Type} [DecidableEq κ] [Hashable κ] {c : Lfu κ ν}

/-- The slot of the first entry used once is right, and the list that a store stands for is
valid. -/
def Valid (c : Lfu κ ν) : Prop := ∃ m, c.StandsFor m ∧ m.Valid

theorem lawful : Store.Lawful (Valid : Lfu κ ν → Prop) := by
  refine .of_simulation simulation ?_ ?_ Ranking.lawful
  · rintro c _ ⟨h, rfl⟩
    exact h.entries_eq
  · rintro c _ ⟨-, rfl⟩
    rfl

theorem empty_valid {n : Nat} (hn : 0 < n) : (empty n : Lfu κ ν).Valid := by
  refine ⟨_, ⟨⟨[], [], empty_ranks n⟩, rfl⟩, ?_⟩
  rw [view_eq (empty_ranks n).indexed]
  exact ⟨List.nodup_nil, Nat.zero_le n, hn⟩

theorem create_eq_ok_iff {n : Nat} : create n = .ok c ↔ 0 < n ∧ empty n = c := by
  constructor
  · intro h
    obtain ⟨_, hn, h⟩ := bind_eq_ok_iff.1 h
    exact ⟨requireCapacity_eq_ok_iff.1 hn, Except.ok.inj h⟩
  · rintro ⟨hn, rfl⟩
    exact bind_eq_ok_iff.2 ⟨(), requireCapacity_eq_ok_iff.2 hn, rfl⟩

theorem create_holds {n : Nat} (hc : create n = .ok c) : Store.Holds Valid n [] c := by
  obtain ⟨hn, rfl⟩ := create_eq_ok_iff.1 hc
  exact ⟨empty_valid hn, rfl, .refl _⟩

theorem size_of_holds {n : Nat} {l : List (Entry κ ν)} (h : Store.Holds Valid n l c) :
    c.size = l.length :=
  (lawful.size_eq h.inv).trans h.perm.length_eq

theorem resize_of_fits {n : Nat} (hn : 0 < n) (hfits : c.size ≤ n) :
    c.resize n = .ok ([], { c with capacity := n }) := by
  rw [resize_eq, if_neg (Nat.ne_of_gt hn), shrink, Nat.sub_eq_zero_of_le hfits]
  rfl

namespace Valid

/-! ### The laws for a store that is part of another one -/

theorem distinct (h : c.Valid) : Distinct Entry.key c.entries := lawful.distinct h

theorem size_eq (h : c.Valid) : c.size = c.entries.length := lawful.size_eq h

theorem contains_iff (h : c.Valid) (k : κ) : c.contains k = true ↔ k ∈ keys c.entries :=
  lawful.contains_iff h k

theorem peek_eq (h : c.Valid) (k : κ) : c.peek k = lookup? k c.entries := lawful.peek_eq h k

theorem get (h : c.Valid) (k : κ) : Store.Gets Valid c k (c.get k) := lawful.get h k

theorem put (h : c.Valid) (k : κ) (v : ν) : Store.Puts Valid c k v (c.put k v) := lawful.put h k v

theorem remove (h : c.Valid) (k : κ) : Store.Removes Valid c k (c.remove k) := lawful.remove h k

theorem evict (h : c.Valid) : Store.Evicts Valid c c.evict := lawful.evict h

theorem clear (h : c.Valid) : Store.Holds Valid c.capacity [] c.clear := lawful.clear h

/-- The capacity may change to any number that is not too small for the entries. -/
theorem withCapacity (h : c.Valid) {n : Nat} (hn : 0 < n) (hfits : c.size ≤ n) :
    Store.Holds Valid n c.entries { c with capacity := n } where
  inv := by
    obtain ⟨_, ⟨⟨often, once, hranks⟩, rfl⟩, hd, -, -⟩ := h
    rw [WellFormed.size_eq ⟨often, once, hranks⟩] at hfits
    refine ⟨⟨n, c.view.ranked⟩, ⟨⟨often, once, ?_⟩, rfl⟩, hd, hfits, hn⟩
    exact ⟨hranks.indexed, hranks.two_le_frequency, hranks.frequency_eq_one, hranks.onceFront_eq⟩
  capacity_eq := rfl
  perm := .refl _

end Valid

end Lfu

end BoundedCache
