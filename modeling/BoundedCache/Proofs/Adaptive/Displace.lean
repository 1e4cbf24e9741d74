import BoundedCache.Proofs.Adaptive.Lawful
import BoundedCache.Proofs.Lfu.Order
import BoundedCache.Proofs.Lru.Order

/-!
# What adaptive replacement displaces

Whatever makes an entry give way, it is the one at the front of its part, its key becomes the newest
ghost of that part, and ghosts are forgotten from the oldest on. So after any number of
displacements the parts have lost a number of entries from their fronts.

## Main definitions

- `Merges` — a list is made of two others, each of them in its order
- `Adaptive.Sheds` — the parts have lost entries from their fronts, which have become ghosts

## Main results

- `Adaptive.Valid.displace_sheds`, `Adaptive.Valid.makeRoom_sheds` — one displacement
- `Adaptive.Valid.evictMany_sheds` — repeated eviction
- `Adaptive.Valid.put_sheds` — the put of a new key
-/

namespace BoundedCache

open Keyed

/-! ## Two lists in one -/

/-- A list is made of two others, each of them in its order. -/
inductive Merges {α : Type} : List α → List α → List α → Prop
  | nil : Merges [] [] []
  | left {x : α} {l xs ys : List α} (h : Merges l xs ys) : Merges (x :: l) (x :: xs) ys
  | right {y : α} {l xs ys : List α} (h : Merges l xs ys) : Merges (y :: l) xs (y :: ys)

namespace Merges

variable {α : Type} {l l' xs xs' ys ys' : List α}

theorem append (h : Merges l xs ys) (h' : Merges l' xs' ys') :
    Merges (l ++ l') (xs ++ xs') (ys ++ ys') := by
  induction h with
  | nil => exact h'
  | left _ ih => exact ih.left
  | right _ ih => exact ih.right

theorem perm (h : Merges l xs ys) : l.Perm (xs ++ ys) := by
  induction h with
  | nil => exact .refl _
  | left _ ih => exact ih.cons _
  | right _ ih => exact (ih.cons _).trans List.perm_middle.symm

/-- The two lists are found again by what tells their elements apart. -/
theorem filter_eq {p : α → Bool} (h : Merges l xs ys) (hxs : ∀ x ∈ xs, p x = true)
    (hys : ∀ y ∈ ys, p y = false) : l.filter p = xs ∧ l.filter (fun x => !p x) = ys := by
  induction h with
  | nil => exact ⟨rfl, rfl⟩
  | left _ ih =>
    rw [List.forall_mem_cons] at hxs
    obtain ⟨hleft, hright⟩ := ih hxs.2 hys
    simp [hxs.1, hleft, hright]
  | right _ ih =>
    rw [List.forall_mem_cons] at hys
    obtain ⟨hleft, hright⟩ := ih hxs hys.2
    simp [hys.1, hleft, hright]

end Merges

namespace Adaptive

variable {κ ν : Type} [DecidableEq κ] [Hashable κ] {c d d' : Adaptive κ ν} {k : κ} {v : ν}

/-! ## Losses of the two parts -/

/-- The parts have lost certain entries from their fronts. What was dropped are these entries in
some order that keeps those of each part in theirs; their keys have become the newest ghosts of
their parts, of which the oldest may have been forgotten. -/
structure Sheds (c : Adaptive κ ν) (dropped recent : List (Entry κ ν))
    (frequent : List (Counted κ ν)) (d : Adaptive κ ν) : Prop where
  merges : Merges dropped recent (frequent.map Counted.entry)
  recent_eq : c.recent.entries = recent ++ d.recent.entries
  frequent_eq : c.frequent.ranking = frequent ++ d.frequent.ranking
  recentGhosts : keys d.recentGhosts.entries <:+ keys c.recentGhosts.entries ++ keys recent
  frequentGhosts : keys d.frequentGhosts.entries <:+
    keys c.frequentGhosts.entries ++ keys (frequent.map Counted.entry)
  target_eq : d.target = c.target

/-- Nothing was dropped, but ghosts may have been forgotten. -/
theorem Sheds.of_same (hrecent : d.recent.entries = c.recent.entries)
    (hfrequent : d.frequent.ranking = c.frequent.ranking)
    (hrecentGhosts : d.recentGhosts.entries <:+ c.recentGhosts.entries)
    (hfrequentGhosts : d.frequentGhosts.entries <:+ c.frequentGhosts.entries)
    (htarget : d.target = c.target) : Sheds c [] [] [] d where
  merges := .nil
  recent_eq := hrecent.symm
  frequent_eq := hfrequent.symm
  recentGhosts := by simpa [keys] using hrecentGhosts.map Entry.key
  frequentGhosts := by simpa [keys] using hfrequentGhosts.map Entry.key
  target_eq := htarget

theorem Sheds.refl (c : Adaptive κ ν) : Sheds c [] [] [] c :=
  .of_same rfl rfl (List.suffix_refl _) (List.suffix_refl _) rfl

theorem Sheds.trans {dropped recent dropped' recent' : List (Entry κ ν)}
    {frequent frequent' : List (Counted κ ν)} (h : Sheds c dropped recent frequent d)
    (h' : Sheds d dropped' recent' frequent' d') :
    Sheds c (dropped ++ dropped') (recent ++ recent') (frequent ++ frequent') d' where
  merges := by
    rw [List.map_append]
    exact h.merges.append h'.merges
  recent_eq := by rw [h.recent_eq, h'.recent_eq, List.append_assoc]
  frequent_eq := by rw [h.frequent_eq, h'.frequent_eq, List.append_assoc]
  recentGhosts := by
    refine h'.recentGhosts.trans ?_
    rw [keys_append, ← List.append_assoc]
    exact (List.suffix_append_self_iff ..).2 h.recentGhosts
  frequentGhosts := by
    refine h'.frequentGhosts.trans ?_
    rw [List.map_append, keys_append, ← List.append_assoc]
    exact (List.suffix_append_self_iff ..).2 h.frequentGhosts
  target_eq := h'.target_eq.trans h.target_eq

/-! ## One displacement -/

theorem size_le_target {onTie : Bool} (hkeeps : ¬ c.givesRecent onTie = true) :
    c.recent.size ≤ c.target := by
  by_contra hlt
  rw [Nat.not_le] at hlt
  refine hkeeps ?_
  simp [givesRecent, hlt, Nat.zero_lt_of_lt hlt]

namespace Valid

/-- An entry goes from the front of the recency part. -/
theorem displace_recent_sheds (h : c.Valid) {e : Entry κ ν} {r : Lru κ ν}
    (hevict : c.recent.evict = (some e, r)) :
    Sheds c [e] [e] [] { c with
      recent := r, recentGhosts := (c.recentGhosts.put e.key ()).2 } := by
  obtain ⟨hhead, htail⟩ := h.recent.evict_entries
  rw [hevict] at hhead htail
  obtain ⟨rest, hrest⟩ := List.head?_eq_some_iff.1 hhead.symm
  have hmem : e.key ∈ keys c.recent.entries := by
    rw [hrest]
    exact List.mem_cons_self
  have hghosts :=
    (h.recentGhosts.put_entries_suffix (h.recent_recentGhosts hmem) ()).map Entry.key
  rw [List.map_append] at hghosts
  refine ⟨.left .nil, ?_, rfl, hghosts, ?_, rfl⟩
  · rw [htail, hrest]
    rfl
  · simp [keys]

/-- An entry goes from the front of the frequency part. -/
theorem displace_frequent_sheds (h : c.Valid) {e : Entry κ ν} {f : Lfu κ ν}
    (hevict : c.frequent.evict = (some e, f)) :
    ∃ x, Sheds c [e] [] [x] { c with
      frequent := f, frequentGhosts := (c.frequentGhosts.put e.key ()).2 } := by
  obtain ⟨hhead, htail⟩ := h.frequent.evict_ranking
  rw [hevict] at hhead htail
  obtain ⟨x, hx, rfl⟩ := Option.map_eq_some_iff.1 hhead.symm
  obtain ⟨rest, hrest⟩ := List.head?_eq_some_iff.1 hx
  have hmem : x.entry.key ∈ keys c.frequent.entries := by
    rw [Lfu.entries, hrest]
    exact List.mem_cons_self
  have hghosts :=
    (h.frequentGhosts.put_entries_suffix (h.frequent_frequentGhosts hmem) ()).map Entry.key
  rw [List.map_append] at hghosts
  refine ⟨x, .right .nil, rfl, ?_, ?_, hghosts, rfl⟩
  · rw [htail, hrest]
    rfl
  · simp [keys]

/-- What is displaced comes from the front of a part. It does not come from the frequency part while
the recency part exceeds its target. -/
theorem displace_sheds (h : c.Valid) (onTie : Bool) :
    let p := c.displace onTie
    ∃ recent frequent, Sheds c p.1.toList recent frequent p.2 ∧
      (c.target < c.recent.size → frequent = []) := by
  intro p
  by_cases hgives : c.givesRecent onTie = true
  · obtain ⟨-, htail⟩ := h.recent.evict_entries
    rcases hevict : c.recent.evict with ⟨_ | e, r⟩
    · have hp : p = (none, { c with recent := r }) := by
        rw [show p = c.displace onTie from rfl, Adaptive.displace, if_pos hgives, hevict]
      have hnil : c.recent.entries = [] := h.recent.evict.eq_none_iff.1 (congrArg Prod.fst hevict)
      rw [hevict, hnil] at htail
      rw [hp]
      exact ⟨[], [], .of_same (htail.trans hnil.symm) rfl (List.suffix_refl _)
        (List.suffix_refl _) rfl, fun _ => rfl⟩
    · have hp : p = (some e, { c with
          recent := r, recentGhosts := (c.recentGhosts.put e.key ()).2 }) := by
        rw [show p = c.displace onTie from rfl, Adaptive.displace, if_pos hgives, hevict]
      rw [hp]
      exact ⟨[e], [], h.displace_recent_sheds hevict, fun _ => rfl⟩
  · have hle := size_le_target hgives
    obtain ⟨hhead, htail⟩ := h.frequent.evict_ranking
    rcases hevict : c.frequent.evict with ⟨_ | e, f⟩
    · have hp : p = (none, { c with frequent := f }) := by
        rw [show p = c.displace onTie from rfl, Adaptive.displace, if_neg hgives, hevict]
      rw [hevict] at hhead htail
      have hnil : c.frequent.ranking = [] :=
        List.head?_eq_none_iff.1 (Option.map_eq_none_iff.1 hhead.symm)
      rw [hnil] at htail
      rw [hp]
      exact ⟨[], [], .of_same rfl (htail.trans hnil.symm) (List.suffix_refl _)
        (List.suffix_refl _) rfl, fun _ => rfl⟩
    · have hp : p = (some e, { c with
          frequent := f, frequentGhosts := (c.frequentGhosts.put e.key ()).2 }) := by
        rw [show p = c.displace onTie from rfl, Adaptive.displace, if_neg hgives, hevict]
      obtain ⟨x, hsheds⟩ := h.displace_frequent_sheds hevict
      rw [hp]
      exact ⟨[], [x], hsheds, fun hlt => absurd hle (Nat.not_le_of_lt hlt)⟩

/-- Room is made by at most one displacement. -/
theorem makeRoom_sheds (h : c.Valid) (onTie : Bool) :
    let p := c.makeRoom onTie
    ∃ recent frequent, Sheds c p.1.toList recent frequent p.2 ∧
      (c.target < c.recent.size → frequent = []) := by
  intro p
  by_cases hfull : c.isFull = true
  · rw [show p = c.displace onTie from if_pos hfull]
    exact h.displace_sheds onTie
  · rw [show p = (none, c) from if_neg hfull]
    exact ⟨[], [], .refl c, fun _ => rfl⟩

/-- Repeated eviction. -/
theorem evictMany_sheds (h : c.Valid) (n : Nat) :
    let p := evictMany Adaptive.evict n c
    ∃ recent frequent, Sheds c p.1 recent frequent p.2 := by
  induction n generalizing c with
  | zero => exact ⟨[], [], .refl c⟩
  | succ n ih =>
    obtain ⟨recent, frequent, hfirst, -⟩ := h.displace_sheds false
    obtain ⟨_, -, hholds⟩ := h.evict.exists_rest
    obtain ⟨recent', frequent', hlater⟩ := ih hholds.inv
    have hfirst' : Sheds c c.evict.1.toList recent frequent c.evict.2 := hfirst
    rcases hevict : c.evict with ⟨_ | e, d⟩ <;> rw [hevict] at hfirst' hlater
    · rw [evictMany_succ_of_none hevict]
      exact ⟨recent, frequent, hfirst'⟩
    · rw [evictMany_succ_of_some hevict]
      exact ⟨_, _, hfirst'.trans hlater⟩

/-- The oldest ghost may be forgotten. -/
theorem evict_suffix {g : Lru κ Unit} (h : g.Valid) : g.evict.2.entries <:+ g.entries := by
  rw [h.evict_entries.2]
  exact List.tail_suffix _

/-- Trimming the ghosts drops no entry. -/
theorem trimGhosts_sheds (h : c.Valid) : Sheds c [] [] [] c.trimGhosts := by
  have hrecent := evict_suffix h.recentGhosts
  have hfrequent := evict_suffix h.frequentGhosts
  rw [Adaptive.trimGhosts]
  split
  · split
    · exact .of_same rfl rfl hrecent hfrequent rfl
    · exact .of_same rfl rfl hrecent (List.suffix_refl _) rfl
  · split
    · exact .of_same rfl rfl (List.suffix_refl _) hfrequent rfl
    · exact .refl c

end Valid

/-! ## A new key -/

/-- The key is in one of the four lists. -/
def lists (c : Adaptive κ ν) (key : κ) : Bool :=
  c.recent.contains key || c.frequent.contains key || c.recentGhosts.contains key ||
    c.frequentGhosts.contains key

namespace Valid

theorem lists_eq_false_iff (h : c.Valid) :
    c.lists k = false ↔ k ∉ keys c.recent.entries ∧ k ∉ keys c.frequent.entries ∧
      k ∉ keys c.recentGhosts.entries ∧ k ∉ keys c.frequentGhosts.entries := by
  rw [lists, Bool.or_eq_false_iff, Bool.or_eq_false_iff, Bool.or_eq_false_iff]
  simp only [← Bool.not_eq_true, h.recent.contains_iff, h.frequent.contains_iff,
    h.recentGhosts.contains_iff, h.frequentGhosts.contains_iff, and_assoc]

/-- No key comes to a list by making room. -/
theorem lists_eq_false_of_narrows (h : c.Valid) (hd : d.Valid) (hnarrows : Narrows c d)
    (hk : c.lists k = false) : d.lists k = false := by
  obtain ⟨hrecent, hfrequent, hrecentGhosts, hfrequentGhosts⟩ := h.lists_eq_false_iff.1 hk
  refine hd.lists_eq_false_iff.2 ⟨mt (hnarrows.recent k) hrecent,
    mt (hnarrows.frequent k) hfrequent, ?_, ?_⟩
  · exact fun hmem => (hnarrows.recentGhosts k hmem).elim hrecentGhosts hrecent
  · exact fun hmem => (hnarrows.frequentGhosts k hmem).elim hfrequentGhosts hfrequent

/-- A key that is in no list comes to the end of the recency part, once room was made for it and the
ghosts were trimmed. -/
theorem put_sheds (h : c.Valid) (hk : c.lists k = false) (v : ν) :
    ∃ t recent frequent, Sheds c (c.put k v).1.toList recent frequent t ∧
      (c.target < c.recent.size → frequent = []) ∧ t.Valid ∧ t.lists k = false ∧
      (c.put k v).2 = { t with recent := (t.recent.put k v).2 } ∧
      (c.put k v).2.recent.entries = t.recent.entries ++ [⟨k, v⟩] := by
  obtain ⟨hrecent, hfrequent, hrecentGhosts, hfrequentGhosts⟩ := h.lists_eq_false_iff.1 hk
  have hput : c.put k v = c.insertNew k v := by
    rw [h.put_eq, if_neg (mt (h.recent.contains_iff k).1 hrecent),
      if_neg (mt (h.frequent.contains_iff k).1 hfrequent),
      if_neg (mt (h.recentGhosts.contains_iff k).1 hrecentGhosts),
      if_neg (mt (h.frequentGhosts.contains_iff k).1 hfrequentGhosts)]
  obtain ⟨recent, frequent, hroom, hkeeps⟩ := h.makeRoom_sheds false
  obtain ⟨hmakes, hnarrows⟩ := h.makeRoom false
  obtain ⟨hp, hcapacity, hlt⟩ := hmakes.size_lt size_eq
  obtain ⟨ht, hnarrows', hrecent', hfrequent'⟩ := hp.trimGhosts
  have hout := h.lists_eq_false_of_narrows ht (hnarrows.trans hnarrows') hk
  have hopen : (c.makeRoom false).2.trimGhosts.recent.size <
      (c.makeRoom false).2.trimGhosts.recent.capacity := by
    have hsize : (c.makeRoom false).2.recent.size + (c.makeRoom false).2.frequent.size <
        c.capacity := hlt
    rw [ht.recent_capacity, hnarrows'.capacity_eq, hrecent', hnarrows.capacity_eq]
    omega
  obtain ⟨-, hentries⟩ :=
    ht.recent.put_entries_of_new (ht.lists_eq_false_iff.1 hout).1 hopen v
  have hsheds := hroom.trans hp.trimGhosts_sheds
  rw [List.append_nil, List.append_nil, List.append_nil] at hsheds
  rw [hput]
  exact ⟨_, recent, frequent, hsheds, hkeeps, ht, hout, rfl, hentries⟩

end Valid

end Adaptive

end BoundedCache
