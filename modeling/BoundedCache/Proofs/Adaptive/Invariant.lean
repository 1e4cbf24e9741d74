import BoundedCache.Proofs.Lfu.Lawful
import BoundedCache.Proofs.Lru.Lawful
import BoundedCache.Store.Adaptive

/-!
# The invariant of adaptive replacement

A key is in at most one of the four lists, the two parts together fit into the capacity, and the
target stays within it. Keys move between the lists one at a time, so it is enough to know when one
list may be exchanged for another.

## Main definitions

- `Adaptive.Valid` — the invariant
- `Adaptive.Narrows` — no key is new, apart from the ghosts of what was dropped

## Main results

- `Adaptive.Valid.withRecent` and the like — one of the lists is exchanged
- `Adaptive.Valid.displace`, `Adaptive.Valid.makeRoom` — an entry becomes a ghost
-/

namespace BoundedCache

namespace Adaptive

open Keyed

variable {κ ν : Type} [DecidableEq κ] [Hashable κ] {c d : Adaptive κ ν} {k : κ} {v : ν}

/-- What holds between any two operations. -/
structure Valid (c : Adaptive κ ν) : Prop where
  recent : c.recent.Valid
  frequent : c.frequent.Valid
  recentGhosts : c.recentGhosts.Valid
  frequentGhosts : c.frequentGhosts.Valid
  recent_capacity : c.recent.capacity = c.capacity
  frequent_capacity : c.frequent.capacity = c.capacity
  recentGhosts_capacity : c.recentGhosts.capacity = c.capacity
  frequentGhosts_capacity : c.frequentGhosts.capacity = c.capacity
  recent_frequent : List.Disjoint (keys c.recent.entries) (keys c.frequent.entries)
  recent_recentGhosts : List.Disjoint (keys c.recent.entries) (keys c.recentGhosts.entries)
  recent_frequentGhosts : List.Disjoint (keys c.recent.entries) (keys c.frequentGhosts.entries)
  frequent_recentGhosts : List.Disjoint (keys c.frequent.entries) (keys c.recentGhosts.entries)
  frequent_frequentGhosts : List.Disjoint (keys c.frequent.entries) (keys c.frequentGhosts.entries)
  ghosts : List.Disjoint (keys c.recentGhosts.entries) (keys c.frequentGhosts.entries)
  size_le : c.size ≤ c.capacity
  target_le : c.target ≤ c.capacity

namespace Valid

theorem capacity_pos (h : c.Valid) : 0 < c.capacity := by
  rw [← h.recent_capacity]
  exact h.recent.capacity_pos

theorem size_eq (h : c.Valid) : c.size = c.entries.length := by
  rw [size, entries, List.length_append, h.recent.size_eq, h.frequent.size_eq]

theorem distinct (h : c.Valid) : Distinct Entry.key c.entries :=
  distinct_append_iff_disjoint.2 ⟨h.recent.distinct, h.frequent.distinct, h.recent_frequent⟩

/-- All that is left to show of an exchange once the invariant holds again. -/
theorem holds (h : d.Valid) {l : List (Entry κ ν)} (hcapacity : d.capacity = c.capacity)
    (hp : d.entries.Perm l) : Store.Holds Valid (Store.capacity c) l d := ⟨h, hcapacity, hp⟩

/-! ## Exchanging one list -/

theorem withTarget (h : c.Valid) {n : Nat} (hn : n ≤ c.capacity) : Valid { c with target := n } :=
  { h with target_le := hn }

/-- The recency part may be exchanged for one whose keys were in it already, or in no list. -/
theorem withRecent (h : c.Valid) {r : Lru κ ν} {l : List (Entry κ ν)}
    (hr : Store.Holds Lru.Valid c.recent.capacity l r)
    (hkeys : ∀ k ∈ keys l, k ∈ keys c.recent.entries ∨ k ∉ keys c.frequent.entries ∧
      k ∉ keys c.recentGhosts.entries ∧ k ∉ keys c.frequentGhosts.entries)
    (hsize : l.length + c.frequent.size ≤ c.capacity) : Valid { c with recent := r } := by
  have hkeys' k (hk : k ∈ keys r.entries) := hkeys k ((mem_keys_perm hr.perm).1 hk)
  exact { h with
    recent := hr.inv
    recent_capacity := hr.capacity_eq.trans h.recent_capacity
    recent_frequent := disjoint_exchange_left h.recent_frequent fun k hk =>
      (hkeys' k hk).imp_right (·.1)
    recent_recentGhosts := disjoint_exchange_left h.recent_recentGhosts fun k hk =>
      (hkeys' k hk).imp_right (·.2.1)
    recent_frequentGhosts := disjoint_exchange_left h.recent_frequentGhosts fun k hk =>
      (hkeys' k hk).imp_right (·.2.2)
    size_le := by
      show r.size + c.frequent.size ≤ c.capacity
      rwa [Lru.size_of_holds hr] }

/-- The frequency part may be exchanged for one whose keys were in it already, or in no list. -/
theorem withFrequent (h : c.Valid) {f : Lfu κ ν} {l : List (Entry κ ν)}
    (hf : Store.Holds Lfu.Valid c.frequent.capacity l f)
    (hkeys : ∀ k ∈ keys l, k ∈ keys c.frequent.entries ∨ k ∉ keys c.recent.entries ∧
      k ∉ keys c.recentGhosts.entries ∧ k ∉ keys c.frequentGhosts.entries)
    (hsize : c.recent.size + l.length ≤ c.capacity) : Valid { c with frequent := f } := by
  have hkeys' k (hk : k ∈ keys f.entries) := hkeys k ((mem_keys_perm hf.perm).1 hk)
  exact { h with
    frequent := hf.inv
    frequent_capacity := hf.capacity_eq.trans h.frequent_capacity
    recent_frequent := disjoint_exchange_right h.recent_frequent fun k hk =>
      (hkeys' k hk).imp_right (·.1)
    frequent_recentGhosts := disjoint_exchange_left h.frequent_recentGhosts fun k hk =>
      (hkeys' k hk).imp_right (·.2.1)
    frequent_frequentGhosts := disjoint_exchange_left h.frequent_frequentGhosts fun k hk =>
      (hkeys' k hk).imp_right (·.2.2)
    size_le := by
      show c.recent.size + f.size ≤ c.capacity
      rwa [Lfu.size_of_holds hf] }

/-- The ghosts of the recency part may be exchanged likewise. -/
theorem withRecentGhosts (h : c.Valid) {g : Lru κ Unit} {l : List (Entry κ Unit)}
    (hg : Store.Holds Lru.Valid c.recentGhosts.capacity l g)
    (hkeys : ∀ k ∈ keys l, k ∈ keys c.recentGhosts.entries ∨ k ∉ keys c.recent.entries ∧
      k ∉ keys c.frequent.entries ∧ k ∉ keys c.frequentGhosts.entries) :
    Valid { c with recentGhosts := g } := by
  have hkeys' k (hk : k ∈ keys g.entries) := hkeys k ((mem_keys_perm hg.perm).1 hk)
  exact { h with
    recentGhosts := hg.inv
    recentGhosts_capacity := hg.capacity_eq.trans h.recentGhosts_capacity
    recent_recentGhosts := disjoint_exchange_right h.recent_recentGhosts fun k hk =>
      (hkeys' k hk).imp_right (·.1)
    frequent_recentGhosts := disjoint_exchange_right h.frequent_recentGhosts fun k hk =>
      (hkeys' k hk).imp_right (·.2.1)
    ghosts := disjoint_exchange_left h.ghosts fun k hk => (hkeys' k hk).imp_right (·.2.2) }

/-- The ghosts of the frequency part may be exchanged likewise. -/
theorem withFrequentGhosts (h : c.Valid) {g : Lru κ Unit} {l : List (Entry κ Unit)}
    (hg : Store.Holds Lru.Valid c.frequentGhosts.capacity l g)
    (hkeys : ∀ k ∈ keys l, k ∈ keys c.frequentGhosts.entries ∨ k ∉ keys c.recent.entries ∧
      k ∉ keys c.frequent.entries ∧ k ∉ keys c.recentGhosts.entries) :
    Valid { c with frequentGhosts := g } := by
  have hkeys' k (hk : k ∈ keys g.entries) := hkeys k ((mem_keys_perm hg.perm).1 hk)
  exact { h with
    frequentGhosts := hg.inv
    frequentGhosts_capacity := hg.capacity_eq.trans h.frequentGhosts_capacity
    recent_frequentGhosts := disjoint_exchange_right h.recent_frequentGhosts fun k hk =>
      (hkeys' k hk).imp_right (·.1)
    frequent_frequentGhosts := disjoint_exchange_right h.frequent_frequentGhosts fun k hk =>
      (hkeys' k hk).imp_right (·.2.1)
    ghosts := disjoint_exchange_right h.ghosts fun k hk => (hkeys' k hk).imp_right (·.2.2) }

/-- All lists may be exchanged at once for ones without new keys. -/
theorem narrow (h : c.Valid) {n target : Nat} {r : Lru κ ν} {f : Lfu κ ν} {rg fg : Lru κ Unit}
    {lr lf : List (Entry κ ν)} {lrg lfg : List (Entry κ Unit)}
    (hr : Store.Holds Lru.Valid n lr r) (hf : Store.Holds Lfu.Valid n lf f)
    (hrg : Store.Holds Lru.Valid n lrg rg) (hfg : Store.Holds Lru.Valid n lfg fg)
    (hrecent : keys lr ⊆ keys c.recent.entries) (hfrequent : keys lf ⊆ keys c.frequent.entries)
    (hrecentGhosts : keys lrg ⊆ keys c.recentGhosts.entries)
    (hfrequentGhosts : keys lfg ⊆ keys c.frequentGhosts.entries)
    (hsize : lr.length + lf.length ≤ n) (htarget : target ≤ n) :
    Valid ⟨n, target, r, f, rg, fg⟩ := by
  have hr' : keys r.entries ⊆ _ := List.Subset.trans (keys_subset_of_perm hr.perm) hrecent
  have hf' : keys f.entries ⊆ _ := List.Subset.trans (keys_subset_of_perm hf.perm) hfrequent
  have hrg' : keys rg.entries ⊆ _ := List.Subset.trans (keys_subset_of_perm hrg.perm) hrecentGhosts
  have hfg' : keys fg.entries ⊆ _ :=
    List.Subset.trans (keys_subset_of_perm hfg.perm) hfrequentGhosts
  exact {
    recent := hr.inv
    frequent := hf.inv
    recentGhosts := hrg.inv
    frequentGhosts := hfg.inv
    recent_capacity := hr.capacity_eq
    frequent_capacity := hf.capacity_eq
    recentGhosts_capacity := hrg.capacity_eq
    frequentGhosts_capacity := hfg.capacity_eq
    recent_frequent := disjoint_mono h.recent_frequent hr' hf'
    recent_recentGhosts := disjoint_mono h.recent_recentGhosts hr' hrg'
    recent_frequentGhosts := disjoint_mono h.recent_frequentGhosts hr' hfg'
    frequent_recentGhosts := disjoint_mono h.frequent_recentGhosts hf' hrg'
    frequent_frequentGhosts := disjoint_mono h.frequent_frequentGhosts hf' hfg'
    ghosts := disjoint_mono h.ghosts hrg' hfg'
    size_le := by
      show r.size + f.size ≤ n
      rwa [Lru.size_of_holds hr, Lfu.size_of_holds hf]
    target_le := htarget }

end Valid

/-! ## Making room -/

/-- No key is new, apart from the ghosts of what was dropped. -/
structure Narrows (c d : Adaptive κ ν) : Prop where
  capacity_eq : d.capacity = c.capacity
  target_eq : d.target = c.target
  recent : ∀ k ∈ keys d.recent.entries, k ∈ keys c.recent.entries
  frequent : ∀ k ∈ keys d.frequent.entries, k ∈ keys c.frequent.entries
  recentGhosts : ∀ k ∈ keys d.recentGhosts.entries,
    k ∈ keys c.recentGhosts.entries ∨ k ∈ keys c.recent.entries
  frequentGhosts : ∀ k ∈ keys d.frequentGhosts.entries,
    k ∈ keys c.frequentGhosts.entries ∨ k ∈ keys c.frequent.entries

theorem Narrows.refl (c : Adaptive κ ν) : Narrows c c :=
  ⟨rfl, rfl, fun _ h => h, fun _ h => h, fun _ h => .inl h, fun _ h => .inl h⟩

theorem Narrows.trans {e : Adaptive κ ν} (hcd : Narrows c d) (hde : Narrows d e) : Narrows c e where
  capacity_eq := hde.capacity_eq.trans hcd.capacity_eq
  target_eq := hde.target_eq.trans hcd.target_eq
  recent k hk := hcd.recent k (hde.recent k hk)
  frequent k hk := hcd.frequent k (hde.frequent k hk)
  recentGhosts := by
    intro k hk
    rcases hde.recentGhosts k hk with hghost | hbound
    · exact hcd.recentGhosts k hghost
    · exact .inr (hcd.recent k hbound)
  frequentGhosts := by
    intro k hk
    rcases hde.frequentGhosts k hk with hghost | hbound
    · exact hcd.frequentGhosts k hghost
    · exact .inr (hcd.frequent k hbound)

/-- A ghost comes to a list, from which another one may have to go. -/
theorem mem_ghosts_put {g : Lru κ Unit} (hg : g.Valid) (k : κ) :
    ∃ l, Store.Holds Lru.Valid g.capacity l (g.put k ()).2 ∧
      ∀ k' ∈ keys l, k' = k ∨ k' ∈ keys g.entries := by
  obtain ⟨rest, hp, hput⟩ := (hg.put k ()).exists_rest
  refine ⟨_, hput, fun k' hk' => ?_⟩
  rcases (mem_keys_insert (.refl _)).1 hk' with rfl | hrest
  · exact .inl rfl
  · exact .inr (mem_keys_of_kept hp hrest)

namespace Valid

/-- An entry of the recency part becomes a ghost. -/
theorem displace_recent (h : c.Valid) {e : Entry κ ν} {r : Lru κ ν} {rest : List (Entry κ ν)}
    (hp : c.recent.entries.Perm (e :: rest)) (hr : Store.Holds Lru.Valid c.recent.capacity rest r) :
    let d := { c with recent := r, recentGhosts := (c.recentGhosts.put e.key ()).2 }
    d.Valid ∧ Narrows c d := by
  intro d
  have hold : ∀ k ∈ keys rest, k ∈ keys c.recent.entries := by
    intro k hk
    exact mem_keys_of_rest hp hk
  have he : e.key ∈ keys c.recent.entries := head_mem_keys hp
  have hlength : rest.length + c.frequent.size ≤ c.capacity := by
    have hsize : c.recent.size + c.frequent.size ≤ c.capacity := h.size_le
    have hcount := hp.length_eq
    rw [List.length_cons, ← h.recent.size_eq] at hcount
    omega
  -- The entry leaves its part first, so its key is in no list when it becomes a ghost.
  have hshrunk := h.withRecent hr (fun k hk => .inl (hold k hk)) hlength
  obtain ⟨l, hput, hkeys⟩ := mem_ghosts_put h.recentGhosts e.key
  have hout : e.key ∉ keys r.entries := by
    intro hk
    exact not_mem_keys_rest h.recent.distinct hp ((mem_keys_perm hr.perm).1 hk)
  refine ⟨hshrunk.withRecentGhosts hput ?_, rfl, rfl, ?_, fun _ hk => hk, ?_, fun _ hk => .inl hk⟩
  · intro k hk
    rcases hkeys k hk with rfl | hghost
    · exact .inr ⟨hout, h.recent_frequent he, h.recent_frequentGhosts he⟩
    · exact .inl hghost
  · intro k hk
    exact hold k ((mem_keys_perm hr.perm).1 hk)
  · intro k hk
    rcases hkeys k ((mem_keys_perm hput.perm).1 hk) with rfl | hghost
    · exact .inr he
    · exact .inl hghost

/-- An entry of the frequency part becomes a ghost. -/
theorem displace_frequent (h : c.Valid) {e : Entry κ ν} {f : Lfu κ ν} {rest : List (Entry κ ν)}
    (hp : c.frequent.entries.Perm (e :: rest))
    (hf : Store.Holds Lfu.Valid c.frequent.capacity rest f) :
    let d := { c with frequent := f, frequentGhosts := (c.frequentGhosts.put e.key ()).2 }
    d.Valid ∧ Narrows c d := by
  intro d
  have hold : ∀ k ∈ keys rest, k ∈ keys c.frequent.entries := by
    intro k hk
    exact mem_keys_of_rest hp hk
  have he : e.key ∈ keys c.frequent.entries := head_mem_keys hp
  have hlength : c.recent.size + rest.length ≤ c.capacity := by
    have hsize : c.recent.size + c.frequent.size ≤ c.capacity := h.size_le
    have hcount := hp.length_eq
    rw [List.length_cons, ← h.frequent.size_eq] at hcount
    omega
  have hshrunk := h.withFrequent hf (fun k hk => .inl (hold k hk)) hlength
  obtain ⟨l, hput, hkeys⟩ := mem_ghosts_put h.frequentGhosts e.key
  have hout : e.key ∉ keys f.entries := by
    intro hk
    exact not_mem_keys_rest h.frequent.distinct hp ((mem_keys_perm hf.perm).1 hk)
  refine ⟨hshrunk.withFrequentGhosts hput ?_, rfl, rfl, fun _ hk => hk, ?_, fun _ hk => .inl hk, ?_⟩
  · intro k hk
    rcases hkeys k hk with rfl | hghost
    · exact .inr ⟨fun hr => h.recent_frequent hr he, hout, h.frequent_recentGhosts he⟩
    · exact .inl hghost
  · intro k hk
    exact hold k ((mem_keys_perm hf.perm).1 hk)
  · intro k hk
    rcases hkeys k ((mem_keys_perm hput.perm).1 hk) with rfl | hghost
    · exact .inr he
    · exact .inl hghost

/-- Whatever the target and the preference on a tie, an entry is dropped unless there is none. -/
theorem displace (h : c.Valid) (onTie : Bool) :
    Store.Evicts Valid c (c.displace onTie) ∧ Narrows c (c.displace onTie).2 := by
  have hsize : c.recent.size = c.recent.entries.length := h.recent.size_eq
  rw [Adaptive.displace]
  split
  · next hgives =>
    have hlaw := h.recent.evict
    rcases hevict : c.recent.evict with ⟨_ | e, r⟩ <;> rw [hevict] at hlaw
    · -- The part that gives way has entries.
      have hnil : c.recent.entries = [] := hlaw.eq_none_iff.1 rfl
      rw [givesRecent, hsize, hnil] at hgives
      exact absurd hgives Bool.false_ne_true
    · obtain ⟨rest, hp, hr⟩ := hlaw.of_some rfl
      obtain ⟨hd, hnarrows⟩ := h.displace_recent hp hr
      have hp' : c.entries.Perm (e :: (rest ++ c.frequent.entries)) := hp.append_right _
      exact ⟨Store.evicts_some hp' (hd.holds rfl (hr.perm.append_right _)), hnarrows⟩
  · next hkeeps =>
    have hlaw := h.frequent.evict
    rcases hevict : c.frequent.evict with ⟨_ | e, f⟩ <;> rw [hevict] at hlaw
    · -- With an empty frequency part only an empty recency part keeps its entries.
      obtain ⟨hnil, hf⟩ := hlaw.of_none rfl
      have hfrequent : c.frequent.entries = [] := hnil
      have hempty : c.frequent.isEmpty = true := by
        rw [Lfu.isEmpty, h.frequent.size_eq, hfrequent]
        rfl
      have hrecent : c.recent.entries = [] := by
        rw [givesRecent, hempty, Bool.or_true, Bool.and_true, decide_eq_true_iff, hsize] at hkeeps
        exact List.length_eq_zero_iff.1 (Nat.eq_zero_of_not_pos hkeeps)
      have hd : Valid { c with frequent := f } := by
        refine h.withFrequent hf (fun k hk => absurd hk List.not_mem_nil) ?_
        have hle : c.recent.size + c.frequent.size ≤ c.capacity := h.size_le
        rw [List.length_nil]
        omega
      refine ⟨Store.evicts_none ?_ (hd.holds rfl ?_), rfl, rfl, fun _ hk => hk, ?_,
        fun _ hk => .inl hk, fun _ hk => .inl hk⟩
      · show c.recent.entries ++ c.frequent.entries = []
        rw [hrecent, hfrequent]
        rfl
      · show (c.recent.entries ++ f.entries).Perm []
        rw [hrecent]
        exact hf.perm
      · intro k hk
        exact absurd ((mem_keys_perm hf.perm).1 hk) List.not_mem_nil
    · obtain ⟨rest, hp, hf⟩ := hlaw.of_some rfl
      obtain ⟨hd, hnarrows⟩ := h.displace_frequent hp hf
      have hp' : c.entries.Perm (e :: (c.recent.entries ++ rest)) :=
        (hp.append_left c.recent.entries).trans List.perm_middle
      exact ⟨Store.evicts_some hp' (hd.holds rfl (hf.perm.append_left _)), hnarrows⟩

theorem makeRoom (h : c.Valid) (onTie : Bool) :
    Store.MakesRoom Valid c (c.makeRoom onTie) ∧ Narrows c (c.makeRoom onTie).2 := by
  obtain ⟨hevicts, hnarrows⟩ := h.displace onTie
  refine ⟨Store.makesRoom_of_evicts h h.size_eq h.size_le h.capacity_pos decide_eq_true_iff hevicts,
    ?_⟩
  rw [Adaptive.makeRoom]
  split
  · exact hnarrows
  · exact .refl c

end Valid

end Adaptive

end BoundedCache
