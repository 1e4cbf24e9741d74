import BoundedCache.Proofs.Adaptive.Invariant

/-!
# Adaptive replacement is lawful

The operations keep the invariant and act as those of a bounded map. A key that comes to either part
has left all other lists before, and room was made for it if there was none.

## Main definitions

- `Adaptive.grown`, `Adaptive.shrunk` — the target after a ghost of either part has come back

## Main results

- `Adaptive.Valid.put_eq` — the cases of a put, told by where the key is
- `Adaptive.Valid.put`, `Adaptive.Valid.get` and the like — what the operations do
- `Adaptive.lawful` — the laws of a bounded map
-/

namespace BoundedCache

namespace Adaptive

open Keyed

variable {κ ν : Type} [DecidableEq κ] [Hashable κ] {c d : Adaptive κ ν} {k : κ} {v : ν}

/-- The target after a ghost of the recency part has come back. -/
def grown (c : Adaptive κ ν) : Adaptive κ ν :=
  let step := max (c.frequentGhosts.size / c.recentGhosts.size) 1
  { c with target := min (c.target + step) c.capacity }

/-- The target after a ghost of the frequency part has come back. -/
def shrunk (c : Adaptive κ ν) : Adaptive κ ν :=
  let step := max (c.recentGhosts.size / c.frequentGhosts.size) 1
  { c with target := c.target - step }

namespace Valid

theorem grown (h : c.Valid) : c.grown.Valid := h.withTarget (Nat.min_le_right ..)

theorem shrunk (h : c.Valid) : c.shrunk.Valid :=
  h.withTarget ((Nat.sub_le ..).trans h.target_le)

/-! ## A key comes to a part -/

/-- A key that is in no other list comes to the frequency part, which displaces nothing for it. -/
theorem putFrequent (h : c.Valid) (hrecent : k ∉ keys c.recent.entries)
    (hrecentGhosts : k ∉ keys c.recentGhosts.entries)
    (hfrequentGhosts : k ∉ keys c.frequentGhosts.entries)
    (hroom : k ∈ keys c.frequent.entries ∨ c.size < c.capacity) (v : ν) :
    (c.frequent.put k v).1 = none ∧
      Store.Holds Valid (Store.capacity c) (⟨k, v⟩ :: erase Entry.key k c.entries)
        (c.putFrequent k v) := by
  have hsize : c.recent.size + c.frequent.size ≤ c.capacity := h.size_le
  have hopen : k ∈ keys c.frequent.entries ∨ c.frequent.size < c.frequent.capacity := by
    rw [h.frequent_capacity]
    refine hroom.imp_right fun hlt => ?_
    rw [size] at hlt
    omega
  obtain ⟨hnone, hf⟩ := (h.frequent.put k v).of_room (hopen.imp_left lookup?_ne_none_iff.2)
  have hlength : (⟨k, v⟩ :: erase Entry.key k c.frequent.entries).length ≤
      c.capacity - c.recent.size := by
    refine length_insert_le h.frequent.distinct ?_ ?_ v
    · rw [← h.frequent.size_eq]
      omega
    · rw [← h.frequent.size_eq]
      refine hroom.imp_right fun hlt => ?_
      rw [size] at hlt
      omega
  refine ⟨hnone, holds (h.withFrequent hf ?_ ?_) rfl ?_⟩
  · intro k' hk'
    rcases (mem_keys_insert (.refl _)).1 hk' with rfl | hold
    · exact .inr ⟨hrecent, hrecentGhosts, hfrequentGhosts⟩
    · exact .inl hold
  · have hrecent' := h.recent.size_le
    rw [h.recent_capacity] at hrecent'
    show c.recent.size + (⟨k, v⟩ :: erase Entry.key k c.frequent.entries).length ≤ c.capacity
    omega
  · refine append_insert_right ?_ hf.perm
    rw [erase_eq_self_of_not_mem hrecent]

/-- A key that is in no list comes to the recency part, which displaces nothing for it. -/
theorem putRecent (h : c.Valid) (hrecent : k ∉ keys c.recent.entries)
    (hfrequent : k ∉ keys c.frequent.entries) (hrecentGhosts : k ∉ keys c.recentGhosts.entries)
    (hfrequentGhosts : k ∉ keys c.frequentGhosts.entries) (hroom : c.size < c.capacity) (v : ν) :
    (c.recent.put k v).1 = none ∧
      Store.Holds Valid (Store.capacity c) (⟨k, v⟩ :: c.entries)
        { c with recent := (c.recent.put k v).2 } := by
  have hroom' : c.recent.size + c.frequent.size < c.capacity := hroom
  have hopen : c.recent.size < c.recent.capacity := by
    rw [h.recent_capacity]
    omega
  obtain ⟨hnone, hr⟩ := (h.recent.put k v).of_room (.inr hopen)
  have herase : erase Entry.key k (Store.entries c.recent) = c.recent.entries :=
    erase_eq_self_of_not_mem hrecent
  rw [herase] at hr
  refine ⟨hnone, holds (h.withRecent hr ?_ ?_) rfl (hr.perm.append_right _)⟩
  · intro k' hk'
    rcases List.mem_cons.1 hk' with rfl | hold
    · exact .inr ⟨hfrequent, hrecentGhosts, hfrequentGhosts⟩
    · exact .inl hold
  · rw [List.length_cons, ← h.recent.size_eq]
    omega

/-- A key that leaves the recency part is in no list after that, and there is room for it. -/
theorem takeRecent (h : c.Valid) (hk : k ∈ keys c.recent.entries) :
    let d := { c with recent := (c.recent.remove k).2 }
    d.Valid ∧ d.size < d.capacity ∧ k ∉ keys d.recent.entries ∧
      d.entries.Perm (erase Entry.key k c.entries) := by
  intro d
  have hr := (h.recent.remove k).holds
  have hsize : c.recent.size + c.frequent.size ≤ c.capacity := h.size_le
  obtain ⟨w, hw⟩ := exists_lookup?_eq_some hk
  have hlength := length_erase_of_lookup? h.recent.distinct hw
  rw [← h.recent.size_eq] at hlength
  have hsize' : (c.recent.remove k).2.size = (erase Entry.key k c.recent.entries).length :=
    Lru.size_of_holds hr
  refine ⟨h.withRecent hr (fun k' hk' => .inl (mem_keys_erase.1 hk').1) ?_, ?_, ?_, ?_⟩
  · show (erase Entry.key k c.recent.entries).length + c.frequent.size ≤ c.capacity
    omega
  · show (c.recent.remove k).2.size + c.frequent.size < c.capacity
    omega
  · intro hmem
    exact (mem_keys_erase.1 ((mem_keys_perm hr.perm).1 hmem)).2 rfl
  · show ((c.recent.remove k).2.entries ++ c.frequent.entries).Perm
      (erase Entry.key k (c.recent.entries ++ c.frequent.entries))
    rw [erase_append, erase_eq_self_of_not_mem (h.recent_frequent hk)]
    exact hr.perm.append_right _

/-- A key that was seen once and is used again moves to the frequency part. -/
theorem promote (h : c.Valid) (hk : k ∈ keys c.recent.entries) (v : ν) :
    let d := { c with recent := (c.recent.remove k).2 }
    (d.frequent.put k v).1 = none ∧
      Store.Holds Valid (Store.capacity c) (⟨k, v⟩ :: erase Entry.key k c.entries)
        (d.putFrequent k v) := by
  intro d
  obtain ⟨hd, hroom, hout, hp⟩ := h.takeRecent hk
  obtain ⟨hnone, hinv, hcapacity, hput⟩ := hd.putFrequent hout (h.recent_recentGhosts hk)
    (h.recent_frequentGhosts hk) (.inr hroom) v
  refine ⟨hnone, hinv, hcapacity, hput.trans (.cons _ ?_)⟩
  have herase := erase_perm hp k
  rwa [erase_erase] at herase

/-! ## Ghosts go -/

theorem forgetRecentGhost (h : c.Valid) :
    let d := { c with recentGhosts := c.recentGhosts.evict.2 }
    d.Valid ∧ Narrows c d := by
  intro d
  obtain ⟨rest, hp, hrest⟩ := h.recentGhosts.evict.exists_rest
  have hold : ∀ k ∈ keys rest, k ∈ keys c.recentGhosts.entries := by
    intro k hk
    exact mem_keys_of_kept hp hk
  refine ⟨h.withRecentGhosts hrest fun k hk => .inl (hold k hk), rfl, rfl, fun _ hk => hk,
    fun _ hk => hk, ?_, fun _ hk => .inl hk⟩
  intro k hk
  exact .inl (hold k ((mem_keys_perm hrest.perm).1 hk))

theorem forgetFrequentGhost (h : c.Valid) :
    let d := { c with frequentGhosts := c.frequentGhosts.evict.2 }
    d.Valid ∧ Narrows c d := by
  intro d
  obtain ⟨rest, hp, hrest⟩ := h.frequentGhosts.evict.exists_rest
  have hold : ∀ k ∈ keys rest, k ∈ keys c.frequentGhosts.entries := by
    intro k hk
    exact mem_keys_of_kept hp hk
  refine ⟨h.withFrequentGhosts hrest fun k hk => .inl (hold k hk), rfl, rfl, fun _ hk => hk,
    fun _ hk => hk, fun _ hk => .inl hk, ?_⟩
  intro k hk
  exact .inl (hold k ((mem_keys_perm hrest.perm).1 hk))

/-- Trimming the ghosts leaves the entries alone. -/
theorem trimGhosts (h : c.Valid) : c.trimGhosts.Valid ∧ Narrows c c.trimGhosts ∧
    c.trimGhosts.recent = c.recent ∧ c.trimGhosts.frequent = c.frequent := by
  rw [Adaptive.trimGhosts]
  split
  · obtain ⟨hd, hnarrows⟩ := h.forgetRecentGhost
    split
    · obtain ⟨he, hnarrows'⟩ := hd.forgetFrequentGhost
      exact ⟨he, hnarrows.trans hnarrows', rfl, rfl⟩
    · exact ⟨hd, hnarrows, rfl, rfl⟩
  · split
    · obtain ⟨hd, hnarrows⟩ := h.forgetFrequentGhost
      exact ⟨hd, hnarrows, rfl, rfl⟩
    · exact ⟨h, .refl c, rfl, rfl⟩

theorem removeRecentGhost (h : c.Valid) (k : κ) :
    let d := { c with recentGhosts := (c.recentGhosts.remove k).2 }
    d.Valid ∧ k ∉ keys d.recentGhosts.entries := by
  intro d
  have hg := (h.recentGhosts.remove k).holds
  refine ⟨h.withRecentGhosts hg fun k' hk' => .inl (mem_keys_erase.1 hk').1, ?_⟩
  intro hmem
  exact (mem_keys_erase.1 ((mem_keys_perm hg.perm).1 hmem)).2 rfl

theorem removeFrequentGhost (h : c.Valid) (k : κ) :
    let d := { c with frequentGhosts := (c.frequentGhosts.remove k).2 }
    d.Valid ∧ k ∉ keys d.frequentGhosts.entries := by
  intro d
  have hg := (h.frequentGhosts.remove k).holds
  refine ⟨h.withFrequentGhosts hg fun k' hk' => .inl (mem_keys_erase.1 hk').1, ?_⟩
  intro hmem
  exact (mem_keys_erase.1 ((mem_keys_perm hg.perm).1 hmem)).2 rfl

/-! ## Putting -/

theorem not_mem_keys_entries (hrecent : k ∉ keys c.recent.entries)
    (hfrequent : k ∉ keys c.frequent.entries) : k ∉ keys c.entries :=
  not_mem_keys_append.2 ⟨hrecent, hfrequent⟩

/-- A ghost that is no longer in its list comes to the frequency part, where room was made. -/
theorem revive {p : Option (Entry κ ν) × Adaptive κ ν} (hroom : Store.MakesRoom Valid c p)
    (hunbound : k ∉ keys c.entries) (hd : d.Valid) (hentries : d.entries = p.2.entries)
    (hcapacity : d.capacity = p.2.capacity) (hrecentGhosts : k ∉ keys d.recentGhosts.entries)
    (hfrequentGhosts : k ∉ keys d.frequentGhosts.entries) (v : ν) :
    (d.frequent.put k v).1 = none ∧ Store.Puts Valid c k v (p.1, d.putFrequent k v) := by
  obtain ⟨hp, hcapacity', hlt⟩ := hroom.size_lt size_eq
  have hsize : d.size < d.capacity := by
    rw [hd.size_eq, hentries, ← hp.size_eq, hcapacity]
    exact hlt.trans_eq hcapacity'.symm
  have hout : k ∉ keys d.entries := by
    rw [hentries]
    exact hroom.not_mem_keys hunbound
  have hrecent : k ∉ keys d.recent.entries := (not_mem_keys_append.1 hout).1
  obtain ⟨hnone, hput⟩ := hd.putFrequent hrecent hrecentGhosts hfrequentGhosts (.inr hsize) v
  refine ⟨hnone, hroom.puts hunbound ⟨hput.inv, ?_, ?_⟩⟩
  · exact hput.capacity_eq.trans (hcapacity.trans hcapacity')
  · refine hput.perm.trans ?_
    rw [erase_eq_self_of_not_mem hout, hentries]
    exact .refl _

/-- A ghost of the recency part comes back. Making room for it may have pushed it out of its list
already. -/
theorem reviveRecent (h : c.Valid) (hk : k ∈ keys c.recentGhosts.entries) (v : ν) :
    ((c.grown.makeRoom false).2.frequent.put k v).1 = none ∧
      Store.Puts Valid c k v (c.reviveRecent k v) := by
  obtain ⟨⟨hrest, hsome⟩, hnarrows⟩ := h.grown.makeRoom false
  obtain ⟨hd, hout⟩ := hrest.elim fun _ hrest => hrest.2.1.inv.removeRecentGhost k
  have hunbound : k ∉ keys c.entries := not_mem_keys_entries
    (fun hmem => h.recent_recentGhosts hmem hk) (fun hmem => h.frequent_recentGhosts hmem hk)
  refine revive (c := c) ⟨hrest, hsome⟩ hunbound hd rfl rfl hout ?_ v
  -- A key that became a ghost just now was bound before, but this one was not.
  intro hmem
  rcases hnarrows.frequentGhosts k hmem with hghost | hbound
  · exact h.ghosts hk hghost
  · exact h.frequent_recentGhosts hbound hk

/-- A ghost of the frequency part comes back. -/
theorem reviveFrequent (h : c.Valid) (hk : k ∈ keys c.frequentGhosts.entries) (v : ν) :
    ((c.shrunk.makeRoom true).2.frequent.put k v).1 = none ∧
      Store.Puts Valid c k v (c.reviveFrequent k v) := by
  obtain ⟨⟨hrest, hsome⟩, hnarrows⟩ := h.shrunk.makeRoom true
  obtain ⟨hd, hout⟩ := hrest.elim fun _ hrest => hrest.2.1.inv.removeFrequentGhost k
  have hunbound : k ∉ keys c.entries := not_mem_keys_entries
    (fun hmem => h.recent_frequentGhosts hmem hk) (fun hmem => h.frequent_frequentGhosts hmem hk)
  refine revive (c := c) ⟨hrest, hsome⟩ hunbound hd rfl rfl ?_ hout v
  intro hmem
  rcases hnarrows.recentGhosts k hmem with hghost | hbound
  · exact h.ghosts hghost hk
  · exact h.recent_frequentGhosts hbound hk

/-- A key that is in no list comes to the recency part. -/
theorem insertNew (h : c.Valid) (hrecent : k ∉ keys c.recent.entries)
    (hfrequent : k ∉ keys c.frequent.entries) (hrecentGhosts : k ∉ keys c.recentGhosts.entries)
    (hfrequentGhosts : k ∉ keys c.frequentGhosts.entries) (v : ν) :
    ((c.makeRoom false).2.trimGhosts.recent.put k v).1 = none ∧
      Store.Puts Valid c k v (c.insertNew k v) := by
  obtain ⟨hroom, hnarrows⟩ := h.makeRoom false
  obtain ⟨hp, hcapacity, hlt⟩ := hroom.size_lt size_eq
  obtain ⟨hd, hnarrows', hrecent', hfrequent'⟩ := hp.trimGhosts
  -- Neither making room nor trimming brings the key into a list.
  have hout := hnarrows.trans hnarrows'
  have hsize : (c.makeRoom false).2.trimGhosts.size < (c.makeRoom false).2.trimGhosts.capacity := by
    rw [hnarrows'.capacity_eq, size, hrecent', hfrequent']
    exact hlt.trans_eq hcapacity.symm
  obtain ⟨hnone, hput⟩ := hd.putRecent (fun hmem => hrecent (hout.recent k hmem))
    (fun hmem => hfrequent (hout.frequent k hmem))
    (fun hmem => (hout.recentGhosts k hmem).elim hrecentGhosts hrecent)
    (fun hmem => (hout.frequentGhosts k hmem).elim hfrequentGhosts hfrequent) hsize v
  refine ⟨hnone, hroom.puts (not_mem_keys_entries hrecent hfrequent) ⟨hput.inv, ?_, ?_⟩⟩
  · exact hput.capacity_eq.trans hout.capacity_eq
  · refine hput.perm.trans (.of_eq ?_)
    rw [entries, hrecent', hfrequent']
    rfl

/-- The cases of a put, told by which list the key is in. -/
theorem put_eq (h : c.Valid) (k : κ) (v : ν) :
    c.put k v =
      if c.recent.contains k then
        (none, Adaptive.putFrequent { c with recent := (c.recent.remove k).2 } k v)
      else if c.frequent.contains k then (none, c.putFrequent k v)
      else if c.recentGhosts.contains k then c.reviveRecent k v
      else if c.frequentGhosts.contains k then c.reviveFrequent k v
      else c.insertNew k v := by
  rw [Adaptive.put_def]
  by_cases hk : k ∈ keys c.recent.entries
  · obtain ⟨w, -, hremove⟩ := h.recent.exists_remove_eq hk
    rw [hremove, if_pos ((h.recent.contains_iff k).2 hk)]
  · rw [h.recent.remove_of_not_mem hk, if_neg (mt (h.recent.contains_iff k).1 hk)]

/-- A put binds its key, and displaces an entry only if the key is new and there is no room. -/
theorem put (h : c.Valid) (k : κ) (v : ν) : Store.Puts Valid c k v (c.put k v) := by
  rw [h.put_eq]
  split
  · next hcontains =>
    have hrecent := (h.recent.contains_iff k).1 hcontains
    have hbound : lookup? k c.entries ≠ none :=
      lookup?_ne_none_iff.2 (mem_keys_append.2 (.inl hrecent))
    exact Store.puts_none (.inl hbound) (h.promote hrecent v).2
  next hcontains =>
  have hrecent := mt (h.recent.contains_iff k).2 hcontains
  split
  · next hcontains =>
    have hfrequent := (h.frequent.contains_iff k).1 hcontains
    have hbound : lookup? k c.entries ≠ none :=
      lookup?_ne_none_iff.2 (mem_keys_append.2 (.inr hfrequent))
    exact Store.puts_none (.inl hbound) (h.putFrequent hrecent (h.frequent_recentGhosts hfrequent)
      (h.frequent_frequentGhosts hfrequent) (.inl hfrequent) v).2
  next hcontains =>
  have hfrequent := mt (h.frequent.contains_iff k).2 hcontains
  split
  · next hghost => exact (h.reviveRecent ((h.recentGhosts.contains_iff k).1 hghost) v).2
  next hrecentGhosts =>
  split
  · next hghost => exact (h.reviveFrequent ((h.frequentGhosts.contains_iff k).1 hghost) v).2
  next hfrequentGhosts =>
  exact (h.insertNew hrecent hfrequent (mt (h.recentGhosts.contains_iff k).2 hrecentGhosts)
    (mt (h.frequentGhosts.contains_iff k).2 hfrequentGhosts) v).2

/-! ## Other operations -/

theorem contains_eq (h : c.Valid) (k : κ) : c.contains k = (lookup? k c.entries).isSome := by
  have hr : c.recent.contains k = (lookup? k c.recent.entries).isSome :=
    Lru.lawful.contains_eq h.recent k
  have hf : c.frequent.contains k = (lookup? k c.frequent.entries).isSome :=
    Lfu.lawful.contains_eq h.frequent k
  rw [Adaptive.contains, hr, hf, entries, lookup?_append, Option.isSome_or]

theorem peek_eq (h : c.Valid) (k : κ) : c.peek k = lookup? k c.entries := by
  rw [Adaptive.peek, h.recent.peek_eq, h.frequent.peek_eq, entries, lookup?_append]

/-- A lookup may move its key to the frequency part. -/
theorem get (h : c.Valid) (k : κ) : Store.Gets Valid c k (c.get k) := by
  rw [Adaptive.get_def]
  have hlookup : lookup? k c.entries =
      (lookup? k c.recent.entries).or (lookup? k c.frequent.entries) := lookup?_append k
  by_cases hk : k ∈ keys c.recent.entries
  · obtain ⟨w, hw, hremove⟩ := h.recent.exists_remove_eq hk
    obtain ⟨-, hinv, hcapacity, hp⟩ := h.promote hk w
    rw [hremove]
    have hbound : lookup? k c.entries = some w := by
      rw [hlookup, hw, Option.some_or]
    refine ⟨?_, hinv, hcapacity, hp.trans (perm_of_lookup? h.distinct hbound).symm⟩
    -- The value is read back from the part that it has moved to.
    show (c.frequent.put k w).2.peek k = lookup? k c.entries
    rw [hbound]
    exact Lfu.lawful.peek_put h.frequent k w
  · rw [h.recent.remove_of_not_mem hk]
    obtain ⟨hvalue, hf⟩ := h.frequent.get k
    refine ⟨?_, h.withFrequent hf (fun k' hk' => .inl hk') ?_, rfl, hf.perm.append_left _⟩
    · show _ = lookup? k c.entries
      rw [hlookup, lookup?_eq_none_iff.2 hk, Option.none_or]
      exact hvalue
    · have hsize : c.recent.size + c.frequent.size ≤ c.capacity := h.size_le
      rwa [h.frequent.size_eq] at hsize

/-- A lookup signals whether it finds a value. -/
theorem getAloud_eq (h : c.Valid) (k : κ) : c.getAloud k = announceLookup (c.get k) := by
  rw [getAloud, Adaptive.get_def]
  by_cases hk : k ∈ keys c.recent.entries
  · obtain ⟨w, -, hremove⟩ := h.recent.exists_remove_eq hk
    have hfound : (c.frequent.put k w).2.peek k = some w := Lfu.lawful.peek_put h.frequent k w
    rw [hremove]
    exact Aloud.announceLookup_of_isSome (congrArg Option.isSome hfound)
  · rw [h.recent.remove_of_not_mem hk]
    exact Aloud.announceLookup_of_isSome (Lfu.lawful.isSome_get h.frequent k)

/-- A removal forgets the key if it is a ghost. -/
theorem remove (h : c.Valid) (k : κ) : Store.Removes Valid c k (c.remove k) := by
  -- Forgetting the ghosts leaves both parts as they were.
  obtain ⟨hd, -⟩ := h.removeRecentGhost k
  obtain ⟨he, -⟩ := hd.removeFrequentGhost k
  have hlookup : lookup? k c.entries =
      (lookup? k c.recent.entries).or (lookup? k c.frequent.entries) := lookup?_append k
  rw [Adaptive.remove]
  by_cases hk : k ∈ keys c.recent.entries
  · obtain ⟨w, hw, hremove⟩ := h.recent.exists_remove_eq hk
    obtain ⟨ht, -, -, hp⟩ := he.takeRecent hk
    rw [hremove]
    refine ⟨?_, ht, rfl, hp⟩
    show some w = lookup? k c.entries
    rw [hlookup, hw, Option.some_or]
  · obtain ⟨hvalue, hf⟩ := h.frequent.remove k
    simp only [h.recent.remove_of_not_mem hk]
    refine ⟨?_, he.withFrequent hf (fun k' hk' => .inl (mem_keys_erase.1 hk').1) ?_, rfl, ?_⟩
    · show _ = lookup? k c.entries
      rw [hlookup, lookup?_eq_none_iff.2 hk, Option.none_or]
      exact hvalue
    · have hsize : c.recent.size + c.frequent.size ≤ c.capacity := h.size_le
      have hlength : (erase Entry.key k c.frequent.entries).length ≤ c.frequent.size := by
        rw [h.frequent.size_eq]
        exact length_erase_le k _
      show c.recent.size + (erase Entry.key k c.frequent.entries).length ≤ c.capacity
      omega
    · show (c.recent.entries ++ (c.frequent.remove k).2.entries).Perm
        (erase Entry.key k (c.recent.entries ++ c.frequent.entries))
      rw [erase_append, erase_eq_self_of_not_mem hk]
      exact hf.perm.append_left _

theorem evict (h : c.Valid) : Store.Evicts Valid c c.evict := (h.displace false).1

theorem clear (h : c.Valid) : Store.Holds Valid c.capacity [] c.clear := by
  have hr := h.recent.clear
  have hf := h.frequent.clear
  have hrg := h.recentGhosts.clear
  have hfg := h.frequentGhosts.clear
  rw [h.recent_capacity] at hr
  rw [h.frequent_capacity] at hf
  rw [h.recentGhosts_capacity] at hrg
  rw [h.frequentGhosts_capacity] at hfg
  refine ⟨h.narrow hr hf hrg hfg (List.nil_subset _) (List.nil_subset _) (List.nil_subset _)
    (List.nil_subset _) (Nat.zero_le _) (Nat.zero_le _), rfl, ?_⟩
  show (c.recent.clear.entries ++ c.frequent.clear.entries).Perm []
  exact hr.perm.append hf.perm

/-- Changing the capacity of a state whose entries fit leaves them alone. -/
theorem resize_of_fits (h : c.Valid) {n : Nat} (hn : 0 < n) (hfits : c.size ≤ n) :
    ∃ drg rg dfg fg, c.recent.resize n = .ok ([], { c.recent with capacity := n }) ∧
      c.frequent.resize n = .ok ([], { c.frequent with capacity := n }) ∧
      c.recentGhosts.resize n = .ok (drg, rg) ∧ c.frequentGhosts.resize n = .ok (dfg, fg) ∧
      Store.Holds Valid n c.entries
        { capacity := n, target := min c.target n,
          recent := { c.recent with capacity := n },
          frequent := { c.frequent with capacity := n },
          recentGhosts := rg, frequentGhosts := fg } := by
  have hsize : c.recent.size + c.frequent.size ≤ n := hfits
  have hrecent : c.recent.size ≤ n := by omega
  have hfrequent : c.frequent.size ≤ n := by omega
  obtain ⟨drg, rg, lrg, hrg, hprg, hholdsrg⟩ := h.recentGhosts.exists_resize hn
  obtain ⟨dfg, fg, lfg, hfg, hpfg, hholdsfg⟩ := h.frequentGhosts.exists_resize hn
  refine ⟨drg, rg, dfg, fg, Lru.resize_of_fits hn hrecent,
    Lfu.resize_of_fits hn hfrequent, hrg, hfg, ?_, rfl, .refl _⟩
  refine h.narrow (h.recent.withCapacity hn hrecent) (h.frequent.withCapacity hn hfrequent)
    hholdsrg hholdsfg (List.Subset.refl _) (List.Subset.refl _) ?_ ?_ ?_ (Nat.min_le_right ..)
  · intro k hk
    exact mem_keys_of_kept hprg hk
  · intro k hk
    exact mem_keys_of_kept hpfg hk
  · rwa [← h.recent.size_eq, ← h.frequent.size_eq]

/-- A smaller capacity first drops what does not fit any more. -/
theorem exists_resize (h : c.Valid) {n : Nat} (hn : 0 < n) :
    let dropped := (evictMany Adaptive.evict (c.size - n) c).1
    ∃ d rest, c.resize n = .ok (dropped, d) ∧ c.entries.Perm (dropped ++ rest) ∧
      Store.Holds Valid n rest d := by
  obtain ⟨rest, hp, he, hfits⟩ := Store.evictMany_excess_of_evicts size_eq evict h n
  obtain ⟨drg, rg, dfg, fg, hr, hf, hrg, hfg, hholds⟩ := he.inv.resize_of_fits hn hfits
  refine ⟨_, rest, ?_, hp, hholds.inv, hholds.capacity_eq, hholds.perm.trans he.perm⟩
  rw [resize_def]
  refine bind_eq_ok_iff.2 ⟨(), requireCapacity_eq_ok_iff.2 hn, ?_⟩
  refine bind_eq_ok_iff.2 ⟨_, hr, bind_eq_ok_iff.2 ⟨_, hf, ?_⟩⟩
  exact bind_eq_ok_iff.2 ⟨_, hrg, bind_eq_ok_iff.2 ⟨_, hfg, rfl⟩⟩

theorem resize (h : c.Valid) {n : Nat} {dropped : List (Entry κ ν)}
    (hd : c.resize n = .ok (dropped, d)) :
    ∃ rest, c.entries.Perm (dropped ++ rest) ∧ Store.Holds Valid n rest d := by
  have hdone := hd
  rw [resize_def] at hdone
  obtain ⟨_, hn, -⟩ := bind_eq_ok_iff.1 hdone
  obtain ⟨d', rest, heq, hp, hholds⟩ := h.exists_resize (requireCapacity_eq_ok_iff.1 hn)
  obtain ⟨rfl, rfl⟩ := Prod.mk.inj (Except.ok.inj (heq.symm.trans hd))
  exact ⟨rest, hp, hholds⟩

end Valid

/-- A new store has room for as many ghosts of either kind as for entries. -/
theorem create_eq_ok_iff {n : Nat} :
    create n = .ok c ↔ 0 < n ∧ ⟨n, 0, .empty n, .empty n, .empty n, .empty n⟩ = c := by
  constructor
  · intro hc
    obtain ⟨_, -, hc⟩ := bind_eq_ok_iff.1 hc
    obtain ⟨_, hr, hc⟩ := bind_eq_ok_iff.1 hc
    obtain ⟨_, hf, hc⟩ := bind_eq_ok_iff.1 hc
    obtain ⟨_, hrg, hc⟩ := bind_eq_ok_iff.1 hc
    obtain ⟨_, hfg, hc⟩ := bind_eq_ok_iff.1 hc
    obtain ⟨hpos, rfl⟩ := Lru.create_eq_ok_iff.1 hr
    obtain ⟨-, rfl⟩ := Lfu.create_eq_ok_iff.1 hf
    obtain ⟨-, rfl⟩ := Lru.create_eq_ok_iff.1 hrg
    obtain ⟨-, rfl⟩ := Lru.create_eq_ok_iff.1 hfg
    cases hc
    exact ⟨hpos, rfl⟩
  · rintro ⟨hpos, rfl⟩
    refine bind_eq_ok_iff.2 ⟨(), requireCapacity_eq_ok_iff.2 hpos, ?_⟩
    refine bind_eq_ok_iff.2 ⟨_, Lru.create_eq_ok_iff.2 ⟨hpos, rfl⟩, ?_⟩
    refine bind_eq_ok_iff.2 ⟨_, Lfu.create_eq_ok_iff.2 ⟨hpos, rfl⟩, ?_⟩
    refine bind_eq_ok_iff.2 ⟨_, Lru.create_eq_ok_iff.2 ⟨hpos, rfl⟩, ?_⟩
    exact bind_eq_ok_iff.2 ⟨_, Lru.create_eq_ok_iff.2 ⟨hpos, rfl⟩, rfl⟩

theorem create_holds {n : Nat} (hc : create n = .ok c) : Store.Holds Valid n [] c := by
  obtain ⟨hpos, rfl⟩ := create_eq_ok_iff.1 hc
  refine ⟨?_, rfl, .refl _⟩
  exact {
    recent := Lru.empty_valid hpos
    frequent := Lfu.empty_valid hpos
    recentGhosts := Lru.empty_valid hpos
    frequentGhosts := Lru.empty_valid hpos
    recent_capacity := rfl
    frequent_capacity := rfl
    recentGhosts_capacity := rfl
    frequentGhosts_capacity := rfl
    recent_frequent := List.disjoint_nil_left _
    recent_recentGhosts := List.disjoint_nil_left _
    recent_frequentGhosts := List.disjoint_nil_left _
    frequent_recentGhosts := List.disjoint_nil_left _
    frequent_frequentGhosts := List.disjoint_nil_left _
    ghosts := List.disjoint_nil_left _
    size_le := Nat.zero_le n
    target_le := Nat.zero_le n }

theorem lawful : Store.Lawful (Valid : Adaptive κ ν → Prop) where
  distinct h := h.distinct
  size_eq h := h.size_eq
  size_le h := h.size_le
  capacity_pos h := h.capacity_pos
  contains_eq h k := h.contains_eq k
  peek_eq h k := h.peek_eq k
  get h k := h.get k
  put h k v := h.put k v
  remove h k := h.remove k
  evict h := h.evict
  clear h := h.clear
  resize h _ _ _ hd := h.resize hd
  getAloud_eq h k := h.getAloud_eq k
  setSamples h _ := ⟨h, rfl, .refl _⟩

end Adaptive

end BoundedCache
