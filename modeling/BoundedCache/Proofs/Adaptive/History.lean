import BoundedCache.Proofs.Adaptive.Incidents

/-!
# What the lists of adaptive replacement stand for

Whatever was done with a store, its lists can be told from what happened to the keys. The recency
part has those that entered and were not used since, the frequency part those that were used; the
ghosts of a part are the last ones that were dropped from it, as far as they were not forgotten, the
oldest first.

## Main definitions

- `Adaptive.incidents` — what a request does to the keys
- `Adaptive.history` — what a run does to them
- `Adaptive.MovesTarget` — how a request may move the target
- `Adaptive.Told` — a state is what a history tells

## Main results

- `Adaptive.Valid.follows_perform` — the lists after one request
- `Adaptive.Valid.follows_actAll` — the lists after a run
- `Adaptive.Valid.movesTarget` — the target after one request
- `Adaptive.actAll_tells` — every state that can be reached
-/

namespace BoundedCache.Adaptive

open Keyed

variable {κ ν : Type} [DecidableEq κ] [Hashable κ] {c d t : Adaptive κ ν} {k : κ} {v : ν}

/-! ## Histories -/

/-- What a request does to the keys. -/
def incidents (c : Adaptive κ ν) (request : Request κ ν) : List (Incident κ) :=
  let dropped := c.drops (Store.perform c request).1.evicted
  match request with
  | .put key _ => dropped ++ [.of (if c.lists key then .used else .entered) key]
  | .get key => if c.contains key then [.of .used key] else []
  | .peek _ | .contains _ => []
  | .remove key => [.of .removed key]
  | .evict | .resize _ => dropped
  | .clear | .drain => [.cleared]

/-- What happens to the keys in a run. -/
def history (o : Observed (Adaptive κ ν)) : List (Observed.Action κ ν) → List (Incident κ)
  | [] => []
  | .request request :: rest =>
    incidents o.store request ++ history (o.act (.request request)).2 rest
  | .listen listener :: rest => history (o.listen listener) rest
  | .setSamples samples :: rest => history (o.act (.setSamples samples)).2 rest

/-! ## Keys of the parts -/

theorem keys_put_frequent (h : c.frequent.Valid) (hnone : (c.frequent.put k v).1 = none) :
    (keys (c.frequent.put k v).2.entries).Perm
      (k :: (keys c.frequent.entries).filter (· ≠ k)) := by
  obtain ⟨rest, hp, -, -, hput⟩ := (h.put k v).exists_rest
  rw [hnone] at hp
  refine (hput.map Entry.key).trans (.cons k ?_)
  show (keys (erase Entry.key k rest)).Perm _
  rw [keys_erase]
  exact ((hp.symm.map Entry.key).filter _)

theorem keys_remove {g : Lru κ ν} (h : g.Valid) (k : κ) :
    keys (g.remove k).2.entries = (keys g.entries).filter (· ≠ k) := by
  rw [(h.remove_entries k).2, keys_erase]

/-- A key comes to the frequency part from one of the other lists, or is in it already. -/
theorem Valid.follows_putFrequent (h : c.Valid) (hnone : (c.frequent.put k v).1 = none)
    (hrecent : keys d.recent.entries = (keys c.recent.entries).filter (· ≠ k))
    (hfrequent : d.frequent = (c.frequent.put k v).2)
    (hrecentGhosts : keys d.recentGhosts.entries = (keys c.recentGhosts.entries).filter (· ≠ k))
    (hfrequentGhosts : keys d.frequentGhosts.entries =
      (keys c.frequentGhosts.entries).filter (· ≠ k)) :
    Follows c [.of .used k] d := by
  refine .of_used hrecent ?_ hrecentGhosts hfrequentGhosts
  rw [hfrequent]
  exact keys_put_frequent h.frequent hnone

namespace Valid

/-! ## Requests -/

theorem follows_put_recent (h : c.Valid) (hk : k ∈ keys c.recent.entries) (v : ν) :
    Follows c [.of .used k] (Adaptive.putFrequent { c with recent := (c.recent.remove k).2 } k v) :=
  h.follows_putFrequent (h.promote hk v).1 (keys_remove h.recent k) rfl
    (filter_ne_of_not_mem (h.recent_recentGhosts hk)).symm
    (filter_ne_of_not_mem (h.recent_frequentGhosts hk)).symm

theorem follows_put_frequent (h : c.Valid) (hk : k ∈ keys c.frequent.entries) (v : ν) :
    Follows c [.of .used k] (c.putFrequent k v) := by
  have hrecent : k ∉ keys c.recent.entries := fun hmem => h.recent_frequent hmem hk
  have hnone := (h.putFrequent hrecent (h.frequent_recentGhosts hk)
    (h.frequent_frequentGhosts hk) (.inl hk) v).1
  exact h.follows_putFrequent hnone (filter_ne_of_not_mem hrecent).symm rfl
    (filter_ne_of_not_mem (h.frequent_recentGhosts hk)).symm
    (filter_ne_of_not_mem (h.frequent_frequentGhosts hk)).symm

/-- Room is made after the target has moved. -/
theorem follows_makeRoom (h : c.Valid) {n : Nat} (hn : n ≤ c.capacity) (onTie : Bool) :
    let p := Adaptive.makeRoom { c with target := n } onTie
    Follows c (c.drops p.1.toList) p.2 := by
  obtain ⟨_, _, hsheds, -⟩ := (h.withTarget hn).makeRoom_sheds onTie
  have hmoved : Follows c [] { c with target := n } :=
    .of_same rfl (.refl _) (List.suffix_refl _) (List.suffix_refl _)
  exact hmoved.trans ((h.withTarget hn).follows_drops hsheds)

/-- A ghost of the recency part comes back. -/
theorem follows_reviveRecent (h : c.Valid) (hk : k ∈ keys c.recentGhosts.entries) (v : ν) :
    Follows c (c.drops (c.reviveRecent k v).1.toList ++ [.of .used k]) (c.reviveRecent k v).2 := by
  obtain ⟨hmakes, hnarrows⟩ := h.grown.makeRoom false
  have ht := (hmakes.size_lt size_eq).1
  have hrecent : k ∉ keys (c.grown.makeRoom false).2.recent.entries := by
    intro hmem
    exact h.recent_recentGhosts (hnarrows.recent k hmem) hk
  have hfrequentGhosts : k ∉ keys (c.grown.makeRoom false).2.frequentGhosts.entries := by
    intro hmem
    exact (hnarrows.frequentGhosts k hmem).elim (h.ghosts hk)
      fun hbound => h.frequent_recentGhosts hbound hk
  refine (h.follows_makeRoom (Nat.min_le_right ..) false).trans ?_
  exact ht.follows_putFrequent (h.reviveRecent hk v).1 (filter_ne_of_not_mem hrecent).symm rfl
    (keys_remove ht.recentGhosts k) (filter_ne_of_not_mem hfrequentGhosts).symm

/-- A ghost of the frequency part comes back. -/
theorem follows_reviveFrequent (h : c.Valid) (hk : k ∈ keys c.frequentGhosts.entries) (v : ν) :
    Follows c (c.drops (c.reviveFrequent k v).1.toList ++ [.of .used k])
      (c.reviveFrequent k v).2 := by
  obtain ⟨hmakes, hnarrows⟩ := h.shrunk.makeRoom true
  have ht := (hmakes.size_lt size_eq).1
  have hrecent : k ∉ keys (c.shrunk.makeRoom true).2.recent.entries := by
    intro hmem
    exact h.recent_frequentGhosts (hnarrows.recent k hmem) hk
  have hrecentGhosts : k ∉ keys (c.shrunk.makeRoom true).2.recentGhosts.entries := by
    intro hmem
    exact (hnarrows.recentGhosts k hmem).elim (h.ghosts · hk)
      fun hbound => h.recent_frequentGhosts hbound hk
  refine (h.follows_makeRoom ((Nat.sub_le ..).trans h.target_le) true).trans ?_
  exact ht.follows_putFrequent (h.reviveFrequent hk v).1 (filter_ne_of_not_mem hrecent).symm rfl
    (filter_ne_of_not_mem hrecentGhosts).symm (keys_remove ht.frequentGhosts k)

/-- A key that no list knows comes to the recency part. -/
theorem follows_insertNew (h : c.Valid) (hk : c.lists k = false) (v : ν) :
    Follows c (c.drops (c.put k v).1.toList ++ [.of .entered k]) (c.put k v).2 := by
  obtain ⟨t, _, _, hsheds, -, ht, hout, hput, hrecent⟩ := h.put_sheds hk v
  refine (h.follows_drops hsheds).trans (ht.follows_entered hout ?_ ?_ ?_ ?_)
  · rw [hrecent, keys_append]
    rfl
  · rw [hput]
  · rw [hput]
  · rw [hput]

theorem follows_put (h : c.Valid) (k : κ) (v : ν) :
    Follows c (incidents c (.put k v)) (c.put k v).2 := by
  rw [incidents, Store.evicted_put]
  show Follows c (c.drops (c.put k v).1.toList ++ [.of (if c.lists k then .used else .entered) k]) _
  by_cases hk : c.lists k = false
  · rw [hk]
    exact h.follows_insertNew hk v
  · rw [if_pos (Bool.of_not_eq_false hk), h.put_eq]
    rw [lists, Bool.or_eq_false_iff, Bool.or_eq_false_iff, Bool.or_eq_false_iff] at hk
    split
    · next hcontains => exact h.follows_put_recent ((h.recent.contains_iff k).1 hcontains) v
    next hrecent =>
    split
    · next hcontains => exact h.follows_put_frequent ((h.frequent.contains_iff k).1 hcontains) v
    next hfrequent =>
    split
    · next hghost => exact h.follows_reviveRecent ((h.recentGhosts.contains_iff k).1 hghost) v
    next hrecentGhosts =>
    split
    · next hghost => exact h.follows_reviveFrequent ((h.frequentGhosts.contains_iff k).1 hghost) v
    · next hfrequentGhosts =>
      simp only [Bool.not_eq_true] at hrecent hfrequent hrecentGhosts hfrequentGhosts
      exact absurd ⟨⟨⟨hrecent, hfrequent⟩, hrecentGhosts⟩, hfrequentGhosts⟩ hk

theorem contains_eq_true_iff (h : c.Valid) (k : κ) :
    c.contains k = true ↔ k ∈ keys c.recent.entries ∨ k ∈ keys c.frequent.entries := by
  rw [Adaptive.contains, Bool.or_eq_true, h.recent.contains_iff, h.frequent.contains_iff]

/-- A lookup of a key in the frequency part leaves it there. -/
theorem follows_get_frequent (h : c.Valid) (hk : k ∈ keys c.frequent.entries) :
    Follows c [.of .used k] { c with frequent := (c.frequent.get k).2 } := by
  obtain ⟨w, hw⟩ := exists_lookup?_eq_some hk
  have hkept := (h.frequent.get k).holds.perm.trans (perm_of_lookup? h.frequent.distinct hw)
  refine .of_used (filter_ne_of_not_mem fun hmem => h.recent_frequent hmem hk).symm ?_
    (filter_ne_of_not_mem (h.frequent_recentGhosts hk)).symm
    (filter_ne_of_not_mem (h.frequent_frequentGhosts hk)).symm
  rw [← keys_erase]
  exact hkept.map Entry.key

theorem follows_get (h : c.Valid) (k : κ) :
    Follows c (incidents c (.get k)) (c.get k).2 := by
  rw [incidents, Adaptive.get_def]
  by_cases hrecent : k ∈ keys c.recent.entries
  · obtain ⟨w, -, hremove⟩ := h.recent.exists_remove_eq hrecent
    rw [if_pos ((h.contains_eq_true_iff k).2 (.inl hrecent)), hremove]
    exact h.follows_put_recent hrecent w
  rw [h.recent.remove_of_not_mem hrecent]
  by_cases hfrequent : k ∈ keys c.frequent.entries
  · rw [if_pos ((h.contains_eq_true_iff k).2 (.inr hfrequent))]
    exact h.follows_get_frequent hfrequent
  · rw [if_neg (mt (h.contains_eq_true_iff k).1 (not_or.2 ⟨hrecent, hfrequent⟩))]
    exact .of_same rfl (h.frequent.get k).holds.perm (List.suffix_refl _) (List.suffix_refl _)

theorem follows_remove (h : c.Valid) (k : κ) : Follows c [.of .removed k] (c.remove k).2 := by
  have hrecentGhosts := keys_remove h.recentGhosts k
  have hfrequentGhosts := keys_remove h.frequentGhosts k
  rw [Adaptive.remove]
  by_cases hrecent : k ∈ keys c.recent.entries
  · obtain ⟨w, -, hremove⟩ := h.recent.exists_remove_eq hrecent
    have hkeys := keys_remove h.recent k
    rw [hremove]
    exact .of_removed hkeys (.of_eq (filter_ne_of_not_mem (h.recent_frequent hrecent)).symm)
      hrecentGhosts hfrequentGhosts
  · simp only [h.recent.remove_of_not_mem hrecent]
    refine .of_removed (filter_ne_of_not_mem hrecent).symm ?_ hrecentGhosts hfrequentGhosts
    rw [← keys_erase]
    exact (h.frequent.remove k).holds.perm.map Entry.key

theorem follows_evict (h : c.Valid) : Follows c (incidents c .evict) c.evict.2 := by
  obtain ⟨_, _, hsheds, -⟩ := h.displace_sheds false
  rw [incidents, Store.evicted_evict]
  exact h.follows_drops hsheds

end Valid

theorem follows_clear (c d : Adaptive κ ν) : Follows c [.cleared] d.clear :=
  .of_cleared (Lru.Valid.clear_entries _) rfl (Lru.Valid.clear_entries _)
    (Lru.Valid.clear_entries _)

namespace Valid

/-- A resize that is accepted evicts what no longer fits, and then lets the oldest ghosts go. -/
theorem resize_eq (h : c.Valid) {n : Nat} (hn : 0 < n) :
    let p := evictMany Adaptive.evict (c.size - n) c
    ∃ rg fg,
      c.resize n = .ok (p.1, ⟨n, min p.2.target n, { p.2.recent with capacity := n },
        { p.2.frequent with capacity := n }, rg, fg⟩) ∧
      rg.entries <:+ p.2.recentGhosts.entries ∧ fg.entries <:+ p.2.frequentGhosts.entries := by
  intro p
  obtain ⟨_, -, hp, hfits⟩ := Store.evictMany_excess_of_evicts size_eq evict h n
  obtain ⟨_, rg, _, fg, hr, hf, hrg, hfg, -⟩ := hp.inv.resize_of_fits hn hfits
  refine ⟨rg, fg, ?_, ?_, ?_⟩
  · rw [resize_def]
    refine bind_eq_ok_iff.2 ⟨(), requireCapacity_eq_ok_iff.2 hn, ?_⟩
    refine bind_eq_ok_iff.2 ⟨_, hr, bind_eq_ok_iff.2 ⟨_, hf, ?_⟩⟩
    exact bind_eq_ok_iff.2 ⟨_, hrg, bind_eq_ok_iff.2 ⟨_, hfg, rfl⟩⟩
  · rw [(hp.inv.recentGhosts.resize_entries hrg).2]
    exact List.drop_suffix ..
  · rw [(hp.inv.frequentGhosts.resize_entries hfg).2]
    exact List.drop_suffix ..

theorem follows_resize (h : c.Valid) (n : Nat) :
    Follows c (incidents c (.resize n)) (Store.perform c (.resize n)).2 := by
  rcases Nat.eq_zero_or_pos n with rfl | hn
  · have hrefused : Store.resize c 0 = .error .zeroCapacity := rfl
    rw [incidents, Store.perform_resize, hrefused]
    exact .of_same rfl (.refl _) (List.suffix_refl _) (List.suffix_refl _)
  · obtain ⟨rg, fg, hresize, hrg, hfg⟩ := h.resize_eq hn
    obtain ⟨_, _, hsheds⟩ := h.evictMany_sheds (c.size - n)
    have hstore : Store.resize c n = _ := hresize
    rw [incidents, Store.perform_resize, hstore, Outcome.evicted_evicting]
    refine (List.append_nil (c.drops _)) ▸ (h.follows_drops hsheds).trans ?_
    exact .of_same rfl (.refl _) hrg hfg

/-- The lists after one request are told by what it did to the keys. -/
theorem follows_perform (h : c.Valid) (request : Request κ ν) :
    Follows c (incidents c request) (Store.perform c request).2 := by
  cases request with
  | put key value => exact h.follows_put key value
  | get key => exact h.follows_get key
  | peek key | contains key =>
    exact .of_same rfl (.refl _) (List.suffix_refl _) (List.suffix_refl _)
  | remove key => exact h.follows_remove key
  | evict => exact h.follows_evict
  | clear => exact follows_clear c c
  | drain =>
    rw [Store.perform_drain, Store.drain_eq]
    exact follows_clear c _
  | resize n => exact h.follows_resize n

/-- The lists after a run are told by what happened to the keys in it. -/
theorem follows_actAll {o : Observed (Adaptive κ ν)} (h : o.store.Valid)
    (actions : List (Observed.Action κ ν)) :
    Follows o.store (history o actions) (o.actAll actions).2.store := by
  induction actions generalizing o with
  | nil => exact .of_same rfl (.refl _) (List.suffix_refl _) (List.suffix_refl _)
  | cons action rest ih =>
    cases action with
    | request request =>
      have hnow := h.follows_perform request
      rw [← Observed.store_perform] at hnow
      exact hnow.trans (ih (lawful.act h (.request request)))
    | listen listener => exact ih (o := o.listen listener) h
    | setSamples samples => exact ih (lawful.act h (.setSamples samples))

end Valid

/-! ## The target -/

/-- The target of the recency part moves in four ways. The put of a ghost of the recency part raises
it, as far as the capacity allows; the put of a ghost of the frequency part lowers it, unless it is
zero; clearing makes it zero; and a smaller capacity bounds it. -/
def MovesTarget (c : Adaptive κ ν) (request : Request κ ν) (d : Adaptive κ ν) : Prop :=
  match request with
  | .put key _ =>
    if c.recentGhosts.contains key then
      c.target ≤ d.target ∧ d.target ≤ c.capacity ∧ (c.target < c.capacity → c.target < d.target)
    else if c.frequentGhosts.contains key then
      d.target ≤ c.target ∧ (0 < c.target → d.target < c.target)
    else d.target = c.target
  | .clear | .drain => d.target = 0
  | .resize n => d.target = if n = 0 then c.target else min c.target n
  | .get _ | .peek _ | .contains _ | .remove _ | .evict => d.target = c.target

theorem target_grown (hle : c.target ≤ c.capacity) :
    c.target ≤ c.grown.target ∧ c.grown.target ≤ c.capacity ∧
      (c.target < c.capacity → c.target < c.grown.target) := by
  have hpos := Nat.le_max_right (c.frequentGhosts.size / c.recentGhosts.size) 1
  have heq : c.grown.target = min (c.target +
    max (c.frequentGhosts.size / c.recentGhosts.size) 1) c.capacity := rfl
  omega

theorem target_shrunk (c : Adaptive κ ν) :
    c.shrunk.target ≤ c.target ∧ (0 < c.target → c.shrunk.target < c.target) := by
  have hpos := Nat.le_max_right (c.recentGhosts.size / c.frequentGhosts.size) 1
  have heq : c.shrunk.target = c.target -
    max (c.recentGhosts.size / c.frequentGhosts.size) 1 := rfl
  omega

namespace Valid

/-- No bound key is a ghost. -/
theorem contains_ghosts_eq_false (h : c.Valid) (hk : c.contains k = true) :
    c.recentGhosts.contains k = false ∧ c.frequentGhosts.contains k = false := by
  simp only [← Bool.not_eq_true, h.recentGhosts.contains_iff, h.frequentGhosts.contains_iff]
  rcases (h.contains_eq_true_iff k).1 hk with hrecent | hfrequent
  · exact ⟨h.recent_recentGhosts hrecent, h.recent_frequentGhosts hrecent⟩
  · exact ⟨h.frequent_recentGhosts hfrequent, h.frequent_frequentGhosts hfrequent⟩

theorem target_put_of_contains (h : c.Valid) (hk : c.contains k = true) (v : ν) :
    (c.put k v).2.target = c.target := by
  rw [h.put_eq]
  split
  · rfl
  next hrecent =>
  rw [Adaptive.contains, Bool.eq_false_iff.2 hrecent, Bool.false_or] at hk
  rw [if_pos hk]
  rfl

theorem movesTarget_put (h : c.Valid) (k : κ) (v : ν) :
    MovesTarget c (.put k v) (c.put k v).2 := by
  rw [MovesTarget]
  cases hk : c.contains k with
  | true =>
    obtain ⟨hrecentGhosts, hfrequentGhosts⟩ := h.contains_ghosts_eq_false hk
    rw [if_neg (Bool.eq_false_iff.1 hrecentGhosts), if_neg (Bool.eq_false_iff.1 hfrequentGhosts)]
    exact h.target_put_of_contains hk v
  | false =>
    obtain ⟨hrecent, hfrequent⟩ := Bool.or_eq_false_iff.1 hk
    rw [h.put_eq, if_neg (Bool.eq_false_iff.1 hrecent), if_neg (Bool.eq_false_iff.1 hfrequent)]
    split
    · have htarget : (c.reviveRecent k v).2.target = c.grown.target :=
        (h.grown.makeRoom false).2.target_eq
      rw [htarget]
      exact target_grown h.target_le
    split
    · have htarget : (c.reviveFrequent k v).2.target = c.shrunk.target :=
        (h.shrunk.makeRoom true).2.target_eq
      rw [htarget]
      exact target_shrunk c
    · obtain ⟨hp, -⟩ := (h.makeRoom false).1.size_lt size_eq
      exact hp.trimGhosts.2.1.target_eq.trans (h.makeRoom false).2.target_eq

theorem target_get (c : Adaptive κ ν) (k : κ) : (c.get k).2.target = c.target := by
  rw [Adaptive.get_def]
  rcases c.recent.remove k with ⟨_ | w, r⟩ <;> rfl

theorem target_remove (c : Adaptive κ ν) (k : κ) : (c.remove k).2.target = c.target := by
  rw [Adaptive.remove]
  rcases c.recent.remove k with ⟨_ | w, r⟩ <;> rfl

/-- The target after one request. -/
theorem movesTarget (h : c.Valid) (request : Request κ ν) :
    MovesTarget c request (Store.perform c request).2 := by
  cases request with
  | put key value => exact h.movesTarget_put key value
  | get key => exact target_get c key
  | peek key | contains key => rfl
  | remove key => exact target_remove c key
  | evict => exact (h.displace false).2.target_eq
  | clear | drain => rfl
  | resize n =>
    rw [MovesTarget]
    rcases Nat.eq_zero_or_pos n with rfl | hn
    · rfl
    · obtain ⟨rg, fg, hresize, -, -⟩ := h.resize_eq hn
      obtain ⟨_, _, hsheds⟩ := h.evictMany_sheds (c.size - n)
      have hstore : Store.resize c n = _ := hresize
      rw [if_neg hn.ne', Store.perform_resize, hstore, ← hsheds.target_eq]

end Valid

/-! ## Reachable states -/

/-- What a history tells of the state that it led to. -/
structure Told (past : List (Incident κ)) (c : Adaptive κ ν) : Prop where
  /-- The recency part has the keys that entered and were not used since, in the order in which they
  entered. -/
  recent : keys c.recent.entries = lastly .entered past
  /-- The frequency part has the keys that were used. -/
  frequent : (keys c.frequent.entries).Perm (lastly .used past)
  /-- The ghosts of a part are the last keys that were dropped from it. -/
  recentGhosts : keys c.recentGhosts.entries <:+ lastly (.dropped .recent) past
  frequentGhosts : keys c.frequentGhosts.entries <:+ lastly (.dropped .frequent) past
  /-- No bound key is a ghost. -/
  ghosts : ∀ k, c.contains k = true →
    c.recentGhosts.contains k = false ∧ c.frequentGhosts.contains k = false
  /-- A key that was removed, and to which nothing happened since, is in none of the lists. -/
  removed : ∀ before k after, past = before ++ .of .removed k :: after →
    untouched after k = true → c.lists k = false

/-- A store that is new has nothing to tell but its history. -/
theorem Follows.told {n : Nat} (hc : create n = .ok c) (hd : d.Valid) {past : List (Incident κ)}
    (h : Follows c past d) : Told past d := by
  obtain ⟨-, rfl⟩ := create_eq_ok_iff.1 hc
  have hrecent : keys d.recent.entries = lastly .entered past := h.recent
  have hfrequent : (keys d.frequent.entries).Perm (lastly .used past) := h.frequent
  have hrecentGhosts : keys d.recentGhosts.entries <:+ lastly (.dropped .recent) past :=
    h.recentGhosts
  have hfrequentGhosts : keys d.frequentGhosts.entries <:+ lastly (.dropped .frequent) past :=
    h.frequentGhosts
  refine ⟨hrecent, hfrequent, hrecentGhosts, hfrequentGhosts,
    fun k => hd.contains_ghosts_eq_false, ?_⟩
  rintro before k after rfl hafter
  refine hd.lists_eq_false_iff.2 ⟨fun hmem => ?_, fun hmem => ?_, fun hmem => ?_, fun hmem => ?_⟩
  · rw [hrecent] at hmem
    exact nomatch fate_eq_of_mem_lastly hafter hmem
  · exact nomatch fate_eq_of_mem_lastly hafter (hfrequent.mem_iff.1 hmem)
  · exact nomatch fate_eq_of_mem_lastly hafter (hrecentGhosts.subset hmem)
  · exact nomatch fate_eq_of_mem_lastly hafter (hfrequentGhosts.subset hmem)

/-- In every state that can be reached the four lists are what the history tells, every further
request changes them as its incidents tell, and moves the target only in the ways that are known. -/
theorem actAll_tells {n : Nat} (hc : create n = .ok c) (listener : Option Nat)
    (actions : List (Observed.Action κ ν)) :
    let start : Observed (Adaptive κ ν) := { store := c, listener }
    let s := (start.actAll actions).2.store
    Told (history start actions) s ∧
      ∀ request, Follows s (incidents s request) (Store.perform s request).2 ∧
        MovesTarget s request (Store.perform s request).2 := by
  intro start s
  have hvalid : start.store.Valid := (create_holds hc).inv
  have h : s.Valid := lawful.actAll (o := start) hvalid actions
  exact ⟨(hvalid.follows_actAll actions).told hc h,
    fun request => ⟨h.follows_perform request, h.movesTarget request⟩⟩

/-- Some actions on a store with room for one entry, the last of which puts a ghost. -/
def ghostPut : List (Observed.Action Nat Nat) :=
  [.request (.put 1 10), .request (.put 2 20), .request (.put 1 11)]

/-- The key that comes back drops the other one, which becomes a ghost in its place. -/
theorem actAll_tells_ghostPut :
    ∃ c : Adaptive Nat Nat, create 1 = .ok c ∧
      let start : Observed (Adaptive Nat Nat) := { store := c, listener := some 7 }
      let s := (start.actAll ghostPut).2.store
      history start ghostPut = [.of .entered 1, .of (.dropped .recent) 1, .of .entered 2,
        .of (.dropped .recent) 2, .of .used 1] ∧
      keys s.recentGhosts.entries = [2] ∧ s.target = 1 ∧ Told (history start ghostPut) s ∧
      ∀ request, Follows s (incidents s request) (Store.perform s request).2 ∧
        MovesTarget s request (Store.perform s request).2 := by
  have hc : create 1 =
      .ok (⟨1, 0, .empty 1, .empty 1, .empty 1, .empty 1⟩ : Adaptive Nat Nat) := rfl
  obtain ⟨htold, hnext⟩ := actAll_tells hc (some 7) ghostPut
  refine ⟨_, hc, ?_, ?_, ?_, htold, hnext⟩
  · cbv
  · cbv
  · cbv

end BoundedCache.Adaptive
