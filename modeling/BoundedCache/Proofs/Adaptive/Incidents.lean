import BoundedCache.Proofs.Adaptive.Displace

/-!
# What has become of the keys

A history tells what happened to each key, in order. What matters of it is the last incident of
every key: the four lists hold the keys by how they came there last. Everything that an operation
does to the lists is said by the incidents that it gives rise to, so operations follow one another
as their histories do.

## Main definitions

- `Adaptive.Incident` — something happens to one key, or all keys are cleared
- `Adaptive.lastly` — the keys by what happened to them last, in the order in which it did
- `Adaptive.Follows` — the lists change as some incidents tell

## Main results

- `Adaptive.lastly_append` — what is lastly so after two histories
- `Adaptive.Follows.trans` — one operation after another
- `Adaptive.Valid.follows_drops` — displaced entries
- `Adaptive.Valid.follows_entered`, `Adaptive.Follows.of_used` — a key comes to a part
-/

namespace BoundedCache.Adaptive

open Keyed

/-! ## Incidents -/

/-- One of the parts of a store. -/
inductive Part where
  | recent
  | frequent
  deriving DecidableEq

/-- What may happen to a key. -/
inductive Fate where
  /-- It was put while it was in none of the lists. -/
  | entered
  /-- It was put while it was in one of them, or found by a lookup. -/
  | used
  /-- It had to give way, from one of the parts. -/
  | dropped (part : Part)
  /-- Its removal was asked for. -/
  | removed
  deriving DecidableEq

/-- Something happens to one key, or all keys are cleared. -/
inductive Incident (κ : Type) where
  | of (fate : Fate) (key : κ)
  | cleared

variable {κ : Type} [DecidableEq κ] {k : κ} {fate fate' : Fate} {past later : List (Incident κ)}

def Incident.concerns : Incident κ → κ → Bool
  | .of _ key, k => key = k
  | .cleared, _ => true

/-- None of the incidents concerns the key. -/
def untouched (incidents : List (Incident κ)) (key : κ) : Bool :=
  incidents.all fun incident => !incident.concerns key

/-- The keys by what happened to them last, in the order in which it did. -/
def lastly (fate : Fate) : List (Incident κ) → List κ
  | [] => []
  | .of fate' key :: later =>
    if fate' = fate ∧ untouched later key then key :: lastly fate later else lastly fate later
  | .cleared :: later => lastly fate later

theorem untouched_append (k : κ) :
    untouched (past ++ later) k = (untouched past k && untouched later k) :=
  List.all_append

theorem untouched_of_cons (fate : Fate) (k' : κ) :
    untouched (.of fate k' :: later) k = (decide (k' ≠ k) && untouched later k) := by
  simp [untouched, Incident.concerns]

/-- What happens later decides over those keys that it concerns. -/
theorem lastly_append (fate : Fate) (past later : List (Incident κ)) :
    lastly fate (past ++ later) =
      (lastly fate past).filter (untouched later) ++ lastly fate later := by
  induction past with
  | nil => rfl
  | cons incident past ih =>
    cases incident with
    | cleared => exact ih
    | of fate' k =>
      rw [List.cons_append, lastly, lastly, untouched_append, ih]
      by_cases hpast : fate' = fate ∧ untouched past k = true
      · rw [if_pos hpast]
        cases hlater : untouched later k <;> simp [hpast, hlater]
      · rw [if_neg hpast, if_neg]
        rintro ⟨hfate, hboth⟩
        exact hpast ⟨hfate, (Bool.and_eq_true_iff.1 hboth).1⟩

theorem not_mem_lastly (h : untouched later k = true) : k ∉ lastly fate later := by
  induction later with
  | nil => exact List.not_mem_nil
  | cons incident later ih =>
    cases incident with
    | cleared => exact absurd h Bool.false_ne_true
    | of fate' k' =>
      rw [untouched_of_cons, Bool.and_eq_true_iff, decide_eq_true_iff] at h
      rw [lastly]
      split
      · rw [List.mem_cons, not_or]
        exact ⟨Ne.symm h.1, ih h.2⟩
      · exact ih h.2

/-- The last incident of a key is the only one that counts. -/
theorem fate_eq_of_mem_lastly (hlater : untouched later k = true)
    (h : k ∈ lastly fate' (past ++ .of fate k :: later)) : fate = fate' := by
  rw [lastly_append, List.mem_append, lastly] at h
  rcases h with hpast | hlast
  · obtain ⟨-, hfree⟩ := List.mem_filter.1 hpast
    rw [untouched_of_cons] at hfree
    simp at hfree
  · by_contra hne
    rw [if_neg (fun hboth => hne hboth.1)] at hlast
    exact not_mem_lastly hlater hlast

/-- What is left of a list after two histories. -/
theorem filter_append_lastly (l : List κ) (fate : Fate) (past later : List (Incident κ)) :
    (l.filter (untouched past) ++ lastly fate past).filter (untouched later) ++ lastly fate later =
      l.filter (untouched (past ++ later)) ++ lastly fate (past ++ later) := by
  have hboth : untouched (past ++ later) = fun k => untouched later k && untouched past k := by
    funext k
    rw [untouched_append, Bool.and_comm]
  rw [lastly_append, List.filter_append, List.filter_filter, hboth, List.append_assoc]

theorem filter_ne_of_not_mem {l : List κ} (hk : k ∉ l) : l.filter (· ≠ k) = l := by
  rw [List.filter_eq_self]
  intro k' hk'
  exact decide_eq_true fun heq => hk (heq ▸ hk')

theorem filter_untouched_of (l : List κ) (fate : Fate) (k : κ) :
    l.filter (untouched [.of fate k]) = l.filter (· ≠ k) := by
  refine List.filter_congr fun k' _ => ?_
  simp [untouched, Incident.concerns, eq_comm]

theorem lastly_of (fate fate' : Fate) (k : κ) :
    lastly fate [.of fate' k] = if fate' = fate then [k] else [] := by
  simp [lastly, untouched]

theorem filter_untouched_nil (l : List κ) : l.filter (untouched []) = l :=
  List.filter_eq_self.2 fun _ _ => rfl

/-! ## Displaced entries -/

variable {ν : Type} [Hashable κ] {c d t : Adaptive κ ν}

/-- The part that a bound key is in. -/
def partOf (c : Adaptive κ ν) (key : κ) : Part :=
  if c.recent.contains key then .recent else .frequent

/-- Entries give way, each from the part that it is in. -/
def drops (c : Adaptive κ ν) (dropped : List (Entry κ ν)) : List (Incident κ) :=
  dropped.map fun e => .of (.dropped (c.partOf e.key)) e.key

theorem untouched_drops (c : Adaptive κ ν) (dropped : List (Entry κ ν)) (k : κ) :
    untouched (c.drops dropped) k = decide (k ∉ keys dropped) := by
  induction dropped with
  | nil => rfl
  | cons e dropped ih =>
    rw [drops, List.map_cons, untouched_of_cons, ← drops, ih]
    by_cases hkey : e.key = k
    · simp [keys, hkey]
    · simp [keys, hkey, Ne.symm hkey]

theorem lastly_drops_of_ne (hfate : ∀ part, fate ≠ .dropped part) (c : Adaptive κ ν)
    (dropped : List (Entry κ ν)) : lastly fate (c.drops dropped) = [] := by
  induction dropped with
  | nil => rfl
  | cons e dropped ih =>
    rw [drops, List.map_cons, lastly, if_neg (fun hboth => hfate _ hboth.1.symm)]
    exact ih

theorem lastly_drops (part : Part) (c : Adaptive κ ν) {dropped : List (Entry κ ν)}
    (hd : Distinct Entry.key dropped) :
    lastly (.dropped part) (c.drops dropped) =
      keys (dropped.filter fun e => c.partOf e.key = part) := by
  induction dropped with
  | nil => rfl
  | cons e dropped ih =>
    obtain ⟨hne, hd⟩ := distinct_cons_iff.1 hd
    have hfree : untouched (c.drops dropped) e.key = true := by
      rw [untouched_drops, decide_eq_true_iff]
      intro hmem
      obtain ⟨e', he', hkey⟩ := List.mem_map.1 hmem
      exact hne e' he' hkey
    rw [drops, List.map_cons, lastly, ← drops, ih hd]
    by_cases hpart : c.partOf e.key = part
    · simp [hpart, hfree, keys]
    · simp [hpart, keys]

/-! ## Lists and incidents -/

/-- The lists change as some incidents tell. The recency part and both lists of ghosts keep the
order of those keys that nothing happened to, and the others come to the end; the ghosts that are
not left are the oldest ones. -/
structure Follows (c : Adaptive κ ν) (incidents : List (Incident κ)) (d : Adaptive κ ν) : Prop where
  recent : keys d.recent.entries =
    (keys c.recent.entries).filter (untouched incidents) ++ lastly .entered incidents
  frequent : (keys d.frequent.entries).Perm
    ((keys c.frequent.entries).filter (untouched incidents) ++ lastly .used incidents)
  recentGhosts : keys d.recentGhosts.entries <:+
    (keys c.recentGhosts.entries).filter (untouched incidents) ++
      lastly (.dropped .recent) incidents
  frequentGhosts : keys d.frequentGhosts.entries <:+
    (keys c.frequentGhosts.entries).filter (untouched incidents) ++
      lastly (.dropped .frequent) incidents

/-- One operation after another. -/
theorem Follows.trans (h : Follows c past t) (h' : Follows t later d) :
    Follows c (past ++ later) d where
  recent := by rw [h'.recent, h.recent, filter_append_lastly]
  frequent := by
    rw [← filter_append_lastly]
    exact h'.frequent.trans ((h.frequent.filter _).append_right _)
  recentGhosts := by
    rw [← filter_append_lastly]
    exact h'.recentGhosts.trans
      ((List.suffix_append_self_iff ..).2 (h.recentGhosts.filter _))
  frequentGhosts := by
    rw [← filter_append_lastly]
    exact h'.frequentGhosts.trans
      ((List.suffix_append_self_iff ..).2 (h.frequentGhosts.filter _))

/-- Nothing happened, but ghosts may have been forgotten. -/
theorem Follows.of_same (hrecent : d.recent.entries = c.recent.entries)
    (hfrequent : d.frequent.entries.Perm c.frequent.entries)
    (hrecentGhosts : d.recentGhosts.entries <:+ c.recentGhosts.entries)
    (hfrequentGhosts : d.frequentGhosts.entries <:+ c.frequentGhosts.entries) :
    Follows c [] d where
  recent := by
    rw [filter_untouched_nil, hrecent, lastly, List.append_nil]
  frequent := by
    rw [filter_untouched_nil, lastly, List.append_nil]
    exact hfrequent.map _
  recentGhosts := by
    rw [filter_untouched_nil, lastly, List.append_nil]
    exact hrecentGhosts.map _
  frequentGhosts := by
    rw [filter_untouched_nil, lastly, List.append_nil]
    exact hfrequentGhosts.map _

/-! ### Displacements -/

theorem partOf_eq_recent_iff (h : c.Valid) : c.partOf k = .recent ↔ k ∈ keys c.recent.entries := by
  rw [partOf, ← h.recent.contains_iff]
  split <;> simp [*]

theorem partOf_eq_frequent_iff (c : Adaptive κ ν) (k : κ) :
    c.partOf k = .frequent ↔ c.partOf k ≠ .recent := by
  rw [partOf]
  split <;> simp

section Sheds

variable {dropped recent : List (Entry κ ν)} {frequent : List (Counted κ ν)}

theorem Sheds.frequent_entries_eq (hs : Sheds c dropped recent frequent d) :
    c.frequent.entries = frequent.map Counted.entry ++ d.frequent.entries := by
  rw [Lfu.entries, hs.frequent_eq, List.map_append]
  rfl

/-- What was dropped, told by the part that it was dropped from. -/
theorem Valid.lastly_drops_eq (h : c.Valid) (hs : Sheds c dropped recent frequent d) :
    lastly (.dropped .recent) (c.drops dropped) = keys recent ∧
      lastly (.dropped .frequent) (c.drops dropped) = keys (frequent.map Counted.entry) := by
  have hrecent : ∀ e ∈ recent, decide (c.partOf e.key = .recent) = true := by
    intro e he
    rw [decide_eq_true_iff, partOf_eq_recent_iff h, hs.recent_eq]
    exact mem_keys_append.2 (.inl (List.mem_map_of_mem he))
  have hfrequent : ∀ e ∈ frequent.map Counted.entry,
      decide (c.partOf e.key = .recent) = false := by
    intro e he
    rw [decide_eq_false_iff_not, partOf_eq_recent_iff h]
    intro hmem
    refine h.recent_frequent hmem ?_
    rw [hs.frequent_entries_eq]
    exact mem_keys_append.2 (.inl (List.mem_map_of_mem he))
  have hd : Distinct Entry.key dropped := by
    have hall := h.distinct
    rw [entries, hs.recent_eq, hs.frequent_entries_eq] at hall
    have hsub := hall.sublist
      ((List.sublist_append_left recent _).append (List.sublist_append_left _ d.frequent.entries))
    exact hsub.perm hs.merges.perm.symm
  obtain ⟨hleft, hright⟩ := hs.merges.filter_eq hrecent hfrequent
  refine ⟨?_, ?_⟩
  · rw [lastly_drops .recent c hd, hleft]
  · rw [lastly_drops .frequent c hd, ← hright]
    simp [partOf_eq_frequent_iff]

theorem Sheds.mem_keys_dropped_iff (hs : Sheds c dropped recent frequent d) :
    k ∈ keys dropped ↔ k ∈ keys recent ∨ k ∈ keys (frequent.map Counted.entry) := by
  rw [mem_keys_perm hs.merges.perm, mem_keys_append]

theorem Sheds.mem_keys_of_dropped (hs : Sheds c dropped recent frequent d)
    (hk : k ∈ keys dropped) : k ∈ keys c.recent.entries ∨ k ∈ keys c.frequent.entries := by
  rw [hs.recent_eq, hs.frequent_entries_eq, mem_keys_append, mem_keys_append]
  exact (hs.mem_keys_dropped_iff.1 hk).imp .inl .inl

/-- What was dropped is not in the parts any more. -/
theorem Valid.not_mem_keys_dropped (h : c.Valid) (hs : Sheds c dropped recent frequent d)
    (hk : k ∈ keys d.recent.entries ∨ k ∈ keys d.frequent.entries) : k ∉ keys dropped := by
  have hd := h.recent.distinct
  have hd' := h.frequent.distinct
  rw [hs.recent_eq, distinct_append_iff_disjoint] at hd
  rw [hs.frequent_entries_eq, distinct_append_iff_disjoint] at hd'
  have hparts := h.recent_frequent
  rw [hs.recent_eq, hs.frequent_entries_eq, keys_append, keys_append] at hparts
  rw [hs.mem_keys_dropped_iff, not_or]
  rcases hk with hk | hk
  · exact ⟨fun hgone => hd.2.2 hgone hk,
      fun hgone => hparts (List.mem_append_right _ hk) (List.mem_append_left _ hgone)⟩
  · exact ⟨fun hgone => hparts (List.mem_append_left _ hgone) (List.mem_append_right _ hk),
      fun hgone => hd'.2.2 hgone hk⟩

theorem filter_untouched_drops_of_kept {l : List κ} (hl : ∀ k ∈ l, k ∉ keys dropped) :
    l.filter (untouched (c.drops dropped)) = l := by
  refine List.filter_eq_self.2 fun k hk => ?_
  rw [untouched_drops, decide_eq_true_iff]
  exact hl k hk

theorem filter_untouched_drops {front rest : List κ} (hfront : ∀ k ∈ front, k ∈ keys dropped)
    (hrest : ∀ k ∈ rest, k ∉ keys dropped) :
    (front ++ rest).filter (untouched (c.drops dropped)) = rest := by
  rw [List.filter_append, List.filter_eq_nil_iff.2, filter_untouched_drops_of_kept hrest,
    List.nil_append]
  intro k hk
  rw [untouched_drops, decide_eq_true_iff]
  exact not_not_intro (hfront k hk)

/-- The keys of displaced entries become the newest ghosts of their parts. -/
theorem Valid.follows_drops (h : c.Valid) (hs : Sheds c dropped recent frequent d) :
    Follows c (c.drops dropped) d := by
  obtain ⟨hrecent, hfrequent⟩ := h.lastly_drops_eq hs
  -- A ghost was in neither part, so nothing happens to the old ones.
  have hghosts : ∀ {l : List κ}, List.Disjoint (keys c.recent.entries) l →
      List.Disjoint (keys c.frequent.entries) l → l.filter (untouched (c.drops dropped)) = l := by
    intro l hdisjoint hdisjoint'
    refine filter_untouched_drops_of_kept fun k hk hgone => ?_
    exact (hs.mem_keys_of_dropped hgone).elim (hdisjoint · hk) (hdisjoint' · hk)
  constructor
  · rw [hs.recent_eq, keys_append, filter_untouched_drops, lastly_drops_of_ne, List.append_nil]
    · exact fun part => nofun
    · exact fun k hk => hs.mem_keys_dropped_iff.2 (.inl hk)
    · exact fun k hk => h.not_mem_keys_dropped hs (.inl hk)
  · rw [hs.frequent_entries_eq, keys_append, filter_untouched_drops, lastly_drops_of_ne,
      List.append_nil]
    · exact fun part => nofun
    · exact fun k hk => hs.mem_keys_dropped_iff.2 (.inr hk)
    · exact fun k hk => h.not_mem_keys_dropped hs (.inr hk)
  · rw [hrecent, hghosts h.recent_recentGhosts h.frequent_recentGhosts]
    exact hs.recentGhosts
  · rw [hfrequent, hghosts h.recent_frequentGhosts h.frequent_frequentGhosts]
    exact hs.frequentGhosts

end Sheds

/-! ### One key -/

/-- A key that is used leaves the list that it is in, and comes to the frequency part. -/
theorem Follows.of_used (hrecent : keys d.recent.entries = (keys c.recent.entries).filter (· ≠ k))
    (hfrequent : (keys d.frequent.entries).Perm (k :: (keys c.frequent.entries).filter (· ≠ k)))
    (hrecentGhosts : keys d.recentGhosts.entries = (keys c.recentGhosts.entries).filter (· ≠ k))
    (hfrequentGhosts : keys d.frequentGhosts.entries =
      (keys c.frequentGhosts.entries).filter (· ≠ k)) :
    Follows c [.of .used k] d := by
  constructor <;> rw [filter_untouched_of, lastly_of]
  · rw [if_neg nofun, List.append_nil, hrecent]
  · rw [if_pos rfl]
    exact hfrequent.trans (List.perm_append_singleton ..).symm
  · rw [if_neg nofun, List.append_nil]
    exact hrecentGhosts ▸ List.suffix_refl _
  · rw [if_neg nofun, List.append_nil]
    exact hfrequentGhosts ▸ List.suffix_refl _

/-- A key that is removed leaves the list that it is in. -/
theorem Follows.of_removed
    (hrecent : keys d.recent.entries = (keys c.recent.entries).filter (· ≠ k))
    (hfrequent : (keys d.frequent.entries).Perm ((keys c.frequent.entries).filter (· ≠ k)))
    (hrecentGhosts : keys d.recentGhosts.entries = (keys c.recentGhosts.entries).filter (· ≠ k))
    (hfrequentGhosts : keys d.frequentGhosts.entries =
      (keys c.frequentGhosts.entries).filter (· ≠ k)) :
    Follows c [.of .removed k] d := by
  constructor <;> rw [filter_untouched_of, lastly_of, if_neg nofun, List.append_nil]
  · exact hrecent
  · exact hfrequent
  · exact hrecentGhosts ▸ List.suffix_refl _
  · exact hfrequentGhosts ▸ List.suffix_refl _

/-- A new key comes to the end of the recency part. -/
theorem Valid.follows_entered (h : t.Valid) (hk : t.lists k = false)
    (hrecent : keys d.recent.entries = keys t.recent.entries ++ [k])
    (hfrequent : d.frequent = t.frequent) (hrecentGhosts : d.recentGhosts = t.recentGhosts)
    (hfrequentGhosts : d.frequentGhosts = t.frequentGhosts) :
    Follows t [.of .entered k] d := by
  obtain ⟨hfree, hfree', hfree'', hfree'''⟩ := h.lists_eq_false_iff.1 hk
  constructor <;> rw [filter_untouched_of, lastly_of]
  · rw [if_pos rfl, filter_ne_of_not_mem hfree, hrecent]
  · rw [if_neg nofun, List.append_nil, filter_ne_of_not_mem hfree', hfrequent]
  · rw [if_neg nofun, List.append_nil, filter_ne_of_not_mem hfree'']
    exact hrecentGhosts ▸ List.suffix_refl _
  · rw [if_neg nofun, List.append_nil, filter_ne_of_not_mem hfree''']
    exact hfrequentGhosts ▸ List.suffix_refl _

/-- All lists are emptied. -/
theorem Follows.of_cleared (hrecent : d.recent.entries = []) (hfrequent : d.frequent.entries = [])
    (hrecentGhosts : d.recentGhosts.entries = [])
    (hfrequentGhosts : d.frequentGhosts.entries = []) : Follows c [.cleared] d := by
  have hnone : ∀ l : List κ, l.filter (untouched [.cleared]) = [] :=
    fun l => List.filter_eq_nil_iff.2 fun _ _ => Bool.false_ne_true
  constructor <;> rw [hnone]
  · rw [hrecent]
    rfl
  · rw [hfrequent]
    exact .refl _
  · rw [hrecentGhosts]
    exact List.nil_suffix
  · rw [hfrequentGhosts]
    exact List.nil_suffix

end BoundedCache.Adaptive
