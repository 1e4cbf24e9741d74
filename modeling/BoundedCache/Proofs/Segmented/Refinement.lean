import BoundedCache.Proofs.Lru.Order
import BoundedCache.Proofs.Segmented.Lawful
import BoundedCache.Proofs.Segmented.Tiers

/-!
# Segmented stores act like two lists

## Main definitions

- `Segmented.view`, `Segmented.StandsFor` — the two lists that a store stands for
- `Segmented.relayout` — segments of other sizes

## Main results

- `Segmented.Fits.view_demote`, `Segmented.Fits.view_promote` — moves between the segments
- `Segmented.Valid.put_entries`, `Segmented.Valid.exists_victim` — what a store that is part of
  another one does with a new key, and which entry it gives up
- `Segmented.simulation` — every operation tells the same of the store and of the lists
-/

namespace BoundedCache

namespace Segmented

open Keyed

variable {κ ν : Type} [DecidableEq κ] [Hashable κ] {c : Segmented κ ν} {k : κ} {m n : Nat}
  {ratio : Float} {e : Entry κ ν} {g : Lru κ ν} {split : Split}

/-- The lists that a store stands for. -/
def view (c : Segmented κ ν) : Tiers κ ν where
  capacity := c.capacity
  ratio := c.ratio
  probation := c.probation.entries
  guarded := c.guarded.entries

/-- The store is in order, and the lists are what it stands for. -/
def StandsFor (ratio : Float) (c : Segmented κ ν) (m : Tiers κ ν) : Prop :=
  c.Valid ratio ∧ c.view = m

/-- The store with segments of other sizes, for entries that fit into them. -/
def relayout (c : Segmented κ ν) (capacity guardedCapacity : Nat) : Segmented κ ν :=
  let d := (c.guarded.size - guardedCapacity).repeat demote
    { c with probation := { c.probation with capacity } }
  { d with capacity, guarded := { d.guarded with capacity := guardedCapacity } }

/-! ## Moving entries -/

namespace Fits

theorem size_eq_add (h : c.Fits n m) :
    c.size = c.probation.entries.length + c.guarded.entries.length :=
  h.size_eq.trans List.length_append

/-- An entry that is demoted comes to the end of probation, which displaces nothing for it. -/
theorem put_demoted (h : c.Fits n m) (hevict : c.guarded.evict = (some e, g)) :
    (c.probation.put e.key e.value).1 = none ∧
      (c.probation.put e.key e.value).2.entries = c.probation.entries ++ [e] := by
  have hhead := h.joined.right.evict_entries.1
  rw [hevict] at hhead
  have hmem : e ∈ c.guarded.entries := List.mem_of_head? hhead.symm
  have hout : e.key ∉ keys c.probation.entries :=
    fun hk => h.joined.disjoint hk (List.mem_map_of_mem hmem)
  have hpos := List.length_pos_of_mem hmem
  have hle := h.size_le
  rw [h.size_eq_add] at hle
  have hopen : c.probation.size < c.probation.capacity := by
    rw [h.probation_capacity, h.joined.left.size_eq]
    omega
  exact h.joined.left.put_entries_of_new hout hopen e.value

theorem view_demote (h : c.Fits n m) : c.demote.view = c.view.demote 1 := by
  obtain ⟨hhead, htail⟩ := h.joined.right.evict_entries
  rw [← List.drop_one] at htail
  rw [Segmented.demote]
  rcases hevict : c.guarded.evict with ⟨_ | e, g⟩
  · rw [hevict] at hhead htail
    have hnil : c.guarded.entries = [] := List.head?_eq_none_iff.1 hhead.symm
    refine Tiers.ext rfl rfl ?_ ?_
    · show c.probation.entries = c.probation.entries ++ c.guarded.entries.take 1
      rw [hnil, List.take_nil, List.append_nil]
    · exact htail
  · obtain ⟨-, hput⟩ := h.put_demoted hevict
    rw [hevict] at hhead htail
    refine Tiers.ext rfl rfl ?_ htail
    show (c.probation.put e.key e.value).2.entries = c.probation.entries ++ c.guarded.entries.take 1
    rw [hput, List.take_one, ← hhead]
    rfl

theorem view_demoteMany (h : c.Fits n m) (count : Nat) :
    (count.repeat Segmented.demote c).view = c.view.demote count := by
  induction count with
  | zero => exact (Tiers.demote_zero _).symm
  | succ count ih =>
    rw [Nat.repeat, (h.demoteMany count).1.view_demote, ih, Tiers.demote_demote]

/-- A key that is not bound comes to the end of the protected segment, if there is room. -/
theorem put_guarded (h : c.Fits n m) (hk : k ∉ keys c.entries) (hroom : c.guarded.size < m)
    (v : ν) :
    (c.guarded.put k v).1 = none ∧
      (c.guarded.put k v).2.entries = c.guarded.entries ++ [⟨k, v⟩] := by
  rw [← h.guarded_capacity] at hroom
  exact h.joined.right.put_entries_of_new (not_mem_keys_append.1 hk).2 hroom v

theorem isFull_guarded_iff (h : c.Fits n m) :
    c.guarded.isFull = true ↔ m ≤ c.guarded.entries.length := by
  rw [Lru.isFull, h.guarded_capacity, h.joined.right.size_eq, decide_eq_true_iff]

/-- The state in which a promoted entry arrives has room for it in the protected segment. -/
theorem openGuarded (h : c.Fits n m) :
    let d := if c.guarded.isFull then c.demote else c
    d.Fits n m ∧ d.entries.Perm c.entries ∧ d.guarded.size < m := by
  have hpos : 0 < m := h.guarded_capacity ▸ h.joined.right.capacity_pos
  have hle : c.guarded.size ≤ m := h.guarded_capacity ▸ h.joined.right.size_le
  intro d
  by_cases hfull : c.guarded.isFull = true
  · obtain ⟨hfits, hp, hsize⟩ := h.demote
    rw [show d = c.demote from if_pos hfull]
    exact ⟨hfits, hp, by omega⟩
  · rw [show d = c from if_neg hfull]
    rw [h.isFull_guarded_iff, ← h.joined.right.size_eq, Nat.not_le] at hfull
    exact ⟨h, .refl _, hfull⟩

/-- The put of a promoted entry. -/
theorem put_promoted (h : c.Fits n m) (hk : k ∉ keys c.entries) (v : ν) :
    let d := if c.guarded.isFull then c.demote else c
    (d.guarded.put k v).1 = none ∧
      (d.guarded.put k v).2.entries = d.guarded.entries ++ [⟨k, v⟩] := by
  obtain ⟨hd, hp, hroom⟩ := h.openGuarded
  exact hd.put_guarded (mt (mem_keys_perm hp).1 hk) hroom v

theorem view_promote (h : c.Fits n c.view.guardedCapacity) (hk : k ∉ keys c.entries) (v : ν) :
    (c.promote k v).view = c.view.promote k v := by
  obtain ⟨-, hput⟩ := h.put_promoted hk v
  rw [Segmented.promote, Tiers.promote]
  have hview : (if c.guarded.isFull then c.demote else c).view =
      if c.view.guardedCapacity ≤ c.view.guarded.length then c.view.demote 1 else c.view := by
    have hiff : c.guarded.isFull = true ↔ c.view.guardedCapacity ≤ c.view.guarded.length :=
      h.isFull_guarded_iff
    rw [← h.view_demote]
    by_cases hfull : c.guarded.isFull = true
    · rw [if_pos hfull, if_pos (hiff.1 hfull)]
    · rw [if_neg hfull, if_neg (mt hiff.2 hfull)]
  rw [← hview]
  exact Tiers.ext rfl rfl rfl hput

end Fits

/-! ## Operations -/

namespace Valid

theorem fits_view (h : c.Valid ratio) : c.Fits c.capacity c.view.guardedCapacity := by
  have hfits := h.fits
  rw [← h.ratio_eq] at hfits
  exact hfits

theorem isGuarded_eq (h : c.Valid ratio) (k : κ) : c.isGuarded k = c.view.isGuarded k := by
  have hguarded := Lru.lawful.contains_eq h.fits.joined.right k
  rw [lookup?_isSome] at hguarded
  exact hguarded

theorem contains_view_eq (h : c.Valid ratio) (k : κ) : c.contains k = c.view.contains k := by
  rw [h.contains_eq, lookup?_isSome]
  rfl

/-- A key that is used in probation is promoted, as the lists have it. -/
theorem view_promote (h : c.Valid ratio) (hk : k ∈ keys c.probation.entries) (v : ν) :
    (Segmented.promote { c with probation := (c.probation.remove k).2 } k v).view =
      c.view.use k v := by
  obtain ⟨hd, -, hout, -⟩ := h.fits_view.takeProbation hk
  have hfree : ¬ c.view.isGuarded k = true := by
    rw [← h.isGuarded_eq, isGuarded, h.fits.joined.right.contains_iff]
    exact fun hmem => h.fits.joined.disjoint hk hmem
  rw [Tiers.use, if_neg hfree]
  refine (Fits.view_promote hd hout v).trans (congrArg (fun m : Tiers κ ν => m.promote k v) ?_)
  exact Tiers.ext rfl rfl (h.fits.joined.left.remove_entries k).2 rfl

/-- The entry that gives way is the head of probation, or of the protected list if probation is
empty. -/
theorem view_evict (h : c.Valid ratio) :
    c.evict.1 = c.entries.head? ∧ c.evict.2.view = c.view.dropOldest 1 := by
  obtain ⟨hhead, htail⟩ := h.fits.joined.left.evict_entries
  obtain ⟨hhead', htail'⟩ := h.fits.joined.right.evict_entries
  rw [← List.drop_one] at htail htail'
  rw [Segmented.evict, entries, List.head?_append]
  rcases hevict : c.probation.evict with ⟨_ | e, p⟩
  · rw [hevict] at hhead htail
    have hnil : c.probation.entries = [] := List.head?_eq_none_iff.1 hhead.symm
    refine ⟨?_, Tiers.ext rfl rfl htail ?_⟩
    · rw [← hhead, Option.none_or]
      exact hhead'
    · show c.guarded.evict.2.entries = c.guarded.entries.drop (1 - c.probation.entries.length)
      rw [htail', hnil, List.length_nil]
  · rw [hevict] at hhead htail
    have hpos := List.length_pos_of_mem (List.mem_of_head? hhead.symm)
    refine ⟨?_, Tiers.ext rfl rfl htail ?_⟩
    · rw [← hhead, Option.some_or]
    · show c.guarded.entries = c.guarded.entries.drop (1 - c.probation.entries.length)
      rw [Nat.sub_eq_zero_of_le hpos, List.drop_zero]

theorem evict_matches (h : c.Valid ratio) : Matches (StandsFor ratio) c.evict c.view.evict := by
  obtain ⟨rest, -, hrest⟩ := h.evict.exists_rest
  obtain ⟨hfst, hview⟩ := h.view_evict
  exact ⟨hfst, hrest.inv, hview⟩

theorem isFull_eq (h : c.Valid ratio) : c.isFull = c.view.isFull := by
  rw [isFull, Tiers.isFull, h.size_eq]
  rfl

theorem makeRoom_matches (h : c.Valid ratio) :
    Matches (StandsFor ratio) c.makeRoom c.view.makeRoom := by
  rw [Segmented.makeRoom, Tiers.makeRoom, h.isFull_eq]
  split
  · exact h.evict_matches
  · exact ⟨rfl, h, rfl⟩

/-- A new key comes to the end of probation once there is room for it. -/
theorem put_new (h : c.Valid ratio) (hk : k ∉ keys c.entries) (v : ν) :
    let d := c.makeRoom.2
    (d.probation.put k v).1 = none ∧
      (d.probation.put k v).2.entries = d.probation.entries ++ [⟨k, v⟩] := by
  intro d
  obtain ⟨hd, hcapacity, hlt⟩ := h.makeRoom.size_lt size_eq
  have hcapacity' : d.capacity = c.capacity := hcapacity
  have hout : k ∉ keys d.entries := h.makeRoom.not_mem_keys hk
  rw [entries, not_mem_keys_append] at hout
  have hopen : d.probation.size < d.probation.capacity := by
    rw [hd.fits.probation_capacity, hcapacity']
    exact Nat.lt_of_le_of_lt (Nat.le_add_right ..) hlt
  exact hd.fits.joined.left.put_entries_of_new hout.1 hopen v

theorem put_matches (h : c.Valid ratio) (k : κ) (v : ν) :
    Matches (StandsFor ratio) (c.put k v) (c.view.put k v) := by
  obtain ⟨rest, -, hrest⟩ := (h.put k v).exists_rest
  suffices hboth : (c.put k v).1 = (c.view.put k v).1 ∧ (c.put k v).2.view = (c.view.put k v).2 from
    ⟨hboth.1, hrest.inv, hboth.2⟩
  rw [Tiers.put, ← h.contains_view_eq, Segmented.put_def, Segmented.contains]
  -- The key is protected, or in probation, or new.
  by_cases hguarded : c.guarded.contains k = true
  · have hk := (h.fits.joined.right.contains_iff k).1 hguarded
    have hview : c.view.isGuarded k = true := (h.isGuarded_eq k).symm.trans hguarded
    obtain ⟨-, hput⟩ := h.fits.joined.right.put_entries (.inl hk) v
    rw [if_pos hguarded, hguarded, Bool.true_or, if_pos rfl, Tiers.use, if_pos hview]
    exact ⟨rfl, Tiers.ext rfl rfl rfl hput⟩
  rw [if_neg hguarded, Bool.of_not_eq_true hguarded, Bool.false_or]
  by_cases hk : k ∈ keys c.probation.entries
  · obtain ⟨w, -, hremove⟩ := h.fits.joined.left.exists_remove_eq hk
    rw [hremove, if_pos ((h.fits.joined.left.contains_iff k).2 hk)]
    exact ⟨rfl, h.view_promote hk v⟩
  · have hunbound : k ∉ keys c.entries := not_mem_keys_append.2
      ⟨hk, mt (h.fits.joined.right.contains_iff k).2 hguarded⟩
    obtain ⟨hfst, -, hview⟩ := h.makeRoom_matches
    obtain ⟨-, hput⟩ := h.put_new hunbound v
    rw [h.fits.joined.left.remove_of_not_mem hk,
      if_neg (mt (h.fits.joined.left.contains_iff k).1 hk)]
    refine ⟨hfst, ?_⟩
    show _ = c.view.makeRoom.2.insertNew k v
    rw [← hview]
    exact Tiers.ext rfl rfl hput rfl

theorem get_matches (h : c.Valid ratio) (k : κ) :
    Matches (StandsFor ratio) (c.get k) (c.view.get k) := by
  have hgets := h.get k
  refine ⟨hgets.value_eq, hgets.holds.inv, ?_⟩
  have hpeek : c.view.peek k = (lookup? k c.probation.entries).or (lookup? k c.guarded.entries) :=
    lookup?_append k
  rw [Tiers.get, Segmented.get_def]
  by_cases hguarded : c.guarded.contains k = true
  · have hk := (h.fits.joined.right.contains_iff k).1 hguarded
    have hout : k ∉ keys c.probation.entries := fun hmem => h.fits.joined.disjoint hmem hk
    have hview : c.view.isGuarded k = true := (h.isGuarded_eq k).symm.trans hguarded
    obtain ⟨v, hv⟩ := exists_lookup?_eq_some hk
    obtain ⟨-, hget⟩ := h.fits.joined.right.get_entries hv
    rw [lookup?_eq_none_iff.2 hout, Option.none_or, hv] at hpeek
    rw [if_pos hguarded, hpeek]
    show _ = c.view.use k v
    rw [Tiers.use, if_pos hview]
    exact Tiers.ext rfl rfl rfl hget
  rw [if_neg hguarded]
  by_cases hk : k ∈ keys c.probation.entries
  · obtain ⟨v, hv, hremove⟩ := h.fits.joined.left.exists_remove_eq hk
    rw [hv, Option.some_or] at hpeek
    rw [hremove, hpeek]
    exact h.view_promote hk v
  · have hout : k ∉ keys c.guarded.entries := mt (h.fits.joined.right.contains_iff k).2 hguarded
    rw [lookup?_eq_none_iff.2 hk, lookup?_eq_none_iff.2 hout] at hpeek
    rw [h.fits.joined.left.remove_of_not_mem hk, hpeek]
    rfl

theorem remove_matches (h : c.Valid ratio) (k : κ) :
    Matches (StandsFor ratio) (c.remove k) (c.view.remove k) := by
  have hremoves := h.remove k
  refine ⟨hremoves.value_eq, hremoves.holds.inv, ?_⟩
  rw [Segmented.remove, Tiers.remove]
  by_cases hk : k ∈ keys c.probation.entries
  · obtain ⟨v, -, hremove⟩ := h.fits.joined.left.exists_remove_eq hk
    have hout : k ∉ keys c.guarded.entries := h.fits.joined.disjoint hk
    rw [hremove]
    refine Tiers.ext rfl rfl (h.fits.joined.left.remove_entries k).2 ?_
    exact (erase_eq_self_of_not_mem hout).symm
  · rw [h.fits.joined.left.remove_of_not_mem hk]
    refine Tiers.ext rfl rfl ?_ (h.fits.joined.right.remove_entries k).2
    exact (erase_eq_self_of_not_mem hk).symm

theorem clear_standsFor (h : c.Valid ratio) : StandsFor ratio c.clear c.view.clear := by
  refine ⟨h.clear.inv, Tiers.ext rfl rfl ?_ ?_⟩
  · exact Lru.Valid.clear_entries c.probation
  · exact Lru.Valid.clear_entries c.guarded

theorem evictMany_matches (h : c.Valid ratio) (n : Nat) :
    Matches (StandsFor ratio) (evictMany Segmented.evict n c)
      (c.view.entries.take n, c.view.dropOldest n) := by
  rw [← Tiers.evictMany_eq]
  refine BoundedCache.evictMany_matches ?_ ⟨h, rfl⟩ n
  rintro d _ ⟨hd, rfl⟩
  exact hd.evict_matches

/-- The entries that fit into the new sizes are demoted if they have to be, and stay in their order
otherwise. -/
theorem view_relayout (h : c.Valid ratio) (hn : 0 < n) (hfits : c.size ≤ n) :
    (c.relayout n m).view =
      Tiers.demote { c.view with capacity := n } (c.view.guarded.length - m) := by
  have hsize : c.guarded.size = c.view.guarded.length := h.fits.joined.right.size_eq
  have hview := (h.widen hn hfits).view_demoteMany (c.guarded.size - m)
  rw [hsize] at hview
  rw [relayout, hsize]
  exact Tiers.ext rfl (congrArg Tiers.ratio hview :) (congrArg Tiers.probation hview :)
    (congrArg Tiers.guarded hview :)

/-- A resize to a capacity that can be divided up drops what no longer fits, and then changes the
segments, which drops nothing more. -/
theorem resize_eq (h : c.Valid ratio) (hlayout : layout n ratio = .ok split) :
    let p := evictMany Segmented.evict (c.size - n) c
    p.2.size ≤ n ∧ c.resize n = .ok (p.1, p.2.relayout n split.guarded) ∧
      (p.2.relayout n split.guarded).Valid ratio := by
  intro p
  obtain ⟨hn, hm, rfl⟩ := layout_eq_ok_iff.1 hlayout
  -- What is left fits into the new capacity before any segment gets it.
  obtain ⟨_, -, hd, hfits⟩ := Store.evictMany_excess_of_evicts size_eq Valid.evict h n
  obtain ⟨hprobation, hguarded, hholds⟩ := hd.inv.resizeSegments hn hm hfits
  refine ⟨hfits, ?_, hholds.inv⟩
  rw [← h.ratio_eq] at hlayout hguarded
  rw [Segmented.resize_def]
  refine bind_eq_ok_iff.2 ⟨_, hlayout, bind_eq_ok_iff.2 ⟨_, hprobation, ?_⟩⟩
  rw [← h.ratio_eq]
  exact bind_eq_ok_iff.2 ⟨_, hguarded, rfl⟩

theorem resize_matches (h : c.Valid ratio) (n : Nat) :
    MatchesIfDone (StandsFor ratio) (c.resize n) (c.view.resize n) := by
  have hratio : c.view.ratio = ratio := h.ratio_eq
  rw [Tiers.resize, hratio]
  rcases hlayout : layout n ratio with cause | split
  · rw [Segmented.resize_def, h.ratio_eq, hlayout]
    rfl
  obtain ⟨hfits, hresize, hvalid⟩ := h.resize_eq hlayout
  obtain ⟨hn, -, -⟩ := layout_eq_ok_iff.1 hlayout
  have hsize : c.size = c.view.entries.length := h.size_eq
  rw [hsize] at hfits hresize hvalid
  obtain ⟨hdropped, hd, hview⟩ := h.evictMany_matches (c.view.entries.length - n)
  rw [hresize]
  refine ⟨hdropped, hvalid, (hd.view_relayout hn hfits).trans ?_⟩
  rw [hview]

/-- A resize drops what no longer fits from the front of the list. Entries that are demoted in it
keep their places. -/
theorem resize_entries (h : c.Valid ratio) {dropped : List (Entry κ ν)} {d : Segmented κ ν}
    (hd : c.resize n = .ok (dropped, d)) :
    dropped = c.entries.take (c.size - n) ∧ d.entries = c.entries.drop (c.size - n) := by
  have hresize := h.resize_matches n
  rcases hview : c.view.resize n with cause | ⟨dropped', m⟩
  · rw [hd, hview] at hresize
    exact hresize.elim
  · rw [hd, hview] at hresize
    obtain ⟨rfl, -, rfl⟩ : Matches _ (dropped, d) (dropped', m) := hresize
    obtain ⟨split, -, hkept⟩ := bind_eq_ok_iff.1 hview
    obtain ⟨rfl, hm⟩ := Prod.mk.inj (Except.ok.inj hkept)
    have hentries : d.entries = c.view.entries.drop (c.view.entries.length - n) := by
      refine (congrArg Tiers.entries hm).symm.trans ?_
      rw [Tiers.entries_demote]
      exact Tiers.entries_dropOldest ..
    rw [hentries, h.size_eq]
    exact ⟨rfl, rfl⟩

end Valid

/-! ## Stores that are part of another one -/

namespace Valid

/-- While there is room, a new key comes to the end of probation. -/
theorem put_entries (h : c.Valid ratio) (hk : k ∉ keys c.entries) (hroom : c.size < c.capacity)
    (v : ν) :
    (c.put k v).1 = none ∧ (c.put k v).2.probation.entries = c.probation.entries ++ [⟨k, v⟩] ∧
      (c.put k v).2.guarded.entries = c.guarded.entries := by
  obtain ⟨hfst, -, hview⟩ := h.put_matches k v
  have hout : ¬ c.view.contains k = true := by
    rw [← h.contains_view_eq, h.contains_eq, Option.isSome_iff_ne_none]
    exact mt lookup?_ne_none_iff.1 hk
  have hopen : ¬ c.view.isFull = true := by
    rw [← h.isFull_eq, isFull, decide_eq_true_iff]
    exact Nat.not_le_of_lt hroom
  rw [Tiers.put, if_neg hout, Tiers.makeRoom, if_neg hopen] at hfst hview
  exact ⟨hfst, congrArg Tiers.probation hview, congrArg Tiers.guarded hview⟩

/-- A full store has an entry in probation, and the oldest one there is the one that gives way. -/
theorem exists_victim (h : c.Valid ratio) (hfull : c.size = c.capacity) :
    ∃ victim rest, c.probation.entries = victim :: rest ∧ c.victim? = some victim ∧
      c.evict = (some victim, c.evict.2) ∧ c.evict.2.probation.entries = rest ∧
      c.evict.2.guarded.entries = c.guarded.entries := by
  have hjoined := h.fits.joined
  have hpos := h.capacity_pos
  have hguarded : c.guarded.size ≤ c.capacity - 1 := by
    refine hjoined.right.size_le.trans ?_
    rw [h.fits.guarded_capacity]
    exact Nat.min_le_right ..
  -- The protected segment alone never makes up the whole capacity.
  have hprobation : c.probation.entries ≠ [] := by
    intro hnil
    rw [h.fits.size_eq_add, hnil, List.length_nil, Nat.zero_add, ← hjoined.right.size_eq] at hfull
    omega
  obtain ⟨victim, rest, hrest⟩ := List.exists_cons_of_ne_nil hprobation
  obtain ⟨hhead, hview⟩ := h.view_evict
  have hhead' : c.evict.1 = some victim := by
    rw [hhead, entries, hrest]
    rfl
  have hoffered : c.victim? = some victim := by
    rw [victim?, isFull, if_pos (decide_eq_true (Nat.le_of_eq hfull.symm)),
      hjoined.left.wellFormed.oldest?_eq, hrest]
    rfl
  refine ⟨victim, rest, hrest, hoffered, Prod.ext hhead' rfl, ?_, ?_⟩
  · have hp : c.evict.2.probation.entries = c.probation.entries.drop 1 :=
      congrArg Tiers.probation hview
    rw [hp, hrest]
    rfl
  · have hg : c.evict.2.guarded.entries =
        c.guarded.entries.drop (1 - c.probation.entries.length) := congrArg Tiers.guarded hview
    rw [hg, hrest, List.length_cons, Nat.sub_eq_zero_of_le (Nat.le_add_left ..), List.drop_zero]

end Valid

/-- A store acts like the lists that it stands for. -/
theorem simulation (ratio : Float) :
    Store.Simulation (StandsFor ratio : Segmented κ ν → Tiers κ ν → Prop) where
  size_eq := by
    rintro c _ ⟨h, rfl⟩
    exact h.size_eq
  contains_eq := by
    rintro c _ ⟨h, rfl⟩
    exact h.contains_view_eq
  peek_eq := by
    rintro c _ ⟨h, rfl⟩
    exact h.peek_eq
  get := by
    rintro c _ ⟨h, rfl⟩
    exact h.get_matches
  signals_get := by
    rintro c _ ⟨h, rfl⟩ k
    exact Store.signals_get_eq (h.getAloud_eq k) rfl (h.get_matches k)
  put := by
    rintro c _ ⟨h, rfl⟩
    exact h.put_matches
  remove := by
    rintro c _ ⟨h, rfl⟩
    exact h.remove_matches
  evict := by
    rintro c _ ⟨h, rfl⟩
    exact h.evict_matches
  clear := by
    rintro c _ ⟨h, rfl⟩
    exact h.clear_standsFor
  resize := by
    rintro c _ ⟨h, rfl⟩ n
    rw [Tiers.store_resize_eq]
    exact h.resize_matches n
  setSamples h _ := h

end Segmented

end BoundedCache
