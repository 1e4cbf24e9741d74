import BoundedCache.Proofs.Error
import BoundedCache.Proofs.Sampled.Index
import BoundedCache.Proofs.Store.Lawful

/-!
# Sampled stores are lawful

Whatever the generator draws, an eviction inspects at least one entry of a store that has any, and
drops one that it inspected.

## Main definitions

- `Sampled.Valid` — the index is right, the entries fit, and the number of samples is in its bounds

## Main results

- `Sampled.create_eq_ok_iff`, `Sampled.setSamples_eq_ok_iff`, `Sampled.resize_eq_ok_iff` — which
  settings are accepted, and what becomes of the store
- `Sampled.Valid.candidates` — some place is inspected if there are entries
- `Sampled.lawful` — the laws of a bounded map
-/

namespace BoundedCache.Sampled

open Keyed

variable {κ ν : Type} [DecidableEq κ] [Hashable κ] {c d : Sampled κ ν} {k : κ} {v : ν} {i n : Nat}
  {l : List (Entry κ ν)}

/-! ## Draws -/

variable {γ : Type} [Generator γ] {g : γ}

theorem length_draw (n count : Nat) (g : γ) : (draw n count g).1.length = count := by
  induction count generalizing g with
  | zero => rfl
  | succ count ih => rw [draw, List.length_cons, ih]

theorem lt_of_mem_draw (hn : 0 < n) {count : Nat} (h : i ∈ (draw n count g).1) :
    i < n := by
  induction count generalizing g with
  | zero => cases h
  | succ count ih =>
    rw [draw, List.mem_cons] at h
    rcases h with rfl | hlater
    · exact Generator.below_lt hn g
    · exact ih hlater

/-- The stalest of some places is one of them. -/
theorem stalest?_mem {places : List Nat} (h : c.stalest? places = some i) : i ∈ places := by
  cases places with
  | nil => cases h
  | cons first rest =>
    obtain rfl := Option.some.inj h
    clear h
    induction rest generalizing first with
    | nil => exact List.mem_cons_self
    | cons j rest ih =>
      rw [List.foldl_cons]
      rcases List.mem_cons.1 (ih (if c.lastUseAt j < c.lastUseAt first then j else first)) with
        hbest | hrest
      · rw [hbest]
        split
        · exact List.mem_cons_of_mem _ List.mem_cons_self
        · exact List.mem_cons_self
      · exact List.mem_cons_of_mem _ (List.mem_cons_of_mem _ hrest)

theorem samples_removeAt (c : Sampled κ ν) (i : Nat) : (c.removeAt i).2.samples = c.samples := by
  rw [removeAt]
  split
  · rfl
  · rfl

/-- An eviction changes how many entries there are, not how many are inspected. -/
theorem samples_evict (c : Sampled κ ν) : c.evict.2.samples = c.samples := by
  rw [evict]
  dsimp only
  split
  · rfl
  · exact samples_removeAt _ _

/-! ## Settings -/

/-- A store is made if an eviction finds enough entries to inspect in a full one. -/
theorem create_eq_ok_iff {seed : UInt64} :
    create n seed = .ok c ↔
      Policy.fewestSamples ≤ n ∧ { capacity := n, random := .ofSeed seed } = c := by
  constructor
  · intro hc
    obtain ⟨_, -, hc⟩ := bind_eq_ok_iff.1 hc
    obtain ⟨hle, hc⟩ := ite_throw_eq_ok_iff.1 hc
    exact ⟨Nat.le_of_not_lt hle, Except.ok.inj hc⟩
  · rintro ⟨hle, rfl⟩
    have hpos : 0 < n := Nat.lt_of_lt_of_le (by decide) hle
    refine bind_eq_ok_iff.2 ⟨(), requireCapacity_eq_ok_iff.2 hpos, ?_⟩
    exact ite_throw_eq_ok_iff.2 ⟨Nat.not_lt.2 hle, rfl⟩

/-- A number of samples, raised if it is too small, is taken if that many entries fit. -/
theorem setSamples_eq_ok_iff {samples : Nat} :
    c.setSamples samples = .ok d ↔ max samples Policy.fewestSamples ≤ c.capacity ∧
      { c with samples := max samples Policy.fewestSamples } = d := by
  refine ite_throw_eq_ok_iff.trans ?_
  rw [Nat.not_lt, Except.ok.injEq]

theorem store_setSamples_of_ok {samples : Nat} (hd : c.setSamples samples = .ok d) :
    Store.setSamples c samples = d := by
  simp only [Store.setSamples, hd]

theorem store_setSamples_of_error {samples : Nat} {cause : SetupError}
    (hd : c.setSamples samples = .error cause) : Store.setSamples c samples = c := by
  simp only [Store.setSamples, hd]

/-- A capacity is taken if an eviction still finds enough entries to inspect in a full store. -/
theorem resize_eq_ok_iff {p : List (Entry κ ν) × Sampled κ ν} :
    c.resize n = .ok p ↔ 0 < n ∧ c.samples ≤ n ∧
      ((evictMany evict (c.size - n) c).1,
        { (evictMany evict (c.size - n) c).2 with capacity := n }) = p := by
  rw [resize_def]
  constructor
  · intro hp
    obtain ⟨_, hn, hp⟩ := bind_eq_ok_iff.1 hp
    obtain ⟨hsamples, hp⟩ := ite_throw_eq_ok_iff.1 hp
    exact ⟨requireCapacity_eq_ok_iff.1 hn, Nat.le_of_not_lt hsamples, Except.ok.inj hp⟩
  · rintro ⟨hn, hsamples, rfl⟩
    refine bind_eq_ok_iff.2 ⟨(), requireCapacity_eq_ok_iff.2 hn, ?_⟩
    exact ite_throw_eq_ok_iff.2 ⟨Nat.not_lt.2 hsamples, rfl⟩

/-! ## The invariant -/

/-- The index is the inverse of the keys, the entries fit, and an eviction inspects at least the
least number of them, but no more than there may be. -/
structure Valid (c : Sampled κ ν) : Prop where
  inverse : Inverse c.index (keys c.entries)
  size_le : c.size ≤ c.capacity
  fewest_le : Policy.fewestSamples ≤ c.samples
  samples_le : c.samples ≤ c.capacity

theorem size_eq (c : Sampled κ ν) : c.size = c.entries.length := by
  rw [size, entries, List.length_map, Array.length_toList]

namespace Valid

theorem samples_pos (h : c.Valid) : 0 < c.samples :=
  Nat.lt_of_lt_of_le (by decide) h.fewest_le

theorem capacity_pos (h : c.Valid) : 0 < c.capacity :=
  Nat.lt_of_lt_of_le h.samples_pos h.samples_le

theorem distinct (h : c.Valid) : Distinct Entry.key c.entries := h.inverse.nodup

/-- The slots may change as long as the index remains right and the entries fit. -/
theorem holds (h : c.Valid) (hinverse : Inverse d.index (keys d.entries))
    (hcapacity : d.capacity = c.capacity) (hsamples : d.samples = c.samples)
    (hp : d.entries.Perm l) (hlength : l.length ≤ c.capacity) :
    Store.Holds Valid (Store.capacity c) l d where
  inv := by
    refine ⟨hinverse, ?_, ?_, ?_⟩
    · rw [size_eq, hp.length_eq, hcapacity]
      exact hlength
    · rw [hsamples]
      exact h.fewest_le
    · rw [hsamples, hcapacity]
      exact h.samples_le
  capacity_eq := hcapacity
  perm := hp

/-! ## Reading -/

/-- The index leads to the slot of a key. -/
theorem index_iff (h : c.Valid) (k : κ) (i : Nat) :
    c.index[k]? = some i ↔ ∃ x, c.slots[i]? = some x ∧ x.entry.key = k := by
  rw [h.inverse k i, keys, entries, List.map_map, List.getElem?_map, Array.getElem?_toList,
    Option.map_eq_some_iff]
  rfl

/-- Where a key is, and what it is bound to. -/
theorem index_cases (h : c.Valid) (k : κ) :
    (c.index[k]? = none ∧ k ∉ keys c.entries) ∨
      ∃ i x, c.index[k]? = some i ∧ c.slots[i]? = some x ∧ x.entry.key = k ∧
        lookup? k c.entries = some x.entry.value := by
  cases hi : c.index[k]? with
  | none => exact .inl ⟨rfl, h.inverse.eq_none_iff.1 hi⟩
  | some i =>
    obtain ⟨x, hx, hkey⟩ := (h.index_iff k i).1 hi
    refine .inr ⟨i, x, rfl, hx, hkey, ?_⟩
    have hmem : x.entry ∈ c.entries :=
      List.mem_map_of_mem (Array.mem_toList_iff.2 (Array.mem_of_getElem? hx))
    rw [lookup?, (find?_eq_some_iff h.distinct).2 ⟨hmem, hkey⟩]
    rfl

theorem contains_eq (h : c.Valid) (k : κ) : c.contains k = (lookup? k c.entries).isSome := by
  rw [contains, Std.HashMap.contains_eq_isSome_getElem?]
  rcases h.index_cases k with ⟨hi, hk⟩ | ⟨i, x, hi, -, -, hlookup⟩
  · rw [hi, lookup?_eq_none_iff.2 hk]
    rfl
  · rw [hi, hlookup]
    rfl

theorem peek_eq (h : c.Valid) (k : κ) : c.peek k = lookup? k c.entries := by
  rw [peek, find?]
  rcases h.index_cases k with ⟨hi, hk⟩ | ⟨i, x, hi, hx, -, hlookup⟩
  · rw [hi, lookup?_eq_none_iff.2 hk]
    rfl
  · rw [hi, hlookup, Option.bind_some, hx]
    rfl

/-! ## Evicting -/

theorem length_le (h : c.Valid) : c.entries.length ≤ c.capacity := by
  rw [← size_eq]
  exact h.size_le

/-- All places that are inspected are in use, and there are some if there are entries. -/
theorem candidates (h : c.Valid) :
    (∀ i ∈ c.candidates.1, i < c.size) ∧ (c.candidates.1 = [] → c.size = 0) := by
  rw [Sampled.candidates]
  split
  · refine ⟨fun i hi => List.mem_range.1 hi, fun hnil => ?_⟩
    exact List.range_eq_nil.1 hnil
  · next hmany =>
    have hsize : 0 < c.size := Nat.lt_of_le_of_lt (Nat.zero_le _) (Nat.lt_of_not_le hmany)
    refine ⟨fun i hi => lt_of_mem_draw hsize hi, fun hnil => ?_⟩
    have hlength := length_draw c.size c.samples c.random
    rw [hnil] at hlength
    exact absurd hlength (Nat.ne_of_lt h.samples_pos)

theorem removeAt (h : c.Valid) {x : Stamped κ ν} (hx : c.slots[i]? = some x) :
    ∃ d, c.removeAt i = (some x.entry, d) ∧ c.entries.Perm (x.entry :: d.entries) ∧
      Store.Holds Valid (Store.capacity c) d.entries d := by
  obtain ⟨hentry, hp, hinverse, hcapacity⟩ := removeAt_spec h.inverse hx
  refine ⟨(c.removeAt i).2, Prod.ext hentry rfl, hp, ?_⟩
  refine h.holds hinverse hcapacity (samples_removeAt c i) (.refl _) ?_
  have hcount := hp.length_eq
  have hle := h.length_le
  rw [List.length_cons] at hcount
  omega

/-- What is drawn does not matter for the laws. -/
theorem withRandom (h : c.Valid) (g : Random) : Valid { c with random := g } :=
  ⟨h.inverse, h.size_le, h.fewest_le, h.samples_le⟩

theorem evict (h : c.Valid) : Store.Evicts Valid c c.evict := by
  obtain ⟨hlt, hnil⟩ := h.candidates
  rw [Sampled.evict]
  generalize c.candidates = p at hlt hnil ⊢
  obtain ⟨places, g⟩ := p
  have hd := h.withRandom g
  dsimp only
  rcases hstalest : stalest? { c with random := g } places with _ | i
  · -- Some place is inspected if there are entries, so there are none.
    have hplaces : places = [] := by
      cases places with
      | nil => rfl
      | cons first rest => cases hstalest
    have hentries : c.entries = [] := by
      rw [← List.length_eq_zero_iff, ← size_eq]
      exact hnil hplaces
    refine Store.evicts_none hentries ⟨hd, rfl, .of_eq hentries⟩
  · have hi : i < c.slots.size := hlt i (stalest?_mem hstalest)
    obtain ⟨t, hremove, hp, hholds⟩ := hd.removeAt (Array.getElem?_eq_getElem hi)
    dsimp only
    rw [hremove]
    exact Store.evicts_some hp hholds

theorem makeRoom (h : c.Valid) : Store.MakesRoom Valid c c.makeRoom :=
  Store.makesRoom_of_evicts h (size_eq c) h.size_le h.capacity_pos decide_eq_true_iff h.evict

/-! ## Other operations -/

theorem advance (h : c.Valid) : c.advance.Valid :=
  ⟨h.inverse, h.size_le, h.fewest_le, h.samples_le⟩

/-- The entry in a slot may get another value, and any time. -/
theorem modify (h : c.Valid) {x : Stamped κ ν} (hx : c.slots[i]? = some x)
    {f : Stamped κ ν → Stamped κ ν} (hf : (f x).entry = ⟨x.entry.key, v⟩) :
    Store.Holds Valid (Store.capacity c)
      (⟨x.entry.key, v⟩ :: erase Entry.key x.entry.key c.entries)
      { c with slots := c.slots.modify i f } := by
  rw [← Array.getElem?_toList] at hx
  obtain ⟨hi, -⟩ := List.getElem?_eq_some_iff.1 hx
  -- The list is cut at the slot, which keeps its key.
  obtain ⟨xs, y, ys, hslots, hlength, hmodify⟩ := List.exists_of_modify f hi
  obtain rfl : y = x := by
    rw [hslots, List.getElem?_append_right (Nat.le_of_eq hlength), hlength, Nat.sub_self] at hx
    exact Option.some.inj hx
  have hentries : c.entries = xs.map Stamped.entry ++ y.entry :: ys.map Stamped.entry := by
    rw [entries, hslots, List.map_append, List.map_cons]
  have hentries' : entries { c with slots := c.slots.modify i f } =
      xs.map Stamped.entry ++ ⟨y.entry.key, v⟩ :: ys.map Stamped.entry := by
    rw [entries, Array.toList_modify, hmodify, List.map_append, List.map_cons, hf]
  have hkeys : keys (entries { c with slots := c.slots.modify i f }) = keys c.entries := by
    rw [hentries', hentries, keys, keys, List.map_append, List.map_append]
    rfl
  have hdistinct := h.distinct
  have hle := h.length_le
  rw [hentries] at hdistinct hle
  refine h.holds ?_ rfl rfl ?_ ?_
  · rw [hkeys]
    exact h.inverse
  · rw [hentries', hentries, erase_append_cons hdistinct]
    exact List.perm_middle
  · rw [hentries, erase_append_cons hdistinct]
    rw [List.perm_middle.length_eq] at hle
    exact hle

theorem insertNew (h : c.Valid) (hk : k ∉ keys c.entries) (hroom : c.size < c.capacity) (v : ν) :
    Store.Holds Valid (Store.capacity c) (⟨k, v⟩ :: c.entries) (c.insertNew k v) := by
  have hentries : (c.insertNew k v).entries = c.entries ++ [⟨k, v⟩] := by
    rw [Sampled.insertNew, entries, Array.toList_push, List.map_append]
    rfl
  have hkeys : keys (c.insertNew k v).entries = keys c.entries ++ [k] := by
    rw [hentries, keys, List.map_append]
    rfl
  have hlength : c.slots.size = (keys c.entries).length := by
    rw [keys, List.length_map]
    exact size_eq c
  refine h.holds ?_ rfl rfl ?_ ?_
  · rw [hkeys, Sampled.insertNew, hlength]
    exact h.inverse.push hk
  · rw [hentries]
    exact List.perm_append_singleton ..
  · rw [List.length_cons, ← size_eq]
    exact hroom

theorem put (h : c.Valid) (k : κ) (v : ν) : Store.Puts Valid c k v (c.put k v) := by
  have hadvance := h.advance
  have hputs : Store.Puts Valid c.advance k v (c.put k v) := by
    rw [Sampled.put_def]
    generalize c.advance = d at hadvance ⊢
    rcases hadvance.index_cases k with ⟨hi, hk⟩ | ⟨i, x, hi, hx, rfl, hlookup⟩
    · rw [hi]
      have hroom := hadvance.makeRoom
      obtain ⟨hvalid, hcapacity, hlt⟩ := hroom.size_lt fun {s} _ => size_eq s
      rw [← hcapacity] at hlt
      refine hroom.puts hk ?_
      rw [← hcapacity]
      exact hvalid.insertNew (hroom.not_mem_keys hk) hlt v
    · rw [hi]
      refine Store.puts_none (.inl ?_) (hadvance.modify hx rfl)
      exact Option.ne_none_iff_exists'.2 ⟨_, hlookup⟩
  exact ⟨hputs.exists_rest, hputs.isSome_iff⟩

theorem get (h : c.Valid) (k : κ) : Store.Gets Valid c k (c.get k) := by
  rw [Sampled.get_def]
  rcases h.index_cases k with ⟨hi, hk⟩ | ⟨i, x, hi, hx, rfl, hlookup⟩
  · rw [hi]
    exact ⟨(lookup?_eq_none_iff.2 hk).symm, h, rfl, .refl _⟩
  · rw [hi]
    have hx' : c.advance.slots[i]? = some x := hx
    let use (slot : Stamped κ ν) : Stamped κ ν := { slot with lastUse := c.advance.clock }
    have hsame : (use x).entry = ⟨x.entry.key, x.entry.value⟩ := rfl
    obtain ⟨hvalid, hcapacity, hp⟩ := h.advance.modify hx' hsame
    refine ⟨?_, hvalid, hcapacity, hp.trans (perm_of_lookup? h.distinct hlookup).symm⟩
    dsimp only
    rw [hx']
    exact hlookup.symm

/-- A lookup signals whether it finds a value. -/
theorem getAloud_eq (h : c.Valid) (k : κ) : c.getAloud k = announceLookup (c.get k) := by
  rw [getAloud, Sampled.get_def]
  rcases h.index_cases k with ⟨hi, -⟩ | ⟨i, x, hi, hx, -, -⟩
  · rw [hi]
    rfl
  · rw [hi]
    have hx' : c.advance.slots[i]? = some x := hx
    exact Aloud.announceLookup_of_isSome (congrArg (Option.isSome <| ·.map (·.entry.value)) hx')

theorem remove (h : c.Valid) (k : κ) : Store.Removes Valid c k (c.remove k) := by
  rw [Sampled.remove]
  rcases h.index_cases k with ⟨hi, hk⟩ | ⟨i, x, hi, hx, rfl, hlookup⟩
  · rw [hi]
    have herase : erase Entry.key k c.entries = c.entries := erase_eq_self_of_not_mem hk
    exact ⟨(lookup?_eq_none_iff.2 hk).symm, h, rfl, .of_eq herase.symm⟩
  · obtain ⟨d, hremove, hp, hholds⟩ := h.removeAt hx
    rw [hi]
    dsimp only
    rw [hremove]
    refine ⟨hlookup.symm, hholds.inv, hholds.capacity_eq, ?_⟩
    have herase := erase_perm hp x.entry.key
    rw [erase_cons_self, erase_eq_self_of_not_mem (not_mem_keys_rest h.distinct hp)] at herase
    exact herase.symm

theorem clear (h : c.Valid) : Store.Holds Valid c.capacity [] c.clear :=
  h.holds .nil rfl rfl (.refl _) (Nat.zero_le _)

theorem resize (h : c.Valid) {dropped : List (Entry κ ν)} (hd : c.resize n = .ok (dropped, d)) :
    ∃ rest, c.entries.Perm (dropped ++ rest) ∧ Store.Holds Valid n rest d := by
  obtain ⟨-, hsamples, hd⟩ := resize_eq_ok_iff.1 hd
  -- No eviction changes the number of samples, which was compared with the new capacity.
  have hevict : ∀ {t : Sampled κ ν}, t.Valid ∧ t.samples = c.samples →
      Store.Evicts (fun t => t.Valid ∧ t.samples = c.samples) t t.evict :=
    fun {t} ht => ht.1.evict.and ((samples_evict t).trans ht.2)
  obtain ⟨rest, hp, hholds, hfits⟩ := Store.evictMany_excess_of_evicts (fun {t} _ => size_eq t)
    hevict ⟨h, rfl⟩ n
  generalize evictMany Sampled.evict (c.size - n) c = p at hp hholds hfits hd
  obtain ⟨gone, t⟩ := p
  cases hd
  obtain ⟨hvalid, hkept⟩ := hholds.inv
  refine ⟨rest, hp, ⟨hvalid.inverse, hfits, hvalid.fewest_le, ?_⟩, rfl, hholds.perm⟩
  show t.samples ≤ n
  rw [hkept]
  exact hsamples

/-- The number of samples may change as long as a full store has that many entries. -/
theorem setSamples (h : c.Valid) {samples : Nat} (hd : c.setSamples samples = .ok d) :
    Store.Holds Valid (Store.capacity c) c.entries d := by
  obtain ⟨hle, rfl⟩ := setSamples_eq_ok_iff.1 hd
  exact ⟨⟨h.inverse, h.size_le, Nat.le_max_right .., hle⟩, rfl, .refl _⟩

/-- A number of samples that is not accepted changes nothing. -/
theorem store_setSamples (h : c.Valid) (samples : Nat) :
    Store.Holds Valid (Store.capacity c) c.entries (Store.setSamples c samples) := by
  rcases hd : c.setSamples samples with cause | d
  · rw [store_setSamples_of_error hd]
    exact ⟨h, rfl, .refl _⟩
  · rw [store_setSamples_of_ok hd]
    exact h.setSamples hd

end Valid

theorem create_holds {seed : UInt64} (hc : create n seed = .ok c) : Store.Holds Valid n [] c := by
  obtain ⟨hle, rfl⟩ := create_eq_ok_iff.1 hc
  exact ⟨⟨.nil, Nat.zero_le _, Nat.le_refl _, hle⟩, rfl, .refl _⟩

theorem lawful : Store.Lawful (Valid : Sampled κ ν → Prop) where
  distinct h := h.distinct
  size_eq {c} _ := size_eq c
  size_le h := h.size_le
  capacity_pos h := h.capacity_pos
  contains_eq h k := h.contains_eq k
  peek_eq h k := h.peek_eq k
  get h k := h.get k
  put h k v := h.put k v
  remove h k := h.remove k
  evict h := h.evict
  clear h := h.clear
  resize h _ _ _ hd := h.resize hd
  getAloud_eq h k := h.getAloud_eq k
  setSamples h n := h.store_setSamples n

end BoundedCache.Sampled
