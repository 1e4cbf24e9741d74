import BoundedCache.Proofs.Segmented.Refinement

/-!
# Segments displace nothing by themselves

The checked operations follow the plain ones step by step, but give up where a segment would drop an
entry without anyone being told: on an inner put that displaces an entry, and on a new capacity of a
segment that is too small for its entries. In a state in order they never give up.

## Main definitions

- `Segmented.put?`, `Segmented.get?`, `Segmented.resize?` — the checked operations

## Main results

- `Segmented.Valid.put?_eq`, `Segmented.Valid.get?_eq`, `Segmented.Valid.resize?_eq` — they do what
  the plain ones do
- `Segmented.actAll_refines_tiers` — any requests, asked of a new store
-/

namespace BoundedCache

namespace Segmented

open Keyed
open Store (undisturbed undisturbed_of_none)

variable {κ ν : Type} [DecidableEq κ] [Hashable κ]

/-! ## Checked steps -/

/-- A new capacity for a segment, unless it makes entries go. -/
def resizeSegment? (segment : Lru κ ν) (capacity : Nat) : Option (Lru κ ν) :=
  match segment.resize capacity with
  | .ok ([], segment) => some segment
  | _ => none

/-- A demotion, unless it drops an entry of probation. -/
def demote? (c : Segmented κ ν) : Option (Segmented κ ν) :=
  match c.guarded.evict with
  | (none, guarded) => some { c with guarded }
  | (some entry, guarded) => do
    let probation ← undisturbed (c.probation.put entry.key entry.value)
    return { c with guarded, probation }

def demoteMany? (c : Segmented κ ν) (count : Nat) : Option (Segmented κ ν) :=
  count.repeat (· >>= demote?) (some c)

def openGuarded? (c : Segmented κ ν) : Option (Segmented κ ν) :=
  if c.guarded.isFull then c.demote? else some c

def promote? (c : Segmented κ ν) (key : κ) (value : ν) : Option (Segmented κ ν) := do
  let c ← c.openGuarded?
  let guarded ← undisturbed (c.guarded.put key value)
  return { c with guarded }

/-- A put, unless one of the segments drops an entry. -/
def put? (c : Segmented κ ν) (key : κ) (value : ν) :
    Option (Option (Entry κ ν) × Segmented κ ν) :=
  if c.guarded.contains key then do
    let guarded ← undisturbed (c.guarded.put key value)
    return (none, { c with guarded })
  else
    match c.probation.remove key with
    | (some _, probation) => do
      let c ← { c with probation }.promote? key value
      return (none, c)
    | (none, probation) => do
      let (displaced, c) := { c with probation }.makeRoom
      let probation ← undisturbed (c.probation.put key value)
      return (displaced, { c with probation })

/-- A lookup, unless one of the segments drops an entry. -/
def get? (c : Segmented κ ν) (key : κ) : Option (Option ν × Segmented κ ν) :=
  if c.guarded.contains key then
    let (value, guarded) := c.guarded.get key
    some (value, { c with guarded })
  else
    match c.probation.remove key with
    | (none, probation) => some (none, { c with probation })
    | (some value, probation) => do
      let c ← { c with probation }.promote? key value
      return (c.guarded.peek key, c)

/-- A new capacity, unless one of the segments drops an entry. -/
def resize? (c : Segmented κ ν) (capacity : Nat) :
    Option (Except SetupError (List (Entry κ ν) × Segmented κ ν)) :=
  match layout capacity c.ratio with
  | .error cause => some (.error cause)
  | .ok split => do
    let (dropped, c) := evictMany evict (c.size - capacity) c
    let probation ← resizeSegment? c.probation capacity
    let c ← { c with probation }.demoteMany? (c.guarded.size - split.guarded)
    let guarded ← resizeSegment? c.guarded split.guarded
    return .ok (dropped, { c with capacity, guarded })

/-! ## No segment drops an entry -/

variable {c : Segmented κ ν} {k : κ} {m n : Nat} {ratio : Float}

theorem resizeSegment?_of_fits {segment : Lru κ ν} (hn : 0 < n) (hfits : segment.size ≤ n) :
    resizeSegment? segment n = some { segment with capacity := n } := by
  rw [resizeSegment?, Lru.resize_of_fits hn hfits]

namespace Fits

theorem demote?_eq (h : c.Fits n m) : c.demote? = some c.demote := by
  rw [demote?, Segmented.demote]
  rcases hevict : c.guarded.evict with ⟨_ | e, g⟩
  · rfl
  · obtain ⟨hnone, -⟩ := h.put_demoted hevict
    exact Option.bind_eq_some_iff.2 ⟨_, undisturbed_of_none hnone, rfl⟩

theorem demoteMany?_eq (h : c.Fits n m) (count : Nat) :
    c.demoteMany? count = some (count.repeat Segmented.demote c) := by
  induction count with
  | zero => rfl
  | succ count ih =>
    rw [demoteMany?] at ih
    rw [demoteMany?, Nat.repeat, ih]
    exact (h.demoteMany count).1.demote?_eq

theorem promote?_eq (h : c.Fits n m) (hk : k ∉ keys c.entries) (v : ν) :
    c.promote? k v = some (c.promote k v) := by
  have hopen : c.openGuarded? = some (if c.guarded.isFull then c.demote else c) := by
    rw [openGuarded?, h.demote?_eq]
    split <;> rfl
  obtain ⟨hnone, -⟩ := h.put_promoted hk v
  refine Option.bind_eq_some_iff.2 ⟨_, hopen, ?_⟩
  exact Option.bind_eq_some_iff.2 ⟨_, undisturbed_of_none hnone, rfl⟩

end Fits

namespace Valid

theorem promote?_eq (h : c.Valid ratio) (hk : k ∈ keys c.probation.entries) (v : ν) :
    Segmented.promote? { c with probation := (c.probation.remove k).2 } k v =
      some (Segmented.promote { c with probation := (c.probation.remove k).2 } k v) := by
  obtain ⟨hd, -, hout, -⟩ := h.fits.takeProbation hk
  exact hd.promote?_eq hout v

/-- In a state in order no segment drops an entry in a put. -/
theorem put?_eq (h : c.Valid ratio) (k : κ) (v : ν) : c.put? k v = some (c.put k v) := by
  rw [put?, Segmented.put_def]
  split
  · next hguarded =>
    have hk := (h.fits.joined.right.contains_iff k).1 hguarded
    obtain ⟨hnone, -⟩ := h.fits.joined.right.put_entries (.inl hk) v
    exact Option.bind_eq_some_iff.2 ⟨_, undisturbed_of_none hnone, rfl⟩
  next hguarded =>
  by_cases hk : k ∈ keys c.probation.entries
  · obtain ⟨w, -, hremove⟩ := h.fits.joined.left.exists_remove_eq hk
    rw [hremove]
    exact Option.bind_eq_some_iff.2 ⟨_, h.promote?_eq hk v, rfl⟩
  · have hunbound : k ∉ keys c.entries := not_mem_keys_append.2
      ⟨hk, mt (h.fits.joined.right.contains_iff k).2 hguarded⟩
    obtain ⟨hnone, -⟩ := h.put_new hunbound v
    rw [h.fits.joined.left.remove_of_not_mem hk]
    exact Option.bind_eq_some_iff.2 ⟨_, undisturbed_of_none hnone, rfl⟩

/-- In a state in order no segment drops an entry in a lookup. -/
theorem get?_eq (h : c.Valid ratio) (k : κ) : c.get? k = some (c.get k) := by
  rw [get?, Segmented.get_def]
  split
  · rfl
  by_cases hk : k ∈ keys c.probation.entries
  · obtain ⟨w, -, hremove⟩ := h.fits.joined.left.exists_remove_eq hk
    rw [hremove]
    exact Option.bind_eq_some_iff.2 ⟨_, h.promote?_eq hk w, rfl⟩
  · rw [h.fits.joined.left.remove_of_not_mem hk]

/-- In a state in order no segment drops an entry in a change of the capacity: those that have to go
have gone before the segments change. -/
theorem resize?_eq (h : c.Valid ratio) (n : Nat) : c.resize? n = some (c.resize n) := by
  rw [resize?, h.ratio_eq]
  rcases hlayout : layout n ratio with cause | split
  · rw [Segmented.resize_def, h.ratio_eq, hlayout]
    rfl
  obtain ⟨hfits, hresize, -⟩ := h.resize_eq hlayout
  obtain ⟨hn, hm, rfl⟩ := layout_eq_ok_iff.1 hlayout
  obtain ⟨-, hd, -⟩ := h.evictMany_matches (c.size - n)
  have hguarded := hd.guarded_size_demoteMany_le (m := (Split.ofRatio n ratio).guarded) hn hfits
  rw [hresize]
  refine Option.bind_eq_some_iff.2
    ⟨_, resizeSegment?_of_fits hn ((Nat.le_add_right ..).trans hfits), ?_⟩
  refine Option.bind_eq_some_iff.2 ⟨_, (hd.widen hn hfits).demoteMany?_eq _, ?_⟩
  exact Option.bind_eq_some_iff.2 ⟨_, resizeSegment?_of_fits hm hguarded, rfl⟩

end Valid

/-! ## Any actions -/

/-- A ratio is accepted with a capacity that it divides into two segments. -/
theorem create_eq_ok (hratio : 0 < ratio ∧ ratio < 1) (hn : 0 < n)
    (hm : 0 < (Split.ofRatio n ratio).guarded) :
    (create n ratio : Except SetupError (Segmented κ ν)) = .ok {
      capacity := n
      ratio
      probation := .empty n
      guarded := .empty (Split.ofRatio n ratio).guarded } := by
  refine bind_eq_ok_iff.2 ⟨(), requireFraction_eq_ok_iff.2 hratio, ?_⟩
  refine bind_eq_ok_iff.2 ⟨_, layout_eq_ok_iff.2 ⟨hn, hm, rfl⟩, ?_⟩
  refine bind_eq_ok_iff.2 ⟨_, Lru.create_eq_ok_iff.2 ⟨hn, rfl⟩, ?_⟩
  exact bind_eq_ok_iff.2 ⟨_, Lru.create_eq_ok_iff.2 ⟨hm, rfl⟩, rfl⟩

theorem create_standsFor (hc : create n ratio = .ok c) :
    StandsFor ratio c { capacity := n, ratio } := by
  obtain ⟨hvalid, hcapacity, hperm⟩ := create_holds hc
  obtain ⟨hprobation, hguarded⟩ := List.append_eq_nil_iff.1 hperm.eq_nil
  exact ⟨hvalid, Tiers.ext hcapacity hvalid.ratio_eq hprobation hguarded⟩

/-- From a new store on, any actions are answered and announced as the two lists do it, and
afterwards the segments are the lists: they share no key, fit into the capacity together, and the
protected one into its own, which leaves probation a place. No segment drops an entry by itself
after that. -/
theorem actAll_refines_tiers {capacity : Nat} (hc : create capacity ratio = .ok c)
    (listener : Option Nat) (actions : List (Observed.Action κ ν)) :
    let run := Observed.actAll { store := c, listener } actions
    let model := Observed.actAll { store := ({ capacity, ratio } : Tiers κ ν), listener } actions
    let s := run.2.store
    let m := model.2.store
    run.1 = model.1 ∧ run.2.tally = model.2.tally ∧
      s.capacity = m.capacity ∧ s.guarded.capacity = m.guardedCapacity ∧
      (∀ k, s.isGuarded k = m.isGuarded k) ∧
      s.probation.size = m.probation.length ∧ s.guarded.size = m.guarded.length ∧
      s.entries = m.probation ++ m.guarded ∧
      List.Disjoint (keys m.probation) (keys m.guarded) ∧
      m.probation.length + m.guarded.length ≤ s.capacity ∧
      m.guarded.length ≤ s.guarded.capacity ∧
      1 ≤ s.guarded.capacity ∧ s.guarded.capacity ≤ s.capacity - 1 ∧
      (∀ k v, s.put? k v = some (s.put k v)) ∧ (∀ k, s.get? k = some (s.get k)) ∧
      ∀ n, s.resize? n = some (s.resize n) := by
  intro run model s m
  have halike : Observed.Alike (StandsFor ratio) { store := c, listener }
      { store := ({ capacity, ratio } : Tiers κ ν), listener } := ⟨create_standsFor hc, rfl, rfl⟩
  obtain ⟨hfst, ⟨h, hview⟩, htally, -⟩ :=
    Observed.actAll_matches (simulation ratio) halike actions
  have hm : m = s.view := hview.symm
  have hjoined := h.fits.joined
  have hguarded : s.guarded.capacity = s.view.guardedCapacity := h.fits_view.guarded_capacity
  have hpos := hjoined.right.capacity_pos
  have hbelow : s.guarded.capacity ≤ s.capacity - 1 := by
    rw [hguarded]
    exact Nat.min_le_right ..
  rw [hm]
  refine ⟨hfst, htally, rfl, hguarded, h.isGuarded_eq, hjoined.left.size_eq, hjoined.right.size_eq,
    rfl, hjoined.disjoint, ?_, ?_, hpos, hbelow, h.put?_eq, h.get?_eq, h.resize?_eq⟩
  · rw [← List.length_append]
    exact h.length_le
  · rw [show s.view.guarded.length = _ from hjoined.right.size_eq.symm]
    exact hjoined.right.size_le

/-- Two keys that are used take turns in the protected place, and the one demoted gives way to a
third. -/
theorem actAll_refines_tiers_two :
    ∃ c : Segmented Nat Nat, create 2 0.8 = .ok c ∧
      (Observed.actAll { store := c, listener := some 7 }
        [.request (.put 1 10), .request (.get 1), .request (.put 2 20), .request (.get 2),
          .request (.put 3 30)]).1 =
      [⟨.put 1 10, .entry none, [], []⟩, ⟨.get 1, .value (some 10), [], []⟩,
        ⟨.put 2 20, .entry none, [], []⟩, ⟨.get 2, .value (some 20), [], []⟩,
        ⟨.put 3 30, .entry (some ⟨1, 10⟩), [⟨1, 10⟩], [⟨7, ⟨1, 10⟩⟩]⟩] := by
  have hratio : (0 : Float) < 0.8 ∧ (0.8 : Float) < 1 := by decide +kernel
  have hc := create_eq_ok (κ := Nat) (ν := Nat) (n := 2) hratio (by decide) (by decide +kernel)
  exact ⟨_, hc, (actAll_refines_tiers hc (some 7) _).1.trans (by decide +kernel)⟩

end Segmented

end BoundedCache
