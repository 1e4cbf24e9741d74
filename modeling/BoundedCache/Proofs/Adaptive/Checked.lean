import BoundedCache.Proofs.Adaptive.Lawful

/-!
# Adaptive replacement never goes wrong

The checked operations follow the plain ones step by step, but give up where a machine would go
wrong, or where an entry would be lost without being told: on a division by zero, a difference below
zero, a sum beyond the word size, an inner put that displaces an entry, and when there is nothing to
drop from a store without room. In a state in order they never give up.

## Main definitions

- `Adaptive.put?`, `Adaptive.get?` — the checked operations

## Main results

- `Adaptive.Valid.put?_eq`, `Adaptive.Valid.get?_eq` — they do what the plain ones do
- `Adaptive.actAll_never_fails` — the invariant, and what follows from it, after any actions
-/

namespace BoundedCache

namespace Adaptive

open Keyed Store

/-! ## Checked steps -/

/-- A quotient, unless the divisor is zero. -/
def divide? (m n : Nat) : Option Nat := if n = 0 then none else some (m / n)

/-- A difference, unless it is below zero. -/
def subtract? (m n : Nat) : Option Nat := if m < n then none else some (m - n)

variable {κ ν : Type} [DecidableEq κ] [Hashable κ]

/-- A larger target, unless the sum does not fit into a word though the capacity takes less than
half of one. -/
def raise? (c : Adaptive κ ν) (step : Nat) : Option Nat :=
  if c.capacity < UInt64.size / 2 ∧ UInt64.size ≤ c.target + step then none
  else some (c.target + step)

/-- An entry goes if there is no room, unless none is found. -/
def makeRoom? (c : Adaptive κ ν) (onTie : Bool) : Option (Option (Entry κ ν) × Adaptive κ ν) :=
  if c.isFull then
    match c.displace onTie with
    | (none, _) => none
    | (some entry, c) => some (some entry, c)
  else some (none, c)

def trimGhosts? (c : Adaptive κ ν) : Option (Adaptive κ ν) := do
  let share ← subtract? c.capacity c.target
  let c := if share < c.recentGhosts.size then
    { c with recentGhosts := c.recentGhosts.evict.2 } else c
  return if c.target < c.frequentGhosts.size then
    { c with frequentGhosts := c.frequentGhosts.evict.2 } else c

def putRecent? (c : Adaptive κ ν) (key : κ) (value : ν) : Option (Adaptive κ ν) := do
  let recent ← undisturbed (c.recent.put key value)
  return { c with recent }

def putFrequent? (c : Adaptive κ ν) (key : κ) (value : ν) : Option (Adaptive κ ν) := do
  let frequent ← undisturbed (c.frequent.put key value)
  return { c with frequent }

def reviveRecent? (c : Adaptive κ ν) (key : κ) (value : ν) :
    Option (Option (Entry κ ν) × Adaptive κ ν) := do
  let ratio ← divide? c.frequentGhosts.size c.recentGhosts.size
  let target ← c.raise? (max ratio 1)
  let (displaced, c) ← { c with target := min target c.capacity }.makeRoom? false
  let c ← { c with recentGhosts := (c.recentGhosts.remove key).2 }.putFrequent? key value
  return (displaced, c)

def reviveFrequent? (c : Adaptive κ ν) (key : κ) (value : ν) :
    Option (Option (Entry κ ν) × Adaptive κ ν) := do
  let ratio ← divide? c.recentGhosts.size c.frequentGhosts.size
  let (displaced, c) ← { c with target := c.target - max ratio 1 }.makeRoom? true
  let c ← { c with frequentGhosts := (c.frequentGhosts.remove key).2 }.putFrequent? key value
  return (displaced, c)

def insertNew? (c : Adaptive κ ν) (key : κ) (value : ν) :
    Option (Option (Entry κ ν) × Adaptive κ ν) := do
  let (displaced, c) ← c.makeRoom? false
  let c ← c.trimGhosts?
  let c ← c.putRecent? key value
  return (displaced, c)

/-- A put, unless one of its steps goes wrong. -/
def put? (c : Adaptive κ ν) (key : κ) (value : ν) : Option (Option (Entry κ ν) × Adaptive κ ν) :=
  match c.recent.remove key with
  | (some _, recent) => do
    let c ← { c with recent }.putFrequent? key value
    return (none, c)
  | (none, recent) => do
    let c := { c with recent }
    if c.frequent.contains key then
      let c ← c.putFrequent? key value
      return (none, c)
    else if c.recentGhosts.contains key then c.reviveRecent? key value
    else if c.frequentGhosts.contains key then c.reviveFrequent? key value
    else c.insertNew? key value

/-- A lookup, unless one of its steps goes wrong. -/
def get? (c : Adaptive κ ν) (key : κ) : Option (Option ν × Adaptive κ ν) :=
  match c.recent.remove key with
  | (some value, recent) => do
    let c ← { c with recent }.putFrequent? key value
    return (c.frequent.peek key, c)
  | (none, recent) =>
    let (value, frequent) := c.frequent.get key
    some (value, { c with recent, frequent })

/-! ## No step goes wrong -/

variable {c : Adaptive κ ν} {k : κ} {v : ν}

theorem divide?_of_pos {m n : Nat} (hn : 0 < n) : divide? m n = some (m / n) :=
  if_neg (Nat.ne_of_gt hn)

theorem subtract?_of_le {m n : Nat} (h : n ≤ m) : subtract? m n = some (m - n) :=
  if_neg (Nat.not_lt_of_le h)

theorem putFrequent?_of_none (h : (c.frequent.put k v).1 = none) :
    c.putFrequent? k v = some (c.putFrequent k v) := by
  rw [putFrequent?, undisturbed_of_none h]
  rfl

theorem putRecent?_of_none (h : (c.recent.put k v).1 = none) :
    c.putRecent? k v = some { c with recent := (c.recent.put k v).2 } := by
  rw [putRecent?, undisturbed_of_none h]
  rfl

namespace Valid

theorem recentGhosts_le (h : c.Valid) : c.recentGhosts.size ≤ c.capacity := by
  rw [← h.recentGhosts_capacity]
  exact h.recentGhosts.size_le

theorem frequentGhosts_le (h : c.Valid) : c.frequentGhosts.size ≤ c.capacity := by
  rw [← h.frequentGhosts_capacity]
  exact h.frequentGhosts.size_le

/-- An entry is dropped whenever there is one. -/
theorem displace_isSome (h : c.Valid) (hsize : 0 < c.size) (onTie : Bool) :
    (c.displace onTie).1.isSome := by
  obtain ⟨hevicts, -⟩ := h.displace onTie
  rw [Option.isSome_iff_ne_none]
  intro hnone
  have hnil : c.entries = [] := hevicts.eq_none_iff.1 hnone
  rw [h.size_eq, hnil, List.length_nil] at hsize
  exact Nat.lt_irrefl 0 hsize

theorem makeRoom?_eq (h : c.Valid) (onTie : Bool) :
    c.makeRoom? onTie = some (c.makeRoom onTie) := by
  rw [makeRoom?, Adaptive.makeRoom]
  split
  · next hfull =>
    have hpos : 0 < c.size := Nat.lt_of_lt_of_le h.capacity_pos (decide_eq_true_iff.1 hfull)
    obtain ⟨e, he⟩ := Option.isSome_iff_exists.1 (h.displace_isSome hpos onTie)
    rcases hdisplace : c.displace onTie with ⟨displaced, d⟩
    rw [hdisplace] at he
    cases he
    rfl
  · rfl

theorem trimGhosts?_eq (h : c.Valid) : c.trimGhosts? = some c.trimGhosts := by
  rw [trimGhosts?, subtract?_of_le h.target_le]
  rfl

/-- Both the target and the step stay within the capacity. -/
theorem raise?_eq (h : c.Valid) {m n : Nat} (hm : m ≤ c.capacity) :
    c.raise? (max (m / n) 1) = some (c.target + max (m / n) 1) := by
  refine if_neg ?_
  rintro ⟨hsmall, hlarge⟩
  have hstep : max (m / n) 1 ≤ c.capacity :=
    Nat.max_le.2 ⟨(Nat.div_le_self m n).trans hm, h.capacity_pos⟩
  have htarget := h.target_le
  omega

theorem size_pos {g : Lru κ Unit} (hg : g.Valid) (hk : g.contains k = true) :
    0 < g.size := by
  rw [hg.size_eq]
  refine List.length_pos_iff.2 ?_
  intro hnil
  have hmem := (hg.contains_iff k).1 hk
  rw [hnil] at hmem
  exact List.not_mem_nil hmem

theorem reviveRecent?_eq (h : c.Valid) (hk : c.recentGhosts.contains k = true) (v : ν) :
    c.reviveRecent? k v = some (c.reviveRecent k v) := by
  obtain ⟨hnone, -⟩ := h.reviveRecent ((h.recentGhosts.contains_iff k).1 hk) v
  refine Option.bind_eq_some_iff.2 ⟨_, divide?_of_pos (size_pos h.recentGhosts hk), ?_⟩
  refine Option.bind_eq_some_iff.2 ⟨_, h.raise?_eq h.frequentGhosts_le, ?_⟩
  refine Option.bind_eq_some_iff.2 ⟨_, h.grown.makeRoom?_eq false, ?_⟩
  exact Option.bind_eq_some_iff.2 ⟨_, putFrequent?_of_none hnone, rfl⟩

theorem reviveFrequent?_eq (h : c.Valid) (hk : c.frequentGhosts.contains k = true) (v : ν) :
    c.reviveFrequent? k v = some (c.reviveFrequent k v) := by
  obtain ⟨hnone, -⟩ := h.reviveFrequent ((h.frequentGhosts.contains_iff k).1 hk) v
  refine Option.bind_eq_some_iff.2 ⟨_, divide?_of_pos (size_pos h.frequentGhosts hk), ?_⟩
  refine Option.bind_eq_some_iff.2 ⟨_, h.shrunk.makeRoom?_eq true, ?_⟩
  exact Option.bind_eq_some_iff.2 ⟨_, putFrequent?_of_none hnone, rfl⟩

theorem insertNew?_eq (h : c.Valid) (hrecent : k ∉ keys c.recent.entries)
    (hfrequent : k ∉ keys c.frequent.entries) (hrecentGhosts : k ∉ keys c.recentGhosts.entries)
    (hfrequentGhosts : k ∉ keys c.frequentGhosts.entries) (v : ν) :
    c.insertNew? k v = some (c.insertNew k v) := by
  obtain ⟨hnone, -⟩ := h.insertNew hrecent hfrequent hrecentGhosts hfrequentGhosts v
  obtain ⟨hroom, -⟩ := h.makeRoom false
  obtain ⟨hinv, -, -⟩ := hroom.size_lt size_eq
  refine Option.bind_eq_some_iff.2 ⟨_, h.makeRoom?_eq false, ?_⟩
  refine Option.bind_eq_some_iff.2 ⟨_, hinv.trimGhosts?_eq, ?_⟩
  exact Option.bind_eq_some_iff.2 ⟨_, putRecent?_of_none hnone, rfl⟩

/-- In a state in order no step of a put goes wrong. -/
theorem put?_eq (h : c.Valid) (k : κ) (v : ν) : c.put? k v = some (c.put k v) := by
  rw [put?, Adaptive.put_def]
  by_cases hrecent : k ∈ keys c.recent.entries
  · obtain ⟨hnone, -⟩ := h.promote hrecent v
    obtain ⟨w, -, hw⟩ := h.recent.exists_remove_eq hrecent
    rw [hw]
    exact Option.bind_eq_some_iff.2 ⟨_, putFrequent?_of_none hnone, rfl⟩
  rw [h.recent.remove_of_not_mem hrecent]
  dsimp only
  split
  · next hcontains =>
    have hfrequent := (h.frequent.contains_iff k).1 hcontains
    obtain ⟨hnone, -⟩ := h.putFrequent hrecent (h.frequent_recentGhosts hfrequent)
      (h.frequent_frequentGhosts hfrequent) (.inl hfrequent) v
    exact Option.bind_eq_some_iff.2 ⟨_, putFrequent?_of_none hnone, rfl⟩
  next hfrequent =>
  split
  · next hghost => exact h.reviveRecent?_eq hghost v
  next hrecentGhosts =>
  split
  · next hghost => exact h.reviveFrequent?_eq hghost v
  next hfrequentGhosts =>
  exact h.insertNew?_eq hrecent (mt (h.frequent.contains_iff k).2 hfrequent)
    (mt (h.recentGhosts.contains_iff k).2 hrecentGhosts)
    (mt (h.frequentGhosts.contains_iff k).2 hfrequentGhosts) v

/-- In a state in order no step of a lookup goes wrong. -/
theorem get?_eq (h : c.Valid) (k : κ) : c.get? k = some (c.get k) := by
  rw [get?, Adaptive.get_def]
  by_cases hrecent : k ∈ keys c.recent.entries
  · obtain ⟨w, -, hw⟩ := h.recent.exists_remove_eq hrecent
    obtain ⟨hnone, -⟩ := h.promote hrecent w
    rw [hw]
    exact Option.bind_eq_some_iff.2 ⟨_, putFrequent?_of_none hnone, rfl⟩
  · rw [h.recent.remove_of_not_mem hrecent]

end Valid

/-! ## Every reachable state -/

/-- Whatever is done with a new store, the invariant holds: the four lists share no key, and neither
they nor the target outgrow the capacity. No step of a put or a lookup goes wrong after that, and
an entry is dropped whenever there is one. -/
theorem actAll_never_fails {capacity : Nat} (hc : create capacity = .ok c) (listener : Option Nat)
    (actions : List (Observed.Action κ ν)) :
    let s := (Observed.actAll { store := c, listener } actions).2.store
    s.Valid ∧ s.recentGhosts.size ≤ s.capacity ∧ s.frequentGhosts.size ≤ s.capacity ∧
      (∀ key value, s.put? key value = some (s.put key value)) ∧
      (∀ key, s.get? key = some (s.get key)) ∧
      ∀ onTie, 0 < s.size → (s.displace onTie).1.isSome := by
  intro s
  have h : s.Valid := lawful.actAll (o := { store := c, listener }) (create_holds hc).inv actions
  exact ⟨h, h.recentGhosts_le, h.frequentGhosts_le, h.put?_eq, h.get?_eq,
    fun onTie hsize => h.displace_isSome hsize onTie⟩

/-- In a store with room for one, the first of two keys comes back as a ghost: the quotient of the
numbers of ghosts is taken, the target grows, and the second key is dropped. -/
theorem actAll_never_fails_ghost :
    ∃ c : Adaptive Nat Nat, create 1 = .ok c ∧
      let s := (Observed.actAll { store := c, listener := some 7 }
        [.request (.put 1 10), .request (.put 2 20)]).2.store
      s.recentGhosts.contains 1 = true ∧ s.put? 1 11 = some (s.put 1 11) ∧
        (s.put 1 11).1 = some ⟨2, 20⟩ ∧ (s.put 1 11).2.target = 1 ∧
        0 < s.size ∧ (s.displace false).1.isSome := by
  have hc : create 1 =
      .ok (⟨1, 0, .empty 1, .empty 1, .empty 1, .empty 1⟩ : Adaptive Nat Nat) := rfl
  obtain ⟨-, -, -, hput, -, hdisplace⟩ := actAll_never_fails hc (some 7)
    [.request (.put 1 10), .request (.put 2 20)]
  exact ⟨_, hc, by cbv, hput 1 11, by cbv, by cbv, by cbv, hdisplace false (by cbv)⟩

end Adaptive

end BoundedCache
