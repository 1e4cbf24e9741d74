import BoundedCache.Proofs.Store.Entries
import BoundedCache.Store.Segmented

/-!
# Two lists in a row

The plain picture of segmented recency: a list of entries in probation and a list of protected ones,
each from the one unused the longest. Entries move between the lists and leave them at the heads,
and come to them at the ends.

## Main definitions

- `Tiers` — the two lists, and the operations on them
- `Tiers.demote` — the oldest protected entries move to the end of probation
- `Tiers.dropOldest` — the oldest entries leave, those in probation first

## Main results

- `Tiers.evictMany_eq` — repeated eviction drops the oldest entries
-/

namespace BoundedCache

open Keyed

/-- The entries in probation and the protected ones, each from the one unused the longest. -/
@[ext]
structure Tiers (κ ν : Type) where
  capacity : Nat
  ratio : Float
  probation : List (Entry κ ν) := []
  guarded : List (Entry κ ν) := []

namespace Tiers

variable {κ ν : Type}

/-- The number of entries that may be protected. -/
def guardedCapacity (m : Tiers κ ν) : Nat := (Split.ofRatio m.capacity m.ratio).guarded

/-- The entries in the order in which they would give way. -/
def entries (m : Tiers κ ν) : List (Entry κ ν) := m.probation ++ m.guarded

def isFull (m : Tiers κ ν) : Bool := m.capacity ≤ m.entries.length

/-- The oldest protected entries move to the end of probation. -/
def demote (m : Tiers κ ν) (count : Nat) : Tiers κ ν :=
  { m with probation := m.probation ++ m.guarded.take count, guarded := m.guarded.drop count }

/-- The oldest entries leave, those in probation ahead of the protected ones. -/
def dropOldest (m : Tiers κ ν) (count : Nat) : Tiers κ ν :=
  { m with
    probation := m.probation.drop count
    guarded := m.guarded.drop (count - m.probation.length) }

def evict (m : Tiers κ ν) : Option (Entry κ ν) × Tiers κ ν := (m.entries.head?, m.dropOldest 1)

def makeRoom (m : Tiers κ ν) : Option (Entry κ ν) × Tiers κ ν :=
  if m.isFull then m.evict else (none, m)

/-- An entry comes to the end of the protected list; if that is full, its head is demoted before. -/
def promote (m : Tiers κ ν) (key : κ) (value : ν) : Tiers κ ν :=
  let m := if m.guardedCapacity ≤ m.guarded.length then m.demote 1 else m
  { m with guarded := m.guarded ++ [⟨key, value⟩] }

/-- An entry comes to the end of probation. -/
def insertNew (m : Tiers κ ν) (key : κ) (value : ν) : Tiers κ ν :=
  { m with probation := m.probation ++ [⟨key, value⟩] }

def clear (m : Tiers κ ν) : Tiers κ ν := { m with probation := [], guarded := [] }

/-- Drops the oldest entries until the rest fits, then demotes the oldest protected ones until those
fit. A capacity that does not divide into two segments is refused. -/
def resize (m : Tiers κ ν) (capacity : Nat) :
    Except SetupError (List (Entry κ ν) × Tiers κ ν) := do
  let split ← Segmented.layout capacity m.ratio
  let excess := m.entries.length - capacity
  let kept := { m.dropOldest excess with capacity }
  return (m.entries.take excess, kept.demote (kept.guarded.length - split.guarded))

variable [DecidableEq κ]

def isGuarded (m : Tiers κ ν) (key : κ) : Bool := (find? Entry.key key m.guarded).isSome

def contains (m : Tiers κ ν) (key : κ) : Bool := (find? Entry.key key m.entries).isSome

def peek (m : Tiers κ ν) (key : κ) : Option ν := lookup? key m.entries

/-- Uses a bound key: its entry comes to the end of the protected list, with the value given. -/
def use (m : Tiers κ ν) (key : κ) (value : ν) : Tiers κ ν :=
  if m.isGuarded key then
    { m with guarded := erase Entry.key key m.guarded ++ [⟨key, value⟩] }
  else promote { m with probation := erase Entry.key key m.probation } key value

def put (m : Tiers κ ν) (key : κ) (value : ν) : Option (Entry κ ν) × Tiers κ ν :=
  if m.contains key then (none, m.use key value)
  else
    let (displaced, m) := m.makeRoom
    (displaced, m.insertNew key value)

def get (m : Tiers κ ν) (key : κ) : Option ν × Tiers κ ν :=
  (m.peek key, match m.peek key with
    | none => m
    | some value => m.use key value)

def remove (m : Tiers κ ν) (key : κ) : Option ν × Tiers κ ν :=
  (m.peek key, { m with
    probation := erase Entry.key key m.probation
    guarded := erase Entry.key key m.guarded })

instance : Store (Tiers κ ν) κ ν where
  size m := m.entries.length
  capacity := capacity
  entries := entries
  contains := contains
  peek := peek
  getAloud m key := announceLookup (m.get key)
  putAloud m key value := announce (m.put key value)
  remove := remove
  evictAloud m := announce m.evict
  clear := clear
  resizeAloud m capacity := (m.resize capacity).map announceAll
  put_announced _ _ _ := rfl
  evict_announced _ := rfl
  resize_announced _ _ _ h := Aloud.eq_announceAll h

theorem store_resize_eq (m : Tiers κ ν) (capacity : Nat) :
    Store.resize m capacity = m.resize capacity :=
  Aloud.map_reported_announceAll _

omit [DecidableEq κ]

/-! ## Moving several entries -/

variable {m : Tiers κ ν}

/-- The entries that are demoted stay between those that were in probation and those that stay
protected. -/
theorem entries_demote (m : Tiers κ ν) (i : Nat) : (m.demote i).entries = m.entries := by
  rw [entries, demote, List.append_assoc, List.take_append_drop]
  rfl

theorem demote_zero (m : Tiers κ ν) : m.demote 0 = m := by
  rw [demote, List.take_zero, List.append_nil, List.drop_zero]

theorem demote_demote (m : Tiers κ ν) (i j : Nat) : (m.demote i).demote j = m.demote (i + j) := by
  simp only [demote, List.append_assoc, List.take_add, List.drop_drop]

theorem entries_dropOldest (m : Tiers κ ν) (i : Nat) :
    (m.dropOldest i).entries = m.entries.drop i :=
  List.drop_append.symm

theorem dropOldest_dropOldest (m : Tiers κ ν) (i j : Nat) :
    (m.dropOldest i).dropOldest j = m.dropOldest (i + j) := by
  have hsum : i - m.probation.length + (j - (m.probation.length - i)) =
      i + j - m.probation.length := by omega
  simp only [dropOldest, List.drop_drop, List.length_drop, hsum]

theorem dropOldest_of_nil (h : m.entries = []) (i : Nat) : m.dropOldest i = m := by
  obtain ⟨hprobation, hguarded⟩ := List.append_eq_nil_iff.1 h
  refine Tiers.ext rfl rfl ?_ ?_
  · rw [dropOldest, hprobation, List.drop_nil]
  · rw [dropOldest, hguarded, List.drop_nil]

/-- Evicting a number of times drops that many of the oldest entries. -/
theorem evictMany_eq (m : Tiers κ ν) (n : Nat) :
    evictMany evict n m = (m.entries.take n, m.dropOldest n) := by
  induction n generalizing m with
  | zero =>
    have hall : m.dropOldest 0 = m := by
      rw [dropOldest, List.drop_zero, Nat.zero_sub, List.drop_zero]
    rw [evictMany_zero, hall, List.take_zero]
  | succ n ih =>
    have hevict : m.evict = (m.entries.head?, m.dropOldest 1) := rfl
    cases hentries : m.entries with
    | nil =>
      rw [hentries] at hevict
      rw [evictMany_succ_of_none hevict, dropOldest_of_nil hentries, dropOldest_of_nil hentries,
        List.take_nil]
    | cons e l =>
      rw [hentries] at hevict
      rw [evictMany_succ_of_some hevict, ih, entries_dropOldest, hentries, dropOldest_dropOldest,
        Nat.add_comm 1 n]
      rfl

end Tiers

end BoundedCache
