import BoundedCache.Proofs.Store.Lawful
import BoundedCache.Store.Lfu
import Mathlib.Data.List.Induction

/-!
# Rankings as plain lists

What a frequency store is meant to be: a list of entries with the number of their uses, from the one
ranked highest to the one that gives way next. The place of a new entry, and of one that is used for
the second time, is found by searching the list for the first entry used once.

## Main definitions

- `Ranking` — the list, with the number of entries it may hold
- `Ranking.insertOnce` — the place ahead of those used once
- `Ranking.overtake` — a step past a neighbour used less often
- `Ranking.put`, `Ranking.get`, `Ranking.evict` and the others — the operations of a store

## Main results

- `Ranking.insertOnce_append` — where an element goes if those used once end the list
- `Ranking.overtake_append` — what a step does to an element with a neighbour
- `Ranking.evictMany_eq` — repeated eviction cuts the end off
-/

namespace BoundedCache

open Keyed

namespace Counted

variable {κ ν : Type}

def key (x : Counted κ ν) : κ := x.entry.key

/-- One more use, up to the number at which the count stops. -/
def used (x : Counted κ ν) : Counted κ ν :=
  { x with frequency := min (x.frequency + 1) Lfu.maxFrequency }

/-- Another value, and the same number of uses. -/
def withValue (value : ν) (x : Counted κ ν) : Counted κ ν :=
  { x with entry := { x.entry with value } }

theorem two_le_frequency_used {x : Counted κ ν} (h : 1 ≤ x.frequency) : 2 ≤ x.used.frequency := by
  have hmax : 2 ≤ Lfu.maxFrequency := by decide
  show 2 ≤ min (x.frequency + 1) Lfu.maxFrequency
  omega

end Counted

/-- Entries with the number of their uses, from the one ranked highest, and the number of them that
fit. -/
structure Ranking (κ ν : Type) where
  capacity : Nat
  ranked : List (Counted κ ν) := []

namespace Ranking

variable {κ ν : Type}

/-! ## Places in the list -/

/-- Adds an element directly ahead of the first one used once, or at the end if there is none. -/
def insertOnce (new : Counted κ ν) : List (Counted κ ν) → List (Counted κ ν)
  | [] => [new]
  | x :: l => if x.frequency = 1 then new :: x :: l else x :: insertOnce new l

theorem insertOnce_append {new : Counted κ ν} {xs ys : List (Counted κ ν)}
    (hxs : ∀ x ∈ xs, x.frequency ≠ 1) (hys : ∀ y ∈ ys, y.frequency = 1) :
    insertOnce new (xs ++ ys) = xs ++ new :: ys := by
  induction xs with
  | nil =>
    cases ys with
    | nil => rfl
    | cons y ys => exact if_pos (hys y List.mem_cons_self)
  | cons x xs ih =>
    rw [List.forall_mem_cons] at hxs
    rw [List.cons_append, insertOnce, if_neg hxs.1, ih hxs.2, List.cons_append]

theorem insertOnce_slots {σ : Type} {often once : List (σ × Counted κ ν)}
    (hoften : ∀ y ∈ often, 2 ≤ y.2.frequency) (honce : ∀ y ∈ once, y.2.frequency = 1)
    (new : Counted κ ν) :
    insertOnce new ((often ++ once).map Prod.snd) =
      often.map Prod.snd ++ new :: once.map Prod.snd := by
  rw [List.map_append]
  apply insertOnce_append
  · intro y hy
    obtain ⟨z, hz, rfl⟩ := List.mem_map.1 hy
    have htwo := hoften z hz
    omega
  · intro y hy
    obtain ⟨z, hz, rfl⟩ := List.mem_map.1 hy
    exact honce z hz

/-! ## What gives way -/

def isFull (m : Ranking κ ν) : Bool := m.capacity ≤ m.ranked.length

/-- The entries, from the one that gives way next. -/
def entries (m : Ranking κ ν) : List (Entry κ ν) := (m.ranked.map Counted.entry).reverse

def next? (m : Ranking κ ν) : Option (Entry κ ν) := m.ranked.getLast?.map Counted.entry

/-- Drops the last element. -/
def evict (m : Ranking κ ν) : Option (Entry κ ν) × Ranking κ ν :=
  (m.next?, { m with ranked := m.ranked.dropLast })

def makeRoom (m : Ranking κ ν) : Option (Entry κ ν) × Ranking κ ν :=
  if m.isFull then m.evict else (none, m)

def insertNew (m : Ranking κ ν) (key : κ) (value : ν) : Ranking κ ν :=
  { m with ranked := insertOnce ⟨⟨key, value⟩, 1⟩ m.ranked }

def clear (m : Ranking κ ν) : Ranking κ ν := { m with ranked := [] }

/-- Drops the elements at the end that no longer fit, the last one first. -/
def shrink (m : Ranking κ ν) (capacity : Nat) : List (Entry κ ν) × Ranking κ ν :=
  (((m.ranked.drop capacity).map Counted.entry).reverse,
    { capacity, ranked := m.ranked.take capacity })

def resize (m : Ranking κ ν) (capacity : Nat) :
    Except SetupError (List (Entry κ ν) × Ranking κ ν) :=
  if capacity = 0 then .error .zeroCapacity else .ok (m.shrink capacity)

theorem evict_nil (capacity : Nat) :
    evict (⟨capacity, []⟩ : Ranking κ ν) = (none, ⟨capacity, []⟩) := rfl

theorem evict_concat (capacity : Nat) (l : List (Counted κ ν)) (x : Counted κ ν) :
    evict ⟨capacity, l ++ [x]⟩ = (some x.entry, ⟨capacity, l⟩) := by
  rw [evict, next?, List.getLast?_concat, List.dropLast_concat]
  rfl

theorem entries_concat (capacity : Nat) (l : List (Counted κ ν)) (x : Counted κ ν) :
    entries ⟨capacity, l ++ [x]⟩ = x.entry :: entries ⟨capacity, l⟩ := by
  rw [entries, List.map_append, List.map_singleton, List.reverse_concat]
  rfl

/-- Evicting a number of times cuts that many elements off the end. -/
theorem evictMany_eq (capacity n : Nat) (l : List (Counted κ ν)) :
    evictMany evict n ⟨capacity, l⟩ =
      ((entries ⟨capacity, l⟩).take n, ⟨capacity, l.take (l.length - n)⟩) := by
  induction n generalizing l with
  | zero => rw [evictMany_zero, List.take_zero, Nat.sub_zero, List.take_length]
  | succ n ih =>
    induction l using List.reverseRecOn with
    | nil => rw [evictMany_succ_of_none (evict_nil capacity), entries, List.take_nil]; rfl
    | append_singleton l x _ =>
      have hlength : (l ++ [x]).length - (n + 1) = l.length - n := by
        rw [List.length_append, List.length_singleton]
        omega
      have hle : l.length - n ≤ l.length := Nat.sub_le ..
      rw [evictMany_succ_of_some (evict_concat capacity l x), ih, entries_concat,
        List.take_succ_cons, hlength, List.take_append_of_le_length hle]

/-- Evicting what is too much leaves what fits. -/
theorem evictMany_excess (m : Ranking κ ν) (capacity : Nat) :
    evictMany evict (m.ranked.length - capacity) m =
      ((m.shrink capacity).1, { (m.shrink capacity).2 with capacity := m.capacity }) := by
  have htake : m.ranked.take (m.ranked.length - (m.ranked.length - capacity)) =
      m.ranked.take capacity := by
    rcases Nat.le_total m.ranked.length capacity with hle | hle
    · rw [Nat.sub_eq_zero_of_le hle, Nat.sub_zero, List.take_length, List.take_of_length_le hle]
    · rw [Nat.sub_sub_self hle]
  have hdrop : m.entries.take (m.ranked.length - capacity) =
      ((m.ranked.drop capacity).map Counted.entry).reverse := by
    rw [entries, List.take_reverse, List.length_map, List.map_drop]
    rcases Nat.le_total m.ranked.length capacity with hle | hle
    · have hall : (m.ranked.map Counted.entry).length ≤ capacity := by rwa [List.length_map]
      rw [Nat.sub_eq_zero_of_le hle, Nat.sub_zero, List.drop_of_length_le hall,
        List.drop_of_length_le (Nat.le_of_eq (List.length_map ..))]
    · rw [Nat.sub_sub_self hle]
  rw [evictMany_eq, htake, hdrop]
  rfl

variable [DecidableEq κ]

/-! ## Overtaking -/

/-- Swaps the element of a key with the one directly ahead of it, if that one is used less often. -/
def overtake (k : κ) : List (Counted κ ν) → List (Counted κ ν)
  | x :: y :: l =>
    if y.key = k then
      if x.frequency < y.frequency then y :: x :: l else x :: y :: l
    else x :: overtake k (y :: l)
  | l => l

/-- The element at the head has nothing to overtake. -/
theorem overtake_of_tail {k : κ} {x : Counted κ ν} {l : List (Counted κ ν)}
    (h : ∀ y ∈ l, y.key ≠ k) : overtake k (x :: l) = x :: l := by
  induction l generalizing x with
  | nil => rfl
  | cons y l ih =>
    rw [List.forall_mem_cons] at h
    rw [overtake, if_neg h.1, ih h.2]

theorem overtake_append {x y : Counted κ ν} {xs ys : List (Counted κ ν)}
    (h : Distinct Counted.key (xs ++ y :: x :: ys)) :
    overtake x.key (xs ++ y :: x :: ys) =
      if y.frequency < x.frequency then xs ++ x :: y :: ys else xs ++ y :: x :: ys := by
  induction xs with
  | nil => rw [List.nil_append, overtake, if_pos rfl]; rfl
  | cons z xs ih =>
    have hd : Distinct Counted.key (xs ++ y :: x :: ys) := (distinct_cons_iff.1 h).2
    have hx : ∀ w ∈ xs ++ [y], w.key ≠ x.key := by
      rw [List.append_cons] at hd
      exact hd.ne_of_split.1
    -- The search goes on, as the second element of the list has another key.
    have hgo : overtake x.key (z :: (xs ++ y :: x :: ys)) =
        z :: overtake x.key (xs ++ y :: x :: ys) := by
      cases xs with
      | nil => rw [List.nil_append, overtake, if_neg (hx y (by simp))]
      | cons w xs => rw [List.cons_append, overtake, if_neg (hx w (by simp))]
    rw [List.cons_append, hgo, ih hd]
    split <;> rfl

/-! ## Keys -/

def find? (m : Ranking κ ν) (key : κ) : Option (Counted κ ν) :=
  Keyed.find? Counted.key key m.ranked

def contains (m : Ranking κ ν) (key : κ) : Bool := (m.find? key).isSome

def peek (m : Ranking κ ν) (key : κ) : Option ν := (m.find? key).map (·.entry.value)

def frequency? (m : Ranking κ ν) (key : κ) : Option Nat := (m.find? key).map Counted.frequency

/-- Counts a use of a key. At its second use the element first goes ahead of all that are used once;
then it may overtake the one directly ahead of it. -/
def use (m : Ranking κ ν) (key : κ) : Ranking κ ν :=
  match m.find? key with
  | none => m
  | some x =>
    let counted := modify Counted.key key Counted.used m.ranked
    let moved :=
      if x.frequency = 1 then insertOnce x.used (erase Counted.key key counted) else counted
    { m with ranked := overtake key moved }

def get (m : Ranking κ ν) (key : κ) : Option ν × Ranking κ ν := (m.peek key, m.use key)

theorem find?_makeRoom_of_none {m : Ranking κ ν} {k : κ} (h : m.find? k = none) :
    m.makeRoom.2.find? k = none := by
  rw [makeRoom]
  split
  · exact find?_eq_none_of_sublist h (List.dropLast_sublist _)
  · exact h

/-- Binds a key. One that is bound changes its value only. -/
def put (m : Ranking κ ν) (key : κ) (value : ν) : Option (Entry κ ν) × Ranking κ ν :=
  if m.contains key then
    (none, { m with ranked := modify Counted.key key (Counted.withValue value) m.ranked })
  else
    let (displaced, m) := m.makeRoom
    (displaced, m.insertNew key value)

def remove (m : Ranking κ ν) (key : κ) : Option ν × Ranking κ ν :=
  (m.peek key, { m with ranked := erase Counted.key key m.ranked })

instance : Store (Ranking κ ν) κ ν where
  size m := m.ranked.length
  capacity := capacity
  entries := entries
  contains := contains
  peek := peek
  getAloud m key := announceLookup (m.get key)
  putAloud m key value := announce (m.put key value)
  remove := remove
  evictAloud m := announce m.evict
  clear := clear
  resizeAloud m capacity := (m.resize capacity).map announceAll
  put_announced _ _ _ := rfl
  evict_announced _ := rfl
  resize_announced _ _ _ h := Aloud.eq_announceAll h

theorem store_resize_eq (m : Ranking κ ν) (capacity : Nat) :
    Store.resize m capacity = m.resize capacity :=
  Aloud.map_reported_announceAll _

end Ranking

end BoundedCache
