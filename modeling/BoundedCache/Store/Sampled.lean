import BoundedCache.Random
import BoundedCache.Store.Basic
import Std.Data.HashMap

/-!
# Sampled recency

Every entry carries the time of its last use, and an eviction drops the longest unused of a few
entries drawn at random. When there are no more entries than an eviction inspects, it inspects them
all, and no random number is drawn.

## Main definitions

- `Stamped` — an entry with the time of its last use
- `Sampled` — the entries in an array, the index, the clock and the generator
- `Sampled.candidates` — the places that an eviction inspects
- `Sampled.stalest?` — the longest unused of them
- `Sampled.removeAt` — takes an entry out, the last one of the array moving to its place
- `Sampled.setSamples` — changes how many entries an eviction inspects

## Design notes

The clock moves on at every put, and at every lookup that finds its key, so no two entries carry the
same time.
-/

namespace BoundedCache

/-- An entry with the time of its last use. -/
structure Stamped (κ ν : Type) where
  entry : Entry κ ν
  lastUse : Nat
  deriving DecidableEq

/-- Entries with the time of their last use, in no order. -/
structure Sampled (κ ν : Type) [DecidableEq κ] [Hashable κ] where
  capacity : Nat
  /-- How many entries an eviction inspects. -/
  samples : Nat := Policy.fewestSamples
  clock : Nat := 0
  random : Random
  slots : Array (Stamped κ ν) := #[]
  index : Std.HashMap κ Nat := ∅

namespace Sampled

variable {κ ν : Type} [DecidableEq κ] [Hashable κ]

/-- The store without entries, if an eviction finds enough of them to inspect in a full one. -/
def create (capacity : Nat) (seed : UInt64) : Except SetupError (Sampled κ ν) := do
  requireCapacity capacity
  if capacity < Policy.fewestSamples then
    throw (.samplesExceedCapacity Policy.fewestSamples capacity)
  return { capacity, random := .ofSeed seed }

/-! ## Reading -/

def size (c : Sampled κ ν) : Nat := c.slots.size

def isFull (c : Sampled κ ν) : Bool := c.capacity ≤ c.size

/-- The entries in the order of the array. -/
def entries (c : Sampled κ ν) : List (Entry κ ν) := c.slots.toList.map Stamped.entry

def contains (c : Sampled κ ν) (key : κ) : Bool := c.index.contains key

/-- The entry of a key with the time of its last use. -/
def find? (c : Sampled κ ν) (key : κ) : Option (Stamped κ ν) :=
  c.index[key]?.bind fun i => c.slots[i]?

def peek (c : Sampled κ ν) (key : κ) : Option ν := (c.find? key).map (·.entry.value)

/-- The time of the last use of the entry at a place, zero past the end. -/
def lastUseAt (c : Sampled κ ν) (i : Nat) : Nat := c.slots[i]?.elim 0 Stamped.lastUse

/-! ## Choosing what to drop -/

/-- A number of draws of a place below `n`, in the order in which they are drawn. -/
def draw {γ : Type} [Generator γ] (n : Nat) : Nat → γ → List Nat × γ
  | 0, g => ([], g)
  | count + 1, g =>
    let first := Generator.below n g
    let later := draw n count first.2
    (first.1 :: later.1, later.2)

/-- The places that an eviction inspects: all of them, if there are no more than it may inspect. -/
def candidates (c : Sampled κ ν) : List Nat × Random :=
  if c.size ≤ c.samples then (List.range c.size, c.random) else draw c.size c.samples c.random

/-- The place of the entry unused the longest among the given ones; of two equal ones, the first. -/
def stalest? (c : Sampled κ ν) : List Nat → Option Nat
  | [] => none
  | i :: rest =>
    some (rest.foldl (fun best j => if c.lastUseAt j < c.lastUseAt best then j else best) i)

/-- Takes out the entry at a place, which the last entry of the array then takes. -/
def removeAt (c : Sampled κ ν) (i : Nat) : Option (Entry κ ν) × Sampled κ ν :=
  match c.slots[i]? with
  | none => (none, c)
  | some removed =>
    let slots := (c.slots.swapIfInBounds i (c.slots.size - 1)).pop
    let index := c.index.erase removed.entry.key
    let index := match slots[i]? with
      | none => index
      | some moved => index.insert moved.entry.key i
    (some removed.entry, { c with slots, index })

/-! ## Operations -/

/-- Takes out the entry unused the longest among those that the eviction inspects, without a
signal. -/
def evict (c : Sampled κ ν) : Option (Entry κ ν) × Sampled κ ν :=
  let (places, random) := c.candidates
  let c := { c with random }
  match c.stalest? places with
  | none => (none, c)
  | some i => c.removeAt i

/-- Drops the entry unused the longest among those that the eviction inspects. -/
def evictAloud (c : Sampled κ ν) : Aloud κ ν (Option (Entry κ ν) × Sampled κ ν) :=
  announce c.evict

def makeRoom (c : Sampled κ ν) : Option (Entry κ ν) × Sampled κ ν :=
  if c.isFull then c.evict else (none, c)

def advance (c : Sampled κ ν) : Sampled κ ν := { c with clock := c.clock + 1 }

/-- Adds an entry, used now, for a key that is not bound. -/
def insertNew (c : Sampled κ ν) (key : κ) (value : ν) : Sampled κ ν :=
  { c with
    slots := c.slots.push ⟨⟨key, value⟩, c.clock⟩
    index := c.index.insert key c.slots.size }

/-- Binds a key to a value, as a use of the key. A new key first displaces an entry if there is no
room for it. -/
def putAloud (c : Sampled κ ν) (key : κ) (value : ν) :
    Aloud κ ν (Option (Entry κ ν) × Sampled κ ν) :=
  let c := c.advance
  match c.index[key]? with
  | some i =>
    let slots := c.slots.modify i fun slot => ⟨{ slot.entry with value }, c.clock⟩
    return (none, { c with slots })
  | none => do
    let (displaced, c) ← announce c.makeRoom
    return (displaced, c.insertNew key value)

/-- The value of a key, as a use of it. -/
def getAloud (c : Sampled κ ν) (key : κ) : Aloud κ ν (Option ν × Sampled κ ν) :=
  match c.index[key]? with
  | none => do
    Aloud.access false
    return (none, c)
  | some i => do
    Aloud.access true
    let c := c.advance
    return (c.slots[i]?.map (·.entry.value), { c with
      slots := c.slots.modify i fun slot => { slot with lastUse := c.clock } })

def remove (c : Sampled κ ν) (key : κ) : Option ν × Sampled κ ν :=
  match c.index[key]? with
  | none => (none, c)
  | some i => (c.removeAt i).map (·.map Entry.value) id

/-- Drops all entries, and sets the clock back. The generator and the number of samples are kept. -/
def clear (c : Sampled κ ν) : Sampled κ ν := { c with clock := 0, slots := #[], index := ∅ }

/-- Changes how many entries an eviction inspects; too small a number is raised. -/
def setSamples (c : Sampled κ ν) (samples : Nat) : Except SetupError (Sampled κ ν) :=
  let samples := max samples Policy.fewestSamples
  if c.capacity < samples then .error (.samplesExceedCapacity samples c.capacity)
  else .ok { c with samples }

/-- Changes the capacity, after dropping entries until the rest fits. -/
def resizeAloud (c : Sampled κ ν) (capacity : Nat) :
    Except SetupError (Aloud κ ν (Sampled κ ν)) := do
  requireCapacity capacity
  if capacity < c.samples then
    throw (.samplesExceedCapacity c.samples capacity)
  let shrunk := evictEach evictAloud (c.size - capacity) c
  return { shrunk with value := { shrunk.value with capacity } }

/-! ## Without the signals -/

def get (c : Sampled κ ν) (key : κ) : Option ν × Sampled κ ν := (c.getAloud key).value

def put (c : Sampled κ ν) (key : κ) (value : ν) : Option (Entry κ ν) × Sampled κ ν :=
  (c.putAloud key value).value

def resize (c : Sampled κ ν) (capacity : Nat) :
    Except SetupError (List (Entry κ ν) × Sampled κ ν) :=
  (c.resizeAloud capacity).map Aloud.reported

theorem get_def (c : Sampled κ ν) (key : κ) :
    c.get key =
      match c.index[key]? with
      | none => (none, c)
      | some i =>
        let c := c.advance
        (c.slots[i]?.map (·.entry.value), { c with
          slots := c.slots.modify i fun slot => { slot with lastUse := c.clock } }) := by
  rw [get, getAloud]
  split <;> rfl

theorem put_def (c : Sampled κ ν) (key : κ) (value : ν) :
    c.put key value =
      match c.advance.index[key]? with
      | some i => (none, { c.advance with
          slots := c.advance.slots.modify i fun slot =>
            ⟨{ slot.entry with value }, c.advance.clock⟩ })
      | none =>
        let (displaced, c) := c.advance.makeRoom
        (displaced, c.insertNew key value) := by
  rw [put, putAloud]
  dsimp only
  split <;> rfl

/-- The entry displaced by a put is announced. -/
theorem putAloud_eq (c : Sampled κ ν) (key : κ) (value : ν) :
    c.putAloud key value = announce (c.put key value) := by
  rw [put, putAloud]
  dsimp only
  split
  · rfl
  · exact congrArg (Aloud.mk _) (List.append_nil _)

theorem evictEach_eq (n : Nat) (c : Sampled κ ν) :
    evictEach evictAloud n c = announceAll (evictMany evict n c) :=
  evictEach_announce evict n c

theorem resize_def (c : Sampled κ ν) (capacity : Nat) :
    c.resize capacity = do
      requireCapacity capacity
      if capacity < c.samples then
        throw (.samplesExceedCapacity c.samples capacity)
      let (dropped, c) := evictMany evict (c.size - capacity) c
      return (dropped, { c with capacity }) := by
  rw [resize, resizeAloud, evictEach_eq]
  rcases requireCapacity capacity with cause | ⟨⟩
  · rfl
  by_cases h : capacity < c.samples
  · rw [if_pos h, if_pos h]
    rfl
  · rw [if_neg h, if_neg h]
    exact congrArg Except.ok (Prod.ext (Signal.filterMap_entry? _) rfl)

/-- The entries dropped by a resize are announced. -/
theorem resizeAloud_eq (c : Sampled κ ν) (capacity : Nat) :
    c.resizeAloud capacity = (c.resize capacity).map announceAll := by
  rw [resize_def, resizeAloud, evictEach_eq]
  rcases requireCapacity capacity with cause | ⟨⟩
  · rfl
  by_cases h : capacity < c.samples
  · rw [if_pos h, if_pos h]
    rfl
  · rw [if_neg h, if_neg h]
    rfl

instance : Store (Sampled κ ν) κ ν where
  size := size
  capacity := capacity
  entries := entries
  contains := contains
  peek := peek
  getAloud := getAloud
  putAloud := putAloud
  remove := remove
  evictAloud := evictAloud
  clear := clear
  resizeAloud := resizeAloud
  setSamples c samples :=
    match c.setSamples samples with
    | .ok c => c
    | .error _ => c
  put_announced := putAloud_eq
  evict_announced _ := rfl
  resize_announced c capacity _ h := Aloud.eq_announceAll (c.resizeAloud_eq capacity ▸ h)

end Sampled

end BoundedCache
