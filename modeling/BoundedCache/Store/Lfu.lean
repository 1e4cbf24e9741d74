import BoundedCache.Chain.Basic
import BoundedCache.Store.Basic
import Std.Data.HashMap

/-!
# Least frequently used

Every entry carries the number of its uses, and the entry at the back of a chain gives way. A use
moves its entry ahead of a single neighbour at most, so the chain is sorted only locally; what is
exact is the run of entries used once, which ends the chain with the oldest of them at the back.

## Main definitions

- `Lfu` — the chain, the index, and the first entry of that run
- `Lfu.put` — a new key starts the run
- `Lfu.get` — counts a use, leaves the run, and overtakes a neighbour used less often
- `Lfu.evict` — drops the entry at the back
- `Lfu.entries` — the entries from the back
-/

namespace BoundedCache

/-- An entry with the number of its uses; being put counts as the first one. -/
structure Counted (κ ν : Type) where
  entry : Entry κ ν
  frequency : Nat
  deriving DecidableEq

/-- Entries with the number of their uses. -/
structure Lfu (κ ν : Type) [DecidableEq κ] [Hashable κ] where
  capacity : Nat
  chain : Chain (Counted κ ν) := ∅
  index : Std.HashMap κ Slot := ∅
  /-- The entry nearest to the front of those used once. -/
  onceFront : Option Slot := none

namespace Lfu

variable {κ ν : Type} [DecidableEq κ] [Hashable κ]

/-- The number at which the count of uses stops. -/
def maxFrequency : Nat := UInt64.size - 1

def empty (capacity : Nat) : Lfu κ ν := { capacity }

/-- The store without entries, if there is room for one. -/
def create (capacity : Nat) : Except SetupError (Lfu κ ν) := do
  requireCapacity capacity
  return empty capacity

/-! ## Reading -/

def size (c : Lfu κ ν) : Nat := c.chain.size

def isEmpty (c : Lfu κ ν) : Bool := c.size == 0

def isFull (c : Lfu κ ν) : Bool := c.capacity ≤ c.size

/-- The entries with the number of their uses, from the one that would give way next. -/
def ranking (c : Lfu κ ν) : List (Counted κ ν) := c.chain.toListBack

/-- The entries, from the one that would give way next. -/
def entries (c : Lfu κ ν) : List (Entry κ ν) := c.ranking.map Counted.entry

/-- The entry that would give way next. -/
def next? (c : Lfu κ ν) : Option (Entry κ ν) := c.chain.back?.map Counted.entry

/-- The entry of a key with the number of its uses. -/
def find? (c : Lfu κ ν) (key : κ) : Option (Counted κ ν) := c.index[key]?.bind c.chain.get?

def frequency? (c : Lfu κ ν) (key : κ) : Option Nat := (c.find? key).map Counted.frequency

def contains (c : Lfu κ ν) (key : κ) : Bool := c.index.contains key

def peek (c : Lfu κ ν) (key : κ) : Option ν := (c.find? key).map (·.entry.value)

/-- The number of uses of the entry in a slot, zero if the slot is not in use. -/
def frequencyAt (c : Lfu κ ν) (i : Slot) : Nat := (c.chain.get? i).elim 0 Counted.frequency

/-! ## Operations -/

/-- Takes an entry used for the second time out of the run of those used once, by moving it ahead of
them all. -/
def leaveOnce (c : Lfu κ ν) (i : Slot) : Lfu κ ν :=
  match c.onceFront with
  | none => c
  | some head =>
    if head = i then { c with onceFront := c.chain.after? i }
    else { c with chain := (c.chain.moveBefore i head).2 }

/-- Moves an entry ahead of its neighbour toward the front, if that one is used less often. -/
def overtake (c : Lfu κ ν) (i : Slot) : Lfu κ ν :=
  match c.chain.before? i with
  | none => c
  | some neighbour =>
    if c.frequencyAt neighbour < c.frequencyAt i then
      { c with chain := (c.chain.moveBefore i neighbour).2 }
    else c

def countUse (c : Lfu κ ν) (i : Slot) : Lfu κ ν :=
  let wasOnce := c.frequencyAt i == 1
  let c := { c with
    chain := c.chain.modify i fun x => { x with frequency := min (x.frequency + 1) maxFrequency } }
  (if wasOnce then c.leaveOnce i else c).overtake i

/-- The value of a key, as a use of it. -/
def getAloud (c : Lfu κ ν) (key : κ) : Aloud κ ν (Option ν × Lfu κ ν) :=
  match c.index[key]? with
  | none => do
    Aloud.access false
    return (none, c)
  | some i => do
    Aloud.access true
    let c := c.countUse i
    return ((c.chain.get? i).map (·.entry.value), c)

def takeAt (c : Lfu κ ν) (i : Slot) : Option (Entry κ ν) × Lfu κ ν :=
  let onceFront := if c.onceFront = some i then c.chain.after? i else c.onceFront
  match c.chain.remove i with
  | (none, chain) => (none, { c with chain, onceFront })
  | (some x, chain) =>
    (some x.entry, { c with chain, onceFront, index := c.index.erase x.entry.key })

/-- Takes out the entry at the back, without a signal. -/
def evict (c : Lfu κ ν) : Option (Entry κ ν) × Lfu κ ν :=
  match c.chain.backSlot with
  | none => (none, c)
  | some i => c.takeAt i

/-- Drops the entry at the back. -/
def evictAloud (c : Lfu κ ν) : Aloud κ ν (Option (Entry κ ν) × Lfu κ ν) := announce c.evict

def makeRoom (c : Lfu κ ν) : Option (Entry κ ν) × Lfu κ ν :=
  if c.isFull then c.evict else (none, c)

/-- Adds an entry for a key that is not bound, ahead of the entries used once. -/
def insertNew (c : Lfu κ ν) (key : κ) (value : ν) : Lfu κ ν :=
  let fresh : Counted κ ν := ⟨⟨key, value⟩, 1⟩
  let (i, chain) := match c.onceFront with
    | some head => c.chain.insertBefore head fresh
    | none => c.chain.pushBack fresh
  { c with chain, index := c.index.insert key i, onceFront := some i }

/-- Binds a key to a value. A key that is bound keeps its place and its number of uses; a new one
first displaces an entry if there is no room for it. -/
def putAloud (c : Lfu κ ν) (key : κ) (value : ν) : Aloud κ ν (Option (Entry κ ν) × Lfu κ ν) :=
  match c.index[key]? with
  | some i =>
    let chain := c.chain.modify i fun x => { x with entry := { x.entry with value } }
    return (none, { c with chain })
  | none => do
    let (displaced, c) ← announce c.makeRoom
    return (displaced, c.insertNew key value)

def remove (c : Lfu κ ν) (key : κ) : Option ν × Lfu κ ν :=
  match c.index[key]? with
  | none => (none, c)
  | some i => (c.takeAt i).map (·.map Entry.value) id

def clear (c : Lfu κ ν) : Lfu κ ν := empty c.capacity

/-- Changes the capacity, after dropping the entries at the back that no longer fit. -/
def resizeAloud (c : Lfu κ ν) (capacity : Nat) :
    Except SetupError (Aloud κ ν (Lfu κ ν)) := do
  requireCapacity capacity
  let shrunk := evictEach evictAloud (c.size - capacity) c
  return { shrunk with value := { shrunk.value with capacity } }

/-! ## Without the signals -/

def get (c : Lfu κ ν) (key : κ) : Option ν × Lfu κ ν := (c.getAloud key).value

def put (c : Lfu κ ν) (key : κ) (value : ν) : Option (Entry κ ν) × Lfu κ ν :=
  (c.putAloud key value).value

def resize (c : Lfu κ ν) (capacity : Nat) : Except SetupError (List (Entry κ ν) × Lfu κ ν) :=
  (c.resizeAloud capacity).map Aloud.reported

theorem get_def (c : Lfu κ ν) (key : κ) :
    c.get key =
      match c.index[key]? with
      | none => (none, c)
      | some i =>
        let c := c.countUse i
        ((c.chain.get? i).map (·.entry.value), c) := by
  rw [get, getAloud]
  split <;> rfl

theorem put_def (c : Lfu κ ν) (key : κ) (value : ν) :
    c.put key value =
      match c.index[key]? with
      | some i =>
        (none, { c with
          chain := c.chain.modify i fun x => { x with entry := { x.entry with value } } })
      | none =>
        let (displaced, c) := c.makeRoom
        (displaced, c.insertNew key value) := by
  rw [put, putAloud]
  split <;> rfl

/-- The entry displaced by a put is announced. -/
theorem putAloud_eq (c : Lfu κ ν) (key : κ) (value : ν) :
    c.putAloud key value = announce (c.put key value) := by
  rw [put, putAloud]
  split
  · rfl
  · exact congrArg (Aloud.mk _) (List.append_nil _)

theorem evictEach_eq (n : Nat) (c : Lfu κ ν) :
    evictEach evictAloud n c = announceAll (evictMany evict n c) :=
  evictEach_announce evict n c

theorem resize_def (c : Lfu κ ν) (capacity : Nat) :
    c.resize capacity = do
      requireCapacity capacity
      let (dropped, c) := evictMany evict (c.size - capacity) c
      return (dropped, { c with capacity }) := by
  rw [resize, resizeAloud, evictEach_eq]
  exact map_bind_eq fun _ => congrArg Except.ok (Prod.ext (Signal.filterMap_entry? _) rfl)

/-- The entries dropped by a resize are announced. -/
theorem resizeAloud_eq (c : Lfu κ ν) (capacity : Nat) :
    c.resizeAloud capacity = (c.resize capacity).map announceAll := by
  rw [resize_def, resizeAloud, evictEach_eq]
  exact .symm (map_bind_eq fun _ => rfl)

instance : Store (Lfu κ ν) κ ν where
  size := size
  capacity := capacity
  entries := entries
  contains := contains
  peek := peek
  getAloud := getAloud
  putAloud := putAloud
  remove := remove
  evictAloud := evictAloud
  clear := clear
  resizeAloud := resizeAloud
  put_announced := putAloud_eq
  evict_announced _ := rfl
  resize_announced c capacity _ h := Aloud.eq_announceAll (c.resizeAloud_eq capacity ▸ h)

end Lfu

end BoundedCache
