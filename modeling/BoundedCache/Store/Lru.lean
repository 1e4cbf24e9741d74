import BoundedCache.Chain.Basic
import BoundedCache.Store.Basic
import Std.Data.HashMap

/-!
# Least recently used

The entry that has gone unused the longest gives way. The entries are kept in a chain, the one used
last at its front, and an index leads from a key to its slot.

## Main definitions

- `Lru` — the chain and the index
- `Lru.create` — an empty store
- `Lru.put`, `Lru.get` — move their key to the front
- `Lru.evict` — drops the entry at the back
- `Lru.resize` — drops entries at the back until the rest fits
- `Lru.entries` — the entries from the one unused the longest
-/

namespace BoundedCache

/-- Entries in the order of their last use. -/
structure Lru (κ ν : Type) [DecidableEq κ] [Hashable κ] where
  capacity : Nat
  chain : Chain (Entry κ ν) := ∅
  index : Std.HashMap κ Slot := ∅

namespace Lru

variable {κ ν : Type} [DecidableEq κ] [Hashable κ]

def empty (capacity : Nat) : Lru κ ν := { capacity }

/-- The store without entries, if there is room for one. -/
def create (capacity : Nat) : Except SetupError (Lru κ ν) := do
  requireCapacity capacity
  return empty capacity

/-! ## Reading -/

def size (c : Lru κ ν) : Nat := c.chain.size

def isFull (c : Lru κ ν) : Bool := c.capacity ≤ c.size

/-- The entries, from the one unused the longest. -/
def entries (c : Lru κ ν) : List (Entry κ ν) := c.chain.toListBack

/-- The entry unused the longest. -/
def oldest? (c : Lru κ ν) : Option (Entry κ ν) := c.chain.back?

/-- The entry used last. -/
def newest? (c : Lru κ ν) : Option (Entry κ ν) := c.chain.front?

def contains (c : Lru κ ν) (key : κ) : Bool := c.index.contains key

def peek (c : Lru κ ν) (key : κ) : Option ν :=
  c.index[key]?.bind fun i => (c.chain.get? i).map Entry.value

/-! ## Operations -/

/-- The value of a key, whose entry becomes the one used last. -/
def getAloud (c : Lru κ ν) (key : κ) : Aloud κ ν (Option ν × Lru κ ν) :=
  match c.index[key]? with
  | none => do
    Aloud.access false
    return (none, c)
  | some i => do
    Aloud.access true
    let chain := (c.chain.moveToFront i).2
    return ((chain.get? i).map Entry.value, { c with chain })

/-- Takes out the entry unused the longest, without a signal. -/
def evict (c : Lru κ ν) : Option (Entry κ ν) × Lru κ ν :=
  match c.chain.popBack with
  | (none, chain) => (none, { c with chain })
  | (some entry, chain) => (some entry, { c with chain, index := c.index.erase entry.key })

/-- Drops the entry unused the longest. -/
def evictAloud (c : Lru κ ν) : Aloud κ ν (Option (Entry κ ν) × Lru κ ν) := announce c.evict

def makeRoom (c : Lru κ ν) : Option (Entry κ ν) × Lru κ ν :=
  if c.isFull then c.evict else (none, c)

/-- Adds an entry for a key that is not bound. -/
def insertNew (c : Lru κ ν) (key : κ) (value : ν) : Lru κ ν :=
  let (i, chain) := c.chain.pushFront ⟨key, value⟩
  { c with chain, index := c.index.insert key i }

/-- Binds a key to a value, its entry becoming the one used last. A new key first displaces an entry
if there is no room for it. -/
def putAloud (c : Lru κ ν) (key : κ) (value : ν) : Aloud κ ν (Option (Entry κ ν) × Lru κ ν) :=
  match c.index[key]? with
  | some i =>
    let chain := (c.chain.moveToFront i).2.modify i fun entry => { entry with value }
    return (none, { c with chain })
  | none => do
    let (displaced, c) ← announce c.makeRoom
    return (displaced, c.insertNew key value)

def remove (c : Lru κ ν) (key : κ) : Option ν × Lru κ ν :=
  match c.index[key]? with
  | none => (none, c)
  | some i =>
    let (entry, chain) := c.chain.remove i
    (entry.map Entry.value, { c with chain, index := c.index.erase key })

def clear (c : Lru κ ν) : Lru κ ν := empty c.capacity

/-- Changes the capacity, after dropping the entries unused the longest that no longer fit. -/
def resizeAloud (c : Lru κ ν) (capacity : Nat) :
    Except SetupError (Aloud κ ν (Lru κ ν)) := do
  requireCapacity capacity
  let shrunk := evictEach evictAloud (c.size - capacity) c
  return { shrunk with value := { shrunk.value with capacity } }

/-! ## Without the signals -/

def get (c : Lru κ ν) (key : κ) : Option ν × Lru κ ν := (c.getAloud key).value

def put (c : Lru κ ν) (key : κ) (value : ν) : Option (Entry κ ν) × Lru κ ν :=
  (c.putAloud key value).value

def resize (c : Lru κ ν) (capacity : Nat) : Except SetupError (List (Entry κ ν) × Lru κ ν) :=
  (c.resizeAloud capacity).map Aloud.reported

theorem get_def (c : Lru κ ν) (key : κ) :
    c.get key =
      match c.index[key]? with
      | none => (none, c)
      | some i =>
        let chain := (c.chain.moveToFront i).2
        ((chain.get? i).map Entry.value, { c with chain }) := by
  rw [get, getAloud]
  split <;> rfl

theorem put_def (c : Lru κ ν) (key : κ) (value : ν) :
    c.put key value =
      match c.index[key]? with
      | some i =>
        (none,
          { c with chain := (c.chain.moveToFront i).2.modify i fun entry => { entry with value } })
      | none =>
        let (displaced, c) := c.makeRoom
        (displaced, c.insertNew key value) := by
  rw [put, putAloud]
  split <;> rfl

/-- The entry displaced by a put is announced. -/
theorem putAloud_eq (c : Lru κ ν) (key : κ) (value : ν) :
    c.putAloud key value = announce (c.put key value) := by
  rw [put, putAloud]
  split
  · rfl
  · exact congrArg (Aloud.mk _) (List.append_nil _)

theorem evictEach_eq (n : Nat) (c : Lru κ ν) :
    evictEach evictAloud n c = announceAll (evictMany evict n c) :=
  evictEach_announce evict n c

theorem resize_def (c : Lru κ ν) (capacity : Nat) :
    c.resize capacity = do
      requireCapacity capacity
      let (dropped, c) := evictMany evict (c.size - capacity) c
      return (dropped, { c with capacity }) := by
  rw [resize, resizeAloud, evictEach_eq]
  exact map_bind_eq fun _ => congrArg Except.ok (Prod.ext (Signal.filterMap_entry? _) rfl)

/-- The entries dropped by a resize are announced. -/
theorem resizeAloud_eq (c : Lru κ ν) (capacity : Nat) :
    c.resizeAloud capacity = (c.resize capacity).map announceAll := by
  rw [resize_def, resizeAloud, evictEach_eq]
  exact .symm (map_bind_eq fun _ => rfl)

instance : Store (Lru κ ν) κ ν where
  size := size
  capacity := capacity
  entries := entries
  contains := contains
  peek := peek
  getAloud := getAloud
  putAloud := putAloud
  remove := remove
  evictAloud := evictAloud
  clear := clear
  resizeAloud := resizeAloud
  put_announced := putAloud_eq
  evict_announced _ := rfl
  resize_announced c capacity _ h := Aloud.eq_announceAll (c.resizeAloud_eq capacity ▸ h)

end Lru

end BoundedCache
