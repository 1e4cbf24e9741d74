import BoundedCache.Share
import BoundedCache.Store.Lru

/-!
# Segmented recency

Two recency stores in a row. A new entry starts in probation, and is promoted to the protected
segment when it is used again; what the protected segment has no room for is demoted to probation,
as its newest entry. Entries give way from probation, so keys seen once do not push out the others.

## Main definitions

- `Segmented` — the two segments; `guarded` is the protected one
- `Segmented.create` — an empty store with a share for the protected segment
- `Segmented.put`, `Segmented.get` — promote a key in probation
- `Segmented.promote`, `Segmented.demote` — the moves between the segments
- `Segmented.evict`, `Segmented.victim?` — the entry that gives way
-/

namespace BoundedCache

/-- Entries in probation, and protected ones. Probation may fill what the other segment leaves free,
up to the whole capacity. -/
structure Segmented (κ ν : Type) [DecidableEq κ] [Hashable κ] where
  capacity : Nat
  ratio : Float
  probation : Lru κ ν
  guarded : Lru κ ν

namespace Segmented

variable {κ ν : Type} [DecidableEq κ] [Hashable κ]

/-- The share of the protected segment when none is given. -/
def defaultRatio : Float := 0.8

/-- The least capacity for which the protected segment is not empty: half an entry rounds up to
one. -/
def leastCapacity (ratio : Float) : Nat :=
  max (Binary64.ceilCount (0.5 / ratio)) 2

/-- The sizes of the segments, if neither of them is empty. -/
def layout (capacity : Nat) (ratio : Float) : Except SetupError Split := do
  requireCapacity capacity
  let split := Split.ofRatio capacity ratio
  if split.probation = 0 ∨ split.guarded = 0 then
    throw (.capacityTooSmall .segmented capacity (leastCapacity ratio))
  return split

def create (capacity : Nat) (ratio : Float) : Except SetupError (Segmented κ ν) := do
  requireFraction .protectedRatio ratio
  let split ← layout capacity ratio
  let probation ← Lru.create capacity
  let guarded ← Lru.create split.guarded
  return { capacity, ratio, probation, guarded }

/-! ## Reading -/

def size (c : Segmented κ ν) : Nat := c.probation.size + c.guarded.size

def isFull (c : Segmented κ ν) : Bool := c.capacity ≤ c.size

/-- The entries in probation, then the protected ones, each from the one unused the longest. -/
def entries (c : Segmented κ ν) : List (Entry κ ν) := c.probation.entries ++ c.guarded.entries

def contains (c : Segmented κ ν) (key : κ) : Bool :=
  c.guarded.contains key || c.probation.contains key

/-- The key is bound in the protected segment. -/
def isGuarded (c : Segmented κ ν) (key : κ) : Bool := c.guarded.contains key

def peek (c : Segmented κ ν) (key : κ) : Option ν :=
  (c.guarded.peek key).or (c.probation.peek key)

/-- The entry that would give way to a new key; none while there is room. -/
def victim? (c : Segmented κ ν) : Option (Entry κ ν) :=
  if c.isFull then c.probation.oldest?.or c.guarded.oldest? else none

/-! ## Operations -/

/-- Moves the oldest protected entry to probation, as its newest. -/
def demote (c : Segmented κ ν) : Segmented κ ν :=
  match c.guarded.evict with
  | (none, guarded) => { c with guarded }
  | (some entry, guarded) =>
    { c with guarded, probation := (c.probation.put entry.key entry.value).2 }

/-- Adds an entry that has just left probation to the protected segment. -/
def promote (c : Segmented κ ν) (key : κ) (value : ν) : Segmented κ ν :=
  let c := if c.guarded.isFull then c.demote else c
  { c with guarded := (c.guarded.put key value).2 }

/-- Takes out the oldest entry of probation, or, if there is none, the oldest protected one, without
a signal. -/
def evict (c : Segmented κ ν) : Option (Entry κ ν) × Segmented κ ν :=
  match c.probation.evict with
  | (some entry, probation) => (some entry, { c with probation })
  | (none, probation) =>
    let (entry, guarded) := c.guarded.evict
    (entry, { c with probation, guarded })

/-- Drops the oldest entry of probation, or, if there is none, the oldest protected one. -/
def evictAloud (c : Segmented κ ν) : Aloud κ ν (Option (Entry κ ν) × Segmented κ ν) :=
  announce c.evict

def makeRoom (c : Segmented κ ν) : Option (Entry κ ν) × Segmented κ ν :=
  if c.isFull then c.evict else (none, c)

/-- Binds a key to a value. A key that is bound counts as used again; a new one goes to probation,
displacing an entry if there is no room for it. -/
def putAloud (c : Segmented κ ν) (key : κ) (value : ν) :
    Aloud κ ν (Option (Entry κ ν) × Segmented κ ν) :=
  if c.guarded.contains key then
    return (none, { c with guarded := (c.guarded.put key value).2 })
  else
    match c.probation.remove key with
    | (some _, probation) => return (none, { c with probation }.promote key value)
    | (none, probation) => do
      let (displaced, c) ← announce { c with probation }.makeRoom
      return (displaced, { c with probation := (c.probation.put key value).2 })

/-- The value of a key, as a use of it. -/
def getAloud (c : Segmented κ ν) (key : κ) : Aloud κ ν (Option ν × Segmented κ ν) :=
  if c.guarded.contains key then do
    Aloud.access true
    let (value, guarded) := c.guarded.get key
    return (value, { c with guarded })
  else
    match c.probation.remove key with
    | (none, probation) => do
      Aloud.access false
      return (none, { c with probation })
    | (some value, probation) => do
      Aloud.access true
      let c := { c with probation }.promote key value
      return (c.guarded.peek key, c)

def remove (c : Segmented κ ν) (key : κ) : Option ν × Segmented κ ν :=
  match c.probation.remove key with
  | (some value, probation) => (some value, { c with probation })
  | (none, probation) =>
    let (value, guarded) := c.guarded.remove key
    (value, { c with probation, guarded })

def clear (c : Segmented κ ν) : Segmented κ ν :=
  { c with probation := c.probation.clear, guarded := c.guarded.clear }

/-- Changes the capacity: drops the entries that no longer fit, then demotes those for which the
protected segment has become too small. -/
def resizeAloud (c : Segmented κ ν) (capacity : Nat) :
    Except SetupError (Aloud κ ν (Segmented κ ν)) := do
  let split ← layout capacity c.ratio
  let shrunk := evictEach evictAloud (c.size - capacity) c
  let c := shrunk.value
  let (_, probation) ← c.probation.resize capacity
  let c := (c.guarded.size - split.guarded).repeat demote { c with probation }
  let (_, guarded) ← c.guarded.resize split.guarded
  return { shrunk with value := { c with capacity, guarded } }

/-! ## Without the signals -/

def get (c : Segmented κ ν) (key : κ) : Option ν × Segmented κ ν := (c.getAloud key).value

def put (c : Segmented κ ν) (key : κ) (value : ν) : Option (Entry κ ν) × Segmented κ ν :=
  (c.putAloud key value).value

def resize (c : Segmented κ ν) (capacity : Nat) :
    Except SetupError (List (Entry κ ν) × Segmented κ ν) :=
  (c.resizeAloud capacity).map Aloud.reported

theorem get_def (c : Segmented κ ν) (key : κ) :
    c.get key =
      if c.guarded.contains key then
        let (value, guarded) := c.guarded.get key
        (value, { c with guarded })
      else
        match c.probation.remove key with
        | (none, probation) => (none, { c with probation })
        | (some value, probation) =>
          let c := { c with probation }.promote key value
          (c.guarded.peek key, c) := by
  rw [get, getAloud]
  split
  · rfl
  · split <;> rfl

theorem put_def (c : Segmented κ ν) (key : κ) (value : ν) :
    c.put key value =
      if c.guarded.contains key then
        (none, { c with guarded := (c.guarded.put key value).2 })
      else
        match c.probation.remove key with
        | (some _, probation) => (none, { c with probation }.promote key value)
        | (none, probation) =>
          let (displaced, c) := { c with probation }.makeRoom
          (displaced, { c with probation := (c.probation.put key value).2 }) := by
  rw [put, putAloud]
  split
  · rfl
  · split <;> rfl

/-- The entry displaced by a put is announced. -/
theorem putAloud_eq (c : Segmented κ ν) (key : κ) (value : ν) :
    c.putAloud key value = announce (c.put key value) := by
  rw [put, putAloud]
  split
  · rfl
  · split
    · rfl
    · exact congrArg (Aloud.mk _) (List.append_nil _)

theorem evictEach_eq (n : Nat) (c : Segmented κ ν) :
    evictEach evictAloud n c = announceAll (evictMany evict n c) :=
  evictEach_announce evict n c

theorem resize_def (c : Segmented κ ν) (capacity : Nat) :
    c.resize capacity = do
      let split ← layout capacity c.ratio
      let (dropped, c) := evictMany evict (c.size - capacity) c
      let (_, probation) ← c.probation.resize capacity
      let c := (c.guarded.size - split.guarded).repeat demote { c with probation }
      let (_, guarded) ← c.guarded.resize split.guarded
      return (dropped, { c with capacity, guarded }) := by
  rw [resize, resizeAloud]
  refine map_bind_eq fun split => ?_
  rw [evictEach_eq]
  refine map_bind_eq fun probation => map_bind_eq fun guarded => ?_
  exact congrArg Except.ok (Prod.ext (Signal.filterMap_entry? _) rfl)

/-- The entries dropped by a resize are announced. -/
theorem resizeAloud_eq (c : Segmented κ ν) (capacity : Nat) :
    c.resizeAloud capacity = (c.resize capacity).map announceAll := by
  rw [resize_def, resizeAloud]
  refine .symm (map_bind_eq fun split => ?_)
  rw [evictEach_eq]
  exact map_bind_eq fun probation => map_bind_eq fun guarded => rfl

instance : Store (Segmented κ ν) κ ν where
  size := size
  capacity := capacity
  entries := entries
  contains := contains
  peek := peek
  getAloud := getAloud
  putAloud := putAloud
  remove := remove
  evictAloud := evictAloud
  clear := clear
  resizeAloud := resizeAloud
  put_announced := putAloud_eq
  evict_announced _ := rfl
  resize_announced c capacity _ h := Aloud.eq_announceAll (c.resizeAloud_eq capacity ▸ h)

end Segmented

end BoundedCache
