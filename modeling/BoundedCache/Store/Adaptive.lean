import BoundedCache.Store.Lfu
import BoundedCache.Store.Lru

/-!
# Adaptive replacement

Entries seen once are kept by recency, entries seen again by frequency. Two ghost lists remember the
keys, without values, that were dropped from either part. A key that comes back while it is a ghost
shows that its part was too small, and moves the target size of the recency part accordingly.

## Main definitions

- `Adaptive` — the two parts, their ghosts, and the target
- `Adaptive.displace` — drops an entry of the part that the target calls too large
- `Adaptive.put` — the four cases: bound, a ghost of either part, or new
- `Adaptive.get` — moves a key seen once to the frequency part
-/

namespace BoundedCache

/-- Entries seen once and entries seen again, with the ghosts of both. -/
structure Adaptive (κ ν : Type) [DecidableEq κ] [Hashable κ] where
  capacity : Nat
  /-- The size that the recency part should have. -/
  target : Nat := 0
  recent : Lru κ ν
  frequent : Lfu κ ν
  recentGhosts : Lru κ Unit
  frequentGhosts : Lru κ Unit

namespace Adaptive

variable {κ ν : Type} [DecidableEq κ] [Hashable κ]

/-- The store without entries and without ghosts, if there is room for an entry. Every part, and
every list of ghosts, may take up the whole capacity. -/
def create (capacity : Nat) : Except SetupError (Adaptive κ ν) := do
  requireCapacity capacity
  let recent ← Lru.create capacity
  let frequent ← Lfu.create capacity
  let recentGhosts ← Lru.create capacity
  let frequentGhosts ← Lru.create capacity
  return { capacity, recent, frequent, recentGhosts, frequentGhosts }

/-! ## Reading -/

def size (c : Adaptive κ ν) : Nat := c.recent.size + c.frequent.size

def isFull (c : Adaptive κ ν) : Bool := c.capacity ≤ c.size

/-- The entries seen once from the oldest, then the others from the one that would give way next. -/
def entries (c : Adaptive κ ν) : List (Entry κ ν) := c.recent.entries ++ c.frequent.entries

def contains (c : Adaptive κ ν) (key : κ) : Bool :=
  c.recent.contains key || c.frequent.contains key

def peek (c : Adaptive κ ν) (key : κ) : Option ν :=
  (c.recent.peek key).or (c.frequent.peek key)

/-! ## Making room -/

/-- The recency part gives way: it is larger than its target, or as large and preferred on a tie, or
the other part is empty. -/
def givesRecent (c : Adaptive κ ν) (onTie : Bool) : Bool :=
  let n := c.recent.size
  0 < n && (c.target < n || (n == c.target && onTie) || c.frequent.isEmpty)

/-- Takes out an entry of the part that gives way, without a signal, and remembers its key as a
ghost. -/
def displace (c : Adaptive κ ν) (onTie : Bool) : Option (Entry κ ν) × Adaptive κ ν :=
  if c.givesRecent onTie then
    match c.recent.evict with
    | (none, recent) => (none, { c with recent })
    | (some entry, recent) =>
      (some entry, { c with recent, recentGhosts := (c.recentGhosts.put entry.key ()).2 })
  else
    match c.frequent.evict with
    | (none, frequent) => (none, { c with frequent })
    | (some entry, frequent) =>
      (some entry, { c with frequent, frequentGhosts := (c.frequentGhosts.put entry.key ()).2 })

def makeRoom (c : Adaptive κ ν) (onTie : Bool) : Option (Entry κ ν) × Adaptive κ ν :=
  if c.isFull then c.displace onTie else (none, c)

def evict (c : Adaptive κ ν) : Option (Entry κ ν) × Adaptive κ ν := c.displace false

/-- Drops an entry; the recency part does not give way on a tie. -/
def evictAloud (c : Adaptive κ ν) : Aloud κ ν (Option (Entry κ ν) × Adaptive κ ν) :=
  announce c.evict

/-- Forgets the oldest ghost of each part that has more of them than the target leaves it. -/
def trimGhosts (c : Adaptive κ ν) : Adaptive κ ν :=
  let c := if c.capacity - c.target < c.recentGhosts.size then
    { c with recentGhosts := c.recentGhosts.evict.2 } else c
  if c.target < c.frequentGhosts.size then
    { c with frequentGhosts := c.frequentGhosts.evict.2 } else c

/-! ## Operations -/

def putFrequent (c : Adaptive κ ν) (key : κ) (value : ν) : Adaptive κ ν :=
  { c with frequent := (c.frequent.put key value).2 }

/-- Binds a key that is a ghost of the recency part, whose target grows. -/
def reviveRecentAloud (c : Adaptive κ ν) (key : κ) (value : ν) :
    Aloud κ ν (Option (Entry κ ν) × Adaptive κ ν) := do
  let step := max (c.frequentGhosts.size / c.recentGhosts.size) 1
  let c := { c with target := min (c.target + step) c.capacity }
  let (displaced, c) ← announce (c.makeRoom false)
  return (displaced, { c with recentGhosts := (c.recentGhosts.remove key).2 }.putFrequent key value)

/-- Binds a key that is a ghost of the frequency part; the target of the recency part shrinks. -/
def reviveFrequentAloud (c : Adaptive κ ν) (key : κ) (value : ν) :
    Aloud κ ν (Option (Entry κ ν) × Adaptive κ ν) := do
  let step := max (c.recentGhosts.size / c.frequentGhosts.size) 1
  let c := { c with target := c.target - step }
  let (displaced, c) ← announce (c.makeRoom true)
  let c := { c with frequentGhosts := (c.frequentGhosts.remove key).2 }
  return (displaced, c.putFrequent key value)

/-- Binds a key that is neither bound nor a ghost. -/
def insertNewAloud (c : Adaptive κ ν) (key : κ) (value : ν) :
    Aloud κ ν (Option (Entry κ ν) × Adaptive κ ν) := do
  let (displaced, c) ← announce (c.makeRoom false)
  let c := c.trimGhosts
  return (displaced, { c with recent := (c.recent.put key value).2 })

/-- Binds a key to a value. A key that was seen before ends up in the frequency part. -/
def putAloud (c : Adaptive κ ν) (key : κ) (value : ν) :
    Aloud κ ν (Option (Entry κ ν) × Adaptive κ ν) :=
  match c.recent.remove key with
  | (some _, recent) => return (none, { c with recent }.putFrequent key value)
  | (none, recent) =>
    let c := { c with recent }
    if c.frequent.contains key then return (none, c.putFrequent key value)
    else if c.recentGhosts.contains key then c.reviveRecentAloud key value
    else if c.frequentGhosts.contains key then c.reviveFrequentAloud key value
    else c.insertNewAloud key value

/-- The value of a key, as a use of it. A key seen once moves to the frequency part. -/
def getAloud (c : Adaptive κ ν) (key : κ) : Aloud κ ν (Option ν × Adaptive κ ν) :=
  match c.recent.remove key with
  | (some value, recent) => do
    Aloud.access true
    let c := { c with recent }.putFrequent key value
    return (c.frequent.peek key, c)
  | (none, recent) => do
    Aloud.access (c.frequent.contains key)
    let (value, frequent) := c.frequent.get key
    return (value, { c with recent, frequent })

/-- Unbinds a key, and forgets it if it is a ghost. -/
def remove (c : Adaptive κ ν) (key : κ) : Option ν × Adaptive κ ν :=
  let c := { c with
    recentGhosts := (c.recentGhosts.remove key).2
    frequentGhosts := (c.frequentGhosts.remove key).2 }
  match c.recent.remove key with
  | (some value, recent) => (some value, { c with recent })
  | (none, recent) =>
    let (value, frequent) := c.frequent.remove key
    (value, { c with recent, frequent })

/-- Drops all entries and all ghosts. -/
def clear (c : Adaptive κ ν) : Adaptive κ ν :=
  { c with
    target := 0
    recent := c.recent.clear
    frequent := c.frequent.clear
    recentGhosts := c.recentGhosts.clear
    frequentGhosts := c.frequentGhosts.clear }

/-- Changes the capacity: drops the entries, and forgets the oldest ghosts, that no longer fit. -/
def resizeAloud (c : Adaptive κ ν) (capacity : Nat) :
    Except SetupError (Aloud κ ν (Adaptive κ ν)) := do
  requireCapacity capacity
  let shrunk := evictEach evictAloud (c.size - capacity) c
  let c := shrunk.value
  let (_, recent) ← c.recent.resize capacity
  let (_, frequent) ← c.frequent.resize capacity
  let (_, recentGhosts) ← c.recentGhosts.resize capacity
  let (_, frequentGhosts) ← c.frequentGhosts.resize capacity
  let target := min c.target capacity
  return { shrunk with
    value := { capacity, target, recent, frequent, recentGhosts, frequentGhosts } }

/-! ## Without the signals -/

def reviveRecent (c : Adaptive κ ν) (key : κ) (value : ν) : Option (Entry κ ν) × Adaptive κ ν :=
  (c.reviveRecentAloud key value).value

def reviveFrequent (c : Adaptive κ ν) (key : κ) (value : ν) : Option (Entry κ ν) × Adaptive κ ν :=
  (c.reviveFrequentAloud key value).value

def insertNew (c : Adaptive κ ν) (key : κ) (value : ν) : Option (Entry κ ν) × Adaptive κ ν :=
  (c.insertNewAloud key value).value

def get (c : Adaptive κ ν) (key : κ) : Option ν × Adaptive κ ν := (c.getAloud key).value

def put (c : Adaptive κ ν) (key : κ) (value : ν) : Option (Entry κ ν) × Adaptive κ ν :=
  (c.putAloud key value).value

def resize (c : Adaptive κ ν) (capacity : Nat) :
    Except SetupError (List (Entry κ ν) × Adaptive κ ν) :=
  (c.resizeAloud capacity).map Aloud.reported

theorem get_def (c : Adaptive κ ν) (key : κ) :
    c.get key =
      match c.recent.remove key with
      | (some value, recent) =>
        let c := { c with recent }.putFrequent key value
        (c.frequent.peek key, c)
      | (none, recent) =>
        let (value, frequent) := c.frequent.get key
        (value, { c with recent, frequent }) := by
  rw [get, getAloud]
  split <;> rfl

theorem put_def (c : Adaptive κ ν) (key : κ) (value : ν) :
    c.put key value =
      match c.recent.remove key with
      | (some _, recent) => (none, { c with recent }.putFrequent key value)
      | (none, recent) =>
        let c := { c with recent }
        if c.frequent.contains key then (none, c.putFrequent key value)
        else if c.recentGhosts.contains key then c.reviveRecent key value
        else if c.frequentGhosts.contains key then c.reviveFrequent key value
        else c.insertNew key value := by
  rw [put, putAloud]
  split
  · rfl
  · dsimp only
    repeat' split
    all_goals rfl

theorem reviveRecentAloud_eq (c : Adaptive κ ν) (key : κ) (value : ν) :
    c.reviveRecentAloud key value = announce (c.reviveRecent key value) :=
  congrArg (Aloud.mk _) (List.append_nil _)

theorem reviveFrequentAloud_eq (c : Adaptive κ ν) (key : κ) (value : ν) :
    c.reviveFrequentAloud key value = announce (c.reviveFrequent key value) :=
  congrArg (Aloud.mk _) (List.append_nil _)

theorem insertNewAloud_eq (c : Adaptive κ ν) (key : κ) (value : ν) :
    c.insertNewAloud key value = announce (c.insertNew key value) :=
  congrArg (Aloud.mk _) (List.append_nil _)

/-- The entry displaced by a put is announced. -/
theorem putAloud_eq (c : Adaptive κ ν) (key : κ) (value : ν) :
    c.putAloud key value = announce (c.put key value) := by
  rw [put_def, putAloud]
  split
  · rfl
  · dsimp only
    rw [reviveRecentAloud_eq, reviveFrequentAloud_eq, insertNewAloud_eq]
    repeat' split
    all_goals rfl

theorem evictEach_eq (n : Nat) (c : Adaptive κ ν) :
    evictEach evictAloud n c = announceAll (evictMany evict n c) :=
  evictEach_announce evict n c

theorem resize_def (c : Adaptive κ ν) (capacity : Nat) :
    c.resize capacity = do
      requireCapacity capacity
      let (dropped, c) := evictMany evict (c.size - capacity) c
      let (_, recent) ← c.recent.resize capacity
      let (_, frequent) ← c.frequent.resize capacity
      let (_, recentGhosts) ← c.recentGhosts.resize capacity
      let (_, frequentGhosts) ← c.frequentGhosts.resize capacity
      let target := min c.target capacity
      return (dropped, { capacity, target, recent, frequent, recentGhosts, frequentGhosts }) := by
  rw [resize, resizeAloud, evictEach_eq]
  refine map_bind_eq fun _ => map_bind_eq fun recent => map_bind_eq fun frequent =>
    map_bind_eq fun recentGhosts => map_bind_eq fun frequentGhosts => ?_
  exact congrArg Except.ok (Prod.ext (Signal.filterMap_entry? _) rfl)

/-- The entries dropped by a resize are announced. -/
theorem resizeAloud_eq (c : Adaptive κ ν) (capacity : Nat) :
    c.resizeAloud capacity = (c.resize capacity).map announceAll := by
  rw [resize_def, resizeAloud, evictEach_eq]
  exact .symm (map_bind_eq fun _ => map_bind_eq fun recent => map_bind_eq fun frequent =>
    map_bind_eq fun recentGhosts => map_bind_eq fun frequentGhosts => rfl)

instance : Store (Adaptive κ ν) κ ν where
  size := size
  capacity := capacity
  entries := entries
  contains := contains
  peek := peek
  getAloud := getAloud
  putAloud := putAloud
  remove := remove
  evictAloud := evictAloud
  clear := clear
  resizeAloud := resizeAloud
  put_announced := putAloud_eq
  evict_announced _ := rfl
  resize_announced c capacity _ h := Aloud.eq_announceAll (c.resizeAloud_eq capacity ▸ h)

end Adaptive

end BoundedCache
