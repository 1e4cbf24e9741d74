import BoundedCache.Hash.Key
import BoundedCache.Popularity
import BoundedCache.Store.Segmented

/-!
# Admission by popularity

New entries go to a small recency window. An entry that the window has no room for is a candidate
for the main part, a segmented store: when that is full, the candidate has to be strictly more
popular than the entry that would give way there, or else it is dropped itself.

## Main definitions

- `TinyLfu` — the window, the main part, and the popularity of keys
- `TinyLfu.layout` — the capacities of window and main part
- `TinyLfu.contest` — the contest for a place in the main part
- `TinyLfu.put`, `TinyLfu.get` — record their key in either case
-/

namespace BoundedCache

/-- Entries in a window and in a main part, with the popularity of keys that decides between them.
The hash is how keys are told apart when their popularity is recorded. -/
structure TinyLfu (κ ν : Type) [DecidableEq κ] [Hashable κ] where
  capacity : Nat
  hash : KeyHash κ
  seed : UInt64
  window : Lru κ ν
  main : Segmented κ ν
  popularity : Popularity

namespace TinyLfu

variable {κ ν : Type} [DecidableEq κ] [Hashable κ]

def windowRatio : Float := 0.01

/-- The capacities of the two parts. -/
structure Layout where
  window : Nat
  main : Nat
  deriving DecidableEq

/-- The capacities of window and main part, if the main part can be segmented. -/
def layout (capacity : Nat) : Except SetupError Layout := do
  requireCapacity capacity
  let window := windowSize capacity windowRatio
  let main := capacity - window
  let split := Split.ofRatio main Segmented.defaultRatio
  if split.probation = 0 ∨ split.guarded = 0 then
    throw (.capacityTooSmall .tinyLfu capacity Policy.tinyLfu.minCapacity)
  return ⟨window, main⟩

/-- The store without entries, in which no key has been seen. -/
def create (capacity : Nat) (hash : KeyHash κ) (seed : UInt64) :
    Except SetupError (TinyLfu κ ν) := do
  let parts ← layout capacity
  let window ← Lru.create parts.window
  let main ← Segmented.create parts.main Segmented.defaultRatio
  let popularity ← Popularity.create capacity seed
  return { capacity, hash, seed, window, main, popularity }

/-! ## Reading -/

def size (c : TinyLfu κ ν) : Nat := c.window.size + c.main.size

/-- The entries of the window from the oldest, then those of the main part. -/
def entries (c : TinyLfu κ ν) : List (Entry κ ν) := c.window.entries ++ c.main.entries

def contains (c : TinyLfu κ ν) (key : κ) : Bool :=
  c.window.contains key || c.main.contains key

def peek (c : TinyLfu κ ν) (key : κ) : Option ν :=
  (c.window.peek key).or (c.main.peek key)

def frequency (c : TinyLfu κ ν) (key : κ) : Nat := c.popularity.frequency (c.hash key)

/-! ## Operations -/

/-- Records a use of a key, whether or not it is bound. -/
def record (c : TinyLfu κ ν) (key : κ) : TinyLfu κ ν :=
  { c with popularity := c.popularity.record (c.hash key) }

def putMain (c : TinyLfu κ ν) (entry : Entry κ ν) : TinyLfu κ ν :=
  { c with main := (c.main.put entry.key entry.value).2 }

/-- Finds a place in the main part for an entry that the window had no room for. If the main part is
full, either the candidate or the entry that would give way to it is dropped; on a tie it is the
candidate. -/
def contestAloud (c : TinyLfu κ ν) (candidate : Entry κ ν) :
    Aloud κ ν (Option (Entry κ ν) × TinyLfu κ ν) :=
  match c.main.victim? with
  | none => return (none, c.putMain candidate)
  | some victim =>
    if c.frequency victim.key < c.frequency candidate.key then
      match c.main.evict with
      | (none, main) => return (none, { c with main })
      | (some dropped, main) => announce (some dropped, { c with main }.putMain candidate)
    else announce (some candidate, c)

/-- Adds an entry for a key that is not bound to the window, whose oldest entry moves on if there is
no room. -/
def insertNewAloud (c : TinyLfu κ ν) (key : κ) (value : ν) :
    Aloud κ ν (Option (Entry κ ν) × TinyLfu κ ν) :=
  let (candidate, window) := c.window.makeRoom
  let c := { c with window := (window.put key value).2 }
  match candidate with
  | none => return (none, c)
  | some candidate => c.contestAloud candidate

/-- Binds a key to a value, as a use of the key. -/
def putAloud (c : TinyLfu κ ν) (key : κ) (value : ν) :
    Aloud κ ν (Option (Entry κ ν) × TinyLfu κ ν) :=
  let c := c.record key
  if c.window.contains key then return (none, { c with window := (c.window.put key value).2 })
  else if c.main.contains key then return (none, c.putMain ⟨key, value⟩)
  else c.insertNewAloud key value

/-- The value of a key, as a use of it. A key that is not bound is seen once more as well. -/
def getAloud (c : TinyLfu κ ν) (key : κ) : Aloud κ ν (Option ν × TinyLfu κ ν) :=
  let c := c.record key
  if c.window.contains key then do
    Aloud.access true
    let (value, window) := c.window.get key
    return (value, { c with window })
  else do
    Aloud.access (c.main.contains key)
    let (value, main) := c.main.get key
    return (value, { c with main })

def remove (c : TinyLfu κ ν) (key : κ) : Option ν × TinyLfu κ ν :=
  match c.window.remove key with
  | (some value, window) => (some value, { c with window })
  | (none, window) =>
    let (value, main) := c.main.remove key
    (value, { c with window, main })

/-- Takes out the entry that would give way in the main part, or, if there is none, the oldest one
of the window, without a signal. -/
def evict (c : TinyLfu κ ν) : Option (Entry κ ν) × TinyLfu κ ν :=
  match c.main.evict with
  | (some entry, main) => (some entry, { c with main })
  | (none, main) =>
    let (entry, window) := c.window.evict
    (entry, { c with main, window })

/-- Drops the entry that would give way in the main part, or, if there is none, the oldest one of
the window. -/
def evictAloud (c : TinyLfu κ ν) : Aloud κ ν (Option (Entry κ ν) × TinyLfu κ ν) :=
  announce c.evict

/-- Drops all entries, and forgets which keys were seen. -/
def clear (c : TinyLfu κ ν) : TinyLfu κ ν :=
  { c with
    window := c.window.clear
    main := c.main.clear
    popularity := c.popularity.clear }

/-- Moves the oldest entry of the window to the main part if that has fewer entries than it may
have, and drops it otherwise. -/
def spillAloud (mainCapacity : Nat) (c : TinyLfu κ ν) :
    Aloud κ ν (Option (Entry κ ν) × TinyLfu κ ν) :=
  match c.window.evict with
  | (none, window) => return (none, { c with window })
  | (some entry, window) =>
    let c := { c with window }
    if c.main.size < mainCapacity then return (none, c.putMain entry) else announce (some entry, c)

/-- Spills a number of entries of the window. -/
def spillEach (mainCapacity : Nat) : Nat → TinyLfu κ ν → Aloud κ ν (TinyLfu κ ν)
  | 0, c => return c
  | n + 1, c => do
    let (_, c) ← c.spillAloud mainCapacity
    spillEach mainCapacity n c

/-- Drops a number of entries that would give way in the main part. -/
def shedEach (n : Nat) (main : Segmented κ ν) : Aloud κ ν (Segmented κ ν) :=
  evictEach (fun main => announce main.evict) n main

/-- Changes the capacity. Entries are dropped until the rest fits, then until the main part fits,
and then the surplus of the window is moved to the main part or dropped. The popularity of keys is
forgotten. -/
def resizeAloud (c : TinyLfu κ ν) (capacity : Nat) :
    Except SetupError (Aloud κ ν (TinyLfu κ ν)) := do
  let parts ← layout capacity
  let popularity ← Popularity.create capacity c.seed
  let shrunk := evictEach evictAloud (c.size - capacity) c
  let c := shrunk.value
  let shed := shedEach (c.main.size - parts.main) c.main
  let (_, main) ← shed.value.resize parts.main
  let spilled := spillEach parts.main (c.window.size - parts.window) { c with main }
  let c := spilled.value
  let (_, window) ← c.window.resize parts.window
  return {
    value := { c with capacity, window, popularity }
    signals := shrunk.signals ++ shed.signals ++ spilled.signals }

/-! ## Without the signals -/

def contest (c : TinyLfu κ ν) (candidate : Entry κ ν) : Option (Entry κ ν) × TinyLfu κ ν :=
  (c.contestAloud candidate).value

def insertNew (c : TinyLfu κ ν) (key : κ) (value : ν) : Option (Entry κ ν) × TinyLfu κ ν :=
  (c.insertNewAloud key value).value

def spill (mainCapacity : Nat) (c : TinyLfu κ ν) : Option (Entry κ ν) × TinyLfu κ ν :=
  (c.spillAloud mainCapacity).value

def spillMany (mainCapacity n : Nat) (c : TinyLfu κ ν) : List (Entry κ ν) × TinyLfu κ ν :=
  (spillEach mainCapacity n c).reported

def get (c : TinyLfu κ ν) (key : κ) : Option ν × TinyLfu κ ν := (c.getAloud key).value

def put (c : TinyLfu κ ν) (key : κ) (value : ν) : Option (Entry κ ν) × TinyLfu κ ν :=
  (c.putAloud key value).value

def resize (c : TinyLfu κ ν) (capacity : Nat) :
    Except SetupError (List (Entry κ ν) × TinyLfu κ ν) :=
  (c.resizeAloud capacity).map Aloud.reported

theorem contest_def (c : TinyLfu κ ν) (candidate : Entry κ ν) :
    c.contest candidate =
      match c.main.victim? with
      | none => (none, c.putMain candidate)
      | some victim =>
        if c.frequency victim.key < c.frequency candidate.key then
          match c.main.evict with
          | (none, main) => (none, { c with main })
          | (some dropped, main) => (some dropped, { c with main }.putMain candidate)
        else (some candidate, c) := by
  rw [contest, contestAloud]
  repeat' split
  all_goals rfl

theorem insertNew_def (c : TinyLfu κ ν) (key : κ) (value : ν) :
    c.insertNew key value =
      let (candidate, window) := c.window.makeRoom
      let c := { c with window := (window.put key value).2 }
      match candidate with
      | none => (none, c)
      | some candidate => c.contest candidate := by
  rw [insertNew, insertNewAloud]
  dsimp only
  split <;> rfl

theorem put_def (c : TinyLfu κ ν) (key : κ) (value : ν) :
    c.put key value =
      let c := c.record key
      if c.window.contains key then (none, { c with window := (c.window.put key value).2 })
      else if c.main.contains key then (none, c.putMain ⟨key, value⟩)
      else c.insertNew key value := by
  rw [put, putAloud]
  dsimp only
  repeat' split
  all_goals rfl

theorem get_def (c : TinyLfu κ ν) (key : κ) :
    c.get key =
      let c := c.record key
      if c.window.contains key then
        let (value, window) := c.window.get key
        (value, { c with window })
      else
        let (value, main) := c.main.get key
        (value, { c with main }) := by
  rw [get, getAloud]
  dsimp only
  split <;> rfl

theorem spill_def (mainCapacity : Nat) (c : TinyLfu κ ν) :
    c.spill mainCapacity =
      match c.window.evict with
      | (none, window) => (none, { c with window })
      | (some entry, window) =>
        let c := { c with window }
        if c.main.size < mainCapacity then (none, c.putMain entry) else (some entry, c) := by
  rw [spill, spillAloud]
  dsimp only
  repeat' split
  all_goals rfl

/-- The entry that loses a contest is announced. -/
theorem contestAloud_eq (c : TinyLfu κ ν) (candidate : Entry κ ν) :
    c.contestAloud candidate = announce (c.contest candidate) := by
  rw [contest_def, contestAloud]
  repeat' split
  all_goals rfl

theorem insertNewAloud_eq (c : TinyLfu κ ν) (key : κ) (value : ν) :
    c.insertNewAloud key value = announce (c.insertNew key value) := by
  rw [insertNew_def, insertNewAloud]
  dsimp only
  split
  · rfl
  · exact contestAloud_eq ..

/-- The entry that a put leaves no room for is announced. -/
theorem putAloud_eq (c : TinyLfu κ ν) (key : κ) (value : ν) :
    c.putAloud key value = announce (c.put key value) := by
  rw [put_def, putAloud]
  dsimp only
  rw [insertNewAloud_eq]
  repeat' split
  all_goals rfl

theorem spillAloud_eq (mainCapacity : Nat) (c : TinyLfu κ ν) :
    c.spillAloud mainCapacity = announce (c.spill mainCapacity) := by
  rw [spill_def, spillAloud]
  dsimp only
  repeat' split
  all_goals rfl

theorem spillMany_succ (mainCapacity n : Nat) (c : TinyLfu κ ν) :
    spillMany mainCapacity (n + 1) c =
      let (dropped, c) := c.spill mainCapacity
      let (later, c) := spillMany mainCapacity n c
      (dropped.toList ++ later, c) := by
  rw [spillMany, spillEach, spillAloud_eq]
  exact Prod.ext ((Aloud.evicted_bind ..).trans (by rw [Aloud.evicted_announce]; rfl)) rfl

/-- The entries of the window that are dropped are announced. -/
theorem spillEach_eq (mainCapacity n : Nat) (c : TinyLfu κ ν) :
    spillEach mainCapacity n c = announceAll (spillMany mainCapacity n c) := by
  induction n generalizing c with
  | zero => rfl
  | succ n ih =>
    rw [spillMany_succ, spillEach, spillAloud_eq]
    let prepend (w : Aloud κ ν (TinyLfu κ ν)) : Aloud κ ν (TinyLfu κ ν) :=
      { w with signals := (c.spill mainCapacity).1.toList.map .evicted ++ w.signals }
    exact (congrArg prepend (ih _)).trans (congrArg (Aloud.mk _) List.map_append.symm)

theorem evictEach_eq (n : Nat) (c : TinyLfu κ ν) :
    evictEach evictAloud n c = announceAll (evictMany evict n c) :=
  evictEach_announce evict n c

theorem shedEach_eq (n : Nat) (main : Segmented κ ν) :
    shedEach n main = announceAll (evictMany Segmented.evict n main) :=
  evictEach_announce Segmented.evict n main

theorem resize_def (c : TinyLfu κ ν) (capacity : Nat) :
    c.resize capacity = do
      let parts ← layout capacity
      let popularity ← Popularity.create capacity c.seed
      let (dropped, c) := evictMany evict (c.size - capacity) c
      let (droppedMain, main) := evictMany Segmented.evict (c.main.size - parts.main) c.main
      let (_, main) ← main.resize parts.main
      let (spilled, c) := spillMany parts.main (c.window.size - parts.window) { c with main }
      let (_, window) ← c.window.resize parts.window
      return (dropped ++ droppedMain ++ spilled, { c with capacity, window, popularity }) := by
  rw [resize, resizeAloud]
  simp only [evictEach_eq, shedEach_eq, spillEach_eq]
  refine map_bind_eq fun parts => map_bind_eq fun popularity => map_bind_eq fun main =>
    map_bind_eq fun window => ?_
  refine congrArg Except.ok (Prod.ext ?_ rfl)
  show List.filterMap Signal.entry? (List.map _ _ ++ List.map _ _ ++ List.map _ _) = _
  rw [← List.map_append, ← List.map_append]
  exact Signal.filterMap_entry? _

/-- The entries dropped by a resize are announced. -/
theorem resizeAloud_eq (c : TinyLfu κ ν) (capacity : Nat) :
    c.resizeAloud capacity = (c.resize capacity).map announceAll := by
  rw [resize_def, resizeAloud]
  simp only [evictEach_eq, shedEach_eq, spillEach_eq]
  refine .symm (map_bind_eq fun parts => map_bind_eq fun popularity => map_bind_eq fun main =>
    map_bind_eq fun window => ?_)
  refine congrArg (fun signals => Except.ok (Aloud.mk _ signals)) ?_
  exact List.map_append.trans (congrArg (· ++ _) List.map_append)

instance : Store (TinyLfu κ ν) κ ν where
  size := size
  capacity := capacity
  entries := entries
  contains := contains
  peek := peek
  getAloud := getAloud
  putAloud := putAloud
  remove := remove
  evictAloud := evictAloud
  clear := clear
  resizeAloud := resizeAloud
  put_announced := putAloud_eq
  evict_announced _ := rfl
  resize_announced c capacity _ h := Aloud.eq_announceAll (c.resizeAloud_eq capacity ▸ h)

end TinyLfu

end BoundedCache
