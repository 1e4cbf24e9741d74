import BoundedCache.Binary64

/-!
# Usage tallies

A tally counts what happened to a cache: lookups that found their key, lookups that did not, and
entries dropped to make room.

## Main definitions

- `Event` — what a tally counts
- `Tally` — the three counts
- `Tally.record`, `Tally.recordAll` — count an event, or some
- `Tally.hitRate`, `Tally.missRate` — shares of all lookups
-/

namespace BoundedCache

/-- What a tally counts. -/
inductive Event where
  /-- A lookup found its key. -/
  | hit
  /-- A lookup did not find its key. -/
  | miss
  /-- An entry was dropped to make room. -/
  | eviction
  deriving DecidableEq

/-- How often each event happened. -/
structure Tally where
  hits : Nat := 0
  misses : Nat := 0
  evictions : Nat := 0
  deriving DecidableEq, Inhabited

namespace Tally

/-- Counts an event once more. -/
def record (t : Tally) : Event → Tally
  | .hit => { t with hits := t.hits + 1 }
  | .miss => { t with misses := t.misses + 1 }
  | .eviction => { t with evictions := t.evictions + 1 }

/-- Counts every event of a list. -/
def recordAll (t : Tally) (events : List Event) : Tally :=
  events.foldl record t

/-- The number of lookups. -/
def total (t : Tally) : Nat := t.hits + t.misses

/-- The share of lookups that found their key, zero when there were none. -/
def hitRate (t : Tally) : Float :=
  if t.total = 0 then 0 else Binary64.ofCount t.hits / Binary64.ofCount t.total

/-- What the share of successful lookups leaves to one. -/
def missRate (t : Tally) : Float := 1 - t.hitRate

/-- How often an event was counted. -/
def count (t : Tally) : Event → Nat
  | .hit => t.hits
  | .miss => t.misses
  | .eviction => t.evictions

@[simp]
theorem recordAll_nil (t : Tally) : t.recordAll [] = t := rfl

@[simp]
theorem recordAll_cons (t : Tally) (e : Event) (es : List Event) :
    t.recordAll (e :: es) = (t.record e).recordAll es := rfl

theorem recordAll_append (t : Tally) (es fs : List Event) :
    t.recordAll (es ++ fs) = (t.recordAll es).recordAll fs := by
  simp [recordAll]

/-- Recording an event raises its own count by one and no other. -/
theorem count_record (t : Tally) (e f : Event) :
    (t.record e).count f = t.count f + if e = f then 1 else 0 := by
  cases e <;> cases f <;> rfl

/-- A tally holds how often each event was recorded. -/
theorem count_recordAll (t : Tally) (es : List Event) (f : Event) :
    (t.recordAll es).count f = t.count f + es.count f := by
  induction es generalizing t with
  | nil => simp
  | cons e es ih =>
    rw [recordAll_cons, ih, count_record, List.count_cons]
    simp [Nat.add_assoc, Nat.add_comm]

end Tally

end BoundedCache
