import BoundedCache.Entry
import BoundedCache.Stats.Tally

/-!
# Signals

While it works, a store signals what those who watch it are to know: whether a lookup found its key,
and each entry that gives way. A signal is given at the very step that it is about, so a store that
is part of another one may evict without a signal, and what it signals itself may go unheard.

## Main definitions

- `Signal` — a lookup, or an entry that gives way
- `Aloud` — a result, with the signals given on the way to it
- `Aloud.access`, `announce`, `announceLookup`, `announceAll` — give signals
- `evictEach` — an eviction repeated a number of times, with its signals
- `Aloud.reported` — the entries that gave way, and the result

## Main results

- `evictEach_announce` — repeated eviction announces all that it drops
-/

namespace BoundedCache

variable {κ ν α β σ : Type}

/-- What a store lets those who watch it know. -/
inductive Signal (κ ν : Type) where
  /-- A key was looked up, and found or not. -/
  | access (hit : Bool)
  /-- An entry gave way. -/
  | evicted (entry : Entry κ ν)
  deriving DecidableEq

namespace Signal

/-- What is counted at a signal. -/
def event : Signal κ ν → Event
  | .access true => .hit
  | .access false => .miss
  | .evicted _ => .eviction

/-- The entry that gave way, if the signal is of one. -/
def entry? : Signal κ ν → Option (Entry κ ν)
  | .access _ => none
  | .evicted entry => some entry

end Signal

/-- A result, with the signals given on the way to it. -/
structure Aloud (κ ν α : Type) where
  value : α
  signals : List (Signal κ ν) := []

namespace Aloud

instance : Monad (Aloud κ ν) where
  pure value := { value }
  map f w := { w with value := f w.value }
  bind w f := { f w.value with signals := w.signals ++ (f w.value).signals }

/-- Signals whether a lookup found its key. -/
def access (hit : Bool) : Aloud κ ν Unit where
  value := ()
  signals := [.access hit]

/-- The entries that gave way, in the order in which they went. -/
def evicted (w : Aloud κ ν α) : List (Entry κ ν) := w.signals.filterMap Signal.entry?

/-- The entries that gave way, and the result. -/
def reported (w : Aloud κ ν α) : List (Entry κ ν) × α := (w.evicted, w.value)

end Aloud

/-- Signals that an entry has given way, if one has, and hands it on. -/
def announce (dropped : Option (Entry κ ν) × σ) : Aloud κ ν (Option (Entry κ ν) × σ) where
  value := dropped
  signals := dropped.1.toList.map .evicted

/-- Signals whether a lookup found a value, and hands it on. -/
def announceLookup (found : Option ν × σ) : Aloud κ ν (Option ν × σ) where
  value := found
  signals := [.access found.1.isSome]

/-- Signals of some entries that they have given way, one after the other. -/
def announceAll (dropped : List (Entry κ ν) × σ) : Aloud κ ν σ where
  value := dropped.2
  signals := dropped.1.map .evicted

/-- Evicts a number of times, or until nothing is left to evict. -/
def evictEach (evict : σ → Aloud κ ν (Option (Entry κ ν) × σ)) : Nat → σ → Aloud κ ν σ
  | 0, s => return s
  | n + 1, s => do
    match ← evict s with
    | (none, s) => return s
    | (some _, s) => evictEach evict n s

/-- Evicts a number of times, or until nothing is left to evict, and lists what was dropped. -/
def evictMany {ε : Type} (evict : σ → Option ε × σ) : Nat → σ → List ε × σ
  | 0, s => ([], s)
  | n + 1, s =>
    match evict s with
    | (none, s) => ([], s)
    | (some dropped, s) =>
      let (later, s) := evictMany evict n s
      (dropped :: later, s)

/-! ## What is signalled -/

theorem Signal.filterMap_entry? (l : List (Entry κ ν)) :
    (l.map Signal.evicted).filterMap Signal.entry? = l := by
  rw [List.filterMap_map]
  exact List.filterMap_some

theorem Signal.map_event (l : List (Entry κ ν)) :
    (l.map Signal.evicted).map Signal.event = l.map fun _ => .eviction := List.map_map

namespace Aloud

@[simp]
theorem evicted_announce (dropped : Option (Entry κ ν) × σ) :
    (announce dropped).evicted = dropped.1.toList :=
  Signal.filterMap_entry? _

@[simp]
theorem reported_announceAll (dropped : List (Entry κ ν) × σ) :
    (announceAll dropped).reported = dropped :=
  Prod.ext (Signal.filterMap_entry? _) rfl

/-- A lookup that signals whether it finds a value announces what it finds. -/
theorem announceLookup_of_isSome {found : Option ν × σ} {hit : Bool} (h : found.1.isSome = hit) :
    (do access hit; return found) = (announceLookup found : Aloud κ ν (Option ν × σ)) := by
  subst h
  rfl

theorem map_reported_announceAll {ε : Type} (x : Except ε (List (Entry κ ν) × σ)) :
    (x.map announceAll).map reported = x := by
  rcases x with cause | dropped
  · rfl
  · exact congrArg Except.ok (reported_announceAll dropped)

/-- A result whose signals announce entries announces those that it reports. -/
theorem eq_announceAll {ε : Type} {x : Except ε (List (Entry κ ν) × σ)} {w : Aloud κ ν σ}
    (h : x.map announceAll = .ok w) : w = announceAll w.reported := by
  rcases x with cause | dropped
  · cases h
  · cases h
    rw [reported_announceAll]

theorem eq_announceAll_of_map {ε τ : Type} {x : Except ε (Aloud κ ν σ)} {f : σ → τ}
    (hx : ∀ w, x = .ok w → w = announceAll w.reported) {w : Aloud κ ν τ}
    (h : x.map (f <$> ·) = .ok w) : w = announceAll w.reported := by
  rcases x with cause | w'
  · cases h
  · cases h
    exact congrArg (f <$> ·) (hx w' rfl)

theorem evicted_bind (w : Aloud κ ν α) (f : α → Aloud κ ν β) :
    (w >>= f).evicted = w.evicted ++ (f w.value).evicted :=
  List.filterMap_append

end Aloud

/-! ## Repeated eviction -/

section EvictMany

variable {ε : Type} {evict : σ → Option ε × σ} {s t : σ} {dropped : ε}

@[simp]
theorem evictMany_zero (evict : σ → Option ε × σ) (s : σ) : evictMany evict 0 s = ([], s) := rfl

theorem evictMany_succ_of_none (h : evict s = (none, t)) (n : Nat) :
    evictMany evict (n + 1) s = ([], t) := by
  simp [evictMany, h]

theorem evictMany_succ_of_some (h : evict s = (some dropped, t)) (n : Nat) :
    evictMany evict (n + 1) s = (dropped :: (evictMany evict n t).1, (evictMany evict n t).2) := by
  simp [evictMany, h]

end EvictMany

/-- Where each eviction announces what it drops, repeated eviction announces all of it. -/
theorem evictEach_announce (evict : σ → Option (Entry κ ν) × σ) (n : Nat) (s : σ) :
    evictEach (fun s => announce (evict s)) n s = announceAll (evictMany evict n s) := by
  induction n generalizing s with
  | zero => rfl
  | succ n ih =>
    rcases h : evict s with ⟨_ | dropped, t⟩
    · rw [evictMany_succ_of_none h, evictEach, h]
      rfl
    · rw [evictMany_succ_of_some h, evictEach, h]
      let prepend (w : Aloud κ ν σ) : Aloud κ ν σ :=
        { w with signals := .evicted dropped :: w.signals }
      exact congrArg prepend (ih t)

end BoundedCache
