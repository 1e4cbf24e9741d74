import BoundedCache.Stats.Tally
import BoundedCache.Store.Basic

/-!
# Requests

The operations of a store as values, and all that an observer learns from one of them: the reply,
and what the store signals on the way to it.

## Main definitions

- `Request` — an operation with its arguments
- `Reply` — what an operation returns
- `Outcome` — the reply and the signals
- `Outcome.events`, `Outcome.evicted` — what is counted, and the entries that gave way
- `Store.perform` — the effect of one operation

## Main results

- `Store.perform_put`, `Store.perform_evict`, `Store.perform_drain`, `Store.perform_resize` — what
  is signalled is what is handed back
-/

namespace BoundedCache

/-- An operation on a store. -/
inductive Request (κ ν : Type) where
  | put (key : κ) (value : ν)
  | get (key : κ)
  | peek (key : κ)
  | contains (key : κ)
  | remove (key : κ)
  | evict
  | clear
  | drain
  | resize (capacity : Nat)
  deriving DecidableEq

/-- What an operation returns. -/
inductive Reply (κ ν : Type) where
  /-- The entry that was displaced or evicted, if any. -/
  | entry (entry : Option (Entry κ ν))
  /-- The value of the key, if it is bound. -/
  | value (value : Option ν)
  /-- Whether the key is bound. -/
  | found (found : Bool)
  /-- Nothing but that it was done. -/
  | done
  /-- Why it was not done. -/
  | refused (error : SetupError)
  deriving DecidableEq

/-- What an observer learns from an operation. -/
structure Outcome (κ ν : Type) where
  reply : Reply κ ν
  /-- What was signalled while it ran. -/
  signals : List (Signal κ ν) := []
  deriving DecidableEq

namespace Outcome

variable {κ ν : Type}

/-- What is to be counted. -/
def events (o : Outcome κ ν) : List Event := o.signals.map Signal.event

/-- The entries that gave way, in the order in which they went. -/
def evicted (o : Outcome κ ν) : List (Entry κ ν) := o.signals.filterMap Signal.entry?

/-- The outcome of an operation that announces the given entries. -/
def evicting (reply : Reply κ ν) (evicted : List (Entry κ ν)) : Outcome κ ν where
  reply
  signals := evicted.map .evicted

/-- The outcome of a lookup: a hit if there is a value, a miss otherwise. -/
def lookup (value : Option ν) : Outcome κ ν where
  reply := .value value
  signals := [.access value.isSome]

@[simp]
theorem evicted_evicting (reply : Reply κ ν) (evicted : List (Entry κ ν)) :
    (evicting reply evicted).evicted = evicted :=
  Signal.filterMap_entry? evicted

@[simp]
theorem events_evicting (reply : Reply κ ν) (evicted : List (Entry κ ν)) :
    (evicting reply evicted).events = evicted.map fun _ => .eviction :=
  Signal.map_event evicted

end Outcome

namespace Store

variable {σ κ ν α : Type} [Store σ κ ν]

/-- The outcome of an operation with its signals, and the state that it leaves. -/
def outcome (reply : α → Reply κ ν) (w : Aloud κ ν (α × σ)) : Outcome κ ν × σ :=
  ({ reply := reply w.value.1, signals := w.signals }, w.value.2)

/-- The effect of one operation. One that is refused changes nothing. -/
def perform (s : σ) : Request κ ν → Outcome κ ν × σ
  | .put key value => outcome .entry (putAloud s key value)
  | .get key => outcome .value (getAloud s key)
  | .peek key => ({ reply := .value (peek s key) }, s)
  | .contains key => ({ reply := .found (contains s key) }, s)
  | .remove key => outcome .value (pure (remove s key))
  | .evict => outcome .entry (evictAloud s)
  | .clear => ({ reply := .done }, clear s)
  | .drain => outcome (fun _ => .done) (((), ·) <$> drainAloud s)
  | .resize capacity =>
    match resizeAloud s capacity with
    | .ok w => outcome (fun _ => .done) (((), ·) <$> w)
    | .error cause => ({ reply := .refused cause }, s)

/-! ## What is signalled -/

variable (s : σ)

theorem perform_put (key : κ) (value : ν) :
    perform s (.put key value) =
      (.evicting (.entry (put s key value).1) (put s key value).1.toList, (put s key value).2) := by
  rw [perform, putAloud_eq]
  rfl

theorem perform_get {key : κ} (h : getAloud s key = announceLookup (get s key)) :
    perform s (.get key) = (.lookup (get s key).1, (get s key).2) := by
  rw [perform, h]
  rfl

theorem perform_evict :
    perform s .evict = (.evicting (.entry (evict s).1) (evict s).1.toList, (evict s).2) := by
  rw [perform, evictAloud_eq]
  rfl

theorem perform_drain : perform s .drain = (.evicting .done (drain s).1, (drain s).2) := by
  rw [perform, drainAloud_eq, drain_eq]
  rfl

theorem perform_resize (capacity : Nat) :
    perform s (.resize capacity) =
      match resize s capacity with
      | .ok (dropped, t) => (.evicting .done dropped, t)
      | .error cause => ({ reply := .refused cause }, s) := by
  rw [perform, resizeAloud_eq]
  rcases resize s capacity with cause | ⟨dropped, t⟩
  · rfl
  · rfl

theorem evicted_put (key : κ) (value : ν) :
    (perform s (.put key value)).1.evicted = (put s key value).1.toList := by
  rw [perform_put, Outcome.evicted_evicting]

theorem evicted_evict : (perform s .evict).1.evicted = (evict s).1.toList := by
  rw [perform_evict, Outcome.evicted_evicting]

theorem evicted_drain : (perform s .drain).1.evicted = (drain s).1 := by
  rw [perform_drain, Outcome.evicted_evicting]

end Store

end BoundedCache
