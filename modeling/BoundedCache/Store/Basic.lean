import BoundedCache.Error
import BoundedCache.Store.Signal

/-!
# Stores

A store is a bounded map from keys to values, with a rule that says which entry gives way when room
is needed. It does not count and does not know who listens: its operations signal what happens in
them, and leave the rest to whoever watches the store.

## Main definitions

- `Store` — the operations that every rule offers, with their signals
- `Store.isFull`, `Store.isEmpty` — the fill of a store
- `Store.drainAloud` — evict everything, and forget all history
- `Store.get`, `Store.put`, `Store.evict`, `Store.resize`, `Store.drain` — the same operations
  without their signals; the last two list what they drop

## Design notes

An operation announces an entry that gives way in it where it drops it, and hands it back besides.
That the two never differ is a law of stores, since whoever watches a store has to rely on it. What
a lookup signals agrees with its value only in a store that is in order, so that is left to the
proofs.

An eviction lowers the size by one, so the number of evictions that a smaller capacity calls for is
known before the first of them.
-/

namespace BoundedCache

/-- The operations of a cache with some rule of eviction. -/
class Store (σ : Type) (κ : outParam Type) (ν : outParam Type) where
  /-- The number of entries. -/
  size : σ → Nat
  /-- The largest number of entries. -/
  capacity : σ → Nat
  /-- All entries, in the order in which the rule lists them. -/
  entries : σ → List (Entry κ ν)
  /-- The key is bound. -/
  contains : σ → κ → Bool
  /-- The value of a key, read without the rule taking notice. -/
  peek : σ → κ → Option ν
  /-- The value of a key, read as a use of it. -/
  getAloud : σ → κ → Aloud κ ν (Option ν × σ)
  /-- Binds a key to a value, and tells the entry that gave way, if any. -/
  putAloud : σ → κ → ν → Aloud κ ν (Option (Entry κ ν) × σ)
  /-- Unbinds a key, and tells its value. -/
  remove : σ → κ → Option ν × σ
  /-- Drops the entry that the rule values least, and tells it. -/
  evictAloud : σ → Aloud κ ν (Option (Entry κ ν) × σ)
  /-- Drops all entries and all history. -/
  clear : σ → σ
  /-- Changes the capacity, dropping the entries that have to go. -/
  resizeAloud : σ → Nat → Except SetupError (Aloud κ ν σ)
  /-- Changes how many entries an eviction inspects, if the rule inspects only some of them, and
  accepts that number. -/
  setSamples : σ → Nat → σ := fun s _ => s
  /-- The entry that gives way to a new key is announced. -/
  put_announced : ∀ s key value, putAloud s key value = announce (putAloud s key value).value
  /-- The entry that is evicted is announced. -/
  evict_announced : ∀ s, evictAloud s = announce (evictAloud s).value
  /-- The entries that a smaller capacity has no room for are announced, and nothing else. -/
  resize_announced : ∀ s capacity w, resizeAloud s capacity = .ok w → w = announceAll w.reported

namespace Store

variable {σ κ ν : Type} [Store σ κ ν]

def isFull (s : σ) : Bool := capacity s ≤ size s

def isEmpty (s : σ) : Bool := size s == 0

/-- Evicts every entry, in the order in which the rule drops them, then forgets all history. -/
def drainAloud (s : σ) : Aloud κ ν σ := do
  let s ← evictEach evictAloud (size s) s
  return clear s

/-! ## Without the signals -/

def get (s : σ) (key : κ) : Option ν × σ := (getAloud s key).value

def put (s : σ) (key : κ) (value : ν) : Option (Entry κ ν) × σ := (putAloud s key value).value

def evict (s : σ) : Option (Entry κ ν) × σ := (evictAloud s).value

def resize (s : σ) (capacity : Nat) : Except SetupError (List (Entry κ ν) × σ) :=
  (resizeAloud s capacity).map Aloud.reported

def drain (s : σ) : List (Entry κ ν) × σ := (drainAloud s).reported

variable (s : σ)

theorem putAloud_eq (key : κ) (value : ν) : putAloud s key value = announce (put s key value) :=
  put_announced s key value

theorem evictAloud_eq : evictAloud s = announce (evict s) := evict_announced s

theorem resizeAloud_eq (capacity : Nat) :
    resizeAloud s capacity = (resize s capacity).map announceAll := by
  rw [resize]
  rcases h : resizeAloud s capacity with cause | w
  · rfl
  · exact congrArg Except.ok (resize_announced s capacity w h)

theorem drainAloud_eq :
    drainAloud s =
      announceAll ((evictMany evict (size s) s).1, clear (evictMany evict (size s) s).2) := by
  have hannounce : (evictAloud : σ → _) = fun s => announce (evict s) := funext evictAloud_eq
  rw [drainAloud, hannounce, evictEach_announce]
  exact congrArg (Aloud.mk _) (List.append_nil _)

theorem drain_eq :
    drain s = ((evictMany evict (size s) s).1, clear (evictMany evict (size s) s).2) := by
  rw [drain, drainAloud_eq, Aloud.reported_announceAll]

end Store

end BoundedCache
