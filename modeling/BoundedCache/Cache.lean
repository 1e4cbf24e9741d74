import BoundedCache.Store.Adaptive
import BoundedCache.Store.Sampled
import BoundedCache.Store.TinyLfu

/-!
# Caches

A store whose policy is chosen when the program runs. A recipe says which policy to use and gives
its parameters; a policy alone, or its name, stands for the recipe with the default ones.

## Main definitions

- `Cache` — a store of one of the six policies
- `Recipe` — a policy with its parameters
- `Cache.create` — the empty cache of a recipe
- `Policy.build`, `Cache.ofConfig` — the empty cache of a policy, and of the policy with a name
-/

namespace BoundedCache

/-- A store of one of the six policies. -/
inductive Cache (κ ν : Type) [DecidableEq κ] [Hashable κ] where
  | lru (store : Lru κ ν)
  | lfu (store : Lfu κ ν)
  | segmented (store : Segmented κ ν)
  | adaptive (store : Adaptive κ ν)
  | tinyLfu (store : TinyLfu κ ν)
  | sampled (store : Sampled κ ν)

/-- A policy with its parameters. -/
inductive Recipe (κ : Type) where
  | lru
  | lfu
  | segmented (ratio : Float)
  | adaptive
  | tinyLfu (hash : KeyHash κ) (seed : UInt64)
  | sampled (seed : UInt64)

/-- The recipe of a policy with default parameters. The seed serves the policies that need one. -/
def Policy.recipe {κ : Type} [KeyEncoding κ] (seed : UInt64) : Policy → Recipe κ
  | .lru => .lru
  | .lfu => .lfu
  | .segmented => .segmented Segmented.defaultRatio
  | .adaptive => .adaptive
  | .tinyLfu => .tinyLfu .standard seed
  | .sampled => .sampled seed

namespace Cache

variable {κ ν : Type} [DecidableEq κ] [Hashable κ]

def create (capacity : Nat) : Recipe κ → Except SetupError (Cache κ ν)
  | .lru => (Lru.create capacity).map .lru
  | .lfu => (Lfu.create capacity).map .lfu
  | .segmented ratio => (Segmented.create capacity ratio).map .segmented
  | .adaptive => (Adaptive.create capacity).map .adaptive
  | .tinyLfu hash seed => (TinyLfu.create capacity hash seed).map .tinyLfu
  | .sampled seed => (Sampled.create capacity seed).map .sampled

def policy : Cache κ ν → Policy
  | .lru _ => .lru
  | .lfu _ => .lfu
  | .segmented _ => .segmented
  | .adaptive _ => .adaptive
  | .tinyLfu _ => .tinyLfu
  | .sampled _ => .sampled

/-- Reads the store of a cache, whatever its policy. -/
def read {β : Type} (c : Cache κ ν) (f : ∀ (σ : Type) [Store σ κ ν], σ → β) : β :=
  match c with
  | .lru s => f _ s
  | .lfu s => f _ s
  | .segmented s => f _ s
  | .adaptive s => f _ s
  | .tinyLfu s => f _ s
  | .sampled s => f _ s

/-- Changes the store of a cache, whatever its policy, and hands on what the change tells. -/
def change {β : Type} (c : Cache κ ν) (f : ∀ (σ : Type) [Store σ κ ν], σ → β × σ) :
    β × Cache κ ν :=
  match c with
  | .lru s => (f _ s).map id .lru
  | .lfu s => (f _ s).map id .lfu
  | .segmented s => (f _ s).map id .segmented
  | .adaptive s => (f _ s).map id .adaptive
  | .tinyLfu s => (f _ s).map id .tinyLfu
  | .sampled s => (f _ s).map id .sampled

/-- Changes the store of a cache, whatever its policy, and passes its signals on. -/
def changeAloud {β : Type} (c : Cache κ ν)
    (f : ∀ (σ : Type) [Store σ κ ν], σ → Aloud κ ν (β × σ)) : Aloud κ ν (β × Cache κ ν) :=
  match c with
  | .lru s => Prod.map id .lru <$> f _ s
  | .lfu s => Prod.map id .lfu <$> f _ s
  | .segmented s => Prod.map id .segmented <$> f _ s
  | .adaptive s => Prod.map id .adaptive <$> f _ s
  | .tinyLfu s => Prod.map id .tinyLfu <$> f _ s
  | .sampled s => Prod.map id .sampled <$> f _ s

/-- Changes the store of a cache, whatever its policy, if the change is not refused, and passes its
signals on. -/
def changeAloud? (c : Cache κ ν)
    (f : ∀ (σ : Type) [Store σ κ ν], σ → Except SetupError (Aloud κ ν σ)) :
    Except SetupError (Aloud κ ν (Cache κ ν)) :=
  match c with
  | .lru s => (f _ s).map (.lru <$> ·)
  | .lfu s => (f _ s).map (.lfu <$> ·)
  | .segmented s => (f _ s).map (.segmented <$> ·)
  | .adaptive s => (f _ s).map (.adaptive <$> ·)
  | .tinyLfu s => (f _ s).map (.tinyLfu <$> ·)
  | .sampled s => (f _ s).map (.sampled <$> ·)

/-- An entry announced by the store is announced by the cache. -/
theorem changeAloud_announced (c : Cache κ ν)
    (f : ∀ (σ : Type) [Store σ κ ν], σ → Aloud κ ν (Option (Entry κ ν) × σ))
    (h : ∀ (σ : Type) [Store σ κ ν] (s : σ), f σ s = announce (f σ s).value) :
    c.changeAloud f = announce (c.changeAloud f).value := by
  cases c with
  | lru s => exact congrArg (Prod.map id lru <$> ·) (h _ s)
  | lfu s => exact congrArg (Prod.map id lfu <$> ·) (h _ s)
  | segmented s => exact congrArg (Prod.map id segmented <$> ·) (h _ s)
  | adaptive s => exact congrArg (Prod.map id adaptive <$> ·) (h _ s)
  | tinyLfu s => exact congrArg (Prod.map id tinyLfu <$> ·) (h _ s)
  | sampled s => exact congrArg (Prod.map id sampled <$> ·) (h _ s)

theorem changeAloud?_announced {c : Cache κ ν} {w : Aloud κ ν (Cache κ ν)}
    (f : ∀ (σ : Type) [Store σ κ ν], σ → Except SetupError (Aloud κ ν σ))
    (h : ∀ (σ : Type) [Store σ κ ν] (s : σ) (w : Aloud κ ν σ), f σ s = .ok w →
      w = announceAll w.reported)
    (hw : c.changeAloud? f = .ok w) : w = announceAll w.reported := by
  cases c with
  | lru s => exact Aloud.eq_announceAll_of_map (h _ s) hw
  | lfu s => exact Aloud.eq_announceAll_of_map (h _ s) hw
  | segmented s => exact Aloud.eq_announceAll_of_map (h _ s) hw
  | adaptive s => exact Aloud.eq_announceAll_of_map (h _ s) hw
  | tinyLfu s => exact Aloud.eq_announceAll_of_map (h _ s) hw
  | sampled s => exact Aloud.eq_announceAll_of_map (h _ s) hw

instance : Store (Cache κ ν) κ ν where
  size c := c.read fun _ _ s => Store.size s
  capacity c := c.read fun _ _ s => Store.capacity s
  entries c := c.read fun _ _ s => Store.entries s
  contains c key := c.read fun _ _ s => Store.contains s key
  peek c key := c.read fun _ _ s => Store.peek s key
  getAloud c key := c.changeAloud fun _ _ s => Store.getAloud s key
  putAloud c key value := c.changeAloud fun _ _ s => Store.putAloud s key value
  remove c key := c.change fun _ _ s => Store.remove s key
  evictAloud c := c.changeAloud fun _ _ s => Store.evictAloud s
  clear c := (c.change fun _ _ s => ((), Store.clear s)).2
  resizeAloud c capacity := c.changeAloud? fun _ _ s => Store.resizeAloud s capacity
  setSamples c samples := (c.change fun _ _ s => ((), Store.setSamples s samples)).2
  put_announced c key value :=
    c.changeAloud_announced _ fun _ _ s => Store.put_announced s key value
  evict_announced c := c.changeAloud_announced _ fun _ _ s => Store.evict_announced s
  resize_announced _ capacity _ h :=
    changeAloud?_announced _ (fun _ _ s => Store.resize_announced s capacity) h

end Cache

/-- The cache without entries of a policy with default parameters. -/
def Policy.build {κ ν : Type} [DecidableEq κ] [Hashable κ] [KeyEncoding κ] (policy : Policy)
    (capacity : Nat) (seed : UInt64) : Except SetupError (Cache κ ν) :=
  Cache.create capacity (policy.recipe seed)

/-- The cache without entries of the policy that a name selects. -/
def Cache.ofConfig {κ ν : Type} [DecidableEq κ] [Hashable κ] [KeyEncoding κ] (name : String)
    (capacity : Nat) (seed : UInt64) : Except SetupError (Cache κ ν) :=
  (Policy.ofName name).build capacity seed

end BoundedCache
