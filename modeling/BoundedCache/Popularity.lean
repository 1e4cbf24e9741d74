import BoundedCache.Membership
import BoundedCache.Sketch.Basic

/-!
# Popularity of keys

How often a hash was seen lately. A membership filter stands ahead of a frequency sketch and takes
note of the first sight of a hash, so that the sketch counts from the second one on. After a fixed
number of records the filter is emptied and the counts are halved, so old popularity fades.

## Main definitions

- `Popularity` — the sketch, the filter, and the number of records since they were aged
- `Popularity.create` — an estimator for a number of distinct hashes
- `Popularity.record` — sees a hash once more
- `Popularity.frequency` — how often a hash was seen
-/

namespace BoundedCache

/-- An estimator of how often hashes were seen lately. -/
structure Popularity where
  sketch : Sketch
  doorkeeper : Membership
  /-- The number of records since the counts were halved. -/
  samples : Nat := 0
  /-- The number of records after which the counts are halved. -/
  period : Nat
  deriving DecidableEq

namespace Popularity

/-- By how much the sketch may overcount. -/
def errorRange : Nat := 1

/-- How likely the sketch may overcount by more than that. -/
def errorRate : Float := 0.01

/-- How likely the filter may take a new hash for one seen before. -/
def falsePositiveRate : Float := 0.01

/-- The number of records between two agings, for each entry of the capacity. -/
def samplesPerEntry : Nat := 8

/-- An estimator that has seen nothing yet. -/
def create (capacity : Nat) (seed : UInt64) : Except SetupError Popularity := do
  let sketch ← Sketch.create capacity errorRange errorRate seed
  let doorkeeper ← Membership.create capacity falsePositiveRate seed
  return { sketch, doorkeeper, period := samplesPerEntry * capacity }

/-- Halves the counts, and forgets which hashes were seen once. -/
def age (p : Popularity) : Popularity :=
  { p with doorkeeper := p.doorkeeper.clear, sketch := p.sketch.attenuate 2, samples := 0 }

/-- Sees a hash once more. -/
def record (p : Popularity) (hash : UInt64) : Popularity :=
  let p := { p with samples := p.samples + 1 }
  let p := if p.period ≤ p.samples then p.age else p
  if p.doorkeeper.contains hash then { p with sketch := p.sketch.add hash 1 }
  else { p with doorkeeper := p.doorkeeper.add hash }

/-- How often a hash was seen, as far as the estimator can tell. -/
def frequency (p : Popularity) (hash : UInt64) : Nat :=
  p.sketch.estimate hash + (p.doorkeeper.contains hash).toNat

/-- Forgets everything that was seen. -/
def clear (p : Popularity) : Popularity :=
  { p with sketch := p.sketch.clear, doorkeeper := p.doorkeeper.clear, samples := 0 }

end Popularity

end BoundedCache
