import BoundedCache.Binary64

/-!
# Shares of a capacity

How a capacity is divided between the segments of a cache. The share is computed in double
precision and rounded to a count, a half going up.

## Main definitions

- `Split` — the sizes of the two segments of a segmented cache
- `Split.ofRatio` — the split that gives the protected segment a share of the total
- `windowSize` — the size of the window ahead of a main part
-/

namespace BoundedCache

/-- The sizes of the two segments of a segmented cache: `guarded` is the protected one. -/
structure Split where
  probation : Nat
  guarded : Nat
  deriving DecidableEq

/-- The protected segment gets the given share of the total, but never all of it, so that probation
keeps a place in every nonempty cache. Either side may come out empty. -/
def Split.ofRatio (total : Nat) (ratio : Float) : Split :=
  let guarded := min (Binary64.roundCount (Binary64.ofCount total * ratio)) (total - 1)
  ⟨total - guarded, guarded⟩

/-- The window gets the given share of the total, and at least one place. -/
def windowSize (total : Nat) (ratio : Float) : Nat :=
  max (Binary64.roundCount (Binary64.ofCount total * ratio)) 1

/-- A split divides up the whole. -/
theorem Split.probation_add_guarded (total : Nat) (ratio : Float) :
    (ofRatio total ratio).probation + (ofRatio total ratio).guarded = total := by
  have : min (Binary64.roundCount (Binary64.ofCount total * ratio)) (total - 1) ≤ total - 1 :=
    Nat.min_le_right _ _
  simp only [ofRatio]
  omega

/-- Probation keeps a place in every nonempty cache. -/
theorem Split.probation_pos {total : Nat} (h : 0 < total) (ratio : Float) :
    0 < (ofRatio total ratio).probation := by
  have : min (Binary64.roundCount (Binary64.ofCount total * ratio)) (total - 1) ≤ total - 1 :=
    Nat.min_le_right _ _
  simp only [ofRatio]
  omega

end BoundedCache
