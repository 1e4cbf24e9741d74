/-!
# Counts and doubles

Segment sizes are computed as a share of a capacity, in double precision, and brought back to a
count. This module holds the two directions of that conversion, each decided on the exact value of
the double.

## Main definitions

- `Binary64.ofCount` — the double nearest to a count
- `Binary64.roundCount` — the count nearest to a double
- `Binary64.ceilCount` — the least count not below a double

## Design notes

A finite double is `± m · 2 ^ e` with natural `m`, so rounding it to a count is a shift of natural
numbers. A count is a 64-bit word: what lies above the largest word becomes that word, and
what is negative or not a number becomes zero.
-/

namespace BoundedCache.Binary64

/-- The largest count that a 64-bit word holds. -/
def maxCount : Nat := UInt64.size - 1

/-- The double nearest to a count; of two equally near ones, the one with the even mantissa. -/
def ofCount (n : Nat) : Float :=
  .ofModel (.ofNat n)

/-- The natural number nearest to `m · 2 ^ e`, a half going up. -/
def roundScaled (m : Nat) (e : Int) : Nat :=
  if 0 ≤ e then m <<< e.toNat else (2 * m + 1 <<< (-e).toNat) >>> ((-e).toNat + 1)

/-- The least natural number that is not below `m · 2 ^ e`. -/
def ceilScaled (m : Nat) (e : Int) : Nat :=
  if 0 ≤ e then m <<< e.toNat else (m + (1 <<< (-e).toNat - 1)) >>> (-e).toNat

/-- The count that a double stands for, once a rule has brought its exact value to a natural
number. -/
def toCount (rule : Nat → Int → Nat) (x : Float) : Nat :=
  match x.toModel.unpack with
  | .finite .positive m e _ => min (rule m e) maxCount
  | .infinity .positive => maxCount
  | _ => 0

/-- The count nearest to a double, a half going up. -/
def roundCount (x : Float) : Nat :=
  toCount roundScaled x

/-- The least count that is not below a double. -/
def ceilCount (x : Float) : Nat :=
  toCount ceilScaled x

theorem toCount_le_maxCount (rule : Nat → Int → Nat) (x : Float) : toCount rule x ≤ maxCount := by
  unfold toCount
  split
  · exact Nat.min_le_right _ _
  · exact Nat.le_refl _
  · exact Nat.zero_le _

end BoundedCache.Binary64
