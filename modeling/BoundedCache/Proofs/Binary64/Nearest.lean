import Mathlib.Algebra.Order.Field.Power
import Mathlib.Algebra.Order.Floor.Semifield
import Mathlib.Data.Int.Log
import Mathlib.Data.Rat.Floor
import Mathlib.Tactic.FieldSimp
import Mathlib.Tactic.Linarith
import Mathlib.Tactic.NormNum
import Mathlib.Tactic.Positivity
import Mathlib.Tactic.Ring

/-!
# The double nearest to a rational number

The nonnegative doubles are the numbers `k · 2 ^ j` with a mantissa `k` of at most 53 bits and an
exponent `j` of at least -1074. Rounding to the nearest one keeps the order of numbers and leaves
the doubles themselves where they are; most bounds on rounded results follow from these two facts.
There is no largest double here: overflow is a matter of the encoding.

## Main definitions

- `Binary64.roundEven` — the nearest natural number, of two equally near ones the even one
- `Binary64.nearest` — the nearest double, of two equally near ones the one with the even mantissa
- `Binary64.Representable` — the rational numbers that are doubles

## Main results

- `nearest_mono` — rounding keeps the order
- `nearest_of_representable`, `representable_nearest` — the doubles are the fixed points
- `nearest_le_of_lt_midpoint` — below the midpoint of two doubles, the upper one is not reached
- `exists_natCast_eq_nearest` — a count rounds to a count
-/

namespace BoundedCache.Binary64

/-! ## Natural numbers -/

/-- The natural number nearest to a nonnegative rational; of two equally near ones, the even
one. -/
def roundEven (y : ℚ) : ℕ :=
  if y < ⌊y⌋₊ + 1 / 2 then ⌊y⌋₊
  else if ⌊y⌋₊ + 1 / 2 < y then ⌊y⌋₊ + 1
  else ⌊y⌋₊ + ⌊y⌋₊ % 2

section RoundEven

variable {y z : ℚ} {n : ℕ}

theorem floor_le_roundEven (y : ℚ) : ⌊y⌋₊ ≤ roundEven y := by
  unfold roundEven
  split_ifs <;> omega

theorem roundEven_le_floor_add_one (y : ℚ) : roundEven y ≤ ⌊y⌋₊ + 1 := by
  unfold roundEven
  split_ifs <;> omega

@[simp]
theorem roundEven_natCast (n : ℕ) : roundEven n = n := by
  rw [roundEven, Nat.floor_natCast, if_pos (by linarith)]

/-- Less than half a unit is dropped. -/
theorem roundEven_le_of_lt_half (h : y < n + 1 / 2) : roundEven y ≤ n := by
  have hfloor : ⌊y⌋₊ < n + 1 := by
    refine (Nat.floor_lt' n.succ_ne_zero).2 ?_
    push_cast
    linarith
  obtain hlt | rfl : ⌊y⌋₊ < n ∨ ⌊y⌋₊ = n := by omega
  · exact (roundEven_le_floor_add_one y).trans hlt
  · rw [roundEven, if_pos h]

theorem roundEven_mono (h : y ≤ z) : roundEven y ≤ roundEven z := by
  obtain hlt | heq := (Nat.floor_mono h).lt_or_eq
  · exact (roundEven_le_floor_add_one y).trans (hlt.trans_le (floor_le_roundEven z))
  · -- Both lie between the same two naturals, and the larger one is no nearer to the lower.
    unfold roundEven
    rw [heq]
    split_ifs <;> first | omega | linarith

theorem roundEven_le (h : y ≤ n) : roundEven y ≤ n :=
  (roundEven_mono h).trans_eq (roundEven_natCast n)

theorem le_roundEven (h : n ≤ y) : n ≤ roundEven y :=
  (roundEven_natCast n).symm.trans_le (roundEven_mono h)

end RoundEven

/-! ## Doubles -/

/-- The exponent of the grid that the doubles around a positive number form: 53 bits are kept, but
none below `2 ^ -1074`. -/
def gridExponent (x : ℚ) : ℤ := max (Int.log 2 x - 52) (-1074)

/-- The double nearest to a nonnegative rational; of two equally near ones, the one with the even
mantissa. -/
def nearest (x : ℚ) : ℚ := roundEven (x / 2 ^ gridExponent x) * 2 ^ gridExponent x

/-- The number is a nonnegative double, disregarding that doubles end somewhere. -/
def Representable (x : ℚ) : Prop :=
  ∃ (k : ℕ) (j : ℤ), k < 2 ^ 53 ∧ -1074 ≤ j ∧ x = k * 2 ^ j

/-- The one way to write a double: the mantissa has all of its 53 bits unless the exponent is the
least one. -/
structure Canonical (k : ℕ) (j : ℤ) : Prop where
  lt : k < 2 ^ 53
  le : -1074 ≤ j
  full : 2 ^ 52 ≤ k ∨ j = -1074

section Nearest

variable {x y : ℚ} {k : ℕ} {j : ℤ}

theorem neg_le_gridExponent (x : ℚ) : -1074 ≤ gridExponent x := le_max_right ..

/-- A number has at most 53 bits before the point, counted in units of its grid. -/
theorem div_grid_lt (x : ℚ) : x / 2 ^ gridExponent x < 2 ^ 53 := by
  have hlog : Int.log 2 x + 1 ≤ 53 + gridExponent x := by
    have := le_max_left (Int.log 2 x - 52) (-1074)
    rw [← gridExponent] at this
    omega
  rw [div_lt_iff₀ (by positivity)]
  calc x < 2 ^ (Int.log 2 x + 1) := by exact_mod_cast Int.lt_zpow_succ_log_self (by norm_num) x
    _ ≤ 2 ^ (53 + gridExponent x) := zpow_le_zpow_right₀ (by norm_num) hlog
    _ = 2 ^ 53 * 2 ^ gridExponent x := by rw [zpow_add₀ (by norm_num)]; norm_num

/-- It has exactly 53 bits unless the grid cannot be finer. -/
theorem le_div_grid (hx : 0 < x) (h : -1074 < gridExponent x) :
    2 ^ 52 ≤ x / 2 ^ gridExponent x := by
  have hlog : 52 + gridExponent x = Int.log 2 x := by
    rw [gridExponent] at h ⊢
    omega
  rw [le_div_iff₀ (by positivity)]
  calc (2 : ℚ) ^ 52 * 2 ^ gridExponent x = 2 ^ (52 + gridExponent x) := by
        rw [zpow_add₀ (by norm_num)]; norm_num
    _ ≤ x := by rw [hlog]; exact_mod_cast Int.zpow_log_le_self (by norm_num) hx

theorem gridExponent_mono (hx : 0 < x) (h : x ≤ y) : gridExponent x ≤ gridExponent y :=
  max_le_max_right _ (Int.sub_le_sub_right (Int.log_mono_right hx h) _)

/-- The grid around a number of at most 53 bits is no coarser than its last bit. -/
theorem gridExponent_le (hk : 0 < k) (hlt : k < 2 ^ 53) (hj : -1074 ≤ j) :
    gridExponent (k * 2 ^ j) ≤ j := by
  have hpos : (0 : ℚ) < k * 2 ^ j := by positivity
  have hlog : Int.log 2 ((k : ℚ) * 2 ^ j) < 53 + j := by
    refine (Int.lt_zpow_iff_log_lt (by norm_num) hpos).1 ?_
    push_cast
    rw [zpow_add₀ (by norm_num)]
    refine mul_lt_mul_of_pos_right ?_ (by positivity)
    exact_mod_cast hlt
  exact max_le (by omega) hj

/-- With a full mantissa, it is exactly its last bit. -/
theorem gridExponent_eq (hle : 2 ^ 52 * 2 ^ j ≤ x) (hlt : x < 2 ^ 53 * 2 ^ j) (hj : -1074 ≤ j) :
    gridExponent x = j := by
  have hx : 0 < x := lt_of_lt_of_le (by positivity) hle
  have hle' : 52 + j ≤ Int.log 2 x := by
    refine (Int.zpow_le_iff_le_log (by norm_num) hx).1 ?_
    push_cast
    rw [zpow_add₀ (by norm_num)]
    exact_mod_cast hle
  have hlt' : Int.log 2 x < 53 + j := by
    refine (Int.lt_zpow_iff_log_lt (by norm_num) hx).1 ?_
    push_cast
    rw [zpow_add₀ (by norm_num)]
    exact_mod_cast hlt
  rw [gridExponent]
  omega

theorem roundEven_div_grid_le (x : ℚ) : roundEven (x / 2 ^ gridExponent x) ≤ 2 ^ 53 :=
  roundEven_le (by exact_mod_cast (div_grid_lt x).le)

theorem full_or_least (hx : 0 < x) :
    2 ^ 52 ≤ roundEven (x / 2 ^ gridExponent x) ∨ gridExponent x = -1074 := by
  obtain h | h := (neg_le_gridExponent x).eq_or_lt
  · exact .inr h.symm
  · exact .inl (le_roundEven (by exact_mod_cast le_div_grid hx h))

/-- A number on its grid is left where it is. -/
theorem nearest_eq_self_of_div_eq (h : x / 2 ^ gridExponent x = k) : nearest x = x := by
  rw [nearest, h, roundEven_natCast, ← h, div_mul_cancel₀ _ (by positivity)]

theorem nearest_zero : nearest 0 = 0 :=
  nearest_eq_self_of_div_eq (k := 0) (by simp)

theorem nearest_of_representable (h : Representable x) : nearest x = x := by
  obtain ⟨k, j, hlt, hj, rfl⟩ := h
  obtain rfl | hk := k.eq_zero_or_pos
  · simpa using nearest_zero
  · -- What the grid is finer than the last bit is a power of two.
    obtain ⟨s, hs⟩ := Int.eq_ofNat_of_zero_le (Int.sub_nonneg.2 (gridExponent_le hk hlt hj))
    refine nearest_eq_self_of_div_eq (k := k * 2 ^ s) ?_
    rw [mul_div_assoc, ← zpow_sub₀ (by norm_num), hs]
    push_cast
    rfl

theorem nearest_nonneg (x : ℚ) : 0 ≤ nearest x := by
  rw [nearest]
  positivity

theorem nearest_of_nonpos (h : x ≤ 0) : nearest x = 0 := by
  have hdiv : x / 2 ^ gridExponent x ≤ 0 := div_nonpos_of_nonpos_of_nonneg h (by positivity)
  have hround : roundEven (x / 2 ^ gridExponent x) ≤ 0 :=
    roundEven_le_of_lt_half (by push_cast; linarith)
  rw [nearest, Nat.le_zero.1 hround, Nat.cast_zero, zero_mul]

theorem nearest_mono (h : x ≤ y) : nearest x ≤ nearest y := by
  obtain hx | hx := le_or_gt x 0
  · rw [nearest_of_nonpos hx]
    exact nearest_nonneg y
  obtain heq | hlt := (gridExponent_mono hx h).eq_or_lt
  · rw [nearest, nearest, heq]
    refine mul_le_mul_of_nonneg_right ?_ (by positivity)
    exact_mod_cast roundEven_mono (div_le_div_of_nonneg_right h (by positivity))
  · -- The grids differ, and the first number of the coarser one lies between the two results.
    have hlower : 2 ^ 52 ≤ roundEven (y / 2 ^ gridExponent y) :=
      (full_or_least (hx.trans_le h)).resolve_right ((neg_le_gridExponent x).trans_lt hlt).ne'
    calc nearest x ≤ 2 ^ 53 * 2 ^ gridExponent x :=
          mul_le_mul_of_nonneg_right (by exact_mod_cast roundEven_div_grid_le x) (by positivity)
      _ = 2 ^ 52 * 2 ^ (gridExponent x + 1) := by rw [zpow_add₀ (by norm_num)]; ring
      _ ≤ 2 ^ 52 * 2 ^ gridExponent y :=
          mul_le_mul_of_nonneg_left (zpow_le_zpow_right₀ (by norm_num) hlt) (by positivity)
      _ ≤ nearest y := mul_le_mul_of_nonneg_right (by exact_mod_cast hlower) (by positivity)

theorem nearest_le_of_representable (hy : Representable y) (h : x ≤ y) : nearest x ≤ y :=
  (nearest_mono h).trans_eq (nearest_of_representable hy)

theorem le_nearest_of_representable (hy : Representable y) (h : y ≤ x) : y ≤ nearest x :=
  (nearest_of_representable hy).symm.trans_le (nearest_mono h)

/-- A rounded result with its mantissa: a carry out of the 53 bits has moved to the exponent. -/
theorem exists_nearest_eq (hx : 0 < x) :
    ∃ (k : ℕ) (j : ℤ), Canonical k j ∧ nearest x = k * 2 ^ j := by
  have hj := neg_le_gridExponent x
  obtain hlt | heq := (roundEven_div_grid_le x).lt_or_eq
  · exact ⟨_, _, ⟨hlt, hj, full_or_least hx⟩, rfl⟩
  · refine ⟨2 ^ 52, gridExponent x + 1, ⟨by norm_num, by omega, .inl le_rfl⟩, ?_⟩
    rw [nearest, heq, zpow_add₀ (by norm_num)]
    push_cast
    ring

theorem representable_nearest (x : ℚ) : Representable (nearest x) := by
  obtain hx | hx := le_or_gt x 0
  · exact ⟨0, 0, by norm_num, by norm_num, by simp [nearest_of_nonpos hx]⟩
  · obtain ⟨k, j, hkj, h⟩ := exists_nearest_eq hx
    exact ⟨k, j, hkj.lt, hkj.le, h⟩

/-- A number below the midpoint of two neighbouring doubles does not round to the upper one. -/
theorem nearest_le_of_lt_midpoint (hk : 2 ^ 52 ≤ k) (hlt : k < 2 ^ 53) (hj : -1074 ≤ j)
    (h : x < (k + 1 / 2) * 2 ^ j) : nearest x ≤ k * 2 ^ j := by
  have hpos : (0 : ℚ) < 2 ^ j := by positivity
  obtain hx | hx := le_or_gt x (k * 2 ^ j)
  · exact nearest_le_of_representable ⟨k, j, hlt, hj, rfl⟩ hx
  · have hk' : (2 : ℚ) ^ 52 ≤ k := by exact_mod_cast hk
    have hlt' : (k : ℚ) + 1 ≤ 2 ^ 53 := by exact_mod_cast hlt
    have hgrid : gridExponent x = j := by
      refine gridExponent_eq ?_ ?_ hj
      · exact (mul_le_mul_of_nonneg_right hk' hpos.le).trans hx.le
      · exact h.trans_le (mul_le_mul_of_nonneg_right (by linarith) hpos.le)
    rw [nearest, hgrid]
    refine mul_le_mul_of_nonneg_right ?_ hpos.le
    exact_mod_cast roundEven_le_of_lt_half ((div_lt_iff₀ hpos).2 h)

theorem Canonical.full_of_one_le (h : Canonical k j) (hone : 1 ≤ (k * 2 ^ j : ℚ)) : 2 ^ 52 ≤ k := by
  refine h.full.resolve_right fun hj => hone.not_gt ?_
  rw [hj]
  calc (k * 2 ^ (-1074 : ℤ) : ℚ) < 2 ^ 53 * 2 ^ (-1074 : ℤ) :=
        mul_lt_mul_of_pos_right (by exact_mod_cast h.lt) (by positivity)
    _ = 2 ^ (-1021 : ℤ) := by
        rw [← zpow_natCast, ← zpow_add₀ two_ne_zero]
        rfl
    _ ≤ 1 := zpow_le_one_of_nonpos₀ one_le_two (by decide)

/-! ## Counts -/

theorem representable_natCast {n : ℕ} (h : n ≤ 2 ^ 53) : Representable n := by
  obtain hlt | rfl := h.lt_or_eq
  · exact ⟨n, 0, hlt, by norm_num, by simp⟩
  · exact ⟨1, 53, by norm_num, by norm_num, by norm_num⟩

theorem nearest_natCast {n : ℕ} (h : n ≤ 2 ^ 53) : nearest n = n :=
  nearest_of_representable (representable_natCast h)

/-- A count rounds to a count: what does not fit is a multiple of the last bit that does. -/
theorem exists_natCast_eq_nearest (n : ℕ) : ∃ a : ℕ, nearest n = a := by
  obtain h | h := le_or_gt 0 (gridExponent n)
  · obtain ⟨s, hs⟩ := Int.eq_ofNat_of_zero_le h
    exact ⟨_ * 2 ^ s, by rw [nearest, hs]; push_cast; rfl⟩
  · refine ⟨n, nearest_natCast ?_⟩
    have hdiv := (div_lt_iff₀ (by positivity)).1 (div_grid_lt n)
    have hle : (2 : ℚ) ^ gridExponent n ≤ 1 := zpow_le_one_of_nonpos₀ (by norm_num) h.le
    have : (n : ℚ) < 2 ^ 53 := by nlinarith
    exact_mod_cast this.le

end Nearest

end BoundedCache.Binary64
