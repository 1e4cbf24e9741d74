import BoundedCache.Proofs.Binary64.Nearest

/-!
# Rounding a mantissa

Arithmetic on doubles cuts the exact result off at some bit and keeps two further bits: the next
one, and whether anything nonzero follows it. Shifting on loses nothing of what these two bits are
for, so the mantissa that is rounded in the end is that of the nearest double, and it is rounded
once.

## Main definitions

- `Binary64.Describes` — a mantissa and its two further bits tell where a rational number lies
- `Binary64.Denotes` — a canonical unpacked double stands for a nonnegative rational number

## Main results

- `describes_shiftRight`, `describes_div` — shifting and dividing keep track of the number
- `denotes_roundWithAccuracy` — a description of enough bits rounds to the nearest double
- `denotes_ofNat`, `denotes_mul`, `denotes_div` — the operations round their exact results
- `Denotes.lt_of_lt` — unpacked doubles compare like what they stand for
-/

namespace BoundedCache.Binary64

open Float.Model Float.Model.UnpackedFloat

/-! ## Descriptions -/

/-- The number lies where the mantissa and the two bits say: on a natural number, on a half, or
strictly between two of these. -/
def Describes : ExtendedMantissa → ℚ → Prop
  | ⟨m, false, false⟩, y => y = m
  | ⟨m, false, true⟩, y => m < y ∧ y < m + 1 / 2
  | ⟨m, true, false⟩, y => y = m + 1 / 2
  | ⟨m, true, true⟩, y => m + 1 / 2 < y ∧ y < m + 1

section Describes

variable {em : ExtendedMantissa} {m n : ℕ} {y : ℚ}

theorem Describes.bounds (h : Describes em y) : em.mantissa ≤ y ∧ y < em.mantissa + 1 := by
  obtain ⟨m, _ | _, _ | _⟩ := em <;> simp only [Describes] at h ⊢ <;> constructor <;> linarith

theorem Describes.floor_eq (h : Describes em y) : ⌊y⌋₊ = em.mantissa :=
  (Nat.floor_eq_iff (em.mantissa.cast_nonneg.trans h.bounds.1)).2 h.bounds

theorem Describes.roundedMantissa_eq (h : Describes em y) : em.roundedMantissa = roundEven y := by
  have hfloor := h.floor_eq
  obtain ⟨m, _ | _, _ | _⟩ := em
  all_goals
    simp only [Describes] at h
    rw [roundEven, hfloor]
    simp only [ExtendedMantissa.roundedMantissa, ExtendedMantissa.accuracy,
      Accuracy.roundToNearestEven]
  · rw [if_pos (by linarith)]
  · rw [if_pos h.2]
  · rw [if_neg (by linarith), if_neg (by linarith)]
  · rw [if_neg (by linarith), if_pos h.1]

theorem describes_shiftRightOne (h : Describes em y) : Describes em.shiftRightOne (y / 2) := by
  obtain ⟨m, r, s⟩ := em
  -- The last bit of the mantissa becomes the next bit, and the two bits behind it become one.
  obtain ⟨k, bit, rfl⟩ : ∃ (k : ℕ) (bit : Bool), m = 2 * k + bit.toNat := by
    obtain ⟨k, rfl | rfl⟩ := m.even_or_odd'
    · exact ⟨k, false, rfl⟩
    · exact ⟨k, true, rfl⟩
  have hshift : ExtendedMantissa.shiftRightOne ⟨2 * k + bit.toNat, r, s⟩ = ⟨k, bit, r || s⟩ := by
    cases bit <;> simp [ExtendedMantissa.shiftRightOne, Nat.mul_add_div]
  rw [hshift]
  cases bit <;> cases r <;> cases s <;>
    simp only [Describes, Bool.toNat_true, Bool.toNat_false, Bool.or_true, Bool.or_false] at h ⊢ <;>
    push_cast at h <;> first | linarith | constructor <;> linarith

theorem describes_shiftRight (h : Describes em y) (n : ℕ) : Describes (em >>> n) (y / 2 ^ n) := by
  induction n with
  | zero =>
    rw [pow_zero, div_one]
    exact h
  | succ n ih =>
    rw [pow_succ, ← div_div]
    exact describes_shiftRightOne ih

/-- Where a proper fraction lies is told by comparing twice the numerator with the denominator. -/
theorem describes_fraction {q rest : ℕ} (h : rest < n) :
    Describes (ExtendedMantissa.ofMantissaAndAccuracy q (accuracyOfFraction rest n))
      (q + rest / n) := by
  have hpos : (0 : ℚ) < n := by exact_mod_cast (Nat.zero_le rest).trans_lt h
  have hlt : (rest : ℚ) / n < 1 := by
    rw [div_lt_one hpos]
    exact_mod_cast h
  rw [accuracyOfFraction]
  obtain rfl | hrest := rest.eq_zero_or_pos
  · simp [Describes, ExtendedMantissa.ofMantissaAndAccuracy]
  have hfraction : 0 < (rest : ℚ) / n := div_pos (by exact_mod_cast hrest) hpos
  rw [if_neg hrest.ne']
  obtain h | h | h := lt_trichotomy (2 * rest) n
  · have hhalf : (rest : ℚ) / n < 1 / 2 := by
      rw [div_lt_div_iff₀ hpos two_pos]
      exact_mod_cast (by omega : rest * 2 < 1 * n)
    rw [compare_lt_iff_lt.2 h]
    exact ⟨by linarith, by linarith⟩
  · have hhalf : (rest : ℚ) / n = 1 / 2 := by
      rw [div_eq_div_iff hpos.ne' two_ne_zero]
      exact_mod_cast (by omega : rest * 2 = 1 * n)
    rw [compare_eq_iff_eq.2 h, hhalf]
    rfl
  · have hhalf : 1 / 2 < (rest : ℚ) / n := by
      rw [div_lt_div_iff₀ two_pos hpos]
      exact_mod_cast (by omega : 1 * n < rest * 2)
    rw [compare_gt_iff_gt.2 h]
    exact ⟨by linarith, by linarith⟩

/-- A quotient is described by its integer part and by the remainder. -/
theorem describes_div (hn : 0 < n) :
    Describes (ExtendedMantissa.ofMantissaAndAccuracy (m / n) (accuracyOfFraction (m % n) n))
      (m / n : ℚ) := by
  have hpos : (0 : ℚ) < n := by exact_mod_cast hn
  have hm : (m : ℚ) / n = (m / n : ℕ) + (m % n : ℕ) / n := by
    rw [← mul_right_inj' hpos.ne', mul_add, mul_div_cancel₀ _ hpos.ne', mul_div_cancel₀ _ hpos.ne']
    exact_mod_cast (Nat.div_add_mod m n).symm
  rw [hm]
  exact describes_fraction (Nat.mod_lt m hn)

end Describes

/-! ## Unpacked doubles -/

/-- A canonical unpacked double, and the nonnegative number that it stands for. -/
inductive Denotes : UnpackedFloat → ℚ → Prop where
  | zero : Denotes (.zero .positive) 0
  | finite {m : ℕ} {e : ℤ} (hpos : 0 < m) (h : Canonical m e) :
      Denotes (.finite .positive m e hpos) (m * 2 ^ e)

section Denotes

variable {f g : UnpackedFloat} {m n k : ℕ} {e j : ℤ} {x y : ℚ}

theorem targetExponent_binary64 (e : ℤ) :
    Format.binary64.targetExponent e = max (e - 53) (-1074) :=
  rfl

theorem two_pow_le_shiftLeft {s : ℕ} (hn : 0 < n) (h : k ≤ n.log2 + s) : 2 ^ k ≤ n <<< s := by
  rw [Nat.shiftLeft_eq]
  calc 2 ^ k ≤ 2 ^ (n.log2 + s) := Nat.pow_le_pow_right two_pos h
    _ = 2 ^ n.log2 * 2 ^ s := pow_add ..
    _ ≤ n * 2 ^ s := Nat.mul_le_mul_right _ (Nat.log2_self_le hn.ne')

theorem zpow_log2_le (hm : 0 < m) (e : ℤ) : (2 : ℚ) ^ (m.log2 + e) ≤ m * 2 ^ e := by
  rw [zpow_add₀ two_ne_zero, zpow_natCast]
  exact mul_le_mul_of_nonneg_right (by exact_mod_cast Nat.log2_self_le hm.ne') (by positivity)

theorem succ_le_zpow_totalExponent (m : ℕ) (e : ℤ) :
    ((m : ℚ) + 1) * 2 ^ e ≤ 2 ^ totalExponent m e := by
  rw [totalExponent, zpow_add₀ two_ne_zero]
  refine mul_le_mul_of_nonneg_right ?_ (by positivity)
  exact_mod_cast Nat.lt_log2_self

/-- The exponent that the format asks for is that of the grid around the exact number. -/
theorem targetExponent_eq (hm : 0 < m) (hle : m * 2 ^ e ≤ x) (hlt : x < (m + 1) * 2 ^ e) :
    Format.binary64.targetExponent (totalExponent m e) = gridExponent x := by
  have hx : 0 < x := lt_of_lt_of_le (by positivity) hle
  have hlower : (m.log2 : ℤ) + e ≤ Int.log 2 x := by
    refine (Int.zpow_le_iff_le_log (by norm_num) hx).1 ?_
    exact_mod_cast (zpow_log2_le hm e).trans hle
  have hupper : Int.log 2 x < totalExponent m e := by
    refine (Int.lt_zpow_iff_log_lt (by norm_num) hx).1 ?_
    exact_mod_cast hlt.trans_le (succ_le_zpow_totalExponent m e)
  rw [gridExponent, targetExponent_binary64]
  rw [totalExponent] at hupper ⊢
  omega

theorem ofMantissaAndAccuracy_mantissa (m : ℕ) (acc : Accuracy) :
    (ExtendedMantissa.ofMantissaAndAccuracy m acc).mantissa = m := by
  cases acc with
  | exact => rfl
  | inexact order => cases order <;> rfl

theorem Describes.scaled_bounds {acc : Accuracy}
    (h : Describes (ExtendedMantissa.ofMantissaAndAccuracy m acc) (x / 2 ^ e)) :
    m * 2 ^ e ≤ x ∧ x < (m + 1) * 2 ^ e := by
  have hbounds := h.bounds
  rwa [ofMantissaAndAccuracy_mantissa, le_div_iff₀ (by positivity), div_lt_iff₀ (by positivity)]
    at hbounds

/-- Shifting to the exponent of the grid describes the number in units of the grid. -/
theorem describes_shiftToTargetExponent {acc : Accuracy} (hm : 0 < m)
    (hfull : 2 ^ 52 ≤ m ∨ e ≤ -1074)
    (h : Describes (ExtendedMantissa.ofMantissaAndAccuracy m acc) (x / 2 ^ e)) :
    Describes (shiftToTargetExponent .binary64 m e acc).1 (x / 2 ^ gridExponent x) ∧
      (shiftToTargetExponent .binary64 m e acc).2 = gridExponent x := by
  have htarget := targetExponent_eq hm h.scaled_bounds.1 h.scaled_bounds.2
  have he : e ≤ gridExponent x := by
    have hfull' := hfull.imp_left (Nat.le_log2 hm.ne').2
    rw [← htarget, targetExponent_binary64, totalExponent]
    omega
  obtain ⟨s, hs⟩ := Int.eq_ofNat_of_zero_le (Int.sub_nonneg.2 he)
  have hexp : gridExponent x = e + s := by omega
  rw [shiftToTargetExponent, shiftToExponent, htarget, hs, hexp, zpow_add₀ two_ne_zero,
    zpow_natCast, ← div_div]
  exact ⟨describes_shiftRight h s, rfl⟩

/-- A rounded mantissa is shifted on if there was a carry out of its 53 bits, and is canonical
then. -/
theorem shiftToTargetExponent_carry (hle : m ≤ 2 ^ 53) (he : -1074 ≤ e)
    (hfull : 2 ^ 52 ≤ m ∨ e = -1074) :
    Canonical (shiftToTargetExponent .binary64 m e .exact).1.mantissa
        (shiftToTargetExponent .binary64 m e .exact).2 ∧
      ((shiftToTargetExponent .binary64 m e .exact).1.mantissa : ℚ) *
        2 ^ (shiftToTargetExponent .binary64 m e .exact).2 = m * 2 ^ e := by
  obtain hlt | rfl := hle.lt_or_eq
  · have hlog : m.log2 < 53 := by
      obtain rfl | hm := m.eq_zero_or_pos
      · decide
      · exact (Nat.log2_lt hm.ne').2 hlt
    have hshift : (Format.binary64.targetExponent (totalExponent m e) - e).toNat = 0 := by
      rw [targetExponent_binary64, totalExponent]
      omega
    rw [shiftToTargetExponent, shiftToExponent, hshift]
    simp only [Nat.cast_zero, add_zero]
    exact ⟨⟨hlt, he, hfull⟩, rfl⟩
  · have hshift : (Format.binary64.targetExponent (totalExponent (2 ^ 53) e) - e).toNat = 1 := by
      rw [targetExponent_binary64, totalExponent, Nat.log2_two_pow]
      omega
    have hmantissa : (ExtendedMantissa.ofMantissaAndAccuracy (2 ^ 53) .exact >>> 1).mantissa =
        2 ^ 52 := by decide
    rw [shiftToTargetExponent, shiftToExponent, hshift]
    simp only [hmantissa, Nat.cast_one]
    refine ⟨⟨by norm_num, by omega, .inl le_rfl⟩, ?_⟩
    rw [zpow_add₀ two_ne_zero]
    push_cast
    ring

/-- A description of enough bits is rounded to the nearest double. -/
theorem denotes_roundWithAccuracy {acc : Accuracy} (hm : 0 < m)
    (hfull : 2 ^ 52 ≤ m ∨ e ≤ -1074)
    (h : Describes (ExtendedMantissa.ofMantissaAndAccuracy m acc) (x / 2 ^ e)) :
    Denotes (roundWithAccuracy .binary64 .positive m e acc) (nearest x) := by
  obtain ⟨hdesc, hexp⟩ := describes_shiftToTargetExponent hm hfull h
  have hx : 0 < x := lt_of_lt_of_le (by positivity) h.scaled_bounds.1
  have hcarry := shiftToTargetExponent_carry (roundEven_div_grid_le x) (neg_le_gridExponent x)
    (full_or_least hx)
  rw [← nearest, ← hdesc.roundedMantissa_eq, ← hexp] at hcarry
  obtain ⟨hcanonical, hvalue⟩ := hcarry
  rw [roundWithAccuracy, ← hvalue]
  dsimp only
  obtain hzero | hpos := Nat.eq_zero_or_pos (shiftToTargetExponent .binary64
    (shiftToTargetExponent .binary64 m e acc).1.roundedMantissa _ .exact).1.mantissa
  · rw [dif_pos hzero, hzero, Nat.cast_zero, zero_mul]
    exact .zero
  · rw [dif_neg hpos.ne']
    exact .finite hpos hcanonical

/-- An exact number of enough bits is rounded to the nearest double. -/
theorem denotes_roundWithAccuracy_exact (hm : 0 < m) (hfull : 2 ^ 52 ≤ m ∨ e ≤ -1074) :
    Denotes (roundWithAccuracy .binary64 .positive m e .exact) (nearest (m * 2 ^ e)) := by
  refine denotes_roundWithAccuracy hm hfull ?_
  rw [mul_div_cancel_right₀ _ (by positivity)]
  rfl

/-! ## Operations -/

/-- A count of few bits is filled up with zeros before it is rounded. -/
theorem denotes_ofNat (n : ℕ) : Denotes (UnpackedFloat.ofNat .binary64 n) (nearest n) := by
  obtain rfl | hn := n.eq_zero_or_pos
  · rw [Nat.cast_zero, nearest_zero]
    exact .zero
  have hofNat : UnpackedFloat.ofNat .binary64 n = UnpackedFloat.round .binary64 .positive n 0 := by
    rw [UnpackedFloat.ofNat, UnpackedFloat.ofInt, UnpackedFloat.normalize,
      compare_gt_iff_gt.2 (by exact_mod_cast hn)]
    rfl
  rw [hofNat, UnpackedFloat.round, decreaseExponent]
  generalize hs : (0 - Format.binary64.targetExponent (totalExponent n 0)).toNat = s
  have hbits : 2 ^ 52 ≤ n <<< s := by
    refine two_pow_le_shiftLeft hn ?_
    rw [← hs, targetExponent_binary64, totalExponent]
    omega
  have hvalue : (n : ℚ) = (n <<< s : ℕ) * 2 ^ (0 - (s : ℤ)) := by
    rw [Nat.shiftLeft_eq, zero_sub, zpow_neg, zpow_natCast]
    push_cast
    rw [mul_inv_cancel_right₀ (by positivity)]
  rw [hvalue]
  exact denotes_roundWithAccuracy_exact (lt_of_lt_of_le (by positivity) hbits) (.inl hbits)

/-- A product has enough bits, unless both factors are on the finest grid. -/
theorem denotes_mul (hf : Denotes f x) (hg : Denotes g y) :
    Denotes (UnpackedFloat.mul .binary64 f g) (nearest (x * y)) := by
  cases hf with
  | zero =>
    rw [zero_mul, nearest_zero]
    cases hg <;> exact .zero
  | @finite m e hm hme =>
    cases hg with
    | zero =>
      rw [mul_zero, nearest_zero]
      exact .zero
    | @finite n j hn hnj =>
      have hfull : 2 ^ 52 ≤ m * n ∨ e + j ≤ -1074 := by
        obtain h | he := hme.full
        · exact .inl (h.trans (Nat.le_mul_of_pos_right m hn))
        obtain h | hj := hnj.full
        · exact .inl (h.trans (Nat.le_mul_of_pos_left n hm))
        · exact .inr (by omega)
      have hvalue : (m * 2 ^ e * (n * 2 ^ j) : ℚ) = (m * n : ℕ) * 2 ^ (e + j) := by
        rw [zpow_add₀ two_ne_zero]
        push_cast
        ring
      rw [hvalue]
      exact denotes_roundWithAccuracy_exact (Nat.mul_pos hm hn) hfull

/-- What is cut off of a quotient is described by the remainder. -/
theorem describes_divCore (hn : 0 < n) :
    Describes
      (ExtendedMantissa.ofMantissaAndAccuracy (divCore .binary64 m e n j).1
        (divCore .binary64 m e n j).2.2)
      (m * 2 ^ e / (n * 2 ^ j) / 2 ^ (divCore .binary64 m e n j).2.1) := by
  have hle := min_le_left (e - j)
    (Format.binary64.targetExponent (totalExponent m e - totalExponent n j))
  simp only [divCore]
  generalize min (e - j) _ = t at hle ⊢
  obtain ⟨s, hs⟩ := Int.eq_ofNat_of_zero_le (Int.sub_nonneg.2 hle)
  have hexp : e = j + t + s := by omega
  have hvalue : (m * 2 ^ e / (n * 2 ^ j) / 2 ^ t : ℚ) = (m <<< s : ℕ) / n := by
    rw [hexp, zpow_add₀ two_ne_zero, zpow_add₀ two_ne_zero, zpow_natCast, Nat.shiftLeft_eq]
    push_cast
    field_simp
  rw [hs, hvalue]
  exact describes_div hn

/-- A quotient is computed to enough bits if it is not so small that doubles have fewer. -/
theorem le_divCore (hm : 0 < m) (hn : 0 < n)
    (h : -1021 ≤ totalExponent m e - totalExponent n j) :
    2 ^ 52 ≤ (divCore .binary64 m e n j).1 := by
  simp only [divCore]
  generalize hs : (e - j - min (e - j) _).toNat = s
  have hlog : 52 + (n.log2 + 1) ≤ m.log2 + s := by
    rw [← hs, targetExponent_binary64]
    rw [totalExponent, totalExponent] at h ⊢
    omega
  rw [Nat.le_div_iff_mul_le hn]
  calc 2 ^ 52 * n ≤ 2 ^ 52 * 2 ^ (n.log2 + 1) := Nat.mul_le_mul_left _ Nat.lt_log2_self.le
    _ = 2 ^ (52 + (n.log2 + 1)) := (pow_add ..).symm
    _ ≤ m <<< s := two_pow_le_shiftLeft hm hlog

/-- A quotient that is large enough to have all bits of a double is rounded to the nearest one. -/
theorem denotes_div (hf : Denotes f x) (hg : Denotes g y) (hy : 0 < y)
    (hxy : 2 ^ (-1021 : ℤ) * y ≤ x) :
    Denotes (UnpackedFloat.div .binary64 f g) (nearest (x / y)) := by
  cases hg with
  | zero => exact absurd hy (lt_irrefl 0)
  | @finite n j hn hnj =>
    cases hf with
    | zero => exact absurd hxy (not_le.2 (by positivity))
    | @finite m e hm hme =>
      have hexp : -1021 ≤ totalExponent m e - totalExponent n j := by
        have hlt : (2 : ℚ) ^ (-1021 + (n.log2 + j)) < 2 ^ totalExponent m e :=
          calc (2 : ℚ) ^ (-1021 + (n.log2 + j)) = 2 ^ (-1021 : ℤ) * 2 ^ (n.log2 + j) :=
                zpow_add₀ two_ne_zero ..
            _ ≤ 2 ^ (-1021 : ℤ) * (n * 2 ^ j) :=
                mul_le_mul_of_nonneg_left (zpow_log2_le hn j) (by positivity)
            _ ≤ m * 2 ^ e := hxy
            _ < (m + 1) * 2 ^ e := mul_lt_mul_of_pos_right (lt_add_one _) (by positivity)
            _ ≤ 2 ^ totalExponent m e := succ_le_zpow_totalExponent m e
        rw [zpow_lt_zpow_iff_right₀ one_lt_two] at hlt
        rw [totalExponent.eq_def n j]
        omega
      have hfull := le_divCore hm hn hexp
      exact denotes_roundWithAccuracy (lt_of_lt_of_le (by positivity) hfull) (.inl hfull)
        (describes_divCore hn)

/-! ## Order -/

theorem Canonical.lt_of_lt (hm : Canonical m e) (hn : Canonical n j) (h : e < j) :
    (m * 2 ^ e : ℚ) < n * 2 ^ j := by
  have hle : -1074 < j := hm.le.trans_lt h
  have hfull : 2 ^ 52 ≤ n := hn.full.resolve_right hle.ne'
  calc (m * 2 ^ e : ℚ) < 2 ^ 53 * 2 ^ e :=
        mul_lt_mul_of_pos_right (by exact_mod_cast hm.lt) (by positivity)
    _ = 2 ^ 52 * 2 ^ (e + 1) := by rw [zpow_add₀ two_ne_zero]; ring
    _ ≤ 2 ^ 52 * 2 ^ j :=
        mul_le_mul_of_nonneg_left (zpow_le_zpow_right₀ one_le_two h) (by positivity)
    _ ≤ n * 2 ^ j := mul_le_mul_of_nonneg_right (by exact_mod_cast hfull) (by positivity)

/-- Unpacked doubles compare like what they stand for, the exponents first. -/
theorem Denotes.lt_of_lt (hf : Denotes f x) (hg : Denotes g y) (h : f.lt g) : x < y := by
  rw [UnpackedFloat.lt, beq_iff_eq] at h
  cases hf with
  | zero =>
    cases hg with
    | zero => cases h
    | finite hn hnj => positivity
  | @finite m e hm hme =>
    cases hg with
    | zero => cases h
    | @finite n j hn hnj =>
      have hlex : (compare e j).then (compare m n) = .lt := Option.some.inj h
      obtain hlt | ⟨heq, hlt⟩ := Ordering.then_eq_lt.1 hlex
      · exact hme.lt_of_lt hnj (compare_lt_iff_lt.1 hlt)
      · obtain rfl := compare_eq_iff_eq.1 heq
        refine mul_lt_mul_of_pos_right ?_ (by positivity)
        exact_mod_cast compare_lt_iff_lt.1 hlt

end Denotes

end BoundedCache.Binary64
