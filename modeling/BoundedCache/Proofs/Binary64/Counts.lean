import BoundedCache.Binary64
import BoundedCache.Proofs.Binary64.Rounding

/-!
# Counts and doubles

A double is packed into a word and read back; only what is beyond the largest double comes back
changed, as infinity. Since no count is that large, bringing a rounded number to a count gives the
same as if doubles had no end.

## Main definitions

- `Binary64.HasValue` — a double stands for a nonnegative rational number

## Main results

- `unpack_pack`, `unpack_pack_of_large` — what becomes of an unpacked double
- `HasValue.lt_of_lt`, `exists_hasValue` — the order of doubles is that of their values
- `hasValue_ofCount` — the double of a count
- `roundCount_mul`, `ceilCount_div` — the counts next to a product and to a quotient
-/

namespace BoundedCache.Binary64

open Float.Model Float.Model.UnpackedFloat

/-! ## Packing -/

section Packing

variable {f : UnpackedFloat} {m : ℕ} {e : ℤ} {x : ℚ}

theorem unpackSign_packComponents {exponent : BitVec 11} {mantissa : BitVec 52} :
    unpackSign (packComponents .binary64 .positive exponent mantissa) = 0#1 := by
  ext i hi
  obtain rfl : i = 0 := by omega
  have hbit : ((0#1 ++ exponent) ++ mantissa).getLsbD 63 = false := by
    rw [BitVec.getLsbD_append, BitVec.getLsbD_append]
    rfl
  delta unpackSign
  simpa only [packComponents, Sign.toBitVec, BitVec.extractLsb, BitVec.getElem_cast,
    BitVec.getElem_extractLsb', BitVec.getElem_zero] using hbit

/-- The leading bit of a full mantissa is not stored, and is put back. -/
theorem toNat_one_append (stored : BitVec 52) : (1#1 ++ stored).toNat = 2 ^ 52 + stored.toNat := by
  rw [BitVec.toNat_append, ← Nat.shiftLeft_add_eq_or_of_lt stored.isLt]
  rfl

theorem finite_congr {sign : Sign} {n : ℕ} {j : ℤ} {hm : 0 < m} {hn : 0 < n} (hmn : m = n)
    (hej : e = j) : UnpackedFloat.finite sign m e hm = .finite sign n j hn := by
  subst hmn hej
  rfl

theorem unpack_packComponents_normal {b : ℕ} (hb : 0 < b) (hlt : b < 2047) (hm : 2 ^ 52 ≤ m)
    (hm' : m < 2 ^ 53) :
    UnpackedFloat.unpack .binary64
        (packComponents .binary64 .positive (BitVec.ofNat 11 b) (BitVec.ofNat 52 m)) =
      .finite .positive m (b - 1075) (by omega) := by
  have hexponent : (BitVec.ofNat 11 b).toNat = b := by
    rw [BitVec.toNat_ofNat, Nat.mod_eq_of_lt (by omega)]
  have hne : BitVec.ofNat 11 b ≠ -1#11 := by
    refine ne_of_apply_ne BitVec.toNat ?_
    rw [hexponent]
    exact hlt.ne
  have hne' : BitVec.ofNat 11 b ≠ 0#11 := by
    refine ne_of_apply_ne BitVec.toNat ?_
    rw [hexponent]
    exact hb.ne'
  have hmantissa : (1#1 ++ BitVec.ofNat 52 m).toNat = m := by
    rw [toNat_one_append, BitVec.toNat_ofNat]
    omega
  delta UnpackedFloat.unpack
  dsimp only
  rw [unpackExponent_packComponents, if_neg hne, if_neg hne', unpackSign_packComponents]
  refine finite_congr ?_ ?_
  · rw [unpackMantissa_packComponents]
    exact hmantissa
  · rw [hexponent]
    rfl

theorem unpack_packComponents_subnormal (hm : 0 < m) (hlt : m < 2 ^ 52) :
    UnpackedFloat.unpack .binary64
        (packComponents .binary64 .positive 0#11 (BitVec.ofNat 52 m)) =
      .finite .positive m (-1074) hm := by
  have hmantissa : (BitVec.ofNat 52 m).toNat = m := by
    rw [BitVec.toNat_ofNat, Nat.mod_eq_of_lt hlt]
  have hne : unpackMantissa (packComponents .binary64 .positive 0#11 (BitVec.ofNat 52 m)) ≠
      0#52 := by
    refine ne_of_apply_ne BitVec.toNat ?_
    rw [unpackMantissa_packComponents, hmantissa]
    exact hm.ne'
  delta UnpackedFloat.unpack
  dsimp only
  rw [unpackExponent_packComponents, if_neg (by decide), if_pos rfl, dif_neg hne,
    unpackSign_packComponents]
  refine finite_congr ?_ rfl
  rw [unpackMantissa_packComponents]
  exact hmantissa

theorem unpack_packedInfinity :
    UnpackedFloat.unpack .binary64 (packedInfinity .binary64 .positive) = .infinity .positive := by
  rfl

/-- The largest exponent of a double is 971. -/
theorem Canonical.le_of_lt (h : Canonical m e) (hlt : (m * 2 ^ e : ℚ) < 2 ^ 1024) : e ≤ 971 := by
  by_contra! he
  have hfull : 2 ^ 52 ≤ m := h.full.resolve_right (by omega)
  refine hlt.not_ge ?_
  calc (2 : ℚ) ^ 1024 = 2 ^ 52 * 2 ^ (972 : ℤ) := by
        rw [← zpow_natCast, ← zpow_natCast, ← zpow_add₀ two_ne_zero]
        rfl
    _ ≤ (m : ℚ) * 2 ^ e := by
      refine mul_le_mul (by exact_mod_cast hfull) ?_ (by positivity) (by positivity)
      exact zpow_le_zpow_right₀ one_le_two he

theorem Canonical.lt_of_le (h : Canonical m e) (he : e ≤ 971) : (m * 2 ^ e : ℚ) < 2 ^ 1024 :=
  calc (m * 2 ^ e : ℚ) < 2 ^ 53 * 2 ^ e :=
        mul_lt_mul_of_pos_right (by exact_mod_cast h.lt) (by positivity)
    _ ≤ 2 ^ 53 * 2 ^ (971 : ℤ) :=
        mul_le_mul_of_nonneg_left (zpow_le_zpow_right₀ one_le_two he) (by positivity)
    _ = 2 ^ 1024 := by
        rw [← zpow_natCast, ← zpow_natCast, ← zpow_add₀ two_ne_zero]
        rfl

theorem pack_finite (hm : 0 < m) :
    UnpackedFloat.pack .binary64 (.finite .positive m e hm) =
      if 971 < e then packedInfinity .binary64 .positive
      else if m.log2 = 52 then
        packComponents .binary64 .positive (BitVec.ofNat 11 (e + 1075).toNat) (BitVec.ofNat 52 m)
      else packComponents .binary64 .positive 0#11 (BitVec.ofNat 52 m) := by
  have hbias : e + (Format.exponentBias .binary64 : ℤ) + (52 : ℕ) = e + 1075 := by
    change e + 1023 + 52 = e + 1075
    ring
  delta UnpackedFloat.pack
  dsimp only
  rw [hbias]
  refine if_congr ?_ rfl (if_congr ?_ rfl rfl)
  · change 2048 ≤ (e + 1075).toNat + 1 ↔ 971 < e
    omega
  · change m.log2 + 1 = 53 ↔ m.log2 = 52
    omega

/-- What a word can hold is read back as it was packed. -/
theorem unpack_pack (h : Denotes f x) (hx : x < 2 ^ 1024) : (Float.Model.pack f).unpack = f := by
  cases h with
  | zero => rfl
  | @finite m e hm hme =>
    have hle := hme.le_of_lt hx
    have hge := hme.le
    change UnpackedFloat.unpack .binary64 (UnpackedFloat.pack .binary64 _) = _
    rw [pack_finite, if_neg hle.not_gt]
    have hlog : m.log2 < 53 := (Nat.log2_lt hm.ne').2 hme.lt
    obtain hfull | hlt := le_or_gt (2 ^ 52) m
    · have hlog' := (Nat.le_log2 hm.ne').2 hfull
      rw [if_pos (by omega), unpack_packComponents_normal (by omega) (by omega) hfull hme.lt]
      exact finite_congr rfl (by omega)
    · have hlog' := (Nat.log2_lt hm.ne').2 hlt
      obtain rfl : e = -1074 := hme.full.resolve_left hlt.not_ge
      rw [if_neg hlog'.ne]
      exact unpack_packComponents_subnormal hm hlt

/-- What is beyond the largest double is read back as infinity. -/
theorem unpack_pack_of_large (h : Denotes f x) (hx : 2 ^ 1024 ≤ x) :
    (Float.Model.pack f).unpack = .infinity .positive := by
  cases h with
  | zero => exact absurd hx (by norm_num)
  | @finite m e hm hme =>
    have he : 971 < e := lt_of_not_ge fun he => (hme.lt_of_le he).not_ge hx
    change UnpackedFloat.unpack .binary64 (UnpackedFloat.pack .binary64 _) = _
    rw [pack_finite, if_pos he]
    exact unpack_packedInfinity

/-- Every word that holds a positive number holds a canonical one. -/
theorem canonical_of_unpack {bits : BitVec Format.binary64.numBits} {hm : 0 < m}
    (h : UnpackedFloat.unpack .binary64 bits = .finite .positive m e hm) : Canonical m e := by
  have hstored := (unpackMantissa bits).isLt
  have hbias : (Format.exponentBias .binary64 : ℤ) + Format.mantissaBitsWithoutImplicit .binary64 =
    1075 := rfl
  delta UnpackedFloat.unpack at h
  dsimp only at h
  rw [hbias] at h
  by_cases hinf : unpackExponent bits = -1#11
  · rw [if_pos hinf] at h
    by_cases hzero : unpackMantissa bits = 0#52
    · rw [if_pos hzero] at h
      cases h
    · rw [if_neg hzero] at h
      cases h
  rw [if_neg hinf] at h
  by_cases hexponent : unpackExponent bits = 0#11
  · -- A subnormal number: the exponent is the least one.
    rw [if_pos hexponent] at h
    by_cases hzero : unpackMantissa bits = 0#52
    · rw [dif_pos hzero] at h
      cases h
    rw [dif_neg hzero] at h
    obtain ⟨-, rfl, rfl⟩ := UnpackedFloat.finite.inj h
    rw [hexponent]
    exact ⟨hstored.trans (by decide), by decide, .inr (by decide)⟩
  · rw [if_neg hexponent] at h
    obtain ⟨-, rfl, rfl⟩ := UnpackedFloat.finite.inj h
    have hpos : 0 < (unpackExponent bits).toNat :=
      (BitVec.toNat_pos _).2 ((BitVec.pos_iff_ne_zero _).2 hexponent)
    have hmantissa := toNat_one_append (unpackMantissa bits)
    rw [hmantissa]
    exact ⟨by omega, by omega, .inl (Nat.le_add_right ..)⟩

end Packing

/-! ## Values -/

/-- The double is a nonnegative number, and this is its value. -/
def HasValue (a : Float) (x : ℚ) : Prop := Denotes a.toModel.unpack x

section HasValue

variable {a b : Float} {x y : ℚ}

theorem lt_unpack (h : a < b) : a.toModel.unpack.lt b.toModel.unpack :=
  of_decide_eq_true h

theorem HasValue.lt_of_lt (ha : HasValue a x) (hb : HasValue b y) (h : a < b) : x < y :=
  Denotes.lt_of_lt ha hb (lt_unpack h)

theorem hasValue_zero : HasValue 0 0 := .zero

theorem hasValue_half : HasValue 0.5 (1 / 2) := by
  have h : HasValue 0.5 ((2 ^ 52 : ℕ) * 2 ^ (-53 : ℤ)) :=
    .finite (by decide) ⟨by decide, by decide, by decide⟩
  convert h using 1
  norm_num

theorem hasValue_one : HasValue 1 1 := by
  have h : HasValue 1 ((2 ^ 52 : ℕ) * 2 ^ (-52 : ℤ)) :=
    .finite (by decide) ⟨by decide, by decide, by decide⟩
  convert h using 1
  norm_num

/-- A double between zero and one has a value there. -/
theorem exists_hasValue (h : 0 < a ∧ a < 1) : ∃ x, HasValue a x ∧ 0 < x ∧ x < 1 := by
  obtain ⟨hpos, hlt⟩ := h
  suffices h : ∃ x, HasValue a x by
    obtain ⟨x, hx⟩ := h
    exact ⟨x, hx, hasValue_zero.lt_of_lt hx hpos, hx.lt_of_lt hasValue_one hlt⟩
  have hpos' := lt_unpack hpos
  have hlt' := lt_unpack hlt
  cases hunpack : a.toModel.unpack with
  | notANumber =>
    rw [hunpack] at hpos'
    cases hpos'
  | infinity sign =>
    rw [hunpack] at hpos' hlt'
    cases sign with
    | negative => cases hpos'
    | positive => cases hlt'
  | zero sign =>
    rw [hunpack] at hpos'
    cases hpos'
  | finite sign m e hm =>
    cases sign with
    | negative =>
      rw [hunpack] at hpos'
      cases hpos'
    | positive =>
      refine ⟨m * 2 ^ e, ?_⟩
      rw [HasValue, hunpack]
      exact .finite hm (canonical_of_unpack hunpack)

theorem hasValue_ofCount {n : ℕ} (hn : n ≤ maxCount) : HasValue (ofCount n) (nearest n) := by
  have hlarge : Representable (2 ^ 64) := ⟨1, 64, by norm_num, by norm_num, by norm_num⟩
  have hlt : nearest n < 2 ^ 1024 := by
    have hle : (n : ℚ) ≤ 2 ^ 64 := by exact_mod_cast hn.trans (by decide)
    refine (nearest_le_of_representable hlarge hle).trans_lt ?_
    exact pow_lt_pow_right₀ one_lt_two (by decide)
  have h := denotes_ofNat n
  rw [← unpack_pack h hlt] at h
  exact h

end HasValue

/-! ## Back to counts -/

section Counts

variable {m : ℕ} {e : ℤ} {x y : ℚ} {a b : Float}

theorem shiftLeft_toNat_eq (m : ℕ) (he : 0 ≤ e) : ((m <<< e.toNat : ℕ) : ℚ) = m * 2 ^ e := by
  obtain ⟨s, rfl⟩ := Int.eq_ofNat_of_zero_le he
  rw [Int.toNat_natCast, Nat.shiftLeft_eq, zpow_natCast]
  push_cast
  rfl

theorem roundScaled_eq (m : ℕ) (e : ℤ) : roundScaled m e = ⌊(m * 2 ^ e : ℚ) + 1 / 2⌋₊ := by
  rw [roundScaled]
  split_ifs with he
  · rw [← shiftLeft_toNat_eq m he, eq_comm, Nat.floor_eq_iff (by positivity)]
    constructor <;> linarith
  · obtain ⟨s, hs⟩ := Int.eq_ofNat_of_zero_le (Int.neg_nonneg.2 (not_le.1 he).le)
    obtain rfl : e = -s := by omega
    have hvalue : (m * 2 ^ (-(s : ℤ)) : ℚ) + 1 / 2 = (2 * m + 2 ^ s : ℕ) / (2 ^ (s + 1) : ℕ) := by
      rw [zpow_neg, zpow_natCast]
      push_cast
      field_simp
      ring
    rw [hs, Int.toNat_natCast, Nat.shiftRight_eq_div_pow, Nat.one_shiftLeft, hvalue,
      Nat.floor_div_eq_div]

theorem ceilScaled_eq (m : ℕ) (e : ℤ) : ceilScaled m e = ⌈(m * 2 ^ e : ℚ)⌉₊ := by
  rw [ceilScaled]
  split_ifs with he
  · rw [← shiftLeft_toNat_eq m he, Nat.ceil_natCast]
  · obtain ⟨s, hs⟩ := Int.eq_ofNat_of_zero_le (Int.neg_nonneg.2 (not_le.1 he).le)
    obtain rfl : e = -s := by omega
    rw [hs, Int.toNat_natCast, Nat.shiftRight_eq_div_pow, Nat.one_shiftLeft, zpow_neg,
      zpow_natCast, ← div_eq_mul_inv]
    refine eq_of_forall_ge_iff fun n => ?_
    rw [Nat.ceil_le, div_le_iff₀ (by positivity), Nat.div_le_iff_le_mul_add_pred (by positivity),
      Nat.add_le_add_iff_right, mul_comm]
    norm_cast

/-- A result that is too large for a double is too large for a count as well. -/
theorem toCount_pack {rule : ℕ → ℤ → ℕ} (spec : ℚ → ℕ) {f : UnpackedFloat}
    (hrule : ∀ m e, rule m e = spec (m * 2 ^ e)) (hzero : spec 0 = 0)
    (hlarge : ∀ y : ℚ, maxCount ≤ y → maxCount ≤ spec y) (h : Denotes f x) :
    toCount rule (.ofModel (.pack f)) = min (spec x) maxCount := by
  rw [toCount]
  obtain hx | hx := lt_or_ge x (2 ^ 1024)
  · rw [unpack_pack h hx]
    cases h with
    | zero => rw [hzero, Nat.zero_min]
    | finite hm hme => exact congrArg (min · maxCount) (hrule _ _)
  · have hmax : (maxCount : ℚ) ≤ 2 ^ 1024 :=
      calc (maxCount : ℚ) ≤ 2 ^ 64 := by exact_mod_cast (by decide : maxCount ≤ 2 ^ 64)
        _ ≤ 2 ^ 1024 := pow_le_pow_right₀ one_le_two (by decide)
    rw [unpack_pack_of_large h hx, min_eq_right (hlarge x (hmax.trans hx))]

/-- The count nearest to a product. -/
theorem roundCount_mul (ha : HasValue a x) (hb : HasValue b y) :
    roundCount (a * b) = min ⌊nearest (x * y) + 1 / 2⌋₊ maxCount := by
  refine toCount_pack (⌊· + 1 / 2⌋₊) roundScaled_eq (by norm_num) (fun z hz => ?_)
    (denotes_mul ha hb)
  exact Nat.le_floor (by linarith)

/-- The least count that is not below a quotient. -/
theorem ceilCount_div (ha : HasValue a x) (hb : HasValue b y) (hy : 0 < y)
    (hxy : 2 ^ (-1021 : ℤ) * y ≤ x) :
    ceilCount (a / b) = min ⌈nearest (x / y)⌉₊ maxCount := by
  refine toCount_pack (⌈·⌉₊) ceilScaled_eq Nat.ceil_zero (fun z hz => ?_)
    (denotes_div ha hb hy hxy)
  exact_mod_cast hz.trans (Nat.le_ceil z)

end Counts

end BoundedCache.Binary64
