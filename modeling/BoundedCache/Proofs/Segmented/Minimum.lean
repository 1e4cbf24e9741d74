import BoundedCache.Proofs.Binary64.Counts
import BoundedCache.Proofs.Segmented.Lawful

/-!
# The least capacity of a segmented store

A capacity can be divided up if the share of the protected segment, rounded twice, comes to an
entry. The least such capacity is announced through a formula of its own: half an entry over the
share, rounded as well. The two roundings may disagree, but only where doubles cannot tell the
capacities apart from the announced one; a capacity that is announced may be refused itself.

## Main definitions

- `Segmented.Accepts` — the capacity can be divided up
- `Segmented.IsNearLeast` — doubles tell every capacity below from the accepted ones

## Main results

- `Segmented.accepts_iff`, `Segmented.leastCapacity_eq` — both sides in terms of exact numbers
- `Segmented.isNearLeast_leastCapacity` — the announced minimum is at the border
- `Segmented.refused_announces_border` — what a refusal says
-/

namespace BoundedCache

namespace Segmented

open Binary64

variable {κ ν : Type} [DecidableEq κ] [Hashable κ]
variable {ratio : Float} {ρ : ℚ} {n d : ℕ}

/-! ## Half an entry -/

/-- A capacity beyond the rounded quotient is beyond the exact one, so its share is no less than
half an entry, and rounding keeps it so. -/
theorem half_le_nearest_mul (hρ : 0 < ρ) (h : nearest (1 / 2 / ρ) < nearest d) :
    1 / 2 ≤ nearest (nearest d * ρ) := by
  have hhalf : Representable (1 / 2) := ⟨1, -1, by norm_num, by norm_num, by norm_num⟩
  have hlt : 1 / 2 / ρ < nearest d := by
    by_contra! hle
    exact h.not_ge (le_nearest_of_representable (representable_nearest _) hle)
  exact le_nearest_of_representable hhalf ((div_lt_iff₀ hρ).1 hlt).le

/-- Rounding makes one half of what misses it by half a unit of the last bit at most. -/
theorem nearest_lt_half {x : ℚ} (h : x < 1 / 2 - 2 ^ (-55 : ℤ)) : nearest x < 1 / 2 := by
  have hmid : x < ((2 ^ 53 - 1 : ℕ) + 1 / 2 : ℚ) * 2 ^ (-54 : ℤ) := by
    refine h.trans_eq ?_
    norm_num
  calc nearest x ≤ (2 ^ 53 - 1 : ℕ) * 2 ^ (-54 : ℤ) :=
        nearest_le_of_lt_midpoint (by decide) (by decide) (by decide) hmid
    _ < 1 / 2 := by norm_num

/-- The share of a mantissa of 53 bits misses one half by more than that if the share of the next
midpoint does not exceed it. -/
theorem mul_lt_half_sub {k : ℕ} {t : ℚ} (hk : k < 2 ^ 53) (h : (k + 1 / 2) * t ≤ 1 / 2) :
    k * t < 1 / 2 - 2 ^ (-55 : ℤ) := by
  have hk' : (k : ℚ) + 1 ≤ 2 ^ 53 := by exact_mod_cast hk
  have hle : k * t ≤ k / (2 * k + 1) := by
    rw [le_div_iff₀ (by positivity)]
    calc k * t * (2 * k + 1) = 2 * k * ((k + 1 / 2) * t) := by ring
      _ ≤ 2 * k * (1 / 2) := mul_le_mul_of_nonneg_left h (by positivity)
      _ = k := by ring
  refine hle.trans_lt ?_
  rw [div_lt_iff₀ (by positivity)]
  norm_num
  linarith

/-- A capacity below the rounded quotient is below it by half a unit of its last bit at least. The
share then misses half an entry by more than rounding can make up for. -/
theorem nearest_mul_lt_half (hρ : 0 < ρ) (hd : 0 < d) (h : nearest d < nearest (1 / 2 / ρ)) :
    nearest (nearest d * ρ) < 1 / 2 := by
  have hone : (1 : ℚ) ≤ nearest d := by
    rw [← Nat.cast_one, ← nearest_natCast (by decide : 1 ≤ 2 ^ 53)]
    exact nearest_mono (by exact_mod_cast hd)
  obtain ⟨k, j, hkj, hvalue⟩ := exists_nearest_eq (x := d) (by exact_mod_cast hd)
  rw [hvalue] at h hone
  have hmid : (k + 1 / 2) * 2 ^ j ≤ 1 / 2 / ρ := by
    by_contra! hlt
    exact h.not_ge (nearest_le_of_lt_midpoint (hkj.full_of_one_le hone) hkj.lt hkj.le hlt)
  rw [le_div_iff₀ hρ, mul_assoc] at hmid
  rw [hvalue, mul_assoc]
  exact nearest_lt_half (mul_lt_half_sub hkj.lt hmid)

/-! ## Accepted capacities -/

/-- The capacity can be divided up at this ratio. -/
def Accepts (capacity : ℕ) (ratio : Float) : Prop := ∃ split, layout capacity ratio = .ok split

theorem accepts_iff_guarded : Accepts n ratio ↔ 0 < n ∧ 0 < (Split.ofRatio n ratio).guarded := by
  constructor
  · rintro ⟨split, h⟩
    obtain ⟨hn, hguarded, -⟩ := layout_eq_ok_iff.1 h
    exact ⟨hn, hguarded⟩
  · rintro ⟨hn, hguarded⟩
    exact ⟨_, layout_eq_ok_iff.2 ⟨hn, hguarded, rfl⟩⟩

/-- A refusal of the split names the capacity and announces a minimum. -/
theorem refused_of_layout {policy : Policy} {capacity minimum : ℕ}
    (h : layout n ratio = .error (.capacityTooSmall policy capacity minimum)) :
    policy = .segmented ∧ capacity = n ∧ minimum = leastCapacity ratio ∧ ¬Accepts n ratio := by
  have hnot : ¬Accepts n ratio := by
    rintro ⟨split, hok⟩
    rw [hok] at h
    cases h
  rw [layout, bind_eq_error_iff] at h
  obtain hzero | ⟨_, -, h⟩ := h
  · cases requireCapacity_eq_error hzero
  · obtain ⟨-, hcause⟩ | ⟨-, h⟩ := ite_throw_eq_error_iff.1 h
    · cases hcause
      exact ⟨rfl, rfl, rfl, hnot⟩
    · cases h

/-- Nothing but the split refuses a new store for its capacity. -/
theorem layout_of_create_refused {policy : Policy} {capacity minimum : ℕ}
    (h : (create n ratio : Except SetupError (Segmented κ ν)) =
      .error (.capacityTooSmall policy capacity minimum)) :
    layout n ratio = .error (.capacityTooSmall policy capacity minimum) := by
  obtain hfraction | ⟨_, -, h⟩ := bind_eq_error_iff.1 h
  · rw [requireFraction] at hfraction
    split at hfraction <;> cases hfraction
  obtain hlayout | ⟨split, -, h⟩ := bind_eq_error_iff.1 h
  · exact hlayout
  obtain hprobation | ⟨_, -, h⟩ := bind_eq_error_iff.1 h
  · cases Lru.create_eq_error hprobation
  obtain hguarded | ⟨_, -, h⟩ := bind_eq_error_iff.1 h
  · cases Lru.create_eq_error hguarded
  · cases h

/-- Nothing but the split refuses a new capacity. -/
theorem layout_of_resize_refused {policy : Policy} {capacity minimum : ℕ} {c : Segmented κ ν}
    (h : c.resize n = .error (.capacityTooSmall policy capacity minimum)) :
    layout n c.ratio = .error (.capacityTooSmall policy capacity minimum) := by
  rw [resize_def] at h
  obtain hlayout | ⟨split, -, h⟩ := bind_eq_error_iff.1 h
  · exact hlayout
  obtain hprobation | ⟨_, -, h⟩ := bind_eq_error_iff.1 h
  · cases Lru.resize_eq_error hprobation
  obtain hguarded | ⟨_, -, h⟩ := bind_eq_error_iff.1 h
  · cases Lru.resize_eq_error hguarded
  · cases h

/-- A capacity is accepted if there is a place besides the one that probation keeps, and if the
share, rounded after the capacity has been, is at least half an entry. -/
theorem accepts_iff (hr : HasValue ratio ρ) (hn : n ≤ maxCount) :
    Accepts n ratio ↔ 2 ≤ n ∧ 1 / 2 ≤ nearest (nearest n * ρ) := by
  have hround : 0 < roundCount (ofCount n * ratio) ↔ 1 / 2 ≤ nearest (nearest n * ρ) := by
    rw [roundCount_mul (hasValue_ofCount hn) hr, lt_min_iff, Nat.floor_pos]
    constructor
    · rintro ⟨h, -⟩
      linarith
    · intro h
      exact ⟨by linarith, by decide⟩
  rw [accepts_iff_guarded, ← hround]
  simp only [Split.ofRatio]
  omega

/-- The minimum that is announced, in exact numbers. -/
theorem leastCapacity_eq (hr : HasValue ratio ρ) (hpos : 0 < ρ) (hlt : ρ < 1) :
    leastCapacity ratio = max (min ⌈nearest (1 / 2 / ρ)⌉₊ maxCount) 2 := by
  have hnormal : 2 ^ (-1021 : ℤ) * ρ ≤ 1 / 2 :=
    calc 2 ^ (-1021 : ℤ) * ρ ≤ 2 ^ (-1 : ℤ) * 1 :=
          mul_le_mul (zpow_le_zpow_right₀ one_le_two (by decide)) hlt.le hpos.le (by positivity)
      _ = 1 / 2 := by norm_num
  rw [leastCapacity, ceilCount_div hasValue_half hr hpos hnormal]

/-- A larger capacity is accepted if a smaller one is. -/
theorem Accepts.mono {m : ℕ} (hr : HasValue ratio ρ) (hρ : 0 < ρ) (h : Accepts m ratio)
    (hle : m ≤ n) (hn : n ≤ maxCount) : Accepts n ratio := by
  obtain ⟨htwo, hhalf⟩ := (accepts_iff hr (hle.trans hn)).1 h
  refine (accepts_iff hr hn).2 ⟨htwo.trans hle, hhalf.trans (nearest_mono ?_)⟩
  exact mul_le_mul_of_nonneg_right (nearest_mono (by exact_mod_cast hle)) hρ.le

/-! ## The announced minimum -/

theorem leastCapacity_le_maxCount (ratio : Float) : leastCapacity ratio ≤ maxCount :=
  max_le (toCount_le_maxCount ..) (by decide)

section Announced

variable (hr : HasValue ratio ρ) (hpos : 0 < ρ) (hlt : ρ < 1)

include hr hpos hlt

theorem not_accepts_of_nearest_lt (hd : d ≤ maxCount)
    (h : nearest d < nearest (leastCapacity ratio)) : ¬Accepts d ratio := by
  intro haccepts
  obtain ⟨htwo, hhalf⟩ := (accepts_iff hr hd).1 haccepts
  have hdm : d < leastCapacity ratio := by
    by_contra! hle
    exact h.not_ge (nearest_mono (by exact_mod_cast hle))
  have hm : leastCapacity ratio ≤ ⌈nearest (1 / 2 / ρ)⌉₊ := by
    rw [leastCapacity_eq hr hpos hlt] at hdm ⊢
    omega
  have hdq : (d : ℚ) ≤ nearest (1 / 2 / ρ) := (Nat.lt_ceil.1 (hdm.trans_le hm)).le
  obtain hq | hq := (nearest_le_of_representable (representable_nearest _) hdq).lt_or_eq
  · exact hhalf.not_gt (nearest_mul_lt_half hpos (by omega) hq)
  · -- The quotient is a count then, and the minimum is no larger.
    obtain ⟨a, ha⟩ := exists_natCast_eq_nearest d
    have hma : leastCapacity ratio ≤ a := by rwa [← hq, ha, Nat.ceil_natCast] at hm
    refine h.not_ge ?_
    calc nearest (leastCapacity ratio) ≤ nearest a := nearest_mono (by exact_mod_cast hma)
      _ = nearest d := by rw [← ha, nearest_of_representable (representable_nearest _)]

theorem accepts_of_nearest_lt (hd : d ≤ maxCount)
    (h : nearest (leastCapacity ratio) < nearest d) : Accepts d ratio := by
  have hmd : leastCapacity ratio < d := by
    by_contra! hle
    exact h.not_ge (nearest_mono (by exact_mod_cast hle))
  have hceil : ⌈nearest (1 / 2 / ρ)⌉₊ ≤ leastCapacity ratio ∧ 2 ≤ leastCapacity ratio := by
    rw [leastCapacity_eq hr hpos hlt] at hmd ⊢
    omega
  refine (accepts_iff hr hd).2 ⟨hceil.2.trans hmd.le, half_le_nearest_mul hpos ?_⟩
  exact (le_nearest_of_representable (representable_nearest _) (Nat.ceil_le.1 hceil.1)).trans_lt h

/-- Doubles tell counts of few bits apart. -/
theorem not_accepts_of_lt_leastCapacity (hsmall : leastCapacity ratio < 2 ^ 53)
    (h : d < leastCapacity ratio) : ¬Accepts d ratio := by
  have hd := h.le.trans (leastCapacity_le_maxCount ratio)
  refine not_accepts_of_nearest_lt hr hpos hlt hd ?_
  rw [nearest_natCast (h.trans hsmall).le, nearest_natCast hsmall.le]
  exact_mod_cast h

theorem accepts_of_leastCapacity_lt (hsmall : leastCapacity ratio < 2 ^ 53) (hd : d ≤ maxCount)
    (h : leastCapacity ratio < d) : Accepts d ratio := by
  refine accepts_of_nearest_lt hr hpos hlt hd ?_
  calc nearest (leastCapacity ratio) = leastCapacity ratio := nearest_natCast hsmall.le
    _ < (leastCapacity ratio + 1 : ℕ) := by exact_mod_cast Nat.lt_succ_self _
    _ = nearest (leastCapacity ratio + 1 : ℕ) := (nearest_natCast hsmall).symm
    _ ≤ nearest d := nearest_mono (by exact_mod_cast h)

end Announced

/-- The capacities whose double is less than that of the minimum are refused, and those whose
double is greater are accepted. -/
structure IsNearLeast (minimum : ℕ) (ratio : Float) : Prop where
  below : ∀ d ≤ maxCount, ofCount d < ofCount minimum → ¬Accepts d ratio
  above : ∀ d ≤ maxCount, ofCount minimum < ofCount d → Accepts d ratio

theorem isNearLeast_leastCapacity (h : requireFraction .protectedRatio ratio = .ok ()) :
    IsNearLeast (leastCapacity ratio) ratio := by
  obtain ⟨ρ, hr, hpos, hlt⟩ := exists_hasValue (requireFraction_eq_ok_iff.1 h)
  have hm := hasValue_ofCount (leastCapacity_le_maxCount ratio)
  constructor
  · intro d hd hbelow
    exact not_accepts_of_nearest_lt hr hpos hlt hd ((hasValue_ofCount hd).lt_of_lt hm hbelow)
  · intro d hd habove
    exact accepts_of_nearest_lt hr hpos hlt hd (hm.lt_of_lt (hasValue_ofCount hd) habove)

/-- A capacity that is refused is refused with a minimum at the border of what is accepted. If the
minimum is accepted itself, then the refused capacity is less. Where doubles tell all counts apart,
nothing below the minimum is accepted, and everything beyond it is. -/
theorem refused_announces_border {policy : Policy} {capacity minimum : ℕ}
    (hratio : requireFraction .protectedRatio ratio = .ok ()) (hn : n ≤ maxCount)
    (hrefused :
      (create n ratio : Except SetupError (Segmented κ ν)) =
          .error (.capacityTooSmall policy capacity minimum) ∨
        ∃ c : Segmented κ ν, c.ratio = ratio ∧
          c.resize n = .error (.capacityTooSmall policy capacity minimum)) :
    policy = .segmented ∧ capacity = n ∧ IsNearLeast minimum ratio ∧
      (Accepts minimum ratio → n < minimum) ∧
      (minimum < 2 ^ 53 →
        n ≤ minimum ∧ (∀ d < minimum, ¬Accepts d ratio) ∧
          ∀ d ≤ maxCount, minimum < d → Accepts d ratio) := by
  have hlayout : layout n ratio = .error (.capacityTooSmall policy capacity minimum) := by
    obtain h | ⟨c, rfl, h⟩ := hrefused
    · exact layout_of_create_refused h
    · exact layout_of_resize_refused h
  obtain ⟨rfl, rfl, rfl, hnot⟩ := refused_of_layout hlayout
  obtain ⟨ρ, hr, hpos, hlt⟩ := exists_hasValue (requireFraction_eq_ok_iff.1 hratio)
  refine ⟨rfl, rfl, isNearLeast_leastCapacity hratio, fun hm => ?_, fun hsmall => ?_⟩
  · by_contra! hle
    exact hnot (hm.mono hr hpos hle hn)
  refine ⟨?_, fun d hd => not_accepts_of_lt_leastCapacity hr hpos hlt hsmall hd,
    fun d hd hmd => accepts_of_leastCapacity_lt hr hpos hlt hsmall hd hmd⟩
  by_contra! hmn
  exact hnot (accepts_of_leastCapacity_lt hr hpos hlt hsmall hn hmn)

/-- One tenth of five is half an entry. -/
theorem refused_announces_border_tenth :
    (create 3 0.1 : Except SetupError (Segmented Nat Nat)) =
        .error (.capacityTooSmall .segmented 3 5) ∧
      Accepts 5 0.1 ∧ 3 < 5 ∧ ∀ d < 5, ¬Accepts d 0.1 := by
  have hcreate : (create 3 0.1 : Except SetupError (Segmented Nat Nat)) =
      .error (.capacityTooSmall .segmented 3 5) := rfl
  have hfive : Accepts 5 0.1 := accepts_iff_guarded.2 ⟨by decide, by decide +kernel⟩
  obtain ⟨-, -, -, hlt, hsmall⟩ :=
    refused_announces_border (requireFraction_eq_ok_iff.2 (by decide +kernel)) (by decide)
      (.inl hcreate)
  exact ⟨hcreate, hfive, hlt hfive, (hsmall (by decide)).2.1⟩

/-- For the double below one tenth, half an entry over the share still comes to five, while that
share of five rounds to less than half an entry: five is refused with the advice to take five. -/
theorem create_announces_refused :
    (create 5 0.09999999999999999 : Except SetupError (Segmented Nat Nat)) =
        .error (.capacityTooSmall .segmented 5 5) ∧
      ¬Accepts 5 0.09999999999999999 ∧ Accepts 6 0.09999999999999999 := by
  refine ⟨rfl, ?_, ?_⟩
  · rw [accepts_iff_guarded]
    decide +kernel
  · exact accepts_iff_guarded.2 ⟨by decide, by decide +kernel⟩

end Segmented

end BoundedCache
