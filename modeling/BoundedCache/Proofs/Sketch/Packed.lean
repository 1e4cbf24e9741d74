import BoundedCache.Sketch.Packed
import Mathlib.Data.Nat.Bitwise

/-!
# Packed counters, lane by lane

A word of packed counters is read lane by lane. The bits of a counter are four bits of its word, so
bitwise operations act on every lane for itself, and the operations that change all counters at once
do to each of them what a division would do.

## Main definitions

- `Packed.age` — the word with every counter divided, however large the divisor is

## Main results

- `Packed.count_addCount` — adding to a counter leaves the other fifteen alone
- `Packed.count_halve`, `Packed.count_divide` — halving by a shift and a mask, and dividing lane by
  lane
- `Packed.count_age` — what becomes of a counter, for every divisor
-/

namespace BoundedCache.Packed

variable {word x y : UInt64} {lane l value : Nat}

/-! ## Bits -/

theorem toNat_shift_mod (h : lane < countersPerWord) : (shift lane).toNat % 64 = 4 * lane := by
  have hlane : lane < 16 := h
  have hsmall : 4 * lane < 2 ^ 64 := by omega
  have hshift : (shift lane).toNat = 4 * lane := Nat.mod_eq_of_lt hsmall
  rw [hshift]
  omega

/-- The bits of a counter are four bits of the word. -/
theorem testBit_count (word : UInt64) (h : lane < countersPerWord) (j : Nat) :
    (count word lane).testBit j = (decide (j < 4) && word.toNat.testBit (4 * lane + j)) := by
  have hmask : (15 : UInt64).toNat = 2 ^ 4 - 1 := rfl
  rw [count, UInt64.toNat_and, UInt64.toNat_shiftRight, toNat_shift_mod h, hmask, Nat.testBit_and,
    Nat.testBit_shiftRight, Nat.testBit_two_pow_sub_one, Bool.and_comm]

/-- A number that fits into a counter has no other bits than the lowest four. -/
theorem testBit_of_le_counterMax (hv : value ≤ counterMax) {j : Nat} (hj : 4 ≤ j) :
    value.testBit j = false := by
  have hlt : value < 2 ^ 4 := Nat.lt_succ_of_le hv
  exact Nat.testBit_lt_two_pow (hlt.trans_le (Nat.pow_le_pow_right (by decide) hj))

theorem count_le (word : UInt64) (lane : Nat) : count word lane ≤ counterMax := by
  rw [count, UInt64.toNat_and]
  exact Nat.and_le_right

/-! ## Words seen lane by lane -/

theorem count_zero (lane : Nat) : count 0 lane = 0 := by
  rw [count, UInt64.zero_shiftRight, UInt64.zero_and]
  rfl

theorem count_or (h : lane < countersPerWord) :
    count (x ||| y) lane = count x lane ||| count y lane := by
  refine Nat.eq_of_testBit_eq fun j => ?_
  rw [testBit_count _ h, Nat.testBit_or, testBit_count _ h, testBit_count _ h, UInt64.toNat_or,
    Nat.testBit_or, Bool.and_or_distrib_left]

theorem count_and (h : lane < countersPerWord) :
    count (x &&& y) lane = count x lane &&& count y lane := by
  refine Nat.eq_of_testBit_eq fun j => ?_
  rw [testBit_count _ h, Nat.testBit_and, testBit_count _ h, testBit_count _ h, UInt64.toNat_and,
    Nat.testBit_and]
  cases decide (j < 4) <;> simp

theorem count_not (h : lane < countersPerWord) : count (~~~x) lane = counterMax - count x lane := by
  have hlane : lane < 16 := h
  refine Nat.eq_of_testBit_eq fun j => ?_
  have hword : (~~~x).toNat = 2 ^ 64 - (x.toNat + 1) := by
    rw [UInt64.toNat_not]
    show 2 ^ 64 - 1 - x.toNat = _
    omega
  have hcounter : counterMax - count x lane = 2 ^ 4 - (count x lane + 1) := by
    show 15 - _ = 16 - _
    omega
  rw [testBit_count _ h, hword, Nat.testBit_two_pow_sub_succ x.toNat_lt, hcounter,
    Nat.testBit_two_pow_sub_succ (Nat.lt_succ_of_le (count_le x lane)), testBit_count _ h]
  by_cases hj : j < 4
  · have hin : 4 * lane + j < 64 := by omega
    simp [hj, hin]
  · simp [hj]

/-- A counter shifted to a lane is alone in its word. -/
theorem count_shiftLeft (h : lane < countersPerWord) (hl : l < countersPerWord)
    (hv : value ≤ counterMax) :
    count (value.toUInt64 <<< shift l) lane = if lane = l then value else 0 := by
  have hlane : lane < 16 := h
  have hvalue : value.toUInt64.toNat = value := by
    have hsmall : value ≤ 15 := hv
    exact Nat.mod_eq_of_lt (by omega)
  refine Nat.eq_of_testBit_eq fun j => ?_
  rw [testBit_count _ h, UInt64.toNat_shiftLeft, toNat_shift_mod hl, hvalue,
    Nat.testBit_mod_two_pow, Nat.testBit_shiftLeft]
  by_cases hj : j < 4
  · rw [decide_eq_true hj, decide_eq_true (show 4 * lane + j < 64 by omega), Bool.true_and,
      Bool.true_and]
    -- Below the lane nothing is shifted in, and above it the counter has no bits left.
    rcases Nat.lt_trichotomy lane l with hlt | rfl | hlt
    · rw [if_neg (Nat.ne_of_lt hlt), Nat.zero_testBit, decide_eq_false (by omega), Bool.false_and]
    · rw [if_pos rfl, decide_eq_true (by omega), Bool.true_and, Nat.add_sub_cancel_left]
    · rw [if_neg (Nat.ne_of_gt hlt), Nat.zero_testBit, testBit_of_le_counterMax hv (by omega),
        Bool.and_false]
  · rw [decide_eq_false hj, Bool.false_and]
    split
    · exact (testBit_of_le_counterMax hv (by omega)).symm
    · exact (Nat.zero_testBit j).symm

/-! ## Operations -/

/-- Replacing a counter changes no other one. -/
theorem count_setCount (h : lane < countersPerWord) (hl : l < countersPerWord)
    (hv : value ≤ counterMax) :
    count (setCount word l value) lane = if lane = l then value else count word lane := by
  have hmask : count ((15 : UInt64) <<< shift l) lane = if lane = l then counterMax else 0 :=
    count_shiftLeft h hl (Nat.le_refl counterMax)
  rw [setCount, count_or h, count_and h, count_not h, hmask, count_shiftLeft h hl hv]
  split
  · rw [Nat.sub_self, Nat.and_zero, Nat.zero_or]
  · have hall : count word lane &&& counterMax = count word lane % 2 ^ 4 :=
      Nat.and_two_pow_sub_one_eq_mod _ 4
    have hlt : count word lane < 2 ^ 4 := Nat.lt_succ_of_le (count_le word lane)
    rw [Nat.sub_zero, Nat.or_zero, hall, Nat.mod_eq_of_lt hlt]

theorem count_addCount (h : lane < countersPerWord) (hl : l < countersPerWord) (amount : Nat) :
    count (addCount word l amount) lane =
      if lane = l then min (count word lane + amount) counterMax else count word lane := by
  rw [addCount, count_setCount h hl (Nat.min_le_right ..)]
  split
  · next heq => rw [heq]
  · rfl

/-- The mask takes away the top bit of every counter. -/
theorem testBit_halvingMask :
    ∀ lane < 16, ∀ j < 4, Nat.testBit 0x7777777777777777 (4 * lane + j) = decide (j < 3) := by
  decide

theorem count_halve (h : lane < countersPerWord) :
    count (halve word) lane = count word lane / 2 := by
  refine Nat.eq_of_testBit_eq fun j => ?_
  have hmask : (0x7777777777777777 : UInt64).toNat = 0x7777777777777777 := rfl
  have hone : (1 : UInt64).toNat % 64 = 1 := rfl
  rw [testBit_count _ h, halve, UInt64.toNat_and, UInt64.toNat_shiftRight, hmask, hone,
    Nat.testBit_and, Nat.testBit_shiftRight, Nat.testBit_div_two, testBit_count _ h]
  by_cases hj : j < 4
  · have hindex : 1 + (4 * lane + j) = 4 * lane + (j + 1) := by omega
    have htop : decide (j < 3) = decide (j + 1 < 4) := decide_eq_decide.2 (by omega)
    rw [testBit_halvingMask lane h j hj, decide_eq_true hj, Bool.true_and, Bool.and_comm, hindex,
      htop]
  · rw [decide_eq_false hj, decide_eq_false (by omega), Bool.false_and, Bool.false_and]

/-- Counters put into their lanes one after the other. -/
theorem count_foldl_or {f : Nat → Nat} (hf : ∀ l, f l ≤ counterMax) (h : lane < countersPerWord)
    {lanes : List Nat} (hlanes : ∀ l ∈ lanes, l < countersPerWord) (init : UInt64) :
    count (lanes.foldl (fun aged l => aged ||| ((f l).toUInt64 <<< shift l)) init) lane =
      if lane ∈ lanes then count init lane ||| f lane else count init lane := by
  induction lanes generalizing init with
  | nil => simp
  | cons l lanes ih =>
    rw [List.forall_mem_cons] at hlanes
    rw [List.foldl_cons, ih hlanes.2, count_or h, count_shiftLeft h hlanes.1 (hf l)]
    by_cases heq : lane = l
    · subst heq
      simp
    · simp [heq]

theorem count_divide (h : lane < countersPerWord) (divisor : Nat) :
    count (divide word divisor) lane = count word lane / divisor := by
  have hf : ∀ l, count word l / divisor ≤ counterMax :=
    fun l => (Nat.div_le_self ..).trans (count_le word l)
  rw [divide, count_foldl_or hf h (fun l hl => List.mem_range.1 hl), if_pos (List.mem_range.2 h),
    count_zero, Nat.zero_or]

/-! ## Aging -/

/-- The word with every counter divided; a divisor of zero, or one larger than any counter, leaves
nothing. -/
def age (divisor : Nat) (word : UInt64) : UInt64 :=
  if divisor = 0 ∨ counterMax < divisor then 0
  else if divisor = 1 then word
  else if divisor = 2 then halve word
  else divide word divisor

theorem count_age (h : lane < countersPerWord) (divisor : Nat) :
    count (age divisor word) lane =
      if 1 ≤ divisor ∧ divisor ≤ counterMax then count word lane / divisor else 0 := by
  rw [age]
  by_cases hreset : divisor = 0 ∨ counterMax < divisor
  · rw [if_pos hreset, if_neg (by omega), count_zero]
  rw [if_neg hreset, if_pos (show 1 ≤ divisor ∧ divisor ≤ counterMax by omega)]
  split
  · next hone => rw [hone, Nat.div_one]
  split
  · next htwo => rw [htwo, count_halve h]
  · exact count_divide h divisor

end BoundedCache.Packed
