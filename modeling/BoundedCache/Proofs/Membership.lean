import BoundedCache.Membership
import BoundedCache.Proofs.Error
import Mathlib.Data.Nat.Bitwise

/-!
# Members are found

The positions of a filter are the bits of its packed words. An addition sets the positions of one
hash and no others, so a member stays one until the filter is cleared, whatever is added after it.

## Main results

- `Membership.testBit_setBit` — setting a bit changes no other bit
- `Membership.testBit_add` — an addition sets the positions of its hash, and no others
- `Membership.contains_add`, `Membership.contains_add_of_contains` — members are found
-/

namespace BoundedCache.Membership

variable {f : Membership} {p q : Nat} {hash : UInt64}

/-! ## Bits -/

/-- A mask has one bit, the one of its position inside the word. -/
theorem toNat_mask (p : Nat) : (mask p).toNat = 2 ^ (p % 64) := by
  have hbit : p % 64 < 64 := Nat.mod_lt _ (by decide)
  have hshift : (p % 64).toUInt64.toNat % 64 = p % 64 := by
    show p % 64 % 2 ^ 64 % 64 = _
    omega
  have hfits : 2 ^ (p % 64) < 2 ^ 64 := Nat.pow_lt_pow_right (by decide) hbit
  rw [mask, UInt64.toNat_shiftLeft, hshift, Nat.shiftLeft_eq, UInt64.toNat_one, Nat.one_mul,
    Nat.mod_eq_of_lt hfits]

theorem testBit_eq (f : Membership) (p : Nat) :
    f.testBit p = (f.words.getD (p / 64) 0).toNat.testBit (p % 64) := by
  have hzero : f.testBit p = ((f.words.getD (p / 64) 0 &&& mask p).toNat != 0) := by
    rw [testBit, Bool.eq_iff_iff, bne_iff_ne, bne_iff_ne, Ne, Ne, ← UInt64.toNat_inj,
      UInt64.toNat_zero]
  rw [hzero, UInt64.toNat_and, toNat_mask, Nat.and_two_pow]
  cases (f.words.getD (p / 64) 0).toNat.testBit (p % 64)
  · rw [Bool.toNat_false, Nat.zero_mul]
    rfl
  · rw [Bool.toNat_true, Nat.one_mul, bne_iff_ne]
    exact (Nat.two_pow_pos _).ne'

theorem testBit_setBit (hp : p < f.bits) (q : Nat) :
    (f.setBit p).testBit q = (f.testBit q || decide (p = q)) := by
  have hword : p / 64 < f.words.size := Nat.div_lt_of_lt_mul hp
  rw [testBit_eq, testBit_eq, setBit, Array.getD_eq_getD_getElem?, Array.getD_eq_getD_getElem?,
    Array.getElem?_modify]
  by_cases hsame : p / 64 = q / 64
  · rw [if_pos hsame, ← hsame, Array.getElem?_eq_getElem hword, Option.map_some, Option.getD_some,
      Option.getD_some, UInt64.toNat_or, toNat_mask, Nat.testBit_or, Nat.testBit_two_pow]
    have hplace : p % 64 = q % 64 ↔ p = q := by omega
    rw [decide_eq_decide.2 hplace]
  · have hne : p ≠ q := fun h => hsame (h ▸ rfl)
    rw [if_neg hsame, decide_eq_false hne, Bool.or_false]

/-! ## Additions -/

theorem size_setBit (f : Membership) (p : Nat) : (f.setBit p).words.size = f.words.size := by
  rw [setBit, Array.size_modify]

/-- Bits that are set move no position. -/
theorem layout_foldl_setBit (f : Membership) (ps : List Nat) :
    (ps.foldl setBit f).words.size = f.words.size ∧ (ps.foldl setBit f).seeds = f.seeds := by
  induction ps generalizing f with
  | nil => exact ⟨rfl, rfl⟩
  | cons p ps ih => exact ⟨(ih (f.setBit p)).1.trans (size_setBit f p), (ih (f.setBit p)).2⟩

theorem size_add (f : Membership) (hash : UInt64) : (f.add hash).words.size = f.words.size :=
  (layout_foldl_setBit f (f.positions hash)).1

theorem size_clear (f : Membership) : f.clear.words.size = f.words.size := by
  rw [clear, Array.size_map]

theorem positions_add (f : Membership) (hash other : UInt64) :
    (f.add hash).positions other = f.positions other := by
  obtain ⟨hsize, hseeds⟩ := layout_foldl_setBit f (f.positions hash)
  have hbits : (f.add hash).bits = f.bits := congrArg (64 * ·) hsize
  rw [positions, positions, show (f.add hash).seeds = f.seeds from hseeds]
  refine List.map_congr_left fun seed _ => ?_
  rw [position, position, hbits]

theorem testBit_foldl_setBit {ps : List Nat} (hps : ∀ p ∈ ps, p < f.bits) (q : Nat) :
    (ps.foldl setBit f).testBit q = (f.testBit q || decide (q ∈ ps)) := by
  induction ps generalizing f with
  | nil => rw [List.foldl_nil, decide_eq_false List.not_mem_nil, Bool.or_false]
  | cons p ps ih =>
    rw [List.forall_mem_cons] at hps
    have hbits : (f.setBit p).bits = f.bits := congrArg (64 * ·) (size_setBit f p)
    have hmem : decide (q ∈ p :: ps) = (decide (p = q) || decide (q ∈ ps)) := by
      rw [← Bool.decide_or, decide_eq_decide, List.mem_cons, eq_comm]
    rw [List.foldl_cons, ih (hbits ▸ hps.2), testBit_setBit hps.1, Bool.or_assoc, hmem]

/-- An addition sets the positions of its hash, and no others. -/
theorem testBit_add (h : 0 < f.words.size) (hash : UInt64) (q : Nat) :
    (f.add hash).testBit q = (f.testBit q || decide (q ∈ f.positions hash)) := by
  refine testBit_foldl_setBit (fun p hp => ?_) q
  obtain ⟨seed, -, rfl⟩ := List.mem_map.1 hp
  exact Nat.mod_lt _ (Nat.mul_pos (by decide) h)

theorem contains_add_iff (h : 0 < f.words.size) (hash other : UInt64) :
    (f.add hash).contains other = true ↔
      ∀ q ∈ f.positions other, f.testBit q = true ∨ q ∈ f.positions hash := by
  rw [contains, positions_add, List.all_eq_true]
  refine forall₂_congr fun q _ => ?_
  rw [testBit_add h, Bool.or_eq_true, decide_eq_true_eq]

/-- A hash that was added is found. -/
theorem contains_add (h : 0 < f.words.size) (hash : UInt64) : (f.add hash).contains hash = true :=
  (contains_add_iff h hash hash).2 fun _ hq => .inr hq

/-- A hash that is found is found after any addition. -/
theorem contains_add_of_contains (h : 0 < f.words.size) {other : UInt64}
    (hother : f.contains other = true) (hash : UInt64) : (f.add hash).contains other = true :=
  (contains_add_iff h hash other).2 fun q hq => .inl (List.all_eq_true.1 hother q hq)

/-- A new filter has room for bits. -/
theorem size_create {capacity : Nat} {rate : Float} {seed : UInt64}
    (hf : create capacity rate seed = .ok f) : 0 < f.words.size := by
  obtain ⟨_, -, hf⟩ := bind_eq_ok_iff.1 hf
  obtain ⟨_, -, hf⟩ := bind_eq_ok_iff.1 hf
  cases hf
  have hwords : 1 ≤ wordCount capacity rate := Nat.le_max_right ..
  rw [Array.size_replicate]
  exact hwords

end BoundedCache.Membership
