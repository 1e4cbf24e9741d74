import BoundedCache.Proofs.Error
import BoundedCache.Proofs.Sketch.Packed
import BoundedCache.Sketch.Basic
import Mathlib.Data.List.Basic

/-!
# Sketches never undercount

Every counter of a sketch evolves like a number of its own, to which the hashes of its cell add up.
The count of a hash that shares its cells with no other one is the reference: the more hashes add
up, the larger a counter gets, so no estimate ever falls below the reference.

## Main definitions

- `Sketch.Update`, `Sketch.updateAll` — the changes of a sketch, and a sequence of them
- `Sketch.Update.step` — what an update makes of a counter to which certain hashes add up
- `Sketch.exactCount` — the count of a hash that shares its cells with no other one
- `Sketch.Row.load` — the sum of the amounts that come to the cell of a hash

## Main results

- `Sketch.countOf_mono` — the more hashes add up, the larger the count
- `Sketch.countOf_additions` — additions to an empty counter make up their sum
- `Sketch.Row.count_updateAll` — the counters of a row, after any updates
- `Sketch.estimate_updateAll` — the estimates of a new sketch, after any updates
-/

namespace BoundedCache.Sketch

/-! ## Updates -/

/-- A change of the counts of a sketch. -/
inductive Update where
  | add (hash : UInt64) (amount : Nat)
  | attenuate (factor : Nat)
  | clear

def update (s : Sketch) : Update → Sketch
  | .add hash amount => s.add hash amount
  | .attenuate factor => s.attenuate factor
  | .clear => s.clear

/-- The effect of a sequence of updates. -/
def updateAll (s : Sketch) (updates : List Update) : Sketch := updates.foldl update s

namespace Update

/-- A hash and an amount, as the update that adds them. -/
def ofPair (addition : UInt64 × Nat) : Update := .add addition.1 addition.2

/-- The update sets every counter to zero. -/
def IsReset : Update → Prop
  | .add _ _ => False
  | .attenuate factor => factor = 0 ∨ Packed.counterMax < factor
  | .clear => True

/-- What an update makes of a counter to which the hashes with a property add up. -/
def step (counts : UInt64 → Bool) (count : Nat) : Update → Nat
  | .add hash amount => if counts hash then min (count + amount) Packed.counterMax else count
  | .attenuate factor => if 1 ≤ factor ∧ factor ≤ Packed.counterMax then count / factor else 0
  | .clear => 0

end Update

/-- The counter of the hashes with a property after a sequence of updates, if it was zero before. -/
def countOf (counts : UInt64 → Bool) (updates : List Update) : Nat :=
  updates.foldl (Update.step counts) 0

/-- The count of a hash that shares its cells with no other one. -/
def exactCount (hash : UInt64) (updates : List Update) : Nat :=
  countOf (fun other => other = hash) updates

/-- All counters are zero: nothing has been counted yet, or the last update was a reset. -/
def Blank (updates : List Update) : Prop := ∀ u ∈ updates.getLast?, u.IsReset

/-- The sum of the amounts added for the hashes with a property. -/
def total (counts : UInt64 → Bool) (additions : List (UInt64 × Nat)) : Nat :=
  ((additions.filter fun addition => counts addition.1).map Prod.snd).sum

/-! ## A single counter -/

section Counter

variable {p q : UInt64 → Bool} {m n : Nat}

theorem step_le (hn : n ≤ Packed.counterMax) (u : Update) : u.step p n ≤ Packed.counterMax := by
  cases u with
  | add hash amount =>
    rw [Update.step]
    split
    · exact Nat.min_le_right ..
    · exact hn
  | attenuate factor =>
    rw [Update.step]
    split
    · exact (Nat.div_le_self ..).trans hn
    · exact Nat.zero_le _
  | clear => exact Nat.zero_le _

theorem foldl_step_le (hn : n ≤ Packed.counterMax) (updates : List Update) :
    updates.foldl (Update.step p) n ≤ Packed.counterMax := by
  induction updates generalizing n with
  | nil => exact hn
  | cons u updates ih => exact ih (step_le hn u)

theorem countOf_le (updates : List Update) : countOf p updates ≤ Packed.counterMax :=
  foldl_step_le (Nat.zero_le _) updates

/-- The order of two counters is kept if the larger one counts all that the smaller one does. -/
theorem step_mono (hpq : ∀ hash, p hash → q hash) (hm : m ≤ Packed.counterMax) (hmn : m ≤ n)
    (u : Update) : u.step p m ≤ u.step q n := by
  cases u with
  | add hash amount =>
    rw [Update.step, Update.step]
    by_cases hp : p hash
    · rw [if_pos hp, if_pos (hpq hash hp)]
      omega
    · rw [if_neg hp]
      split
      · -- Only the larger one grows; it stops at a count that the smaller one does not exceed.
        omega
      · exact hmn
  | attenuate factor =>
    rw [Update.step, Update.step]
    split
    · exact Nat.div_le_div_right hmn
    · exact Nat.le_refl 0
  | clear => exact Nat.le_refl 0

theorem foldl_step_mono (hpq : ∀ hash, p hash → q hash) (hm : m ≤ Packed.counterMax) (hmn : m ≤ n)
    (updates : List Update) :
    updates.foldl (Update.step p) m ≤ updates.foldl (Update.step q) n := by
  induction updates generalizing m n with
  | nil => exact hmn
  | cons u updates ih => exact ih (step_le hm u) (step_mono hpq hm hmn u)

/-- The more hashes add up, the larger the count. -/
theorem countOf_mono (hpq : ∀ hash, p hash → q hash) (updates : List Update) :
    countOf p updates ≤ countOf q updates :=
  foldl_step_mono hpq (Nat.zero_le _) (Nat.le_refl 0) updates

theorem countOf_of_blank {updates : List Update} (h : Blank updates) : countOf p updates = 0 := by
  rcases List.eq_nil_or_concat' updates with rfl | ⟨earlier, u, rfl⟩
  · rfl
  · rw [countOf, List.foldl_concat]
    have hreset : u.IsReset := h u (by rw [List.getLast?_concat]; rfl)
    cases u with
    | add hash amount => exact hreset.elim
    | attenuate factor =>
      have hlimits : factor = 0 ∨ Packed.counterMax < factor := hreset
      exact if_neg (by omega)
    | clear => rfl

/-- Additions make up their sum, as far as a counter can hold it. -/
theorem foldl_step_additions (hn : n ≤ Packed.counterMax) (additions : List (UInt64 × Nat)) :
    (additions.map Update.ofPair).foldl (Update.step p) n =
      min (n + total p additions) Packed.counterMax := by
  induction additions generalizing n with
  | nil => exact (Nat.min_eq_left hn).symm
  | cons addition additions ih =>
    rw [List.map_cons, List.foldl_cons, ih (step_le hn _), Update.ofPair, Update.step, total, total,
      List.filter_cons]
    split
    · rw [List.map_cons, List.sum_cons]
      omega
    · rfl

theorem countOf_additions {earlier : List Update} (h : Blank earlier)
    (additions : List (UInt64 × Nat)) :
    countOf p (earlier ++ additions.map Update.ofPair) =
      min (total p additions) Packed.counterMax := by
  have hzero : earlier.foldl (Update.step p) 0 = 0 := countOf_of_blank h
  rw [countOf, List.foldl_append, hzero, foldl_step_additions (Nat.zero_le _), Nat.zero_add]

/-- The order of additions does not matter for their sum. -/
theorem total_perm {additions additions' : List (UInt64 × Nat)} (h : additions.Perm additions') :
    total p additions = total p additions' :=
  ((h.filter _).map _).sum_nat

theorem total_eq_zero {additions : List (UInt64 × Nat)} (h : ∀ a ∈ additions, p a.1 = false) :
    total p additions = 0 := by
  have hnone : additions.filter (fun a => p a.1) = [] := by
    rw [List.filter_eq_nil_iff]
    intro a ha
    rw [h a ha]
    exact Bool.false_ne_true
  rw [total, hnone]
  rfl

end Counter

/-! ## A row of counters -/

namespace Row

variable {row : Row} {c : Cell}

/-- The cell is one of the row. -/
structure Has (row : Row) (c : Cell) : Prop where
  word_lt : c.word < row.words.size
  lane_lt : c.lane < Packed.countersPerWord

/-- What an update does to one row. -/
def update (row : Row) : Update → Row
  | .add hash amount => row.add hash amount
  | .attenuate factor => row.mapWords (Packed.age factor)
  | .clear => row.mapWords fun _ => 0

def updateAll (row : Row) (updates : List Update) : Row := updates.foldl update row

/-- The sum of the amounts that come to the cell of a hash. -/
def load (row : Row) (hash : UInt64) (additions : List (UInt64 × Nat)) : Nat :=
  total (fun other => row.cell other = row.cell hash) additions

/-- Every hash maps to a cell of the row. -/
theorem has_cell (h : 0 < row.words.size) (hash : UInt64) : row.Has (row.cell hash) where
  word_lt := Nat.mod_lt _ h
  lane_lt := by
    have hle : (Word.scramble (hash ^^^ row.seed) &&& 15).toNat ≤ 15 := by
      rw [UInt64.toNat_and]
      exact Nat.and_le_right
    exact Nat.lt_succ_of_le hle

theorem count_zeros (n : Nat) (seed : UInt64) (c : Cell) : (zeros n seed).count c = 0 := by
  have hword : (zeros n seed).words.getD c.word 0 = 0 := by
    rw [zeros, Array.getD_eq_getD_getElem?, Array.getElem?_replicate]
    split <;> rfl
  rw [count, hword, Packed.count_zero]

/-- An addition changes the counter of the cell that the hash maps to, and no other. -/
theorem count_add (h : row.Has c) (hash : UInt64) (amount : Nat) :
    (row.add hash amount).count c =
      if row.cell hash = c then min (row.count c + amount) Packed.counterMax else row.count c := by
  have hlane := (has_cell (Nat.zero_lt_of_lt h.word_lt) hash).lane_lt
  have hget := Array.getElem?_eq_getElem h.word_lt
  rw [count, count, add, Array.getD_eq_getD_getElem?, Array.getD_eq_getD_getElem?,
    Array.getElem?_modify]
  by_cases hword : (row.cell hash).word = c.word
  · rw [if_pos hword, hget, Option.map_some, Option.getD_some, Option.getD_some,
      Packed.count_addCount h.lane_lt hlane]
    by_cases hsame : c.lane = (row.cell hash).lane
    · rw [if_pos hsame, if_pos]
      cases c
      cases hcell : row.cell hash
      simp_all
    · rw [if_neg hsame, if_neg]
      rintro rfl
      exact hsame rfl
  · rw [if_neg hword, if_neg]
    rintro rfl
    exact hword rfl

/-- What is done to all words is done to the word of the cell. -/
theorem count_mapWords (h : row.Has c) (f : UInt64 → UInt64) :
    (row.mapWords f).count c = Packed.count (f (row.words.getD c.word 0)) c.lane := by
  have hget := Array.getElem?_eq_getElem h.word_lt
  rw [count, mapWords, Array.getD_eq_getD_getElem?, Array.getD_eq_getD_getElem?,
    Array.getElem?_map, hget, Option.map_some, Option.getD_some, Option.getD_some]

/-- The hashes of a cell add up to its counter. -/
theorem count_update (h : row.Has c) (u : Update) :
    (row.update u).count c = u.step (fun hash => row.cell hash = c) (row.count c) := by
  cases u with
  | add hash amount =>
    rw [update, count_add h, Update.step]
    simp only [decide_eq_true_eq]
  | attenuate factor =>
    rw [update, count_mapWords h, Packed.count_age h.lane_lt]
    rfl
  | clear =>
    rw [update, count_mapWords h, Packed.count_zero]
    rfl

/-- An update keeps the number of words. -/
theorem size_update (row : Row) (u : Update) : (row.update u).words.size = row.words.size := by
  cases u with
  | add hash amount => rw [update, add, Array.size_modify]
  | attenuate factor => rw [update, mapWords, Array.size_map]
  | clear => rw [update, mapWords, Array.size_map]

theorem seed_update (row : Row) (u : Update) : (row.update u).seed = row.seed := by
  cases u with
  | add hash amount => rw [update, add]
  | attenuate factor => rw [update, mapWords]
  | clear => rw [update, mapWords]

/-- Every hash keeps its cell. -/
theorem cell_update (row : Row) (u : Update) (hash : UInt64) :
    (row.update u).cell hash = row.cell hash := by
  rw [cell, cell, size_update, seed_update]

/-- What a row counts for a hash changes by the hashes of its cell. -/
theorem estimate_update (h : 0 < row.words.size) (u : Update) (hash : UInt64) :
    (row.update u).estimate hash =
      u.step (fun other => row.cell other = row.cell hash) (row.estimate hash) := by
  rw [estimate, cell_update, count_update (has_cell h hash), estimate]

theorem has_update (h : row.Has c) (u : Update) : (row.update u).Has c where
  word_lt := (size_update row u).symm ▸ h.word_lt
  lane_lt := h.lane_lt

theorem cell_updateAll (row : Row) (updates : List Update) (hash : UInt64) :
    (row.updateAll updates).cell hash = row.cell hash := by
  induction updates generalizing row with
  | nil => rfl
  | cons u updates ih => exact (ih (row.update u)).trans (cell_update row u hash)

/-- After any updates, a counter is what the hashes of its cell add up to. -/
theorem count_updateAll (h : row.Has c) (updates : List Update) :
    (row.updateAll updates).count c =
      updates.foldl (Update.step fun hash => row.cell hash = c) (row.count c) := by
  induction updates generalizing row with
  | nil => rfl
  | cons u updates ih =>
    -- An update changes the row, but not the cells that hashes map to.
    rw [updateAll, List.foldl_cons, ← updateAll, ih (has_update h u), count_update h,
      List.foldl_cons]
    simp only [cell_update]

/-- The count that a new row gives for a hash, after any updates. -/
theorem estimate_zeros_updateAll {n : Nat} (hn : 0 < n) (seed hash : UInt64)
    (updates : List Update) :
    ((zeros n seed).updateAll updates).estimate hash =
      countOf (fun other => (zeros n seed).cell other = (zeros n seed).cell hash) updates := by
  have hsize : 0 < (zeros n seed).words.size := hn.trans_eq Array.size_replicate.symm
  rw [estimate, cell_updateAll, count_updateAll (has_cell hsize hash), count_zeros]
  rfl

end Row

/-! ## All rows -/

/-- Attenuation ages every word of every row. -/
theorem attenuate_eq (s : Sketch) (factor : Nat) :
    s.attenuate factor = ⟨s.rows.map fun row => row.mapWords (Packed.age factor)⟩ := by
  by_cases hreset : factor = 0 ∨ Packed.counterMax < factor
  · have hage : Packed.age factor = fun _ => 0 := funext fun _ => if_pos hreset
    rw [attenuate, if_pos hreset, hage, clear]
  rw [attenuate, if_neg hreset]
  by_cases hone : factor = 1
  · subst hone
    have hkeep : ∀ row : Row, row.mapWords (Packed.age 1) = row := by
      intro row
      have hage : Packed.age 1 = id := rfl
      rw [Row.mapWords, hage, Array.map_id]
    simp only [hkeep, List.map_id', if_pos]
  rw [if_neg hone]
  by_cases htwo : factor = 2
  · subst htwo
    rfl
  · have hage : Packed.age factor = fun word => Packed.divide word factor := by
      funext word
      rw [Packed.age, if_neg hreset, if_neg hone, if_neg htwo]
    rw [if_neg htwo, hage]

/-- The rows change independently of each other. -/
theorem rows_update (s : Sketch) (u : Update) :
    (s.update u).rows = s.rows.map fun row => row.update u := by
  cases u with
  | add hash amount => rfl
  | attenuate factor =>
    rw [update, attenuate_eq]
    rfl
  | clear => rfl

theorem rows_updateAll (s : Sketch) (updates : List Update) :
    (s.updateAll updates).rows = s.rows.map fun row => row.updateAll updates := by
  induction updates generalizing s with
  | nil => exact (List.map_id' s.rows).symm
  | cons u updates ih =>
    rw [updateAll, List.foldl_cons, ← updateAll, ih, rows_update, List.map_map]
    rfl

theorem le_leastCount_iff {hash : UInt64} {n : Nat} (rows : List Row) (least : Nat) :
    n ≤ leastCount hash rows least ↔ n ≤ least ∧ ∀ row ∈ rows, n ≤ row.estimate hash := by
  induction rows generalizing least with
  | nil => simp [leastCount]
  | cons row rows ih =>
    rw [leastCount, List.forall_mem_cons]
    split
    · next hzero =>
      rw [hzero, Nat.le_zero]
      refine ⟨?_, fun h => h.2.1⟩
      rintro rfl
      exact ⟨Nat.zero_le _, rfl, fun _ _ => Nat.zero_le _⟩
    · rw [ih, Nat.le_min, and_assoc]

/-- The estimate is the least of the counters, as far as a counter goes. -/
theorem le_estimate_iff {s : Sketch} {hash : UInt64} {n : Nat} :
    n ≤ s.estimate hash ↔ n ≤ Packed.counterMax ∧ ∀ row ∈ s.rows, n ≤ row.estimate hash :=
  le_leastCount_iff s.rows Packed.counterMax

section Create

variable {size errorRange : Nat} {errorRate : Float} {seed : UInt64} {s : Sketch}

theorem isPowerOfTwo_rowWords (size errorRange : Nat) :
    (rowWords size errorRange).isPowerOfTwo :=
  Nat.isPowerOfTwo_nextPowerOfTwo _

theorem rowWords_pos (size errorRange : Nat) : 0 < rowWords size errorRange :=
  Nat.pos_of_isPowerOfTwo (isPowerOfTwo_rowWords size errorRange)

/-- A new sketch has at least one row, and all of its counters are zero. -/
theorem rows_create (hs : create size errorRange errorRate seed = .ok s) :
    s.rows ≠ [] ∧ ∀ row ∈ s.rows, ∃ seed, row = Row.zeros (rowWords size errorRange) seed := by
  obtain ⟨_, -, hs⟩ := bind_eq_ok_iff.1 hs
  obtain ⟨-, hs⟩ := ite_throw_eq_ok_iff.1 hs
  obtain ⟨_, -, hs⟩ := bind_eq_ok_iff.1 hs
  cases hs
  constructor
  · have hcount : 1 ≤ rowCount errorRate := Nat.le_max_right ..
    refine List.ne_nil_of_length_pos ?_
    rw [List.length_map, Generator.length_words]
    exact hcount
  · intro row hrow
    obtain ⟨rowSeed, -, rfl⟩ := List.mem_map.1 hrow
    exact ⟨rowSeed, rfl⟩

/-- An estimate is bounded by what the rows count for the cells of the hash. -/
theorem le_estimate_updateAll_iff (hs : create size errorRange errorRate seed = .ok s)
    (hash : UInt64) (updates : List Update) {n : Nat} :
    n ≤ (s.updateAll updates).estimate hash ↔ n ≤ Packed.counterMax ∧
      ∀ row ∈ s.rows, n ≤ countOf (fun other => row.cell other = row.cell hash) updates := by
  obtain ⟨-, hrows⟩ := rows_create hs
  rw [le_estimate_iff, rows_updateAll, List.forall_mem_map]
  refine and_congr_right fun _ => forall₂_congr fun row hrow => ?_
  obtain ⟨rowSeed, rfl⟩ := hrows row hrow
  rw [Row.estimate_zeros_updateAll (rowWords_pos size errorRange)]

/-- While hashes are only added to counters that were zero, the estimate is the least load of a cell
of the hash. -/
theorem estimate_additions (hs : create size errorRange errorRate seed = .ok s) (hash : UInt64)
    {earlier : List Update} (hearlier : Blank earlier) (additions : List (UInt64 × Nat)) :
    ∃ least, (s.rows.map fun row => row.load hash additions).min? = some least ∧
      (s.updateAll (earlier ++ additions.map Update.ofPair)).estimate hash =
        min Packed.counterMax least := by
  have hloads : (s.rows.map fun row => row.load hash additions) ≠ [] :=
    mt List.map_eq_nil_iff.1 (rows_create hs).1
  obtain ⟨least, hleast⟩ := Option.isSome_iff_exists.1 (List.isSome_min?_of_ne_nil hloads)
  refine ⟨least, hleast, eq_of_forall_le_iff fun n => ?_⟩
  rw [le_estimate_updateAll_iff hs, Nat.le_min, List.le_min?_iff hleast, List.forall_mem_map]
  refine and_congr_right fun hn => forall₂_congr fun row _ => ?_
  rw [countOf_additions hearlier, Nat.le_min, and_iff_left hn, Row.load]

/-- Estimates never fall below the exact count of a hash, whatever is added to other hashes and
however the counts are aged in between. While hashes are only added since the sketch was new or
reset, the estimate is the least load of a cell of the hash. So additions may come in any order, and
a hash that shares its cell with none of them, in some row, is known to be new. -/
theorem estimate_updateAll (hs : create size errorRange errorRate seed = .ok s) (hash : UInt64) :
    (∀ updates, exactCount hash updates ≤ (s.updateAll updates).estimate hash ∧
      (s.updateAll updates).estimate hash ≤ Packed.counterMax) ∧
    ∀ earlier, Blank earlier →
      let estimate := fun additions : List (UInt64 × Nat) =>
        (s.updateAll (earlier ++ additions.map Update.ofPair)).estimate hash
      ∀ additions,
        (∃ least, (s.rows.map fun row => row.load hash additions).min? = some least ∧
          estimate additions = min Packed.counterMax least) ∧
        (∀ additions', additions.Perm additions' → estimate additions' = estimate additions) ∧
        ((∃ row ∈ s.rows, ∀ a ∈ additions, row.cell a.1 ≠ row.cell hash) →
          estimate additions = 0) := by
  refine ⟨fun updates => ⟨?_, ?_⟩, fun earlier hearlier => ?_⟩
  · refine (le_estimate_updateAll_iff hs hash updates).2 ⟨countOf_le updates, fun row _ => ?_⟩
    refine countOf_mono (fun other hother => ?_) updates
    rw [of_decide_eq_true hother]
    exact decide_eq_true rfl
  · exact ((le_estimate_updateAll_iff hs hash updates).1 (Nat.le_refl _)).1
  intro estimate additions
  obtain ⟨least, hleast, hestimate⟩ := estimate_additions hs hash hearlier additions
  refine ⟨⟨least, hleast, hestimate⟩, fun additions' hperm => ?_, ?_⟩
  · obtain ⟨least', hleast', hestimate'⟩ := estimate_additions hs hash hearlier additions'
    have hloads : (s.rows.map fun row => row.load hash additions) =
        s.rows.map fun row => row.load hash additions' :=
      List.map_congr_left fun row _ => total_perm hperm
    rw [← hloads, hleast] at hleast'
    cases hleast'
    exact hestimate'.trans hestimate.symm
  · rintro ⟨row, hrow, halone⟩
    have hzero : row.load hash additions = 0 :=
      total_eq_zero fun a ha => decide_eq_false (halone a ha)
    have hle : least ≤ row.load hash additions :=
      (List.le_min?_iff hleast).1 (Nat.le_refl least) _ (List.mem_map_of_mem hrow)
    show (s.updateAll (earlier ++ additions.map Update.ofPair)).estimate hash = 0
    omega

/-- A hash that is counted 20 times, and again after the counts were halved twice. -/
theorem estimate_updateAll_aged :
    ∃ s, create 4 1 0.5 7 = .ok s ∧
      exactCount 3 [.add 3 20, .attenuate 2, .add 5 1, .attenuate 2, .add 3 1] = 4 ∧
      4 ≤ (s.updateAll [.add 3 20, .attenuate 2, .add 5 1, .attenuate 2, .add 3 1]).estimate 3 ∧
      ∃ least, (s.rows.map fun row => row.load 3 [(5, 2), (3, 1)]).min? = some least ∧
        (s.updateAll [.add 3 20, .clear, .add 5 2, .add 3 1]).estimate 3 =
          min Packed.counterMax least := by
  have hfraction : requireFraction .errorRate 0.5 = .ok () :=
    requireFraction_eq_ok_iff.2 (by decide +kernel)
  obtain ⟨s, hs⟩ : ∃ s, create 4 1 0.5 7 = .ok s := ⟨_, by rw [create, hfraction]; rfl⟩
  have hcount : exactCount 3 [.add 3 20, .attenuate 2, .add 5 1, .attenuate 2, .add 3 1] = 4 := by
    decide
  refine ⟨s, hs, hcount, hcount ▸ ((estimate_updateAll hs 3).1 _).1, ?_⟩
  exact ((estimate_updateAll hs 3).2 [.add 3 20, .clear]
    (by rintro _ ⟨⟩; trivial) [(5, 2), (3, 1)]).1

end Create

end BoundedCache.Sketch
