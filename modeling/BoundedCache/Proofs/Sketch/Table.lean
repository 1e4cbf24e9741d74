import BoundedCache.Proofs.Sketch.Estimate

/-!
# One table for all rows

The rows of a sketch may lie one after the other in a single table of words, in which a hash finds
its counter of each row by a mask and a shift. Whatever the words of the table are, it acts like an
array of counters: an addition touches one counter in each row, and aging divides every counter for
itself, though all counters of a word are halved at once.

## Main definitions

- `Sketch.Regular` — the rows have one size, which is a power of two
- `Sketch.table`, `Sketch.counter` — the words of all rows, and a counter in one of them
- `Sketch.locate` — the counter of a hash in a row, as a word of the table and a lane in it
- `Sketch.SameLayout` — two sketches in which every hash has the same counters
- `Sketch.Adds`, `Sketch.Divides` — what an addition and a division do to the counters

## Main results

- `Packed.halve_eq_divide` — halving all counters of a word at once is dividing each of them by two
- `Sketch.Regular.locate_lt` — every hash has its counters inside the table
- `Sketch.estimate_attenuate` — estimates are divided as counters are
- `Sketch.table_refines_counters` — a table of any content acts like an array of counters
-/

namespace BoundedCache

namespace Packed

/-- Two words are equal if their counters are. -/
theorem eq_of_count {x y : UInt64} (h : ∀ lane < countersPerWord, count x lane = count y lane) :
    x = y := by
  apply Word.eq_of_testBit
  intro j hj
  have hlane : j / 4 < countersPerWord := Nat.div_lt_of_lt_mul hj
  have hbit := congrArg (fun n => n.testBit (j % 4)) (h (j / 4) hlane)
  simpa [testBit_count _ hlane, Nat.mod_lt, Nat.div_add_mod] using hbit

/-- Halving all counters of a word at once is dividing each of them by two. -/
theorem halve_eq_divide (word : UInt64) : halve word = divide word 2 := by
  apply eq_of_count
  intro lane hlane
  rw [count_halve hlane, count_divide hlane]

end Packed

namespace Sketch

/-! ## The table -/

/-- The rows have one size, which is a power of two, and there is at least one of them. Nothing is
said of what the counters are. -/
structure Regular (words : Nat) (s : Sketch) : Prop where
  rows_ne_nil : s.rows ≠ []
  size_eq : ∀ row ∈ s.rows, row.words.size = words
  isPowerOfTwo : words.isPowerOfTwo

/-- The words of all rows, one row after the other. -/
def table (s : Sketch) : List UInt64 := s.rows.flatMap fun row => row.words.toList

/-- The counter in a lane of a word of the table. -/
def counter (s : Sketch) (place : Nat × Nat) : Nat :=
  Packed.count (s.table.getD place.1 0) place.2

/-- The counter that a hash has in a row, if every row takes a number of words of the table. The
bits above the lowest four of the scrambled hash are masked to find the word. -/
def locate (s : Sketch) (words row : Nat) (hash : UInt64) : Nat × Nat :=
  let scrambled := Word.scramble (hash ^^^ s.rows[row]?.elim 0 Row.seed)
  (row * words + ((scrambled >>> 4).toNat &&& (words - 1)), (scrambled &&& 15).toNat)

variable {s t : Sketch} {row : Row} {words r w i lane : Nat}

/-- Blocks of one length, laid out one after the other. -/
theorem getElem?_flatMap {α β : Type} {l : List α} {f : α → List β} {n : Nat}
    (h : ∀ a ∈ l, (f a).length = n) (hw : w < n) :
    (l.flatMap f)[r * n + w]? = l[r]?.bind fun a => (f a)[w]? := by
  induction l generalizing r with
  | nil => simp
  | cons a l ih =>
    rw [List.forall_mem_cons] at h
    rw [List.flatMap_cons]
    cases r with
    | zero =>
      rw [Nat.zero_mul, Nat.zero_add, List.getElem?_append_left (h.1.symm ▸ hw)]
      simp
    | succ r =>
      have hskip : (r + 1) * n + w = n + (r * n + w) := by
        rw [Nat.succ_mul]
        omega
      rw [hskip, List.getElem?_append_right (h.1.symm ▸ Nat.le_add_right ..), h.1,
        Nat.add_sub_cancel_left, ih h.2, List.getElem?_cons_succ]

namespace Regular

theorem words_pos (h : s.Regular words) : 0 < words := Nat.pos_of_isPowerOfTwo h.isPowerOfTwo

theorem size_pos (h : s.Regular words) (hrow : row ∈ s.rows) : 0 < row.words.size :=
  (h.size_eq row hrow).symm ▸ h.words_pos

theorem length_table (h : s.Regular words) : s.table.length = s.hashes * words := by
  have hlengths : s.rows.map (fun row => row.words.toList.length) =
      List.replicate s.rows.length words := by
    rw [List.eq_replicate_iff, List.length_map, List.forall_mem_map]
    exact ⟨rfl, fun row hrow => Array.length_toList.trans (h.size_eq row hrow)⟩
  rw [table, List.length_flatMap, hlengths, List.sum_replicate_nat, hashes]

/-- A word of the table is a word of a row. -/
theorem table_getElem? (h : s.Regular words) (hw : w < words) :
    s.table[r * words + w]? = s.rows[r]?.bind fun row => row.words[w]? := by
  have hlength : ∀ row ∈ s.rows, row.words.toList.length = words :=
    fun row hrow => Array.length_toList.trans (h.size_eq row hrow)
  rw [table, getElem?_flatMap hlength hw]
  simp only [Array.getElem?_toList]

/-- Every word of the table is in a row. -/
theorem exists_row (h : s.Regular words) (hi : i < s.table.length) :
    ∃ row, s.rows[i / words]? = some row ∧ row ∈ s.rows := by
  have hlt : i / words < s.rows.length := by
    rw [h.length_table, Nat.mul_comm] at hi
    exact Nat.div_lt_of_lt_mul hi
  exact ⟨_, List.getElem?_eq_getElem hlt, List.getElem_mem hlt⟩

theorem counter_eq (h : s.Regular words) (hrow : s.rows[r]? = some row) (hw : w < words)
    (lane : Nat) :
    s.counter (r * words + w, lane) = row.count ⟨w, lane⟩ := by
  rw [counter, List.getD_eq_getElem?_getD, h.table_getElem? hw, hrow, Option.bind_some, Row.count,
    Array.getD_eq_getD_getElem?]

/-- The mask finds the word of the row that the hash maps to. -/
theorem locate_eq (h : s.Regular words) (hrow : s.rows[r]? = some row) (hash : UInt64) :
    s.locate words r hash = (r * words + (row.cell hash).word, (row.cell hash).lane) := by
  obtain ⟨k, hk⟩ := h.isPowerOfTwo
  have hsize : row.words.size = words := h.size_eq row (List.mem_of_getElem? hrow)
  rw [locate, hrow, Row.cell, hsize, hk, Nat.and_two_pow_sub_one_eq_mod]
  rfl

/-- A counter of the table is the one of a cell of its row. -/
theorem locate_eq_iff (h : s.Regular words) (hrow : s.rows[i / words]? = some row) (hash : UInt64) :
    s.locate words (i / words) hash = (i, lane) ↔ row.cell hash = ⟨i % words, lane⟩ := by
  have hplace := Nat.div_add_mod' i words
  rw [h.locate_eq hrow, Prod.mk.injEq]
  cases row.cell hash
  simp only [Cell.mk.injEq]
  omega

/-- Every hash has its counters inside the table. -/
theorem locate_lt (h : s.Regular words) (hr : r < s.hashes) (hash : UInt64) :
    let place := s.locate words r hash
    place.1 / words = r ∧ place.1 < s.table.length ∧ place.2 < Packed.countersPerWord := by
  have hrow := List.getElem?_eq_getElem hr
  have hmem := List.getElem_mem hr
  have hcell := Row.has_cell (h.size_pos hmem) hash
  have hword : (s.rows[r].cell hash).word < words := h.size_eq _ hmem ▸ hcell.word_lt
  rw [h.locate_eq hrow]
  refine ⟨?_, ?_, hcell.lane_lt⟩
  · rw [Nat.mul_comm, Nat.mul_add_div h.words_pos, Nat.div_eq_of_lt hword, Nat.add_zero]
  · rw [h.length_table]
    calc r * words + (s.rows[r].cell hash).word
        < r * words + words := Nat.add_lt_add_left hword _
      _ = (r + 1) * words := (Nat.succ_mul r words).symm
      _ ≤ s.hashes * words := Nat.mul_le_mul_right _ hr

/-- The estimate is the least of the counters of a hash. -/
theorem le_estimate_iff (h : s.Regular words) (hash : UInt64) (n : Nat) :
    n ≤ s.estimate hash ↔ ∀ r < s.hashes, n ≤ s.counter (s.locate words r hash) := by
  have hcounter : ∀ (r : Nat) (hr : r < s.hashes),
      s.counter (s.locate words r hash) = s.rows[r].estimate hash := by
    intro r hr
    have hmem := List.getElem_mem hr
    have hword : (s.rows[r].cell hash).word < words :=
      h.size_eq _ hmem ▸ (Row.has_cell (h.size_pos hmem) hash).word_lt
    rw [h.locate_eq (List.getElem?_eq_getElem hr), h.counter_eq (List.getElem?_eq_getElem hr) hword]
    rfl
  rw [Sketch.le_estimate_iff, List.forall_mem_iff_forall_getElem]
  constructor
  · rintro ⟨-, hall⟩ r hr
    rw [hcounter r hr]
    exact hall r hr
  · intro hall
    have hpos : 0 < s.hashes := List.length_pos_of_ne_nil h.rows_ne_nil
    refine ⟨(hall 0 hpos).trans (Packed.count_le _ _), fun r hr => ?_⟩
    rw [← hcounter r hr]
    exact hall r hr

end Regular

/-! ## Updates of the table -/

/-- Every hash has the same counters in two sketches, which may differ in what the counters are. -/
structure SameLayout (words : Nat) (s t : Sketch) : Prop where
  regular : t.Regular words
  length_eq : t.table.length = s.table.length
  locate_eq : ∀ r hash, t.locate words r hash = s.locate words r hash

/-- An addition changes one counter in each row, the one of the hash. The other counters of that
word and all other words stay as they are. -/
structure Adds (words : Nat) (s : Sketch) (hash : UInt64) (amount : Nat) (t : Sketch) : Prop where
  layout : SameLayout words s t
  counter_eq : ∀ i < s.table.length, ∀ lane < Packed.countersPerWord,
    t.counter (i, lane) = if s.locate words (i / words) hash = (i, lane)
      then min (s.counter (i, lane) + amount) Packed.counterMax else s.counter (i, lane)
  word_eq : ∀ i < s.table.length, (s.locate words (i / words) hash).1 ≠ i →
    t.table[i]? = s.table[i]?

/-- All counters are divided, and the estimates with them; a divisor of zero, or one larger than any
counter, leaves nothing. -/
structure Divides (words : Nat) (s : Sketch) (divisor : Nat) (t : Sketch) : Prop where
  layout : SameLayout words s t
  counter_eq : ∀ i < s.table.length, ∀ lane < Packed.countersPerWord,
    t.counter (i, lane) = if 1 ≤ divisor ∧ divisor ≤ Packed.counterMax
      then s.counter (i, lane) / divisor else 0
  estimate_eq : ∀ hash, t.estimate hash = if 1 ≤ divisor ∧ divisor ≤ Packed.counterMax
    then s.estimate hash / divisor else 0

namespace Regular

/-- No update moves a counter. -/
theorem update (h : s.Regular words) (u : Update) : SameLayout words s (s.update u) := by
  have hregular : (s.update u).Regular words := by
    refine ⟨?_, ?_, h.isPowerOfTwo⟩
    · rw [rows_update]
      exact mt List.map_eq_nil_iff.1 h.rows_ne_nil
    · rw [rows_update, List.forall_mem_map]
      intro row hrow
      rw [Row.size_update]
      exact h.size_eq row hrow
  refine ⟨hregular, ?_, fun r hash => ?_⟩
  · rw [hregular.length_table, h.length_table, hashes, rows_update, List.length_map, hashes]
  · have hseed : (s.update u).rows[r]?.elim 0 Row.seed = s.rows[r]?.elim 0 Row.seed := by
      rw [rows_update, List.getElem?_map]
      cases s.rows[r]? with
      | none => rfl
      | some row => exact Row.seed_update row u
    rw [locate, locate, hseed]

theorem updateAll (h : s.Regular words) (updates : List Update) :
    (s.updateAll updates).Regular words := by
  induction updates generalizing s with
  | nil => exact h
  | cons u updates ih => exact ih (h.update u).regular

/-- An update does to a counter of the table what it does to the counter of the row. -/
theorem counter_update (h : s.Regular words) (u : Update) (hi : i < s.table.length)
    (hlane : lane < Packed.countersPerWord) :
    (s.update u).counter (i, lane) =
      u.step (fun hash => s.locate words (i / words) hash = (i, lane)) (s.counter (i, lane)) := by
  obtain ⟨row, hrow, hmem⟩ := h.exists_row hi
  have hw : i % words < words := Nat.mod_lt _ h.words_pos
  have hrow' : (s.update u).rows[i / words]? = some (row.update u) := by
    rw [rows_update, List.getElem?_map, hrow]
    rfl
  have hhas : row.Has ⟨i % words, lane⟩ := ⟨(h.size_eq row hmem).symm ▸ hw, hlane⟩
  have hbefore := h.counter_eq hrow hw lane
  have hafter := (h.update u).regular.counter_eq hrow' hw lane
  rw [Nat.div_add_mod'] at hbefore hafter
  rw [hbefore, hafter, Row.count_update hhas]
  simp only [h.locate_eq_iff hrow]

theorem adds (h : s.Regular words) (hash : UInt64) (amount : Nat) :
    Adds words s hash amount (s.add hash amount) where
  layout := h.update (.add hash amount)
  counter_eq i hi lane hlane := by
    have hcounter : (s.add hash amount).counter (i, lane) = _ :=
      h.counter_update (.add hash amount) hi hlane
    simpa only [Update.step, decide_eq_true_eq] using hcounter
  word_eq i hi hother := by
    obtain ⟨row, hrow, -⟩ := h.exists_row hi
    have hw : i % words < words := Nat.mod_lt _ h.words_pos
    have hrow' : (s.add hash amount).rows[i / words]? = some (row.add hash amount) := by
      rw [add, List.getElem?_map, hrow]
      rfl
    have hword : (row.cell hash).word ≠ i % words := by
      intro heq
      apply hother
      rw [h.locate_eq hrow, heq]
      exact Nat.div_add_mod' i words
    have hbefore := h.table_getElem? (r := i / words) hw
    have hafter := (h.update (.add hash amount)).regular.table_getElem? (r := i / words) hw
    rw [Nat.div_add_mod'] at hbefore hafter
    rw [hbefore, show (s.add hash amount).table[i]? = _ from hafter, hrow,
      show (s.update (.add hash amount)).rows[i / words]? = _ from hrow', Option.bind_some,
      Option.bind_some, Row.add, Array.getElem?_modify, if_neg hword]

/-- An estimate after a division is bounded by what each row makes of it. -/
theorem le_estimate_attenuate_iff (h : s.Regular words) (divisor : Nat) (hash : UInt64) (n : Nat) :
    n ≤ (s.attenuate divisor).estimate hash ↔ n ≤ Packed.counterMax ∧ ∀ row ∈ s.rows,
      n ≤ if 1 ≤ divisor ∧ divisor ≤ Packed.counterMax then row.estimate hash / divisor else 0 := by
  rw [Sketch.le_estimate_iff, show (s.attenuate divisor).rows = _ from
    rows_update s (.attenuate divisor), List.forall_mem_map]
  refine and_congr_right fun _ => forall₂_congr fun row hrow => ?_
  rw [Row.estimate_update (h.size_pos hrow)]
  rfl

/-- The least of the counters is divided as all counters are. -/
theorem estimate_attenuate (h : s.Regular words) (divisor : Nat) (hash : UInt64) :
    (s.attenuate divisor).estimate hash =
      if 1 ≤ divisor ∧ divisor ≤ Packed.counterMax then s.estimate hash / divisor else 0 := by
  obtain ⟨row₀, hrow₀⟩ := List.exists_mem_of_ne_nil _ h.rows_ne_nil
  apply eq_of_forall_le_iff
  intro n
  rw [h.le_estimate_attenuate_iff]
  split
  · next hdivisor =>
    have hpos : 0 < divisor := hdivisor.1
    -- Division is adjoint to multiplication, which has no trouble with a minimum.
    simp only [Nat.le_div_iff_mul_le hpos, Sketch.le_estimate_iff]
    constructor
    · rintro ⟨-, hall⟩
      exact ⟨(hall row₀ hrow₀).trans (Packed.count_le _ _), hall⟩
    · rintro ⟨hmax, hall⟩
      exact ⟨(Nat.le_mul_of_pos_right n hpos).trans hmax, hall⟩
  · constructor
    · rintro ⟨-, hall⟩
      exact hall row₀ hrow₀
    · intro hzero
      obtain rfl : n = 0 := Nat.le_zero.1 hzero
      exact ⟨Nat.zero_le _, fun _ _ => Nat.zero_le _⟩

theorem divides (h : s.Regular words) (divisor : Nat) :
    Divides words s divisor (s.attenuate divisor) where
  layout := h.update (.attenuate divisor)
  counter_eq _ hi _ hlane := h.counter_update (.attenuate divisor) hi hlane
  estimate_eq := h.estimate_attenuate divisor

end Regular

/-- Aging by two divides every counter by two, lane by lane. -/
theorem table_attenuate_two (s : Sketch) :
    (s.attenuate 2).table = s.table.map fun word => Packed.divide word 2 := by
  have hhalved : s.attenuate 2 = ⟨s.rows.map fun row => row.mapWords Packed.halve⟩ := rfl
  have hpath : Packed.halve = fun word => Packed.divide word 2 := funext Packed.halve_eq_divide
  rw [hhalved, hpath, table, table, List.flatMap_map, List.map_flatMap]
  simp only [Row.mapWords, Array.toList_map]

/-! ## Tables of any content -/

/-- A new sketch is regular. -/
theorem regular_create {size errorRange : Nat} {errorRate : Float} {seed : UInt64}
    (hs : create size errorRange errorRate seed = .ok s) :
    s.Regular (rowWords size errorRange) := by
  obtain ⟨hnil, hzeros⟩ := rows_create hs
  refine ⟨hnil, fun row hrow => ?_, isPowerOfTwo_rowWords size errorRange⟩
  obtain ⟨rowSeed, rfl⟩ := hzeros row hrow
  exact Array.size_replicate

/-- Whatever its words are, a table acts like an array of counters: every hash has one counter in
each row, all of them inside the table, of which the estimate is the least; an addition raises these
and no others; and aging divides each counter, and with them each estimate. Halving all counters of
a word at once is no exception. -/
theorem table_refines_counters (h : s.Regular words) :
    s.table.length = s.hashes * words ∧
      (∀ place, s.counter place ≤ Packed.counterMax) ∧
      (∀ hash, ∀ r < s.hashes,
        (s.locate words r hash).1 / words = r ∧
        (s.locate words r hash).1 < s.table.length ∧
        (s.locate words r hash).2 < Packed.countersPerWord) ∧
      (∀ hash n, n ≤ s.estimate hash ↔ ∀ r < s.hashes, n ≤ s.counter (s.locate words r hash)) ∧
      (∀ hash amount, Adds words s hash amount (s.add hash amount)) ∧
      (∀ divisor, Divides words s divisor (s.attenuate divisor)) ∧
      (∀ word, Packed.halve word = Packed.divide word 2) ∧
      (s.attenuate 2).table = s.table.map fun word => Packed.divide word 2 :=
  ⟨h.length_table, fun _ => Packed.count_le _ _, fun hash _ hr => h.locate_lt hr hash,
    h.le_estimate_iff, h.adds, h.divides, Packed.halve_eq_divide, table_attenuate_two s⟩

/-- A sketch in which hashes were counted and aged is divided by three. -/
theorem table_refines_counters_third :
    ∃ s, create 4 1 0.5 7 = .ok s ∧
      let t := s.updateAll [.add 3 20, .attenuate 2, .add 5 1]
      t.Regular (rowWords 4 1) ∧ (t.attenuate 3).estimate 3 = t.estimate 3 / 3 ∧
        (t.attenuate 16).estimate 3 = 0 := by
  have hfraction : requireFraction .errorRate 0.5 = .ok () :=
    requireFraction_eq_ok_iff.2 (by decide +kernel)
  obtain ⟨s, hs⟩ : ∃ s, create 4 1 0.5 7 = .ok s := ⟨_, by rw [create, hfraction]; rfl⟩
  have hregular := (regular_create hs).updateAll [.add 3 20, .attenuate 2, .add 5 1]
  obtain ⟨-, -, -, -, -, hdivides, -⟩ := table_refines_counters hregular
  exact ⟨s, hs, hregular, (hdivides 3).estimate_eq 3, (hdivides 16).estimate_eq 3⟩

end Sketch

end BoundedCache
