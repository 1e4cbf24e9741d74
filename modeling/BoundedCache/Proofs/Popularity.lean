import BoundedCache.Popularity
import BoundedCache.Proofs.Membership
import BoundedCache.Proofs.Sketch.Estimate
import Mathlib.Data.List.Induction
import Mathlib.Data.Nat.ModEq

/-!
# Popularity is never underestimated

Hashes that share bits of the filter, or counters of the sketch, make an estimator take a hash for
more popular than it is. The reference is an estimator in which every hash has a bit and a counter
of its own. A hash that the filter takes for a known one goes to the sketch rather than to the
filter, so the two part ways, but never in such a way that the estimator falls behind.

## Main definitions

- `Sketch.CountsAtLeast` — every counter is at least what is claimed of each hash it counts
- `Popularity.Exact` — a bit and a counter for every hash
- `Popularity.Exact.ofRecords` — what they are after a sequence of records
- `Popularity.Tracks` — an estimator is in step with the reference, and not behind it

## Main results

- `Popularity.Exact.min_count_le_level` — the reference knows every record since the last aging
- `Popularity.Tracks.record` — one more record keeps the estimator in step
- `Popularity.Tracks.level_le_frequency`, `Popularity.frequency_le` — the bounds of an estimate
-/

namespace BoundedCache

/-! ## Counters that are large enough -/

namespace Sketch

variable {s : Sketch} {count : UInt64 → Nat} {hash : UInt64}

/-- Every counter is at least what is claimed of each hash that it counts. -/
structure CountsAtLeast (s : Sketch) (count : UInt64 → Nat) : Prop where
  le_counterMax : ∀ hash, count hash ≤ Packed.counterMax
  words_pos : ∀ row ∈ s.rows, 0 < row.words.size
  le_row : ∀ row ∈ s.rows, ∀ hash, count hash ≤ row.estimate hash

theorem CountsAtLeast.update (h : s.CountsAtLeast count) (u : Update) :
    (s.update u).CountsAtLeast fun hash => u.step (fun other => other = hash) (count hash) where
  le_counterMax hash := step_le (h.le_counterMax hash) u
  words_pos := by
    rw [rows_update, List.forall_mem_map]
    intro row hrow
    rw [Row.size_update]
    exact h.words_pos row hrow
  le_row := by
    rw [rows_update, List.forall_mem_map]
    intro row hrow hash
    rw [Row.estimate_update (h.words_pos row hrow)]
    refine step_mono (fun other hother => ?_) (h.le_counterMax hash) (h.le_row row hrow hash) u
    rw [of_decide_eq_true hother]
    exact decide_eq_true rfl

theorem CountsAtLeast.mono {count' : UInt64 → Nat} (h : s.CountsAtLeast count)
    (hle : ∀ hash, count' hash ≤ count hash) : s.CountsAtLeast count' where
  le_counterMax hash := (hle hash).trans (h.le_counterMax hash)
  words_pos := h.words_pos
  le_row row hrow hash := (hle hash).trans (h.le_row row hrow hash)

/-- A hash that is counted once more gains one, up to the largest count. -/
theorem CountsAtLeast.add (h : s.CountsAtLeast count) (hash : UInt64) :
    (s.add hash 1).CountsAtLeast
      (Function.update count hash (min (count hash + 1) Packed.counterMax)) := by
  refine (h.update (.add hash 1)).mono fun other => ?_
  by_cases hother : other = hash
  · subst hother
    simp [Update.step]
  · simp [Update.step, hother, Ne.symm hother]

theorem CountsAtLeast.le_estimate (h : s.CountsAtLeast count) (hash : UInt64) :
    count hash ≤ s.estimate hash :=
  le_estimate_iff.2 ⟨h.le_counterMax hash, fun row hrow => h.le_row row hrow hash⟩

theorem estimate_le (s : Sketch) (hash : UInt64) : s.estimate hash ≤ Packed.counterMax :=
  (le_estimate_iff.1 (Nat.le_refl _)).1

theorem countsAtLeast_create {size errorRange : Nat} {errorRate : Float} {seed : UInt64}
    (hs : create size errorRange errorRate seed = .ok s) : s.CountsAtLeast fun _ => 0 where
  le_counterMax _ := Nat.zero_le _
  words_pos row hrow := by
    obtain ⟨-, hzeros⟩ := rows_create hs
    obtain ⟨rowSeed, rfl⟩ := hzeros row hrow
    exact (rowWords_pos size errorRange).trans_eq Array.size_replicate.symm
  le_row _ _ _ := Nat.zero_le _

end Sketch

namespace Popularity

/-! ## The reference -/

/-- What is known of every hash, kept apart for each of them. -/
structure Exact where
  /-- The number of records. -/
  accesses : Nat := 0
  /-- The hash was recorded since the last aging. -/
  seen : UInt64 → Bool := fun _ => false
  /-- How often the hash was recorded after it had been seen, halved at each aging. -/
  count : UInt64 → Nat := fun _ => 0

namespace Exact

variable {m : Exact} {period : Nat} {hash : UInt64}

/-- Halves the counts, and forgets which hashes were seen. -/
def age (m : Exact) : Exact :=
  { m with seen := fun _ => false, count := fun hash => m.count hash / 2 }

/-- Takes note of a hash: that it was seen if this is news, and a count otherwise. -/
def note (m : Exact) (hash : UInt64) : Exact :=
  if m.seen hash then
    { m with count := Function.update m.count hash (min (m.count hash + 1) Packed.counterMax) }
  else { m with seen := Function.update m.seen hash true }

/-- Counts one more record. Each time that a period is complete, what was known ages. -/
def advance (period : Nat) (m : Exact) : Exact :=
  let m := { m with accesses := m.accesses + 1 }
  if m.accesses % period = 0 then m.age else m

/-- Records a hash. Aging comes first, so it does not touch the record that brings it about. -/
def record (period : Nat) (m : Exact) (hash : UInt64) : Exact :=
  (m.advance period).note hash

/-- What is known after a sequence of records. -/
def ofRecords (period : Nat) (hashes : List UInt64) : Exact :=
  hashes.foldl (record period) {}

/-- The popularity of a hash. -/
def level (m : Exact) (hash : UInt64) : Nat := m.count hash + (m.seen hash).toNat

/-- A hash that is noted gains one level, up to the largest. -/
theorem level_note (hm : m.count hash ≤ Packed.counterMax) (other : UInt64) :
    (m.note hash).level other =
      if other = hash then min (m.level hash + 1) (Packed.counterMax + 1) else m.level other := by
  by_cases hseen : m.seen hash = true
  · by_cases hother : other = hash
    · subst hother
      simp [note, level, hseen]
    · simp [note, level, hseen, hother]
  · by_cases hother : other = hash
    · subst hother
      simp [note, level, hseen]
      omega
    · simp [note, level, hseen, hother]

theorem count_note_le (hm : ∀ other, m.count other ≤ Packed.counterMax) (other : UInt64) :
    (m.note hash).count other ≤ Packed.counterMax := by
  by_cases hseen : m.seen hash = true
  · by_cases hother : other = hash
    · subst hother
      simp [note, hseen]
    · simp [note, hseen, hother, hm other]
  · simp [note, hseen, hm other]

theorem count_advance_le (hm : ∀ other, m.count other ≤ Packed.counterMax) (other : UInt64) :
    (m.advance period).count other ≤ Packed.counterMax := by
  rw [advance]
  dsimp only
  split
  · exact (Nat.div_le_self ..).trans (hm other)
  · exact hm other

theorem level_advance (period : Nat) (m : Exact) (hash : UInt64) :
    (m.advance period).level hash =
      if (m.accesses + 1) % period = 0 then m.count hash / 2 else m.level hash := by
  rw [advance]
  dsimp only
  split <;> rfl

theorem accesses_record (m : Exact) (hash : UInt64) :
    (m.record period hash).accesses = m.accesses + 1 := by
  rw [record, note, advance]
  dsimp only
  split <;> split <;> rfl

theorem ofRecords_concat (period : Nat) (hashes : List UInt64) (hash : UInt64) :
    ofRecords period (hashes ++ [hash]) = (ofRecords period hashes).record period hash := by
  simp [ofRecords]

theorem accesses_ofRecords (period : Nat) (hashes : List UInt64) :
    (ofRecords period hashes).accesses = hashes.length := by
  induction hashes using List.reverseRecOn with
  | nil => rfl
  | append_singleton hashes hash ih => simp [ofRecords_concat, accesses_record, ih]

theorem count_ofRecords_le (period : Nat) (hashes : List UInt64) (other : UInt64) :
    (ofRecords period hashes).count other ≤ Packed.counterMax := by
  induction hashes using List.reverseRecOn generalizing other with
  | nil => exact Nat.zero_le _
  | append_singleton hashes hash ih =>
    rw [ofRecords_concat, record]
    exact count_note_le (count_advance_le ih) other

/-- The records since the last aging, with the one that brought it about. -/
def sinceAging {α : Type} (period : Nat) (records : List α) : List α :=
  records.drop (records.length / period * period - 1)

theorem sinceAging_concat {α : Type} (period : Nat) (records : List α) (record : α) :
    sinceAging period (records ++ [record]) =
      if (records.length + 1) % period = 0 then [record]
      else sinceAging period records ++ [record] := by
  rw [sinceAging, List.length_append, List.length_singleton]
  split
  · next hdue =>
    have hall : (records.length + 1) / period * period = records.length + 1 :=
      Nat.div_mul_cancel (Nat.dvd_of_mod_eq_zero hdue)
    rw [hall, Nat.add_sub_cancel, List.drop_left]
  · next hdue =>
    have hsame : (records.length + 1) / period = records.length / period := by
      rw [Nat.succ_div, if_neg (fun h => hdue (Nat.mod_eq_zero_of_dvd h)), Nat.add_zero]
    have hle : records.length / period * period ≤ records.length := Nat.div_mul_le_self ..
    rw [hsame, List.drop_append_of_le_length (by omega), sinceAging]

theorem map_sinceAging {α β : Type} (f : α → β) (period : Nat) (records : List α) :
    (sinceAging period records).map f = sinceAging period (records.map f) := by
  simp [sinceAging]

/-- Each record since the last aging raised the level of its hash. -/
theorem min_count_le_level (period : Nat) (hashes : List UInt64) (hash : UInt64) :
    min ((sinceAging period hashes).count hash) (Packed.counterMax + 1) ≤
      (ofRecords period hashes).level hash := by
  induction hashes using List.reverseRecOn with
  | nil => simp [sinceAging]
  | append_singleton hashes last ih =>
    have hbound : ∀ other, ((ofRecords period hashes).advance period).count other ≤
        Packed.counterMax := count_advance_le (count_ofRecords_le period hashes)
    rw [ofRecords_concat, record, level_note (hbound last), level_advance, level_advance,
      accesses_ofRecords, sinceAging_concat]
    by_cases hdue : (hashes.length + 1) % period = 0
    · by_cases hlast : hash = last
      · simp [hdue, hlast]
      · simp [hdue, hlast, Ne.symm hlast]
    · by_cases hlast : hash = last
      · subst hlast
        simp [hdue]
        omega
      · simp [hdue, hlast, Ne.symm hlast]
        omega

end Exact

/-! ## Estimators in step with the reference -/

variable {p : Popularity} {m : Exact} {period : Nat}

/-- The estimator that a hash is recorded in: it has one more sample, or it was aged. -/
def advance (p : Popularity) : Popularity :=
  let p := { p with samples := p.samples + 1 }
  if p.period ≤ p.samples then p.age else p

/-- The estimator after a hash has been noted, by the filter or by the sketch. -/
def note (p : Popularity) (hash : UInt64) : Popularity :=
  if p.doorkeeper.contains hash then { p with sketch := p.sketch.add hash 1 }
  else { p with doorkeeper := p.doorkeeper.add hash }

theorem record_eq (p : Popularity) (hash : UInt64) : p.record hash = p.advance.note hash := rfl

/-- An estimator ages whenever the reference does, and is not behind it for any hash. -/
structure Tracks (period : Nat) (p : Popularity) (m : Exact) : Prop where
  period_eq : p.period = period
  samples_eq : p.samples = m.accesses % period
  words_pos : 0 < p.doorkeeper.words.size
  contains_of_seen : ∀ hash, m.seen hash = true → p.doorkeeper.contains hash = true
  counts : p.sketch.CountsAtLeast m.count

theorem Tracks.level_le_frequency (h : Tracks period p m) (hash : UInt64) :
    m.level hash ≤ p.frequency hash := by
  refine Nat.add_le_add (h.counts.le_estimate hash) ?_
  by_cases hseen : m.seen hash = true
  · rw [hseen, h.contains_of_seen hash hseen]
  · simp [hseen]

theorem frequency_le (p : Popularity) (hash : UInt64) : p.frequency hash ≤ Packed.counterMax + 1 :=
  Nat.add_le_add (p.sketch.estimate_le hash) (Bool.toNat_le _)

theorem Tracks.advance (h : Tracks period p m) (hperiod : 0 < period) :
    Tracks period p.advance (m.advance period) := by
  have hlt : m.accesses % period < period := Nat.mod_lt _ hperiod
  have hnext : (m.accesses + 1) % period = (m.accesses % period + 1) % period := by simp
  rw [Popularity.advance, Exact.advance]
  dsimp only
  rw [h.period_eq, h.samples_eq]
  by_cases hdue : m.accesses % period + 1 < period
  · have hsame : (m.accesses + 1) % period = m.accesses % period + 1 := by
      rw [hnext, Nat.mod_eq_of_lt hdue]
    rw [if_neg (by omega), if_neg (by omega)]
    exact ⟨rfl, hsame.symm, h.words_pos, h.contains_of_seen, h.counts⟩
  · have hlast : m.accesses % period + 1 = period := by omega
    have hzero : (m.accesses + 1) % period = 0 := by rw [hnext, hlast, Nat.mod_self]
    rw [if_pos (by omega), if_pos hzero]
    refine ⟨rfl, hzero.symm, ?_, ?_, h.counts.update (.attenuate 2)⟩
    · exact h.words_pos.trans_eq p.doorkeeper.size_clear.symm
    · intro hash hseen
      exact absurd hseen Bool.false_ne_true

theorem Tracks.note (h : Tracks period p m) (hash : UInt64) :
    Tracks period (p.note hash) (m.note hash) := by
  rw [Popularity.note, Exact.note]
  by_cases hcontains : p.doorkeeper.contains hash = true
  · rw [if_pos hcontains]
    have hcounts := h.counts.add hash
    split
    · exact ⟨h.period_eq, h.samples_eq, h.words_pos, h.contains_of_seen, hcounts⟩
    · -- The filter takes the hash for a known one, so only the estimator counts it.
      refine ⟨h.period_eq, h.samples_eq, h.words_pos, ?_, hcounts.mono ?_⟩
      · intro other hseen
        by_cases hother : other = hash
        · rw [hother]
          exact hcontains
        · simp only [Function.update_of_ne hother] at hseen
          exact h.contains_of_seen other hseen
      · intro other
        by_cases hother : other = hash
        · subst hother
          have hle := h.counts.le_counterMax other
          simp only [Function.update_self]
          omega
        · simp [hother]
  · rw [if_neg hcontains, if_neg (mt (h.contains_of_seen hash) hcontains)]
    refine ⟨h.period_eq, h.samples_eq, ?_, ?_, h.counts⟩
    · exact h.words_pos.trans_eq (p.doorkeeper.size_add hash).symm
    · intro other hseen
      by_cases hother : other = hash
      · rw [hother]
        exact Membership.contains_add h.words_pos hash
      · simp only [Function.update_of_ne hother] at hseen
        exact Membership.contains_add_of_contains h.words_pos (h.contains_of_seen other hseen) hash

theorem Tracks.record (h : Tracks period p m) (hperiod : 0 < period) (hash : UInt64) :
    Tracks period (p.record hash) (m.record period hash) := by
  rw [record_eq]
  exact (h.advance hperiod).note hash

theorem Tracks.clear (h : Tracks period p m) : Tracks period p.clear {} where
  period_eq := h.period_eq
  samples_eq := (Nat.zero_mod _).symm
  words_pos := h.words_pos.trans_eq p.doorkeeper.size_clear.symm
  contains_of_seen _ hseen := absurd hseen Bool.false_ne_true
  counts := h.counts.update .clear

theorem pos_of_create {capacity : Nat} {seed : UInt64} (hp : create capacity seed = .ok p) :
    0 < capacity := by
  obtain ⟨sketch, hsketch, -⟩ := bind_eq_ok_iff.1 hp
  obtain ⟨_, hcapacity, -⟩ := bind_eq_ok_iff.1 hsketch
  exact requireCapacity_eq_ok_iff.1 hcapacity

theorem tracks_create {capacity : Nat} {seed : UInt64} (hp : create capacity seed = .ok p) :
    Tracks (samplesPerEntry * capacity) p {} := by
  obtain ⟨sketch, hsketch, hp⟩ := bind_eq_ok_iff.1 hp
  obtain ⟨doorkeeper, hdoorkeeper, hp⟩ := bind_eq_ok_iff.1 hp
  cases hp
  exact ⟨rfl, (Nat.zero_mod _).symm, Membership.size_create hdoorkeeper,
    fun _ hseen => absurd hseen Bool.false_ne_true, Sketch.countsAtLeast_create hsketch⟩

end Popularity

end BoundedCache
