import BoundedCache.Proofs.Membership

/-!
# What a filter contains

Whatever was added and cleared, the bits of a filter are the positions of the hashes that were added
since it was last cleared, so these hashes alone decide what it contains: neither their order nor
how often each of them was added makes a difference, down to the last bit.

## Main definitions

- `Membership.Update`, `Membership.updateAll` — the changes of a filter, and a sequence of them
- `Membership.members` — the hashes added since the last clear
- `Membership.Marks` — the bits that are set are the positions of certain hashes

## Main results

- `Membership.Marks.update`, `Membership.marks_updateAll` — one update more, and any sequence
- `Membership.eq_of_testBit` — a filter is made up of its bits
- `Membership.contains_updateAll` — what a filter contains after any sequence of updates
-/

namespace BoundedCache.Membership

/-! ## Updates -/

/-- A change of what a filter contains. -/
inductive Update where
  | add (hash : UInt64)
  | clear

def update (f : Membership) : Update → Membership
  | .add hash => f.add hash
  | .clear => f.clear

/-- The effect of a sequence of updates. -/
def updateAll (f : Membership) (updates : List Update) : Membership := updates.foldl update f

/-- What an update makes of the hashes added since the last clear. -/
def Update.step (hashes : List UInt64) : Update → List UInt64
  | .add hash => hash :: hashes
  | .clear => []

/-- The hashes added since the last clear, the latest first. -/
def members (updates : List Update) : List UInt64 := updates.foldl Update.step []

/-- The bits that are set are the positions of certain hashes. -/
def Marks (f : Membership) (hashes : List UInt64) : Prop :=
  ∀ q, f.testBit q = true ↔ ∃ hash ∈ hashes, q ∈ f.positions hash

variable {f g : Membership} {hashes : List UInt64}

/-! ## Layout -/

/-- No update changes the seeds or the number of words. -/
theorem layout_update (f : Membership) (u : Update) :
    (f.update u).words.size = f.words.size ∧ (f.update u).seeds = f.seeds := by
  cases u with
  | add hash => exact layout_foldl_setBit f (f.positions hash)
  | clear => exact ⟨size_clear f, rfl⟩

theorem layout_updateAll (f : Membership) (updates : List Update) :
    (f.updateAll updates).words.size = f.words.size ∧ (f.updateAll updates).seeds = f.seeds := by
  induction updates generalizing f with
  | nil => exact ⟨rfl, rfl⟩
  | cons u updates ih =>
    obtain ⟨hsize, hseeds⟩ := layout_update f u
    exact ⟨(ih (f.update u)).1.trans hsize, (ih (f.update u)).2.trans hseeds⟩

/-- Filters of one layout give each hash the same positions. -/
theorem positions_congr (hsize : g.words.size = f.words.size) (hseeds : g.seeds = f.seeds)
    (hash : UInt64) : g.positions hash = f.positions hash := by
  have hposition : g.position hash = f.position hash := by
    funext seed
    rw [position, position, bits, bits, hsize]
  rw [positions, positions, hposition, hseeds]

theorem mem_positions_iff {hash : UInt64} {q : Nat} :
    q ∈ f.positions hash ↔
      ∃ seed ∈ f.seeds, (Word.scramble (hash ^^^ seed)).toNat % f.bits = q :=
  List.mem_map

theorem lt_bits_of_mem_positions (h : 0 < f.words.size) {hash : UInt64} {q : Nat}
    (hq : q ∈ f.positions hash) : q < f.bits := by
  obtain ⟨seed, -, rfl⟩ := mem_positions_iff.1 hq
  exact Nat.mod_lt _ (Nat.mul_pos (by decide) h)

/-! ## Bits -/

theorem testBit_of_blank (h : ∀ word ∈ f.words, word = 0) (q : Nat) : f.testBit q = false := by
  have hword : f.words.getD (q / 64) 0 = 0 := by
    rw [Array.getD_eq_getD_getElem?]
    cases hget : f.words[q / 64]? with
    | none => rfl
    | some word => exact h word (Array.mem_of_getElem? hget)
  rw [testBit_eq, hword, UInt64.toNat_zero, Nat.zero_testBit]

/-- A filter is made up of its seeds and its bits. -/
theorem eq_of_testBit (hsize : f.words.size = g.words.size) (hseeds : f.seeds = g.seeds)
    (hbits : ∀ q, f.testBit q = g.testBit q) : f = g := by
  obtain ⟨words, seeds⟩ := f
  obtain ⟨words', seeds'⟩ := g
  obtain rfl : seeds = seeds' := hseeds
  have hwords : words = words' := by
    apply Array.ext hsize
    intro i hi hi'
    apply Word.eq_of_testBit
    intro j hj
    have hplace : (64 * i + j) / 64 = i ∧ (64 * i + j) % 64 = j := by omega
    have hbit := hbits (64 * i + j)
    rw [testBit_eq, testBit_eq, hplace.1, hplace.2] at hbit
    simpa [Array.getD, hi, hi'] using hbit
  rw [hwords]

/-! ## Marks -/

theorem Marks.nil (h : ∀ word ∈ f.words, word = 0) : f.Marks [] := by
  intro q
  simp [testBit_of_blank h q]

/-- One update more. -/
theorem Marks.update (hf : 0 < f.words.size) (h : f.Marks hashes) (u : Update) :
    (f.update u).Marks (u.step hashes) := by
  cases u with
  | add hash =>
    intro q
    show (f.add hash).testBit q = true ↔ _
    simp [testBit_add hf, h q, Update.step, Membership.update, positions_add, or_comm]
  | clear =>
    apply Marks.nil
    intro word hword
    obtain ⟨_, -, rfl⟩ := Array.mem_map.1 hword
    rfl

theorem Marks.updateAll (hf : 0 < f.words.size) (h : f.Marks hashes) (updates : List Update) :
    (f.updateAll updates).Marks (updates.foldl Update.step hashes) := by
  induction updates generalizing f hashes with
  | nil => exact h
  | cons u updates ih =>
    have hsize : 0 < (f.update u).words.size := (layout_update f u).1 ▸ hf
    exact ih hsize (h.update hf u)

/-- A filter contains a hash if all of its positions are positions of members. -/
theorem Marks.contains_iff (h : f.Marks hashes) (hash : UInt64) :
    f.contains hash = true ↔
      ∀ q ∈ f.positions hash, ∃ member ∈ hashes, q ∈ f.positions member := by
  rw [contains, List.all_eq_true]
  exact forall₂_congr fun q _ => h q

theorem Marks.contains_nil (h : f.Marks []) (hseeds : f.seeds ≠ []) (hash : UInt64) :
    f.contains hash = false := by
  obtain ⟨seed, seeds, heq⟩ := List.exists_cons_of_ne_nil hseeds
  have hmem : f.position hash seed ∈ f.positions hash :=
    List.mem_map_of_mem (heq ▸ List.mem_cons_self)
  rw [Bool.eq_false_iff, Ne, h.contains_iff]
  intro hall
  obtain ⟨member, hmember, -⟩ := hall _ hmem
  exact List.not_mem_nil hmember

/-! ## New filters -/

section Create

variable {capacity : Nat} {rate : Float} {seed : UInt64}

/-- A new filter has seeds, and no bit of it is set. -/
theorem marks_create (hf : create capacity rate seed = .ok f) : f.Marks [] ∧ f.seeds ≠ [] := by
  obtain ⟨_, -, hf⟩ := bind_eq_ok_iff.1 hf
  obtain ⟨_, -, hf⟩ := bind_eq_ok_iff.1 hf
  cases hf
  refine ⟨Marks.nil fun word hword => (Array.mem_replicate.1 hword).2, ?_⟩
  have hcount : 1 ≤ hashCount capacity (64 * wordCount capacity rate) := Nat.le_max_right ..
  apply List.ne_nil_of_length_pos
  rw [Generator.length_words]
  exact hcount

/-- After any updates of a new filter, its bits are the positions of its members. -/
theorem marks_updateAll (hf : create capacity rate seed = .ok f) (updates : List Update) :
    (f.updateAll updates).Marks (members updates) :=
  (marks_create hf).1.updateAll (size_create hf) updates

/-- The members of a filter are all that counts for its state. -/
theorem updateAll_congr (hf : create capacity rate seed = .ok f) {updates updates' : List Update}
    (h : ∀ hash, hash ∈ members updates ↔ hash ∈ members updates') :
    f.updateAll updates = f.updateAll updates' := by
  obtain ⟨hsize, hseeds⟩ := layout_updateAll f updates
  obtain ⟨hsize', hseeds'⟩ := layout_updateAll f updates'
  refine eq_of_testBit (hsize.trans hsize'.symm) (hseeds.trans hseeds'.symm) fun q => ?_
  rw [Bool.eq_iff_iff, marks_updateAll hf updates q, marks_updateAll hf updates' q]
  simp only [h, positions_congr hsize hseeds, positions_congr hsize' hseeds']

/-- After any updates, a filter contains a hash if and only if each of its bits is a bit of a
member, for any seed. So members are contained, whatever else was added; what is contained stays so
under additions; a filter that is new or cleared contains nothing; and filters with the same members
are equal, in whatever order and how often these were added. Every bit that is looked at is in a
word of the filter. -/
theorem contains_updateAll (hf : create capacity rate seed = .ok f) (updates : List Update) :
    let g := f.updateAll updates
    (∀ hash, g.contains hash = true ↔ ∀ s ∈ f.seeds, ∃ member ∈ members updates, ∃ t ∈ f.seeds,
        (Word.scramble (member ^^^ t)).toNat % f.bits =
          (Word.scramble (hash ^^^ s)).toNat % f.bits) ∧
      (∀ hash ∈ members updates, g.contains hash = true) ∧
      (∀ hash, g.contains hash = true → ∀ other, (g.add other).contains hash = true) ∧
      (∀ updates', (∀ hash, hash ∈ members updates ↔ hash ∈ members updates') →
        g = f.updateAll updates') ∧
      (∀ hash, f.contains hash = false ∧ g.clear.contains hash = false) ∧
      g.seeds = f.seeds ∧ g.bits = f.bits ∧
      ∀ hash, ∀ q ∈ g.positions hash, q / 64 < g.words.size := by
  intro g
  obtain ⟨hsize, hseeds⟩ := layout_updateAll f updates
  obtain ⟨hblank, hsome⟩ := marks_create hf
  have hwords : 0 < g.words.size := hsize ▸ size_create hf
  have hmarks : g.Marks (members updates) := marks_updateAll hf updates
  have hclear : g.clear.Marks [] := hmarks.update hwords .clear
  have hpositions : ∀ hash, g.positions hash = f.positions hash := positions_congr hsize hseeds
  refine ⟨fun hash => ?_, fun hash hmember => ?_, fun hash hcontains other => ?_,
    fun updates' h => updateAll_congr hf h, fun hash => ⟨?_, ?_⟩, hseeds, ?_, fun hash q hq => ?_⟩
  · rw [hmarks.contains_iff]
    simp only [hpositions, mem_positions_iff, forall_exists_index, and_imp,
      forall_apply_eq_imp_iff₂]
  · exact (hmarks.contains_iff hash).2 fun q hq => ⟨hash, hmember, hq⟩
  · exact contains_add_of_contains hwords hcontains other
  · exact hblank.contains_nil hsome hash
  · exact hclear.contains_nil (hseeds ▸ hsome) hash
  · exact congrArg (64 * ·) hsize
  · exact Nat.div_lt_of_lt_mul (lt_bits_of_mem_positions hwords hq)

/-- A hash that was cleared does not count, and one that is added twice counts once. -/
theorem contains_updateAll_cleared :
    ∃ f, create 10 0.01 7 = .ok f ∧
      f.updateAll [.add 3, .clear, .add 5, .add 8, .add 5] = f.updateAll [.add 8, .add 5] ∧
      (f.updateAll [.add 3, .clear, .add 5, .add 8, .add 5]).contains 8 = true := by
  have hfraction : requireFraction .falsePositiveRate 0.01 = .ok () :=
    requireFraction_eq_ok_iff.2 (by decide +kernel)
  obtain ⟨f, hf⟩ : ∃ f, create 10 0.01 7 = .ok f := ⟨_, by rw [create, hfraction]; rfl⟩
  obtain ⟨-, hmembers, -, hsame, -⟩ :=
    contains_updateAll hf [.add 3, .clear, .add 5, .add 8, .add 5]
  refine ⟨f, hf, hsame [.add 8, .add 5] fun hash => ?_, hmembers 8 (by decide)⟩
  simp only [members, List.foldl_cons, List.foldl_nil, Update.step, List.mem_cons]
  tauto

end Create

end BoundedCache.Membership
