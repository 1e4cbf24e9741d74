import BoundedCache.Error

/-!
# Operations that may be refused

A chain of steps succeeds if all of its steps do. If none but the first can be refused, then the
chain has the verdict of the first.

## Main definitions

- `verdict` — whether an operation is accepted, or why it is refused

## Main results

- `bind_eq_ok_iff`, `bind_eq_error_iff` — success and refusal of two steps in a row
- `map_eq_ok_iff` — what is done with a result does not matter for success
- `verdict_bind` — the verdict of a chain of which only the first step can be refused
- `requireCapacity_eq_ok_iff`, `requireFraction_eq_ok_iff` — what the two common checks accept
-/

namespace BoundedCache

variable {α β ε : Type}

theorem bind_eq_ok_iff {x : Except ε α} {f : α → Except ε β} {b : β} :
    x >>= f = .ok b ↔ ∃ a, x = .ok a ∧ f a = .ok b := by
  cases x with
  | error cause =>
    constructor
    · intro h
      cases h
    · rintro ⟨a, ha, -⟩
      cases ha
  | ok a =>
    constructor
    · intro h
      exact ⟨a, rfl, h⟩
    · rintro ⟨_, ha, h⟩
      cases ha
      exact h

theorem bind_eq_error_iff {x : Except ε α} {f : α → Except ε β} {cause : ε} :
    x >>= f = .error cause ↔ x = .error cause ∨ ∃ a, x = .ok a ∧ f a = .error cause := by
  cases x with
  | error cause' =>
    constructor
    · intro h
      cases h
      exact .inl rfl
    · rintro (h | ⟨a, ha, -⟩)
      · cases h
        rfl
      · cases ha
  | ok a =>
    constructor
    · intro h
      exact .inr ⟨a, rfl, h⟩
    · rintro (h | ⟨_, ha, h⟩)
      · cases h
      · cases ha
        exact h

theorem map_eq_ok_iff {x : Except ε α} {f : α → β} {b : β} :
    x.map f = .ok b ↔ ∃ a, x = .ok a ∧ f a = b := by
  cases x with
  | error cause => simp [Except.map]
  | ok a => simp [Except.map]

/-- Whether an operation is accepted, or why it is refused. -/
def verdict (x : Except ε α) : Except ε Unit := x.map fun _ => ()

theorem verdict_eq_ok_iff {x : Except ε α} : verdict x = .ok () ↔ ∃ a, x = .ok a := by
  cases x with
  | error cause => simp [verdict, Except.map]
  | ok a => simp [verdict, Except.map]

theorem verdict_map (x : Except ε α) (f : α → β) : verdict (x.map f) = verdict x := by
  cases x with
  | error cause => rfl
  | ok a => rfl

/-- A chain is accepted whenever its first step is, and refused for the same reason. -/
theorem verdict_bind {x : Except ε α} {f : α → Except ε β}
    (h : ∀ a, x = .ok a → ∃ b, x >>= f = .ok b) : verdict (x >>= f) = verdict x := by
  cases x with
  | error cause => rfl
  | ok a =>
    obtain ⟨b, hb⟩ := h a rfl
    rw [hb]
    rfl

theorem requireCapacity_eq_ok_iff {n : Nat} {u : Unit} : requireCapacity n = .ok u ↔ 0 < n := by
  rw [requireCapacity, Nat.pos_iff_ne_zero]
  by_cases hn : n = 0
  · simp [hn]
  · simp [hn]

theorem requireCapacity_eq_error {n : Nat} {cause : SetupError}
    (h : requireCapacity n = .error cause) : cause = .zeroCapacity := by
  rw [requireCapacity] at h
  split at h
  · exact (Except.error.inj h).symm
  · cases h

theorem requireFraction_eq_ok_iff {parameter : Fraction} {x : Float} {u : Unit} :
    requireFraction parameter x = .ok u ↔ 0 < x ∧ x < 1 := by
  rw [requireFraction]
  by_cases hx : 0 < x ∧ x < 1
  · simp [hx]
  · simp [hx]

/-- A condition under which a chain is refused. -/
theorem ite_throw_eq_ok_iff {p : Prop} [Decidable p] {cause : ε} {x : Except ε α} {a : α} :
    (if p then .error cause else x) = .ok a ↔ ¬p ∧ x = .ok a := by
  by_cases hp : p
  · simp [hp]
  · simp [hp]

theorem ite_throw_eq_error_iff {p : Prop} [Decidable p] {cause cause' : ε} {x : Except ε α} :
    (if p then .error cause' else x) = .error cause ↔
      p ∧ cause' = cause ∨ ¬p ∧ x = .error cause := by
  by_cases hp : p
  · simp [hp]
  · simp [hp]

end BoundedCache
