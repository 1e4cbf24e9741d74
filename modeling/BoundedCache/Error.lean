import BoundedCache.Decimal.Shortest
import BoundedCache.Policy

/-!
# Configuration errors

Building or resizing a cache, a sketch or a filter is the only thing that can fail; every other
operation answers for every state. An error names its cause, and `message` gives its wording.

## Main definitions

- `Fraction` — the parameters that have to lie strictly between zero and one
- `SetupError` — why a configuration is refused
- `SetupError.message` — the text shown to a user
- `requireCapacity`, `requireFraction` — the two checks that most constructions share
-/

namespace BoundedCache

/-- A parameter that has to lie strictly between zero and one. -/
inductive Fraction where
  /-- The share of a segmented cache that is protected. -/
  | protectedRatio
  /-- The probability that a frequency sketch overcounts by more than it should. -/
  | errorRate
  /-- The probability that a membership filter takes a stranger for a member. -/
  | falsePositiveRate
  deriving DecidableEq

/-- The name of a parameter, as error messages spell it. -/
def Fraction.name : Fraction → String
  | .protectedRatio => "protected_ratio"
  | .errorRate => "error_rate"
  | .falsePositiveRate => "false_positive_rate"

/-- Why a configuration is refused. -/
inductive SetupError where
  /-- There has to be room for at least one entry. -/
  | zeroCapacity
  /-- The capacity leaves some part of the policy's layout without room. -/
  | capacityTooSmall (policy : Policy) (capacity minimum : Nat)
  /-- The parameter does not lie strictly between zero and one. -/
  | notFraction (parameter : Fraction) (value : Float)
  /-- A counter cannot hold the error range. -/
  | errorRangeOutOfBounds (range max : Nat)
  /-- More distinct elements are declared than events to spread over them. -/
  | elementsExceedSize (elements size : Nat)
  /-- An eviction would have to inspect more entries than fit. -/
  | samplesExceedCapacity (samples capacity : Nat)
  deriving DecidableEq

/-- The text of an error. -/
def SetupError.message : SetupError → String
  | .zeroCapacity => "capacity must be greater than zero"
  | .capacityTooSmall policy capacity minimum =>
    s!"capacity {capacity} is too small, {policy.name} requires at least {minimum}"
  | .notFraction parameter value =>
    s!"{parameter.name} must lie strictly between 0 and 1, got {Decimal.render value}"
  | .errorRangeOutOfBounds range max => s!"error range {range} must be between 1 and {max}"
  | .elementsExceedSize elements size => s!"{elements} elements exceed sketch size {size}"
  | .samplesExceedCapacity samples capacity =>
    s!"sample count {samples} exceeds capacity {capacity}"

/-- Refuses a capacity of zero. -/
def requireCapacity (capacity : Nat) : Except SetupError Unit :=
  if capacity = 0 then .error .zeroCapacity else .ok ()

/-- Refuses a parameter that does not lie strictly between zero and one, which is also what happens
to one that is not a number. -/
def requireFraction (parameter : Fraction) (value : Float) : Except SetupError Unit :=
  if 0 < value ∧ value < 1 then .ok () else .error (.notFraction parameter value)

/-- What is done with the result of a chain of steps may be done with that of the last one. -/
theorem map_bind_eq {ε α β γ : Type} {x : Except ε α} {f : β → γ} {step : α → Except ε β}
    {step' : α → Except ε γ} (h : ∀ a, (step a).map f = step' a) :
    (x >>= step).map f = x >>= step' := by
  rcases x with cause | a
  · rfl
  · exact h a

end BoundedCache
