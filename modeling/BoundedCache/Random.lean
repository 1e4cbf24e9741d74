import BoundedCache.Word

/-!
# Pseudo-random words

What is drawn at random is drawn from a generator, of which nothing is used but two laws: a number
below a bound is below it, and as many words are drawn as are asked for. The generator at hand is of
the wyrand family: the state moves by a fixed odd step, and each output folds the product of two
views of the state. It is deterministic, so equal seeds give equal sequences.

## Main definitions

- `Generator` — what can be drawn, and what is promised of it
- `Random` — the state of the generator at hand
- `Random.next` — the next word
- `Random.below` — the next number below a bound, each equally likely
- `Random.take` — the next few words
-/

namespace BoundedCache

/-- A source of random numbers, whose state is a value. -/
class Generator (γ : Type) where
  /-- The next number below a bound, and the generator after it. -/
  below : Nat → γ → Nat × γ
  /-- The next few words. -/
  words : Nat → γ → List UInt64
  below_lt : ∀ {n : Nat}, 0 < n → ∀ g : γ, (below n g).1 < n
  length_words : ∀ (n : Nat) (g : γ), (words n g).length = n

/-- The state of the generator. -/
structure Random where
  state : UInt64
  deriving DecidableEq

namespace Random

def ofSeed (seed : UInt64) : Random := ⟨seed⟩

/-- The next word, and the generator after it. -/
def next (g : Random) : UInt64 × Random :=
  let state := g.state + 0x2d358dccaa6c78a5
  (Word.foldProduct state (state ^^^ 0x8bb84b93962eacc9), ⟨state⟩)

/-- Draws words until the low half of `word · n` is at least `threshold`, and returns the high half
of that product. -/
def belowFrom (n threshold : Nat) : Nat → Random → Nat × Random
  | 0, g => (0, g)
  | fuel + 1, g =>
    let (word, g) := g.next
    let product := word.toNat * n
    if product % UInt64.size < threshold then belowFrom n threshold fuel g
    else (product / UInt64.size, g)

/-- The next number below `n`. A word `w` selects `w · n / 2 ^ 64`, and the few words that would
make some numbers likelier than others are drawn again. The generator has `2 ^ 64` states, so a
draw refused that often would be refused for ever. -/
def below (n : Nat) (g : Random) : Nat × Random :=
  belowFrom n (UInt64.size % n) UInt64.size g

/-- The next `n` words, in the order in which they are drawn. -/
def take : Nat → Random → List UInt64
  | 0, _ => []
  | n + 1, g => g.next.1 :: take n g.next.2

theorem belowFrom_lt {n : Nat} (hn : 0 < n) (threshold fuel : Nat) (g : Random) :
    (belowFrom n threshold fuel g).1 < n := by
  induction fuel generalizing g with
  | zero => exact hn
  | succ fuel ih =>
    rw [belowFrom]
    generalize g.next = p
    obtain ⟨word, g⟩ := p
    dsimp only
    split
    · exact ih g
    · refine Nat.div_lt_of_lt_mul ?_
      exact Nat.mul_lt_mul_of_pos_right (UInt64.toNat_lt_size _) hn

theorem length_take (n : Nat) (g : Random) : (take n g).length = n := by
  induction n generalizing g with
  | zero => rfl
  | succ n ih => simp [take, ih]

instance : Generator Random where
  below := below
  words := take
  below_lt hn := belowFrom_lt hn _ _
  length_words := length_take

end Random

end BoundedCache
