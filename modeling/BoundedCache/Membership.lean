import BoundedCache.Binary64
import BoundedCache.Error
import BoundedCache.Random

/-!
# Membership filters

A membership filter remembers a set of hashes in an array of bits. A hash sets one bit for each
seed, and is taken for a member when all of its bits are set. A member is always found; a stranger
is taken for a member only if others have set all of its bits.

## Main definitions

- `Membership` — the bits and the seeds
- `Membership.create` — an empty filter sized for a rate of false positives
- `Membership.add`, `Membership.contains` — remember a hash, and look for one
- `Membership.clear` — forget everything
-/

namespace BoundedCache

/-- A set of hashes: bits packed into words, and one seed for each bit of a hash. -/
structure Membership where
  words : Array UInt64
  seeds : List UInt64
  deriving DecidableEq

namespace Membership

def logTwo : Float := 0.6931471805599453

/-- The number of words that keeps false positives below the rate. -/
def wordCount (capacity : Nat) (rate : Float) : Nat :=
  let bits := Binary64.ofCount capacity * -Float.log rate / (logTwo * logTwo)
  max (Binary64.ceilCount (bits / 64)) 1

/-- The number of bits of a hash at which so many bits are used best. -/
def hashCount (capacity bits : Nat) : Nat :=
  max (Binary64.ceilCount (logTwo * Binary64.ofCount bits / Binary64.ofCount capacity)) 1

/-- An empty filter for a number of hashes, and a probability of taking a stranger for a member. -/
def create (capacity : Nat) (rate : Float) (seed : UInt64) : Except SetupError Membership := do
  requireCapacity capacity
  requireFraction .falsePositiveRate rate
  let words := wordCount capacity rate
  let seeds := Generator.words (hashCount capacity (64 * words)) (Random.ofSeed seed)
  return ⟨Array.replicate words 0, seeds⟩

def bits (f : Membership) : Nat := 64 * f.words.size

/-- The number of bits that each hash sets. -/
def hashes (f : Membership) : Nat := f.seeds.length

/-- The bit that a hash selects through one seed. -/
def position (f : Membership) (hash seed : UInt64) : Nat :=
  (Word.scramble (hash ^^^ seed)).toNat % f.bits

def positions (f : Membership) (hash : UInt64) : List Nat :=
  f.seeds.map (f.position hash)

/-- The word in which only the bit of a position is set. -/
def mask (position : Nat) : UInt64 :=
  1 <<< (position % 64).toUInt64

def testBit (f : Membership) (position : Nat) : Bool :=
  f.words.getD (position / 64) 0 &&& mask position != 0

def setBit (f : Membership) (position : Nat) : Membership :=
  { f with words := f.words.modify (position / 64) (· ||| mask position) }

def add (f : Membership) (hash : UInt64) : Membership :=
  (f.positions hash).foldl setBit f

/-- All bits of a hash are set. -/
def contains (f : Membership) (hash : UInt64) : Bool :=
  (f.positions hash).all f.testBit

def clear (f : Membership) : Membership :=
  { f with words := f.words.map fun _ => 0 }

end Membership

end BoundedCache
