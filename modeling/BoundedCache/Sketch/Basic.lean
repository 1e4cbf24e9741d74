import BoundedCache.Binary64
import BoundedCache.Error
import BoundedCache.Random
import BoundedCache.Sketch.Packed

/-!
# Frequency sketches

A frequency sketch counts how often each hash was seen, in a table far smaller than the set of
hashes. Every row maps a hash to one of its counters; hashes that share a counter add up, so a row
can overcount but not undercount, and the estimate is the least count of all rows.

## Main definitions

- `Sketch.Row` — one row: a seed, and counters packed into words
- `Sketch.Cell` — the place of a counter in a row
- `Sketch` — the rows
- `Sketch.create`, `Sketch.ofElements` — a sketch sized for an error and its probability
- `Sketch.add`, `Sketch.estimate` — count a hash, and read its count
- `Sketch.attenuate`, `Sketch.clear` — age or forget all counts

## Design notes

The number of words in a row is a power of two, so that the scrambled hash selects each of them
equally often. The low four bits of the scrambled hash select the lane, the bits above them the
word.
-/

namespace BoundedCache

namespace Sketch

/-- The place of a counter in a row: a word, and a lane in it. -/
structure Cell where
  word : Nat
  lane : Nat
  deriving DecidableEq

/-- One row of a sketch. -/
structure Row where
  seed : UInt64
  words : Array UInt64
  deriving DecidableEq

namespace Row

/-- A row of zeros. -/
def zeros (words : Nat) (seed : UInt64) : Row :=
  ⟨seed, Array.replicate words 0⟩

/-- The cell that a hash maps to. -/
def cell (row : Row) (hash : UInt64) : Cell :=
  let scrambled := Word.scramble (hash ^^^ row.seed)
  ⟨(scrambled >>> 4).toNat % row.words.size, (scrambled &&& 15).toNat⟩

/-- The counter in a cell. -/
def count (row : Row) (c : Cell) : Nat :=
  Packed.count (row.words.getD c.word 0) c.lane

/-- Adds an amount to the counter that a hash maps to. -/
def add (row : Row) (hash : UInt64) (amount : Nat) : Row :=
  let c := row.cell hash
  { row with words := row.words.modify c.word fun word => Packed.addCount word c.lane amount }

/-- The counter that a hash maps to. -/
def estimate (row : Row) (hash : UInt64) : Nat :=
  row.count (row.cell hash)

/-- Applies a function to every word of a row. -/
def mapWords (row : Row) (f : UInt64 → UInt64) : Row :=
  { row with words := row.words.map f }

end Row

end Sketch

/-- A table of counters, read through the hash of one seed for each row. -/
structure Sketch where
  rows : List Sketch.Row
  deriving DecidableEq

namespace Sketch

/-- The base of the natural logarithm. -/
def euler : Float := 2.718281828459045

/-- The number of words in each row: `e · size / range` counters, packed, and rounded up to a power
of two. -/
def rowWords (size errorRange : Nat) : Nat :=
  let counters := euler * Binary64.ofCount size / Binary64.ofCount errorRange
  let words := Binary64.ceilCount (counters / Binary64.ofCount Packed.countersPerWord)
  (max words 1).nextPowerOfTwo

/-- The number of rows that makes an error rarer than the rate. -/
def rowCount (errorRate : Float) : Nat :=
  max (Binary64.ceilCount (Float.log (1 / errorRate))) 1

/-- A sketch of zeros for about `size` distinct hashes. An estimate exceeds the true count by more
than `errorRange` with a probability of at most `errorRate`. -/
def create (size errorRange : Nat) (errorRate : Float) (seed : UInt64) :
    Except SetupError Sketch := do
  requireCapacity size
  if errorRange = 0 ∨ Packed.counterMax < errorRange then
    throw (.errorRangeOutOfBounds errorRange Packed.counterMax)
  requireFraction .errorRate errorRate
  let seeds := Generator.words (rowCount errorRate) (Random.ofSeed seed)
  return ⟨seeds.map (Row.zeros (rowWords size errorRange))⟩

/-- A sketch of zeros for `size` events spread over `elements` distinct hashes. The tolerated error
is the mean number of events for each hash, as far as a counter can hold it. -/
def ofElements (size elements : Nat) (errorRate : Float) (seed : UInt64) :
    Except SetupError Sketch := do
  requireCapacity size
  requireCapacity elements
  if size < elements then
    throw (.elementsExceedSize elements size)
  create size (min (size / elements) Packed.counterMax) errorRate seed

/-- The number of rows. -/
def hashes (s : Sketch) : Nat := s.rows.length

/-- The number of counters in each row. -/
def counters (s : Sketch) : Nat :=
  (s.rows.head?.elim 0 fun row => row.words.size) * Packed.countersPerWord

/-- Adds an amount to every counter that a hash maps to. -/
def add (s : Sketch) (hash : UInt64) (amount : Nat) : Sketch :=
  ⟨s.rows.map fun row => row.add hash amount⟩

/-- The least of a bound and the counters that a hash maps to in some rows. A counter of zero ends
the search. -/
def leastCount (hash : UInt64) : List Row → Nat → Nat
  | [], least => least
  | row :: rows, least =>
    let count := row.estimate hash
    if count = 0 then 0 else leastCount hash rows (min least count)

/-- The least of the counters that a hash maps to. -/
def estimate (s : Sketch) (hash : UInt64) : Nat :=
  leastCount hash s.rows Packed.counterMax

/-- Sets every counter to zero. -/
def clear (s : Sketch) : Sketch :=
  ⟨s.rows.map fun row => row.mapWords fun _ => 0⟩

/-- Divides every counter by a factor; a factor of zero, or one larger than any counter, clears the
sketch. -/
def attenuate (s : Sketch) (factor : Nat) : Sketch :=
  if factor = 0 ∨ Packed.counterMax < factor then s.clear
  else if factor = 1 then s
  else if factor = 2 then ⟨s.rows.map fun row => row.mapWords Packed.halve⟩
  else ⟨s.rows.map fun row => row.mapWords fun word => Packed.divide word factor⟩

end Sketch

end BoundedCache
