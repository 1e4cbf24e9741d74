/-!
# Packed counters

A 64-bit word holds sixteen counters of four bits. Counters stop at their largest value, and are
aged by division.

## Main definitions

- `Packed.counterBits`, `Packed.counterMax`, `Packed.countersPerWord` — the dimensions
- `Packed.count` — the counter in one lane of a word
- `Packed.setCount` — the word with that counter replaced
- `Packed.addCount` — the word with an amount added to that counter
- `Packed.halve` — the word with every counter halved, all lanes at once
- `Packed.divide` — the word with every counter divided, lane by lane
-/

namespace BoundedCache.Packed

/-- The number of bits of a counter. -/
def counterBits : Nat := 4

/-- The largest value of a counter. -/
def counterMax : Nat := 15

/-- The number of counters in a word. -/
def countersPerWord : Nat := 16

/-- The distance of a lane from the low end of its word, in bits. -/
def shift (lane : Nat) : UInt64 :=
  (counterBits * lane).toUInt64

/-- The counter in a lane. -/
def count (word : UInt64) (lane : Nat) : Nat :=
  ((word >>> shift lane) &&& 15).toNat

/-- The word with the counter in a lane replaced by a value up to `counterMax`. -/
def setCount (word : UInt64) (lane value : Nat) : UInt64 :=
  (word &&& ~~~((15 : UInt64) <<< shift lane)) ||| (value.toUInt64 <<< shift lane)

/-- The word with an amount added to the counter in a lane, which stops at `counterMax`. -/
def addCount (word : UInt64) (lane amount : Nat) : UInt64 :=
  setCount word lane (min (count word lane + amount) counterMax)

/-- The word with every counter halved. Shifting the word moves the low bit of each counter into
the top of the next one, and the mask takes it away again. -/
def halve (word : UInt64) : UInt64 :=
  (word >>> 1) &&& 0x7777777777777777

/-- The word with every counter divided. -/
def divide (word : UInt64) (divisor : Nat) : UInt64 :=
  (List.range countersPerWord).foldl
    (fun aged lane => aged ||| ((count word lane / divisor).toUInt64 <<< shift lane)) 0

end BoundedCache.Packed
