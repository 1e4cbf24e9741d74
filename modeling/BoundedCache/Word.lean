/-!
# Operations on 64-bit words

The building blocks of the hash functions and of the random generator: rotations, products folded
to one word, and the scrambling function from which table positions are derived.

## Main definitions

- `Word.rotateLeft`, `Word.foldProduct`, `Word.swapBytes` — bit operations on words
- `Word.scramble` — the finalizer of the splitmix generator
- `Word.ofBytes`, `Word.toLittleEndian`, `Word.toBigEndian` — words as byte sequences
-/

namespace BoundedCache.Word

/-- The word rotated to the left by `r` bits, for `0 < r < 64`. -/
def rotateLeft (x r : UInt64) : UInt64 :=
  (x <<< r) ||| (x >>> (64 - r))

/-- The exclusive or of the two halves of the 128-bit product. -/
def foldProduct (x y : UInt64) : UInt64 :=
  let product := x.toNat * y.toNat
  product.toUInt64 ^^^ (product / UInt64.size).toUInt64

/-- Scrambles a word so that close inputs land far apart. Each of the steps can be undone, so no two
words are scrambled alike. -/
def scramble (x : UInt64) : UInt64 :=
  let x := x + 0x9E3779B97F4A7C15
  let x := (x ^^^ (x >>> 30)) * 0xBF58476D1CE4E5B9
  let x := (x ^^^ (x >>> 27)) * 0x94D049BB133111EB
  x ^^^ (x >>> 31)

/-- The byte at a position, zero past the end. -/
def byteAt (bytes : ByteArray) (i : Nat) : UInt8 :=
  if h : i < bytes.size then bytes[i] else 0

/-- The `n` bytes from a position on, read as a number with the least significant byte first. -/
def ofBytes (bytes : ByteArray) (start n : Nat) : UInt64 :=
  (List.range n).foldr (fun i word => (word <<< 8) ||| (byteAt bytes (start + i)).toUInt64) 0

/-- The eight bytes of a word, least significant first. -/
def toLittleEndian (x : UInt64) : ByteArray :=
  ⟨Array.ofFn fun i : Fin 8 => (x >>> (8 * i.val).toUInt64).toUInt8⟩

/-- The eight bytes of a word, most significant first. -/
def toBigEndian (x : UInt64) : ByteArray :=
  ⟨Array.ofFn fun i : Fin 8 => (x >>> (8 * (7 - i.val)).toUInt64).toUInt8⟩

def swapBytes (x : UInt64) : UInt64 :=
  ofBytes (toBigEndian x) 0 8

/-- Two words are equal if their bits are. -/
theorem eq_of_testBit {x y : UInt64} (h : ∀ j < 64, x.toNat.testBit j = y.toNat.testBit j) :
    x = y := by
  apply UInt64.toNat_inj.1
  apply Nat.eq_of_testBit_eq
  intro j
  by_cases hj : j < 64
  · exact h j hj
  · -- No word has a bit that far up.
    have hpow : 2 ^ 64 ≤ 2 ^ j := Nat.pow_le_pow_right (by decide) (Nat.le_of_not_lt hj)
    rw [Nat.testBit_lt_two_pow (Nat.lt_of_lt_of_le x.toNat_lt hpow),
      Nat.testBit_lt_two_pow (Nat.lt_of_lt_of_le y.toNat_lt hpow)]

end BoundedCache.Word
