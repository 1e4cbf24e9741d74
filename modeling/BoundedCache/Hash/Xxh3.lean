import BoundedCache.Word

/-!
# XXH3

The 64-bit hash XXH3 with seed zero and its default secret. Five rules cover the lengths up to 240
bytes; a longer input runs through eight accumulators, in stripes of 64 bytes.

## Main definitions

- `Xxh3.hashEmpty`, `hashUpTo3`, `hashUpTo8`, `hashUpTo16`, `hashUpTo128`, `hashUpTo240` — the rules
  for short inputs
- `Xxh3.hashLong` — the rule for all others
- `Xxh3.hash` — the hash of a byte sequence
-/

namespace BoundedCache.Xxh3

/-- The default secret, from which each rule takes the words that it mixes in. -/
def secret : ByteArray :=
  ⟨#[
    0xb8, 0xfe, 0x6c, 0x39, 0x23, 0xa4, 0x4b, 0xbe, 0x7c, 0x01, 0x81, 0x2c,
    0xf7, 0x21, 0xad, 0x1c, 0xde, 0xd4, 0x6d, 0xe9, 0x83, 0x90, 0x97, 0xdb,
    0x72, 0x40, 0xa4, 0xa4, 0xb7, 0xb3, 0x67, 0x1f, 0xcb, 0x79, 0xe6, 0x4e,
    0xcc, 0xc0, 0xe5, 0x78, 0x82, 0x5a, 0xd0, 0x7d, 0xcc, 0xff, 0x72, 0x21,
    0xb8, 0x08, 0x46, 0x74, 0xf7, 0x43, 0x24, 0x8e, 0xe0, 0x35, 0x90, 0xe6,
    0x81, 0x3a, 0x26, 0x4c, 0x3c, 0x28, 0x52, 0xbb, 0x91, 0xc3, 0x00, 0xcb,
    0x88, 0xd0, 0x65, 0x8b, 0x1b, 0x53, 0x2e, 0xa3, 0x71, 0x64, 0x48, 0x97,
    0xa2, 0x0d, 0xf9, 0x4e, 0x38, 0x19, 0xef, 0x46, 0xa9, 0xde, 0xac, 0xd8,
    0xa8, 0xfa, 0x76, 0x3f, 0xe3, 0x9c, 0x34, 0x3f, 0xf9, 0xdc, 0xbb, 0xc7,
    0xc7, 0x0b, 0x4f, 0x1d, 0x8a, 0x51, 0xe0, 0x4b, 0xcd, 0xb4, 0x59, 0x31,
    0xc8, 0x9f, 0x7e, 0xc9, 0xd9, 0x78, 0x73, 0x64, 0xea, 0xc5, 0xac, 0x83,
    0x34, 0xd3, 0xeb, 0xc3, 0xc5, 0x81, 0xa0, 0xff, 0xfa, 0x13, 0x63, 0xeb,
    0x17, 0x0d, 0xdd, 0x51, 0xb7, 0xf0, 0xda, 0x49, 0xd3, 0x16, 0x55, 0x26,
    0x29, 0xd4, 0x68, 0x9e, 0x2b, 0x16, 0xbe, 0x58, 0x7d, 0x47, 0xa1, 0xfc,
    0x8f, 0xf8, 0xb8, 0xd1, 0x7a, 0xd0, 0x31, 0xce, 0x45, 0xcb, 0x3a, 0x8f,
    0x95, 0x16, 0x04, 0x28, 0xaf, 0xd7, 0xfb, 0xca, 0xbb, 0x4b, 0x40, 0x7e
  ]⟩

/-- The secret word that starts at a position. -/
def secretWord (start : Nat) : UInt64 :=
  Word.ofBytes secret start 8

/-- The half word of input that starts at a position. -/
def half (bytes : ByteArray) (start : Nat) : UInt64 :=
  Word.ofBytes bytes start 4

/-- The word of input that starts at a position. -/
def word (bytes : ByteArray) (start : Nat) : UInt64 :=
  Word.ofBytes bytes start 8

/-! ## Constants and mixers -/

/-- The first of the three 32-bit primes that the hash uses. -/
def prime32First : UInt64 := 0x9E3779B1

/-- The second of the three 32-bit primes that the hash uses. -/
def prime32Second : UInt64 := 0x85EBCA77

/-- The third of the three 32-bit primes that the hash uses. -/
def prime32Third : UInt64 := 0xC2B2AE3D

/-- The first of the five 64-bit primes that the hash uses. -/
def prime64First : UInt64 := 0x9E3779B185EBCA87

/-- The second of the five 64-bit primes that the hash uses. -/
def prime64Second : UInt64 := 0xC2B2AE3D27D4EB4F

/-- The third of the five 64-bit primes that the hash uses. -/
def prime64Third : UInt64 := 0x165667B19E3779F9

/-- The fourth of the five 64-bit primes that the hash uses. -/
def prime64Fourth : UInt64 := 0x85EBCA77C2B2AE63

/-- The fifth of the five 64-bit primes that the hash uses. -/
def prime64Fifth : UInt64 := 0x27D4EB2F165667C5

/-- The closing mixer of most rules. -/
def avalanche (h : UInt64) : UInt64 :=
  let h := (h ^^^ (h >>> 37)) * 0x165667919E3779F9
  h ^^^ (h >>> 32)

/-- The closing mixer for inputs of at most three bytes. -/
def avalancheShort (h : UInt64) : UInt64 :=
  let h := (h ^^^ (h >>> 33)) * prime64Second
  let h := (h ^^^ (h >>> 29)) * prime64Third
  h ^^^ (h >>> 32)

/-- Sixteen bytes of input, mixed with sixteen bytes of the secret. -/
def mix16 (bytes : ByteArray) (start secretStart : Nat) : UInt64 :=
  Word.foldProduct (word bytes start ^^^ secretWord secretStart)
    (word bytes (start + 8) ^^^ secretWord (secretStart + 8))

/-- The sum of a word for each number below `n`. -/
def sumBelow (n : Nat) (term : Nat → UInt64) : UInt64 :=
  (List.range n).foldl (fun sum i => sum + term i) 0

/-! ## Short inputs -/

/-- The hash of the empty input. -/
def hashEmpty : UInt64 :=
  avalancheShort (secretWord 56 ^^^ secretWord 64)

/-- The hash of one to three bytes. -/
def hashUpTo3 (bytes : ByteArray) : UInt64 :=
  let n := bytes.size
  let byte (i : Nat) : UInt64 := (Word.byteAt bytes i).toUInt64
  let combined := byte 0 <<< 16 ||| byte (n / 2) <<< 24 ||| byte (n - 1) ||| n.toUInt64 <<< 8
  avalancheShort (combined ^^^ (half secret 0 ^^^ half secret 4))

/-- The hash of four to eight bytes. -/
def hashUpTo8 (bytes : ByteArray) : UInt64 :=
  let n := bytes.size
  let h := (half bytes (n - 4) + (half bytes 0 <<< 32)) ^^^ (secretWord 8 ^^^ secretWord 16)
  let h := h ^^^ (Word.rotateLeft h 49 ^^^ Word.rotateLeft h 24)
  let h := h * 0x9FB21C651E98DF25
  let h := h ^^^ ((h >>> 35) + n.toUInt64)
  let h := h * 0x9FB21C651E98DF25
  h ^^^ (h >>> 28)

/-- The hash of nine to sixteen bytes. -/
def hashUpTo16 (bytes : ByteArray) : UInt64 :=
  let n := bytes.size
  let low := word bytes 0 ^^^ (secretWord 24 ^^^ secretWord 32)
  let high := word bytes (n - 8) ^^^ (secretWord 40 ^^^ secretWord 48)
  avalanche (n.toUInt64 + Word.swapBytes low + high + Word.foldProduct low high)

/-- The hash of 17 to 128 bytes: sixteen at a time from both ends toward the middle. -/
def hashUpTo128 (bytes : ByteArray) : UInt64 :=
  let n := bytes.size
  let pair (i : Nat) : UInt64 :=
    mix16 bytes (16 * i) (32 * i) + mix16 bytes (n - 16 * (i + 1)) (32 * i + 16)
  avalanche (n.toUInt64 * prime64First + sumBelow ((n - 1) / 32 + 1) pair)

/-- The hash of 129 to 240 bytes: sixteen at a time from the start, with a mixer after the first
128. -/
def hashUpTo240 (bytes : ByteArray) : UInt64 :=
  let n := bytes.size
  let first := sumBelow 8 fun i => mix16 bytes (16 * i) (16 * i)
  let later := sumBelow (n / 16 - 8) fun i => mix16 bytes (16 * (i + 8)) (16 * i + 3)
  avalanche (avalanche (n.toUInt64 * prime64First + first) + later + mix16 bytes (n - 16) 119)

/-! ## Long inputs -/

/-- The eight accumulators of the long rule. -/
abbrev Lanes := Vector UInt64 8

namespace Lanes

/-- The accumulators before any input. -/
def initial : Lanes :=
  #v[prime32Third, prime64First, prime64Second, prime64Third, prime64Fourth, prime32Second,
    prime64Fifth, prime32First]

/-- Takes in the 64 bytes from a position on: each word goes to the neighbouring accumulator as it
is, and to its own as the product of the halves of its mixture with the secret. -/
def absorbStripe (bytes : ByteArray) (lanes : Lanes) (start secretStart : Nat) : Lanes :=
  Vector.ofFn fun i =>
    let mixed : UInt64 := word bytes (start + 8 * i.val) ^^^ secretWord (secretStart + 8 * i.val)
    let product : UInt64 := (mixed &&& (0xFFFFFFFF : UInt64)) * (mixed >>> 32)
    lanes[i] + word bytes (start + 8 * (i ^^^ 1).val) + product

/-- Takes in `count` stripes, moving eight bytes on in the secret at each. -/
def absorbStripes (bytes : ByteArray) (start count : Nat) (lanes : Lanes) : Lanes :=
  (List.range count).foldl (fun lanes j => absorbStripe bytes lanes (start + 64 * j) (8 * j)) lanes

/-- The mixing at the end of each full block. -/
def mixBlock (lanes : Lanes) : Lanes :=
  Vector.ofFn fun i =>
    let lane := lanes[i]
    ((lane ^^^ (lane >>> 47)) ^^^ secretWord (128 + 8 * i.val)) * prime32First

/-- The word to which the accumulators are merged, for an input of `n` bytes. -/
def merge (lanes : Lanes) (n : Nat) : UInt64 :=
  avalanche (n.toUInt64 * prime64First +
    sumBelow 4 fun i => Word.foldProduct (lanes.getD (2 * i) 0 ^^^ secretWord (11 + 16 * i))
      (lanes.getD (2 * i + 1) 0 ^^^ secretWord (19 + 16 * i)))

end Lanes

/-- The hash of more than 240 bytes. A block is sixteen stripes; the stripe that ends the input is
taken in last, whether or not it overlaps what came before. -/
def hashLong (bytes : ByteArray) : UInt64 :=
  let n := bytes.size
  let blocks := (n - 1) / 1024
  let lanes := (List.range blocks).foldl
    (fun lanes b => (lanes.absorbStripes bytes (1024 * b) 16).mixBlock) Lanes.initial
  let lanes := lanes.absorbStripes bytes (1024 * blocks) ((n - 1 - 1024 * blocks) / 64)
  (lanes.absorbStripe bytes (n - 64) 121).merge n

/-- The hash of a byte sequence. -/
def hash (bytes : ByteArray) : UInt64 :=
  let n := bytes.size
  if n = 0 then hashEmpty
  else if n ≤ 3 then hashUpTo3 bytes
  else if n ≤ 8 then hashUpTo8 bytes
  else if n ≤ 16 then hashUpTo16 bytes
  else if n ≤ 128 then hashUpTo128 bytes
  else if n ≤ 240 then hashUpTo240 bytes
  else hashLong bytes

end BoundedCache.Xxh3
