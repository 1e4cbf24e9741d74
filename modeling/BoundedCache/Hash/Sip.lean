import BoundedCache.Word

/-!
# SipHash-1-3

The keyed hash SipHash with one mixing round per word of input and three rounds at the end, under
the all-zero key.

## Main definitions

- `Sip` — the four words of the hash state
- `Sip.round` — one mixing round
- `Sip.hash` — the hash of a byte sequence
-/

namespace BoundedCache

/-- The state of the hash. -/
structure Sip where
  v0 : UInt64
  v1 : UInt64
  v2 : UInt64
  v3 : UInt64
  deriving DecidableEq

namespace Sip

/-- The state before any input, under the all-zero key. -/
def initial : Sip :=
  ⟨0x736f6d6570736575, 0x646f72616e646f6d, 0x6c7967656e657261, 0x7465646279746573⟩

/-- One mixing round: additions, rotations and exclusive ors on the four words. -/
def round (s : Sip) : Sip :=
  let v0 := s.v0 + s.v1
  let v1 := Word.rotateLeft s.v1 13 ^^^ v0
  let v0 := Word.rotateLeft v0 32
  let v2 := s.v2 + s.v3
  let v3 := Word.rotateLeft s.v3 16 ^^^ v2
  let v0 := v0 + v3
  let v3 := Word.rotateLeft v3 21 ^^^ v0
  let v2 := v2 + v1
  let v1 := Word.rotateLeft v1 17 ^^^ v2
  let v2 := Word.rotateLeft v2 32
  ⟨v0, v1, v2, v3⟩

/-- Takes in one word of the message. -/
def absorb (s : Sip) (word : UInt64) : Sip :=
  let s := round { s with v3 := s.v3 ^^^ word }
  { s with v0 := s.v0 ^^^ word }

/-- The words of a message: its bytes eight at a time, the last word holding the bytes left over
and, in its most significant byte, the length. -/
def messageWords (bytes : ByteArray) : List UInt64 :=
  let whole := bytes.size / 8
  let last := Word.ofBytes bytes (8 * whole) (bytes.size % 8) ||| (bytes.size.toUInt64 <<< 56)
  (List.range whole).map (fun i => Word.ofBytes bytes (8 * i) 8) ++ [last]

/-- The word that the final state yields. -/
def finish (s : Sip) : UInt64 :=
  let s := round (round (round { s with v2 := s.v2 ^^^ 0xff }))
  s.v0 ^^^ s.v1 ^^^ s.v2 ^^^ s.v3

/-- The hash of a byte sequence. -/
def hash (bytes : ByteArray) : UInt64 :=
  ((messageWords bytes).foldl absorb initial).finish

end Sip

end BoundedCache
