import BoundedCache.Hash.Sip
import BoundedCache.Hash.Xxh3

/-!
# Key hashes

A frequency sketch and a membership filter see keys only through 64-bit hashes. This module makes
such hashes from keys: the default one from an encoding that every type of key brings along, and
others from an encoding that the user chooses.

## Main definitions

- `KeyHash` — a function from keys to hashes
- `KeyEncoding` — the types whose values have an encoding in bytes
- `KeyHash.standard` — the default hash
- `KeyHash.ofEncoding` — the hash by a chosen encoding
- `KeyHash.ofText` — the hash of the bytes of a text
-/

namespace BoundedCache

/-- A function from keys to 64-bit hashes. Nothing is required of it: two keys with one hash only
share their frequency. -/
abbrev KeyHash (κ : Type) := κ → UInt64

/-- The types whose values have an encoding in bytes such that no encoding starts another one. -/
class KeyEncoding (κ : Type) where
  encode : κ → ByteArray

/-- A word is encoded by its eight bytes, the least significant first. -/
instance : KeyEncoding UInt64 where
  encode := Word.toLittleEndian

/-- A text is encoded by its bytes and an end mark, which occurs in no text. -/
instance : KeyEncoding String where
  encode text := text.toUTF8.push 0xff

namespace KeyHash

variable {κ : Type}

/-- The default hash of a key. -/
def standard [KeyEncoding κ] : KeyHash κ :=
  fun key => Sip.hash (KeyEncoding.encode key)

/-- The hash of a key by a chosen encoding. -/
def ofEncoding (encode : κ → ByteArray) : KeyHash κ :=
  fun key => Xxh3.hash (encode key)

/-- The hash of the bytes of a text. -/
def ofText : KeyHash String :=
  ofEncoding String.toUTF8

end KeyHash

end BoundedCache
