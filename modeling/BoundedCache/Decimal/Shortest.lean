/-!
# Shortest decimal text of a double

A double is written with the fewest decimal digits that still read back as the same double, and
always positionally: no exponent, and no point after a whole number.

## Main definitions

- `Decimal` — a natural number of units, each worth a power of ten
- `Decimal.shortest` — the shortest decimal that reads back as `m · 2 ^ e`
- `Decimal.positional` — the text of a decimal, without an exponent
- `Decimal.render` — the text of a double

## Design notes

The reals that round to a double form an interval around it, which contains its ends iff the
mantissa is even. For one digit, two digits, and so on, the two neighbours of the value on the
decimal grid with that many digits are tested against the interval. The first grid with a hit is
taken, of two hits the nearer one, and an exact tie goes up. Seventeen digits always suffice.
-/

namespace BoundedCache

/-- The number `units · 10 ^ exponent`. -/
structure Decimal where
  units : Nat
  exponent : Int
  deriving DecidableEq

namespace Decimal

/-- The powers of ten. -/
def powTen (k : Nat) : Nat := Nat.pow 10 k

/-- A double seen from a decimal grid: its value, and the ends of the interval of reals that round
to it, counted in grid units and given as numerators over one denominator. -/
structure GridView where
  value : Nat
  low : Nat
  high : Nat
  den : Nat
  closed : Bool

namespace GridView

/-- The double `m · 2 ^ e` seen from the grid of multiples of `10 ^ k`. The interval reaches half a
gap to either side; below the least mantissa of a binade the gap is only half as wide, except where
the doubles are evenly spaced down to zero. -/
def ofBinary (m : Nat) (e k : Int) : GridView :=
  let quarter := 1 <<< e.toNat * powTen (-k).toNat
  let below := if m = 1 <<< 52 ∧ e ≠ -1074 then 1 else 2
  { value := 4 * m * quarter
    low := (4 * m - below) * quarter
    high := (4 * m + 2) * quarter
    den := 4 * 1 <<< (-e).toNat * powTen k.toNat
    closed := m % 2 == 0 }

/-- A number of grid units lies in the interval. -/
def contains (g : GridView) (n : Nat) : Bool :=
  if g.closed then g.low ≤ n * g.den && n * g.den ≤ g.high
  else g.low < n * g.den && n * g.den < g.high

/-- The grid point nearest to the value among its two neighbours that lie in the interval. -/
def nearest? (g : GridView) : Option Nat :=
  let down := g.value / g.den
  match g.contains down, g.contains (down + 1) with
  | false, false => none
  | true, false => some down
  | false, true => some (down + 1)
  | true, true => some (if 2 * (g.value % g.den) < g.den then down else down + 1)

end GridView

/-- The number of digits of `m · 2 ^ e` before the point, negative for leading zeros after it. Four
hundred places reach below every positive double. -/
def magnitude (m : Nat) (e : Int) : Int :=
  (Nat.toDigits 10 ((m <<< e.toNat * powTen 400) >>> (-e).toNat)).length - 400

/-- The decimal with the fewest digits that reads back as the double `m · 2 ^ e`. -/
def shortest (m : Nat) (e : Int) : Decimal :=
  let places := magnitude m e
  let onGrid (i : Nat) : Option Decimal :=
    let k := places - (i + 1)
    (GridView.ofBinary m e k).nearest?.map (⟨·, k⟩)
  ((List.range 17).findSome? onGrid).getD ⟨m, 0⟩

/-- The digits of a list without the zeros at its end. -/
def dropFinalZeros (digits : List Char) : List Char :=
  (digits.reverse.dropWhile (· == '0')).reverse

/-- The text of a decimal: all digits before the point, and no more after it than are needed. -/
def positional (d : Decimal) : String :=
  let digits := Nat.toDigits 10 d.units
  if 0 ≤ d.exponent then
    String.ofList (digits ++ List.replicate d.exponent.toNat '0')
  else
    let places := (-d.exponent).toNat
    let padded := List.replicate (places + 1 - digits.length) '0' ++ digits
    let whole := padded.take (padded.length - places)
    match dropFinalZeros (padded.drop (padded.length - places)) with
    | [] => String.ofList whole
    | fraction => String.ofList (whole ++ '.' :: fraction)

/-- The mark written ahead of a number with the given sign. -/
def signMark : Float.Model.UnpackedFloat.Sign → String
  | .positive => ""
  | .negative => "-"

/-- The text of a double: the shortest decimal that reads back as it, or the name of what is not a
finite number. -/
def render (x : Float) : String :=
  match x.toModel.unpack with
  | .notANumber => "NaN"
  | .infinity sign => signMark sign ++ "inf"
  | .zero sign => signMark sign ++ "0"
  | .finite sign m e _ => signMark sign ++ (shortest m e).positional

end Decimal

end BoundedCache
