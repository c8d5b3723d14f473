import Peephole.Decimal.Binary64

/-!
# The shortest decimal of a number

A binary number is written with the fewest decimal digits that read back to it.
The reals that round to `m * 2 ^ q` form an interval around it, whose ends belong
to it when `m` is even.  A decimal *grid* is the set of multiples of a power of
ten.  `shortest` takes the coarsest grid with a point in the interval, and of two
points there the nearer one, the upper one when they are equally near.

On a grid only the two neighbours of the number have to be looked at, since a
point of the interval on one side of the number is never nearer than the
neighbour on that side.
-/

namespace Peephole

/-- The decimal number `coefficient * 10 ^ exponent`. -/
structure Decimal where
  /-- The digits, read as one number. -/
  coefficient : Nat
  /-- The power of ten of the last digit. -/
  exponent : Int
deriving DecidableEq, Repr

namespace Decimal

/-- The reals that round to one binary number, in units of a quarter of its last
bit, that is of `2 ^ unit`. -/
structure Interval where
  /-- The lower end. -/
  low : Nat
  /-- The number itself. -/
  centre : Nat
  /-- The upper end. -/
  high : Nat
  /-- The power of two of the unit. -/
  unit : Int
  /-- Whether the ends belong to the interval. -/
  closed : Bool
deriving Repr

/-- The interval of `m * 2 ^ q`.  Below a power of two the numbers lie twice as
close, so the lower end is nearer there. -/
def Interval.around (m : Nat) (q : Int) : Interval where
  low := 4 * m - if m = Nat.pow 2 52 ∧ Binary64.minExponent < q then 1 else 2
  centre := 4 * m
  high := 4 * m + 2
  unit := q - 2
  closed := m % 2 = 0

/-- The point of the grid of `10 ^ e` that is in the interval and nearest to its
centre. -/
def Interval.pointOn (i : Interval) (e : Int) : Option Nat :=
  let scale := Nat.pow 2 i.unit.toNat * Nat.pow 10 (-e).toNat
  let step := Nat.pow 2 (-i.unit).toNat * Nat.pow 10 e.toNat
  let inside (c : Nat) : Bool :=
    if i.closed then i.low * scale ≤ c * step && c * step ≤ i.high * scale
    else i.low * scale < c * step && c * step < i.high * scale
  let below := i.centre * scale / step
  match inside below, inside (below + 1) with
  | false, false => none
  | true, false => some below
  | false, true => some (below + 1)
  | true, true =>
      if 2 * (i.centre * scale) < (2 * below + 1) * step then some below else some (below + 1)

/-- Tries the grids of `10 ^ e`, `10 ^ (e - 1)` and so on, at most `grids` of them. -/
def Interval.search (i : Interval) : (grids : Nat) → (e : Int) → Option Decimal
  | 0, _ => none
  | grids + 1, e =>
      match i.pointOn e with
      | some c => some ⟨c, e⟩
      | none => i.search grids (e - 1)

/-- All the digits of `m * 2 ^ q`. -/
def exact (m : Nat) (q : Int) : Decimal :=
  ⟨m * Nat.pow 2 q.toNat * Nat.pow 5 (-q).toNat, min q 0⟩

/-- A power of ten that is not below `m * 2 ^ q`, as its exponent. -/
def ceiling (m : Nat) (q : Int) : Int :=
  let width : Int := m.log2 + 1 + q
  if 0 ≤ width then width / 3 + 1 else -(-width / 4)

/-- The decimal with the fewest digits that reads back to `m * 2 ^ q`.  The search
starts at a grid too coarse for the interval.  Seventeen digits tell any two
numbers of the format apart, and the start is less than a hundred digits off, so
the search ends by finding a point. -/
def shortest (m : Nat) (q : Int) : Decimal :=
  ((Interval.around m q).search 200 (ceiling m q)).getD (exact m q)

/-- Drops the zeros at the end of a list of digits. -/
def dropFinalZeros (digits : List Char) : List Char :=
  (digits.reverse.dropWhile (· == '0')).reverse

/-- The number in positional notation, with a point and at least one digit on
either side of it. -/
def positional (d : Decimal) : String :=
  let places := (-d.exponent).toNat
  let digits := Nat.toDigits 10 d.coefficient ++ List.replicate d.exponent.toNat '0'
  let padded := List.replicate (places + 1 - digits.length) '0' ++ digits
  let whole := padded.take (padded.length - places)
  let fraction := dropFinalZeros (padded.drop (padded.length - places))
  String.ofList (whole ++ '.' :: if fraction.isEmpty then ['0'] else fraction)

end Decimal

/-- A number as printed: its shortest decimal in positional notation however large
or small it is, with the sign of a negative zero kept. -/
def Binary64.text (x : Binary64) : String :=
  let sign := if x.negative then "-" else ""
  match x.magnitude with
  | .nan => "NaN"
  | .infinite => sign ++ "inf"
  | .finite 0 _ => sign ++ "0.0"
  | .finite m q => sign ++ (Decimal.shortest m q).positional

end Peephole
