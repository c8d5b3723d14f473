/-!
# Binary64 numbers

A `Binary64` is a number of the 64-bit IEEE 754 format, held as its bit pattern,
so two of them are equal when their patterns are.  `magnitude` reads the pattern
as `m * 2 ^ q`, and `ofRatio` goes back: it rounds a positive fraction to the
nearest number of the format, a tie to the one with an even last bit.
-/

namespace Peephole

/-- A number in the 64-bit binary format of IEEE 754. -/
structure Binary64 where
  /-- Sign, exponent and fraction, from the top bit down. -/
  bits : UInt64
deriving DecidableEq, Inhabited

namespace Binary64

/-- The bit pattern of a machine number. -/
def ofFloat (x : Float) : Binary64 := ⟨x.toBits⟩

/-- The machine number of a bit pattern. -/
def toFloat (x : Binary64) : Float := Float.ofBits x.bits

/-- Addition of the format, rounded to nearest. -/
def add (x y : Binary64) : Binary64 := ofFloat (x.toFloat + y.toFloat)

instance : Add Binary64 := ⟨add⟩

/-- A number without its sign. -/
inductive Magnitude where
  /-- Not a number. -/
  | nan
  /-- Past every finite number. -/
  | infinite
  /-- The number `m * 2 ^ q`. -/
  | finite (m : Nat) (q : Int)
deriving DecidableEq, Repr

/-- Whether the sign bit is set. -/
def negative (x : Binary64) : Bool := Nat.pow 2 63 ≤ x.bits.toNat

/-- The smallest exponent of the format, that of the numbers next to zero. -/
def minExponent : Int := -1074

/-- The number without its sign, with the exponent its pattern has. -/
def magnitude (x : Binary64) : Magnitude :=
  let fraction := x.bits.toNat % Nat.pow 2 52
  let exponent : Nat := x.bits.toNat / Nat.pow 2 52 % Nat.pow 2 11
  if exponent = Nat.pow 2 11 - 1 then
    if fraction = 0 then .infinite else .nan
  else if exponent = 0 then .finite fraction minExponent
  else .finite (Nat.pow 2 52 + fraction) (minExponent + exponent - 1)

/-- Whether the pattern is one of those that are not a number. -/
def isNaN (x : Binary64) : Bool := x.magnitude = .nan

/-- A pattern with the sign bit as given. -/
def withSign (negative : Bool) (pattern : Nat) : Binary64 :=
  ⟨UInt64.ofNat (pattern + if negative then Nat.pow 2 63 else 0)⟩

/-- The infinite number of a sign. -/
def infinity (negative : Bool) : Binary64 := withSign negative (0x7ff * Nat.pow 2 52)

/-- The pattern that stands for not a number. -/
def nan (negative : Bool) : Binary64 := withSign negative (0x7ff * Nat.pow 2 52 + Nat.pow 2 51)

/-- The natural number nearest to `n / d`, a tie to the even one. -/
def roundRatio (n d : Nat) : Nat :=
  let below := n / d
  let twice := 2 * (n % d)
  if twice < d then below
  else if twice = d then below + below % 2
  else below + 1

/-- The greatest `e` with `2 ^ e ≤ n / d`, for positive `n` and `d`. -/
def ratioLog2 (n d : Nat) : Int :=
  let e : Int := (n.log2 : Int) - d.log2
  if d * Nat.pow 2 e.toNat ≤ n * Nat.pow 2 (-e).toNat then e else e - 1

/-- The number nearest to `n / d`, for positive `n` and `d`.  A fraction past the
greatest finite number by half a unit or more is infinite. -/
def ofRatio (negative : Bool) (n d : Nat) : Binary64 :=
  let q := max (ratioLog2 n d - 52) minExponent
  let m := roundRatio (n * Nat.pow 2 (-q).toNat) (d * Nat.pow 2 q.toNat)
  withSign negative (min ((q - minExponent).toNat * Nat.pow 2 52 + m) (0x7ff * Nat.pow 2 52))

end Binary64

end Peephole
