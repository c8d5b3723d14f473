import Peephole.Decimal.Binary64

/-!
# Reading numbers

`readBinary64?` reads a decimal number: an optional sign, digits with at most one
point among them, and an optional exponent.  Infinity and not-a-number go by their
names in any case.  `readCount?` reads a count below `2 ^ 64` with an optional plus
sign.  Both read the whole text and refuse blanks and separators.
-/

namespace Peephole

/-- The value of a run of decimal digits. -/
def digitsValue (digits : List Char) : Nat :=
  digits.foldl (fun n c => 10 * n + (c.toNat - '0'.toNat)) 0

/-- An ASCII decimal digit. -/
def isDecimalDigit (c : Char) : Bool := '0' ≤ c && c ≤ '9'

/-- Takes a sign off the front of a text: whether it was a minus, and the rest. -/
def takeSign : List Char → Bool × List Char
  | '-' :: rest => (true, rest)
  | '+' :: rest => (false, rest)
  | text => (false, text)

/-- The exponent that a text gives after its digits.  An empty text gives zero. -/
def readExponent? : List Char → Option Int
  | [] => some 0
  | mark :: rest =>
      let (negative, digits) := takeSign rest
      if (mark == 'e' || mark == 'E') && !digits.isEmpty && digits.all isDecimalDigit then
        some (if negative then -(digitsValue digits : Int) else digitsValue digits)
      else none

/-- The number nearest to `coefficient * 10 ^ exponent`.  Exponents that put the
number far outside the format are not worked out. -/
def Binary64.ofDecimal (negative : Bool) (coefficient : Nat) (exponent : Int) : Binary64 :=
  let digits : Int := (Nat.toDigits 10 coefficient).length
  if coefficient = 0 then withSign negative 0
  else if 400 < digits + exponent then infinity negative
  else if digits + exponent < -400 then withSign negative 0
  else ofRatio negative (coefficient * Nat.pow 10 exponent.toNat) (Nat.pow 10 (-exponent).toNat)

/-- Reads an unsigned decimal number with the given sign. -/
def readUnsigned? (negative : Bool) (text : List Char) : Option Binary64 :=
  let whole := text.takeWhile isDecimalDigit
  let afterWhole := text.dropWhile isDecimalDigit
  let (fraction, rest) :=
    match afterWhole with
    | '.' :: rest => (rest.takeWhile isDecimalDigit, rest.dropWhile isDecimalDigit)
    | rest => ([], rest)
  if whole.isEmpty && fraction.isEmpty then none
  else (readExponent? rest).map fun e =>
    .ofDecimal negative (digitsValue (whole ++ fraction)) (e - fraction.length)

/-- Reads a number, or gives `none` for a text that is not one. -/
def readBinary64? (text : String) : Option Binary64 :=
  let (negative, rest) := takeSign text.toList
  match String.ofList (rest.map Char.toLower) with
  | "inf" | "infinity" => some (.infinity negative)
  | "nan" => some (.nan negative)
  | _ => readUnsigned? negative rest

/-- Reads a count below `2 ^ 64`, or gives `none` for a text that is not one. -/
def readCount? (text : String) : Option Nat :=
  let digits :=
    match text.toList with
    | '+' :: rest => rest
    | rest => rest
  let n := digitsValue digits
  if !digits.isEmpty && digits.all isDecimalDigit && n < Nat.pow 2 64 then some n else none

end Peephole
