import StagedEdits.Numeric.Shortest

/-!
# Positional text of numbers

A number is written with its digits in place and a point before the fraction, never with an
exponent; a whole number has no point.
-/

namespace StagedEdits

/-- Drops the trailing zeros of a list of digits. -/
def dropTrailingZeros (digits : List Char) : List Char :=
  (digits.reverse.dropWhile (· = '0')).reverse

/-- The digits in place, with zeros where the number has none and no zeros at the end of a
fraction. -/
def Decimal.positional (d : Decimal) : String :=
  let digits := Nat.toDigits 10 d.digits
  if 0 ≤ d.exponent then
    String.ofList (digits ++ List.replicate d.exponent.toNat '0')
  else
    let places := (-d.exponent).toNat
    let padded := List.replicate (places + 1 - digits.length) '0' ++ digits
    let whole := padded.take (padded.length - places)
    let fraction := dropTrailingZeros (padded.drop (padded.length - places))
    String.ofList (if fraction = [] then whole else whole ++ '.' :: fraction)

namespace Binary64

/-- The text of a bit pattern: the shortest decimal that reads back, positional, with the sign of
a zero kept. -/
def text (bits : UInt64) : String :=
  let signed (negative : Bool) (s : String) : String := if negative then "-" ++ s else s
  match read bits with
  | .notANumber => "NaN"
  | .infinite negative => signed negative "inf"
  | .finite negative magnitude => signed negative magnitude.shortest.positional

end Binary64

end StagedEdits
