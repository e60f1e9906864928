/-!
# The numbers named by 64-bit floating point patterns

A pattern of 64 bits names a number `±mantissa · 2 ^ exponent`, an infinity, or no number at all
(`Binary64.read`).  `Binary64.Magnitude.nearby` is the interval of the reals that round to a
magnitude, measured in quarters of its last place.
-/

namespace StagedEdits.Binary64

/-- The number `mantissa · 2 ^ exponent`. -/
structure Magnitude where
  mantissa : Nat
  exponent : Int
deriving DecidableEq, Repr

/-- What a bit pattern names. -/
inductive Reading where
  | notANumber
  | infinite (negative : Bool)
  | finite (negative : Bool) (magnitude : Magnitude)
deriving DecidableEq, Repr

/-- The exponent of the subnormal numbers, the least there is. -/
def leastExponent : Int := -1074

/-- Reads a pattern: one bit of sign, eleven of exponent, fifty-two of fraction. -/
def read (bits : UInt64) : Reading :=
  let n : Nat := bits.toNat
  let negative := n / Nat.pow 2 63 = 1
  let field : Nat := n / Nat.pow 2 52 % Nat.pow 2 11
  let fraction : Nat := n % Nat.pow 2 52
  if field = 2047 then
    if fraction = 0 then .infinite negative else .notANumber
  else if field = 0 then
    .finite negative ⟨fraction, leastExponent⟩
  else
    .finite negative ⟨Nat.pow 2 52 + fraction, leastExponent + ((field : Int) - 1)⟩

namespace Magnitude

/-- Whether the next smaller magnitude is only half a step away: so it is at the powers of two. -/
def startsBinade (x : Magnitude) : Bool :=
  x.mantissa = Nat.pow 2 52 ∧ leastExponent < x.exponent

/-- A quarter of the last place of `x`, as a numerator and a denominator. -/
def quarter (x : Magnitude) : Nat × Nat :=
  (Nat.pow 2 (x.exponent - 2).toNat, Nat.pow 2 (2 - x.exponent).toNat)

/-- An interval of numbers, its ends counted in some unit. -/
structure Interval where
  lower : Nat
  upper : Nat
  endsIncluded : Bool

/-- Whether the point `n` steps from zero lies in the interval, for units of `unit` and steps of
`step`. -/
def Interval.contains (i : Interval) (unit step n : Nat) : Bool :=
  let low := i.lower * unit
  let high := i.upper * unit
  let point := n * step
  if i.endsIncluded then low ≤ point ∧ point ≤ high else low < point ∧ point < high

/-- The reals that round to `x`, in quarters of its last place; a half rounds to the even mantissa. -/
def nearby (x : Magnitude) : Interval where
  lower := 4 * x.mantissa - if x.startsBinade then 1 else 2
  upper := 4 * x.mantissa + 2
  endsIncluded := x.mantissa % 2 = 0

end Magnitude

end StagedEdits.Binary64
