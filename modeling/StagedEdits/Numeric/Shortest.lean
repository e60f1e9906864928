import StagedEdits.Numeric.Binary64

/-!
# The shortest decimal that reads back

Among the decimals that round to a binary magnitude, those with the fewest digits lie on the
coarsest decimal grid that has a point in the interval of the magnitude.  On that grid
`Magnitude.shortest` takes the neighbour nearest to the magnitude, the upper one when both are
equally near.
-/

namespace StagedEdits

/-- The number `digits · 10 ^ exponent`. -/
structure Decimal where
  digits : Nat
  exponent : Int
deriving DecidableEq, Repr

namespace Binary64.Magnitude

/-- The neighbour of `x` on the grid of the multiples of `10 ^ g` that rounds to `x`; of two the
nearer, and the upper one if they are equally near. -/
def onGrid? (x : Magnitude) (g : Int) : Option Nat :=
  let step := Nat.pow 10 g.toNat * x.quarter.2
  let unit := x.quarter.1 * Nat.pow 10 (-g).toNat
  let exact := 4 * x.mantissa * unit
  let below := exact / step
  let fits := x.nearby.contains unit step
  match fits below, fits (below + 1) with
  | false, false => none
  | true, false => some below
  | false, true => some (below + 1)
  | true, true => some (if 2 * (exact % step) < step then below else below + 1)

/-- The first grid with a neighbour that fits, among `n` grids from `10 ^ g` down. -/
def firstGrid? (x : Magnitude) (g : Int) : Nat → Option Decimal
  | 0 => none
  | n + 1 =>
    match x.onGrid? g with
    | some digits => some ⟨digits, g⟩
    | none => x.firstGrid? (g - 1) n

/-- The exponent of the coarsest grid a magnitude can need: all lie below `10 ^ 309`. -/
def coarsestGrid : Int := 309

/-- The shortest decimal that rounds to `x`, nearest to `x` among those; zero for zero.  The grids
end with the one that has every magnitude as a point. -/
def shortest (x : Magnitude) : Decimal :=
  if x.mantissa = 0 then ⟨0, 0⟩
  else (x.firstGrid? coarsestGrid (coarsestGrid - leastExponent + 1).toNat).getD ⟨0, 0⟩

end Binary64.Magnitude

end StagedEdits
