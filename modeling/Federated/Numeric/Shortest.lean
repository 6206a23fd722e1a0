/-
  Federated.Numeric.Shortest

  The fewest decimal digits that single out a finite binary value among its neighbours,
  and of the candidates with that many digits the one nearest to the value.
-/
import Federated.Numeric.Binary

namespace Federated

/-- A decimal magnitude `digits * 10 ^ exponent`. -/
structure Decimal where
  digits : Nat
  exponent : Int
  deriving DecidableEq

/-- Where a decimal halfway between two candidates goes. -/
inductive TieRule where
  | up
  | even
  deriving DecidableEq

/-- The ratios that read back as one value: those strictly between `low / den` and
    `high / den`, and the two ends as well if `closed`. -/
structure RoundingInterval where
  low : Nat
  value : Nat
  high : Nat
  den : Nat
  closed : Bool

namespace RoundingInterval

/-- The interval around `significand * 2 ^ exponent`, in quarters of the last place. Below a
    power of two the neighbour is nearer by half, the least exponent apart. -/
def around (f : BinaryFormat) (significand : Nat) (exponent : Int) : RoundingInterval :=
  let narrow := significand = Nat.pow 2 f.fractionBits ∧ -(f.scale : Int) < exponent
  let unit := Nat.pow 2 exponent.toNat
  { low := (4 * significand - (if narrow then 1 else 2)) * unit
    value := 4 * significand * unit
    high := (4 * significand + 2) * unit
    den := 4 * Nat.pow 2 (-exponent).toNat
    closed := significand % 2 = 0 }

/-- Whether `num / den` lies in the interval, for the interval's own denominator. -/
def contains (i : RoundingInterval) (num : Nat) : Bool :=
  if i.closed then i.low ≤ num && num ≤ i.high else i.low < num && num < i.high

/-- The interval with every ratio divided by `10 ^ k`. -/
def scaledDown (i : RoundingInterval) (k : Int) : RoundingInterval :=
  let up := Nat.pow 10 (-k).toNat
  { low := i.low * up, value := i.value * up, high := i.high * up,
    den := i.den * Nat.pow 10 k.toNat, closed := i.closed }

/-- The integer of the interval nearest to its value, if it holds any. Only the two
    neighbours of the value can be that integer. -/
def nearestInteger (tie : TieRule) (i : RoundingInterval) : Option Nat :=
  let below := i.value / i.den
  let above := below + 1
  match i.contains (below * i.den), i.contains (above * i.den) with
  | false, false => none
  | true, false => some below
  | false, true => some above
  | true, true =>
    let twice := 2 * (i.value % i.den)
    if twice < i.den then some below
    else if i.den < twice then some above
    else match tie with
      | .up => some above
      | .even => some (if below % 2 = 0 then below else above)

end RoundingInterval

/-- A power of ten at or above the value's own, from its binary logarithm. -/
def decimalCeiling (num den : Nat) : Int :=
  Int.fdiv (((Nat.log2 num : Int) - Nat.log2 den) * 30103) 100000 + 2

/-- The shortest decimal that reads back as `significand * 2 ^ exponent`: the coarsest decimal
    grid with a point in the rounding interval, from the value's own size downward. A grid of
    17 digits, or 9 for singles, always has one, so 24 grids suffice. -/
def shortestDecimal (f : BinaryFormat) (tie : TieRule) (significand : Nat) (exponent : Int) :
    Decimal :=
  let i := RoundingInterval.around f significand exponent
  let top := decimalCeiling i.value i.den
  ((List.range 24).findSome? fun (step : Nat) =>
    let k := top - step
    ((i.scaledDown k).nearestInteger tie).bind fun n =>
      if n = 0 then none else some ⟨n, k⟩).getD ⟨significand * Nat.pow 2 exponent.toNat, 0⟩

end Federated
