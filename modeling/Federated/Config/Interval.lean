/-
  Federated.Config.Interval

  Timer periods: an amount of seconds rounded to whole nanoseconds.
-/
import Federated.Defect
import Federated.Numeric.Binary

namespace Federated

/-- A period in whole nanoseconds. -/
structure Period where
  nanoseconds : Nat
  deriving DecidableEq

namespace Period

/-- Nanoseconds in a second. -/
def perSecond : Nat := Nat.pow 10 9

/-- Whole seconds. -/
def seconds (p : Period) : Nat := p.nanoseconds / perSecond

/-- Nanoseconds beyond the whole seconds. -/
def rest (p : Period) : Nat := p.nanoseconds % perSecond

/-- The period that stands in for one that cannot be used: a tenth of a second. -/
def fallback : Period := ⟨Nat.pow 10 8⟩

/-- The period nearest to an amount of seconds, a half to the even nanosecond. Refused are
    negative amounts, those that are no number, and 2^64 seconds or more. -/
def ofSeconds? (x : Float) : Option Period :=
  match doubleValue x with
  | .finite negative significand exponent =>
    let n := roundHalfEven (significand * Nat.pow 2 exponent.toNat * perSecond)
      (Nat.pow 2 (-exponent).toNat)
    if (negative && significand != 0) || countLimit < n / perSecond then none else some ⟨n⟩
  | _ => none

/-- The shortest period between two notes of a waiting worker: a millisecond. -/
def least : Period := ⟨Nat.pow 10 6⟩

/-- A period that a timer can use, so not zero. -/
def usable? (x : Float) : Option Period := (ofSeconds? x).filter (0 < ·.nanoseconds)

/-- The most seconds that a clock counts. -/
def clockLimit : Nat := Nat.pow 2 63 - 1

/-- Whether a clock that now reads `reading` nanoseconds can reach the end of a period. -/
def endsOnClock (p : Period) (reading : Nat) : Bool :=
  (reading + p.nanoseconds) / perSecond ≤ clockLimit

end Period

end Federated
