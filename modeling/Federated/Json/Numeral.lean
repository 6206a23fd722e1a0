/-
  Federated.Json.Numeral

  JSON numbers as they are written, the counts and binary values they are read as, and the
  spelling a binary value is written in.

  A numeral is read into a 64-bit significand and a power of ten, which are then combined in
  double precision. Digits that no longer fit the significand are dropped. So a short numeral
  reads as the double nearest to it, and a long one may be off in its last place.
-/
import Federated.Defect
import Federated.Numeric.Digits
import Federated.Numeric.Shortest

namespace Federated

/-- The sign an exponent is written with. -/
inductive ExponentSign where
  | absent
  | plus
  | minus
  deriving DecidableEq

/-- A JSON number as written, the case of its exponent mark apart. No fraction digits means no
    point. -/
structure Numeral where
  negative : Bool
  whole : List Digit
  fraction : List Digit
  exponent : Option (ExponentSign × List Digit)
  deriving DecidableEq

namespace Numeral

/-! ## Spelling -/

/-- The characters of an exponent. -/
def exponentChars : Option (ExponentSign × List Digit) → List Char
  | none => []
  | some (.absent, ds) => 'e' :: Digit.chars ds
  | some (.plus, ds) => 'e' :: '+' :: Digit.chars ds
  | some (.minus, ds) => 'e' :: '-' :: Digit.chars ds

/-- The characters of a numeral. -/
def chars (n : Numeral) : List Char :=
  (if n.negative then ['-'] else []) ++ Digit.joinPoint (n.whole, n.fraction) ++
    exponentChars n.exponent

/-! ## Reading -/

/-- A row of digits and nothing else. -/
def isInteger (n : Numeral) : Bool := n.fraction.isEmpty && n.exponent.isNone

/-- The 64-bit count that a numeral spells. -/
def count? (n : Numeral) : Option Nat :=
  if n.isInteger && !n.negative then
    let value := Digit.toCount n.whole
    if value ≤ countLimit then some value else none
  else none

/-- Extends a significand by digits until the next one would not fit 64 bits; the digits that
    are left over. -/
def absorb : Nat → List Digit → Nat × List Digit
  | s, [] => (s, [])
  | s, d :: ds =>
    let next := s * 10 + d.val
    if next ≤ countLimit then absorb next ds else (s, d :: ds)

/-- The power of ten nearest in double precision. -/
def powerOfTen (k : Nat) : Float := doubleOfCount (Nat.pow 10 k)

/-- The largest power of ten in double precision. -/
def largestPower : Nat := 308

/-- `x` divided by ten to the `k`, in steps of at most the largest power. -/
def shrink (x : Float) (k : Nat) : Float :=
  if k ≤ largestPower then x / powerOfTen k
  else if x == 0 then x
  else shrink (x / powerOfTen largestPower) (k - largestPower)
termination_by k
decreasing_by simp [largestPower] at *; omega

/-- `x` times ten to the `k`, refused where a double cannot hold it. -/
def grow? (x : Float) (k : Nat) : Option Float :=
  if k ≤ largestPower then
    let y := x * powerOfTen k
    if y.isInf then none else some y
  else if x == 0 then some x
  else none

/-- The exponents beyond this one are not counted out. -/
def exponentLimit : Nat := Nat.pow 2 31 - 1

/-- A significand times a power of ten in double precision. -/
def scaled? (significand : Nat) (exponent : Int) : Option Float :=
  let x := doubleOfCount significand
  if exponent < 0 then some (shrink x exponent.natAbs) else grow? x exponent.natAbs

/-- The double that the digits, point and exponent of a numeral are read as, sign apart. -/
def magnitude? (n : Numeral) : Option Float :=
  let (s₁, dropped) := absorb 0 n.whole
  let (s₂, ignored) := absorb s₁ n.fraction
  let point : Int := (dropped.length : Int) - ((n.fraction.length : Int) - ignored.length)
  match n.exponent with
  | none => scaled? s₂ point
  | some (sign, ds) =>
    let e := Digit.toCount ds
    if exponentLimit < e then
      if sign ≠ .minus ∧ s₂ ≠ 0 then none else some 0
    else scaled? s₂ (if sign = .minus then point - e else point + e)

/-- The double that a numeral is read as; none where its magnitude is out of range. -/
def double? (n : Numeral) : Option Float :=
  n.magnitude?.map fun x => if n.negative then -x else x

/-- The single that a numeral is read as. A 64-bit integer is rounded once, all else is read
    as a double and then narrowed. -/
def single? (n : Numeral) : Option Float32 :=
  let value := Digit.toCount n.whole
  if n.isInteger && !n.negative && value ≤ countLimit then some (singleOfCount value)
  else if n.isInteger && n.negative && 0 < value && value ≤ Nat.pow 2 63 then
    some (-singleOfCount value)
  else n.double?.map narrow

/-! ## Writing -/

/-- The least and greatest scientific exponents that are written without an exponent. -/
structure PlainRange where
  least : Int
  greatest : Int

/-- Singles are written plainly from `1e-6` up to below `1e13`. -/
def singleRange : PlainRange := ⟨-6, 12⟩

/-- Doubles are written plainly from `1e-5` up to below `1e16`. -/
def doubleRange : PlainRange := ⟨-5, 15⟩

/-- An exponent in writing, always with a sign. -/
def signedExponent (e : Int) : ExponentSign × List Digit :=
  (if e < 0 then .minus else .plus, Digit.ofCount e.natAbs)

/-- The spelling of digits with the point after `point` of them: plain with at least one
    decimal, or one digit before the point and an exponent with its sign. -/
def ofDigits (range : PlainRange) (negative : Bool) (ds : List Digit) (point : Int) : Numeral :=
  let e := point - 1
  if range.least ≤ e ∧ e ≤ range.greatest then
    let (whole, fraction) := Digit.placePoint ds point
    ⟨negative, whole, if fraction.isEmpty then [.zero] else fraction, none⟩
  else ⟨negative, ds.take 1, ds.drop 1, some (signedExponent e)⟩

/-- The spelling of a binary value, which must be finite: its shortest digits, a half to the
    even one. -/
def ofBinary? (f : BinaryFormat) (range : PlainRange) : Binary → Option Numeral
  | .finite negative significand exponent =>
    if significand = 0 then some ⟨negative, [.zero], [.zero], none⟩
    else
      let d := shortestDecimal f .even significand exponent
      let ds := Digit.ofCount d.digits
      some (ofDigits range negative ds (ds.length + d.exponent))
  | _ => none

/-- The spelling of a finite single. -/
def ofSingle? (x : Float32) : Option Numeral := ofBinary? .single singleRange (singleValue x)

/-- The spelling of a finite double. -/
def ofDouble? (x : Float) : Option Numeral := ofBinary? .double doubleRange (doubleValue x)

/-- The spelling of a count. -/
def ofCount (n : Nat) : Numeral := ⟨false, Digit.ofCount n, [], none⟩

end Numeral

end Federated
