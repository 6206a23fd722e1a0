/-
  Federated.Numeric.Notation

  Written forms of binary values: the plain decimal used in messages, and the form with a
  fixed count of decimals used in progress lines.
-/
import Federated.Numeric.Digits
import Federated.Numeric.Shortest

namespace Federated

/-- A sign before a magnitude. -/
def signed (negative : Bool) (magnitude : List Char) : String :=
  String.ofList (if negative then '-' :: magnitude else magnitude)

/-- A decimal written out in full, without exponent. -/
def Decimal.plain (d : Decimal) : List Char :=
  let ds := Digit.ofCount d.digits
  Digit.joinPoint (Digit.placePoint ds (ds.length + d.exponent))

/-- The text of a value in a message: the shortest digits, a half upward, in full. -/
def Binary.messageText (f : BinaryFormat) : Binary → String
  | .nan => "NaN"
  | .infinite negative => signed negative ['i', 'n', 'f']
  | .finite negative significand exponent =>
    signed negative <|
      if significand = 0 then ['0'] else (shortestDecimal f .up significand exponent).plain

/-- The text of a value with `places` decimals, the exact value rounded half to even. -/
def Binary.fixedText (places : Nat) : Binary → String
  | .nan => "NaN"
  | .infinite negative => signed negative ['i', 'n', 'f']
  | .finite negative significand exponent =>
    let n := roundHalfEven (significand * Nat.pow 2 exponent.toNat * Nat.pow 10 places)
      (Nat.pow 2 (-exponent).toNat)
    let ds := Digit.ofCount n
    let padded := List.replicate (places + 1 - ds.length) .zero ++ ds
    signed negative (Digit.joinPoint (padded.splitAt (padded.length - places)))

/-- A single in a message. -/
def singleText (x : Float32) : String := (singleValue x).messageText .single

/-- A double in a message. -/
def doubleText (x : Float) : String := (doubleValue x).messageText .double

end Federated
