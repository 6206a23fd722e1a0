/-
  Federated.Numeric.Binary

  Binary floating formats over the naturals: what a bit pattern stands for, and the
  pattern nearest to an exact ratio. Conversions between counts, single and double
  precision, and the exact remainder of two doubles, all go through these two maps,
  so each rounds at most once.
-/

namespace Federated

/-- The integer nearest to `num / den`; a half goes to the even neighbour. -/
def roundHalfEven (num den : Nat) : Nat :=
  let q := num / den
  let twice := 2 * (num % den)
  if twice < den then q
  else if den < twice then q + 1
  else if q % 2 = 0 then q else q + 1

/-- A binary interchange format, given by its two field widths. -/
structure BinaryFormat where
  /-- Stored bits of the significand. -/
  fractionBits : Nat
  /-- Bits of the biased exponent. -/
  exponentBits : Nat
  deriving DecidableEq

/-- What a bit pattern stands for; a finite one is `± significand * 2 ^ exponent`. -/
inductive Binary where
  | nan
  | infinite (negative : Bool)
  | finite (negative : Bool) (significand : Nat) (exponent : Int)
  deriving DecidableEq

namespace BinaryFormat

/-- The 32-bit format. -/
def single : BinaryFormat := ⟨23, 8⟩

/-- The 64-bit format. -/
def double : BinaryFormat := ⟨52, 11⟩

/-- The least subnormal is `2 ^ -scale`. -/
def scale (f : BinaryFormat) : Nat := Nat.pow 2 (f.exponentBits - 1) - 2 + f.fractionBits

/-- The pattern of positive infinity, above every finite magnitude. -/
def infinity (f : BinaryFormat) : Nat := (Nat.pow 2 f.exponentBits - 1) * Nat.pow 2 f.fractionBits

/-- The weight of the sign bit. -/
def signBit (f : BinaryFormat) : Nat := Nat.pow 2 (f.exponentBits + f.fractionBits)

/-- A pattern of no number. -/
def quietNan (f : BinaryFormat) : Nat := f.infinity + Nat.pow 2 (f.fractionBits - 1)

/-- Reads a bit pattern. -/
def decode (f : BinaryFormat) (bits : Nat) : Binary :=
  let negative := bits / f.signBit % 2 = 1
  let biased := bits / Nat.pow 2 f.fractionBits % Nat.pow 2 f.exponentBits
  let fraction := bits % Nat.pow 2 f.fractionBits
  if biased = Nat.pow 2 f.exponentBits - 1 then
    if fraction = 0 then .infinite negative else .nan
  else if biased = 0 then .finite negative fraction (-(f.scale : Int))
  else .finite negative (fraction + Nat.pow 2 f.fractionBits) ((biased : Int) - 1 - f.scale)

/-- The magnitude nearest to `num / den`, ties to even: in units of the least subnormal the
    ratio is `n / den`, and dropping `k` binary places leaves `fractionBits + 1` digits, whose
    pattern lies `k` binades above the subnormals. A carry moves into the next binade, and
    what passes the last one is infinity. -/
def magnitude (f : BinaryFormat) (num den : Nat) : Nat :=
  let n := num * Nat.pow 2 f.scale
  let k := Nat.log2 (n / den) - f.fractionBits
  min f.infinity (roundHalfEven n (den * Nat.pow 2 k) + k * Nat.pow 2 f.fractionBits)

/-- The magnitude nearest to `significand * 2 ^ exponent`. -/
def magnitudeOfScaled (f : BinaryFormat) (significand : Nat) (exponent : Int) : Nat :=
  f.magnitude (significand * Nat.pow 2 exponent.toNat) (Nat.pow 2 (-exponent).toNat)

/-- The pattern nearest to a value. -/
def encode (f : BinaryFormat) : Binary → Nat
  | .nan => f.quietNan
  | .infinite negative => (if negative then f.signBit else 0) + f.infinity
  | .finite negative significand exponent =>
    (if negative then f.signBit else 0) + f.magnitudeOfScaled significand exponent

end BinaryFormat

/-- The value of a single. -/
def singleValue (x : Float32) : Binary := BinaryFormat.single.decode x.toBits.toNat

/-- The value of a double. -/
def doubleValue (x : Float) : Binary := BinaryFormat.double.decode x.toBits.toNat

/-- The single nearest to a value. -/
def singleOf (v : Binary) : Float32 := Float32.ofBits (UInt32.ofNat (BinaryFormat.single.encode v))

/-- The double nearest to a value. -/
def doubleOf (v : Binary) : Float := Float.ofBits (UInt64.ofNat (BinaryFormat.double.encode v))

/-- The single nearest to a double. -/
def narrow (x : Float) : Float32 := singleOf (doubleValue x)

/-- The double equal to a single. -/
def widen (x : Float32) : Float := doubleOf (singleValue x)

/-- The single nearest to a count. -/
def singleOfCount (n : Nat) : Float32 := singleOf (.finite false n 0)

/-- The double nearest to a count. -/
def doubleOfCount (n : Nat) : Float := doubleOf (.finite false n 0)

/-- The remainder of two non-negative scaled integers, exact on their common scale. -/
def Binary.remainder : Binary → Binary → Binary
  | .finite neg m p, .finite _ n q =>
    let e := min p q
    let b := n * Nat.pow 2 (q - e).toNat
    if b = 0 then .nan else .finite neg (m * Nat.pow 2 (p - e).toNat % b) e
  | .finite neg m p, .infinite _ => .finite neg m p
  | _, _ => .nan

/-- The remainder of `x` by `y`, which carries the sign of `x`; it is a double itself, so
    nothing is rounded. -/
def remainder (x y : Float) : Float := doubleOf ((doubleValue x).remainder (doubleValue y))

end Federated
