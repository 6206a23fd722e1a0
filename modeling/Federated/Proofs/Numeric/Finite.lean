/-
  Federated.Proofs.Numeric.Finite

  Numbers with a value are finite, and so are those that pass a check of a configuration.

    * `isFinite_unpack` — a pattern is finite unless its exponent field is all ones.
    * `isFinite_of_isPositive`, `isFinite_of_isFraction` — singles that a hyperparameter may be.
    * `isFinite_of_singleValue`, `isFinite_of_doubleValue` — numbers with a value.
    * `isFinite_of_usable?` — the amounts of seconds that a timer can use.
-/
import Federated.Config.Interval
import Federated.Proofs.Numeric.Data
import Federated.Scalar
import Mathlib.Tactic.SplitIfs

namespace Federated

open Float.Model (Format UnpackedFloat)

/-- Only an exponent field of all ones stands for something that is not finite. -/
theorem isFinite_unpack {f : Format} {b : BitVec f.numBits}
    (h : UnpackedFloat.unpackExponent b ≠ -1#f.exponentBits) :
    (UnpackedFloat.unpack f b).isFinite = true := by
  unfold UnpackedFloat.unpack
  simp only
  rw [if_neg h]
  split_ifs <;> rfl

/-! ## Hyperparameters -/

theorem isFinite_of_isPositive {x : Float32} (h : Scalar.isPositive x = true) :
    Scalar.isFinite x = true := by
  rw [Scalar.isPositive, Bool.and_eq_true] at h
  exact h.1

/-- Infinity is not below one, its negative not above zero, and what is no number compares with
    neither. -/
theorem isFinite_of_isFraction {x : Float32} (h : Scalar.isFraction x = true) :
    Scalar.isFinite x = true := by
  rw [Scalar.isFraction, Bool.and_eq_true] at h
  have hzero : (Scalar.zero : Float32).toModel.unpack.le x.toModel.unpack = true :=
    of_decide_eq_true (of_decide_eq_true h.1)
  have hone : x.toModel.unpack.lt (Scalar.one : Float32).toModel.unpack = true :=
    of_decide_eq_true (of_decide_eq_true h.2)
  show x.toModel.unpack.isFinite = true
  generalize x.toModel.unpack = u at hzero hone
  cases u with
  | finite _ _ _ _ => rfl
  | zero _ => rfl
  | notANumber => cases hzero
  | infinity s => cases s with
    | positive => cases hone
    | negative => cases hzero

/-! ## Values -/

/-- A pattern with a finite value is finite: both read the same field of it. -/
theorem isFinite_of_decode {g : Format} {b : BitVec g.numBits} {negative : Bool} {significand : Nat}
    {exponent : Int}
    (h : (BinaryFormat.of g).decode b.toNat = .finite negative significand exponent) :
    (UnpackedFloat.unpack g b).isFinite = true := by
  refine isFinite_unpack fun hones => ?_
  have hfield : b.toNat / Nat.pow 2 (BinaryFormat.of g).fractionBits %
      Nat.pow 2 (BinaryFormat.of g).exponentBits =
        Nat.pow 2 (BinaryFormat.of g).exponentBits - 1 := by
    rwa [Machine.eq_allOnes_iff, Machine.toNat_unpackExponent] at hones
  -- a field of all ones stands for infinity or for no number
  rw [BinaryFormat.decode, if_pos hfield] at h
  split_ifs at h

theorem isFinite_of_singleValue {x : Float32} {negative : Bool} {significand : Nat} {exponent : Int}
    (h : singleValue x = .finite negative significand exponent) : Scalar.isFinite x = true :=
  isFinite_of_decode (g := .binary32) (b := x.toModel.toBits.toBitVec) h

theorem isFinite_of_doubleValue {x : Float} {negative : Bool} {significand : Nat} {exponent : Int}
    (h : doubleValue x = .finite negative significand exponent) : Scalar.isFinite x = true :=
  isFinite_of_decode (g := .binary64) (b := x.toModel.toBits.toBitVec) h

/-! ## Periods -/

theorem isFinite_of_usable? {x : Float} (h : (Period.usable? x).isSome = true) :
    Scalar.isFinite x = true := by
  cases hx : doubleValue x with
  | finite negative significand exponent => exact isFinite_of_doubleValue hx
  | nan => simp [Period.usable?, Period.ofSeconds?, hx] at h
  | infinite negative => simp [Period.usable?, Period.ofSeconds?, hx] at h

end Federated
