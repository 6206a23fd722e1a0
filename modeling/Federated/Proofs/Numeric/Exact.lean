/-
  Federated.Proofs.Numeric.Exact

  Exact arithmetic. What is written over any scalar can be read in an ordered field, where nothing
  is rounded, and a single stands for a real number.

    * `Scalar.exact` — the operations of an ordered field, with a given function for the root.
    * `Scalar.ofRoot` — any ordered field with a root, the rationals among them.
    * `Scalar.abs_exact` — the magnitude of a scalar is its absolute value.
    * `Binary.value`, `Single.value_pos` — the real number that a single stands for.
-/
import Federated.Proofs.Numeric.Single
import Mathlib.Analysis.SpecialFunctions.Sqrt
import Mathlib.Data.Rat.Sqrt

namespace Federated

/-! ## Scalars -/

/-- Exact arithmetic in an ordered field. All that is not decided by the field is the root. -/
abbrev Scalar.exact {K : Type} [Field K] [LinearOrder K] (root : K → K) : Scalar K where
  zero := 0
  one := 1
  ofCount n := n
  sqrt := root
  isFinite _ := true
  lt x y := decide (x < y)
  le x y := decide (x ≤ y)

theorem Scalar.abs_exact {K : Type} [Field K] [LinearOrder K] [IsStrictOrderedRing K] (root : K → K)
    (x : K) : @Scalar.abs K (.exact root) x = |x| := by
  unfold Scalar.abs
  split_ifs with h
  · exact (abs_of_neg (of_decide_eq_true h)).symm
  · exact (abs_of_nonneg (not_lt.1 fun hneg => h (decide_eq_true hneg))).symm

/-- A function that stands for the square root, in a field where not all numbers have one. -/
class Root (K : Type) where
  root : K → K

/-- Exact arithmetic in any ordered field. -/
instance (priority := low) Scalar.ofRoot {K : Type} [Field K] [LinearOrder K] [Root K] : Scalar K :=
  .exact Root.root

/-- Exact arithmetic of the rationals. -/
instance : Root ℚ := ⟨Rat.sqrt⟩

/-- Exact arithmetic of the reals. -/
noncomputable instance : Scalar ℝ := .exact Real.sqrt

/-! ## Values -/

/-- The real number that a binary value is; zero for one that is no number. -/
noncomputable def Binary.value : Binary → ℝ
  | .finite negative significand exponent =>
    (if negative then -1 else 1) * significand * 2 ^ exponent
  | _ => 0

theorem Binary.value_pos {significand : Nat} (h : 0 < significand) (exponent : Int) :
    0 < (Binary.finite false significand exponent).value := by
  have hsignificand : (0 : ℝ) < significand := Nat.cast_pos.2 h
  simp only [Binary.value, Bool.false_eq_true, if_false, one_mul]
  positivity

namespace Single

open BinaryFormat (single)

/-- A positive single stands for a positive number. -/
theorem value_pos {x : Float32} (h : Scalar.isPositive x = true) : 0 < (singleValue x).value := by
  obtain ⟨hpositive, hfin⟩ := positive_of_isPositive h
  obtain ⟨m, e, hvalue, -, hunits⟩ := BinaryFormat.decode_eq (f := single) (by decide) hfin
  rw [singleValue, hvalue]
  refine Binary.value_pos (Nat.pos_of_ne_zero fun hzero => ?_) e
  rw [hzero, Nat.zero_mul] at hunits
  exact (BinaryFormat.units_pos hpositive.1).ne hunits

end Single

end Federated
