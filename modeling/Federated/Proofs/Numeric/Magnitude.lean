/-
  Federated.Proofs.Numeric.Magnitude

  Singles by their magnitudes: the operations on singles that are not below zero, by what they do to
  patterns.

    * `Single.Magnitude` — the magnitude of a single; `Single.exists_magnitude` says which have one.
    * `Single.Magnitude.add`, `Single.Magnitude.div`, `Single.Magnitude.le_iff` — sums, quotients
      and comparisons.
-/
import Federated.Proofs.Numeric.Machine
import Federated.Scalar

namespace Federated

open Float.Model (Format UnpackedFloat)

namespace Single

/-- A single has the magnitude of a pattern; zero may have either sign. -/
def Magnitude (x : Float32) (a : Nat) : Prop := Machine.Holds .binary32 x.toModel.unpack a

variable {x y : Float32} {a b : Nat}

theorem wide : 2 ≤ Format.binary32.exponentBits := by decide

theorem magnitude_zero : Magnitude Scalar.zero 0 := .zero .positive

theorem magnitude_ofBits {w : UInt32} (h : w.toNat ≤ BinaryFormat.single.infinity) :
    Magnitude (Float32.ofBits w) w.toNat :=
  (Machine.holds_unpack wide (b := w.toBitVec) h).stored wide

theorem magnitude_one : Magnitude Scalar.one 0x3f800000 :=
  magnitude_ofBits (w := 0x3f800000) (by decide)

theorem Magnitude.le_infinity (h : Magnitude x a) : a ≤ BinaryFormat.single.infinity :=
  Machine.Holds.le h

theorem Magnitude.unique (h : Magnitude x a) (h' : Magnitude x b) : a = b :=
  Machine.Holds.unique wide h h'

theorem Magnitude.isFinite_iff (h : Magnitude x a) :
    Scalar.isFinite x = true ↔ a < BinaryFormat.single.infinity :=
  Machine.Holds.isFinite wide h

/-- The comparison of singles is that of their data. -/
theorem le_iff_unpack : Scalar.le x y = true ↔ x.toModel.unpack.le y.toModel.unpack = true := by
  show decide (x ≤ y) = true ↔ _
  rw [decide_eq_true_iff]
  show decide (x.toModel ≤ y.toModel) = true ↔ _
  rw [decide_eq_true_iff]
  rfl

theorem lt_iff_unpack : Scalar.lt x y = true ↔ x.toModel.unpack.lt y.toModel.unpack = true := by
  show decide (x < y) = true ↔ _
  rw [decide_eq_true_iff]
  show decide (x.toModel < y.toModel) = true ↔ _
  rw [decide_eq_true_iff]
  rfl

theorem Magnitude.le_iff (hx : Magnitude x a) (hy : Magnitude y b) :
    Scalar.le x y = true ↔ a ≤ b := by
  rw [le_iff_unpack, UnpackedFloat.le, Machine.Holds.compare_eq wide hx hy]
  exact Nat.isLE_compare

theorem Magnitude.lt_iff (hx : Magnitude x a) (hy : Magnitude y b) :
    Scalar.lt x y = true ↔ a < b := by
  rw [lt_iff_unpack, UnpackedFloat.lt, Machine.Holds.compare_eq wide hx hy, beq_iff_eq,
    Option.some.injEq]
  exact Nat.compare_eq_lt

theorem Magnitude.add (hx : Magnitude x a) (hy : Magnitude y b) :
    Magnitude (x + y) (min BinaryFormat.single.infinity (BinaryFormat.single.nearest
      (BinaryFormat.single.units a + BinaryFormat.single.units b) 1)) :=
  Machine.Holds.add wide hx hy

theorem Magnitude.div (hx : Magnitude x a) (hy : Magnitude y b)
    (ha : a < BinaryFormat.single.infinity) (hb : 0 < b) (hb' : b < BinaryFormat.single.infinity) :
    Magnitude (x / y) (min BinaryFormat.single.infinity (BinaryFormat.single.nearest
      (BinaryFormat.single.units a * 2 ^ BinaryFormat.single.scale)
      (BinaryFormat.single.units b))) :=
  Machine.Holds.div wide hx hy ha hb hb'

theorem Magnitude.div_infinity (hx : Magnitude x a) (ha : a < BinaryFormat.single.infinity)
    (hy : Magnitude y BinaryFormat.single.infinity) : Magnitude (x / y) 0 :=
  Machine.Holds.div_infinity wide hx ha hy

/-- A finite single has a magnitude unless it is below zero. -/
theorem exists_magnitude (hfin : Scalar.isFinite x = true)
    (h : Scalar.lt x Scalar.zero = false) :
    ∃ a < BinaryFormat.single.infinity, Magnitude x a := by
  have hlt : x.toModel.unpack.lt (.zero .positive) = false := by
    rw [← Bool.not_eq_true] at h ⊢
    exact fun hlt => h (lt_iff_unpack.2 hlt)
  have hle : (UnpackedFloat.zero .positive).le x.toModel.unpack = true := by
    change x.toModel.unpack.isFinite = true at hfin
    generalize x.toModel.unpack = u at hfin hlt
    cases u with
    | infinity s => cases hfin
    | notANumber => cases hfin
    | zero s => rfl
    | finite s m e hm => cases s with
      | positive => rfl
      | negative => cases hlt
  obtain ⟨a, ha⟩ := Machine.holds_of_zero_le wide hle
  exact ⟨a, (Magnitude.isFinite_iff ha).1 hfin, ha⟩

end Single

end Federated
