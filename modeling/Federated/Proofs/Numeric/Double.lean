/-
  Federated.Proofs.Numeric.Double

  Doubles by their magnitudes: counts, quotients of counts and remainders are told in units of the
  least subnormal.

    * `Double.Magnitude` — a double without a sign, by its pattern.
    * `Double.magnitude_doubleOfCount`, `Double.Magnitude.div`, `Double.Magnitude.remainder_eq` —
      counts, quotients and remainders.
-/
import Federated.Proofs.Numeric.Machine
import Federated.Proofs.Numeric.Values
import Federated.Scalar

namespace Federated

open Float.Model (Format)

namespace Double

open BinaryFormat (double)

theorem wide : 2 ≤ Format.binary64.exponentBits := by decide

/-- A double without a sign, by its pattern. -/
def Magnitude (x : Float) (a : Nat) : Prop :=
  Machine.Holds .binary64 x.toModel.unpack a ∧ x.toBits.toNat = a

variable {x y : Float} {a b : Nat}

theorem magnitude_of_holds (h : Machine.Holds .binary64 x.toModel.unpack a) (ha : 0 < a) :
    Magnitude x a := ⟨h, Machine.toNat_of_holds wide h ha⟩

theorem magnitude_ofBits (h : a ≤ double.infinity) :
    Magnitude (Float.ofBits (UInt64.ofNat a)) a := by
  have hword : (UInt64.ofNat a).toNat = a := by
    have hinfinity : double.infinity < 2 ^ 64 := by decide
    rw [UInt64.toNat_ofNat', Nat.mod_eq_of_lt (h.trans_lt hinfinity)]
  have hholds : Machine.Holds .binary64 (Float.ofBits (UInt64.ofNat a)).toModel.unpack a := by
    have hread := Machine.holds_unpack wide (b := (UInt64.ofNat a).toBitVec) (hword.trans_le h)
    have hstored := hread.stored wide
    rwa [show (UInt64.ofNat a).toBitVec.toNat = a from hword] at hstored
  rcases Nat.eq_zero_or_pos a with rfl | ha
  · exact ⟨hholds, rfl⟩
  · exact magnitude_of_holds hholds ha

/-- A double without a sign is zero exactly by its pattern. -/
theorem Magnitude.eq_zero_iff (h : Magnitude x a) : x = Scalar.zero ↔ a = 0 := by
  rw [← h.2]
  constructor
  · rintro rfl
    rfl
  · intro hzero
    have hbits : x.toBits = (Scalar.zero : Float).toBits := UInt64.toNat_inj.1 hzero
    obtain ⟨⟨bits, valid⟩⟩ := x
    cases hbits
    rfl

/-- A double that has the magnitude of a value is made of it. -/
theorem magnitude_doubleOf {m : Nat} {e : Int} (he : -(double.scale : Int) ≤ e) :
    Magnitude (doubleOf (.finite false m e))
      (min double.infinity (double.nearest (m * 2 ^ (e + double.scale).toNat) 1)) := by
  rw [doubleOf, BinaryFormat.encode_eq (by decide) he]
  exact magnitude_ofBits (min_le_left _ _)

/-- A double as a value. -/
theorem Magnitude.doubleValue_eq (h : Magnitude x a) (ha : a < double.infinity) :
    ∃ m e, doubleValue x = .finite false m e ∧ -(double.scale : Int) ≤ e ∧
      m * 2 ^ (e + double.scale).toNat = double.units a := by
  rw [doubleValue, h.2]
  exact BinaryFormat.decode_eq (by decide) ha

theorem Magnitude.div (hx : Magnitude x a) (hy : Magnitude y b) (ha : a < double.infinity)
    (hb : 0 < b) (hb' : b < double.infinity)
    (hpos : 0 < double.nearest (double.units a * 2 ^ double.scale) (double.units b)) :
    Magnitude (x / y) (min double.infinity
      (double.nearest (double.units a * 2 ^ double.scale) (double.units b))) := by
  have hformat : BinaryFormat.of .binary64 = double := rfl
  have hdiv := Machine.Holds.div wide hx.1 hy.1 ha hb hb'
  rw [hformat] at hdiv
  exact magnitude_of_holds hdiv (lt_min (by decide) hpos)

/-- The remainder of two magnitudes is that of their units. -/
theorem Magnitude.remainder_eq (hx : Magnitude x a) (hy : Magnitude y b)
    (ha : a < double.infinity) (hb : 0 < b) (hb' : b < double.infinity) :
    Magnitude (remainder x y) (double.nearest (double.units a % double.units b) 1) := by
  obtain ⟨m, e, hvalue, he, hm⟩ := hx.doubleValue_eq ha
  obtain ⟨n, q, hvalue', hq, hn⟩ := hy.doubleValue_eq hb'
  have hpos : 0 < double.units b := BinaryFormat.units_pos hb
  obtain ⟨l, hl⟩ : ∃ l, min e q = l := ⟨_, rfl⟩
  -- both magnitudes are multiples of the unit of the lesser exponent
  have hsplit : double.units a = m * 2 ^ (e - l).toNat * 2 ^ (l + double.scale).toNat := by
    rw [← hm, Nat.mul_assoc, ← Nat.pow_add]
    congr 2
    omega
  have hsplit' : double.units b = n * 2 ^ (q - l).toNat * 2 ^ (l + double.scale).toNat := by
    rw [← hn, Nat.mul_assoc, ← Nat.pow_add]
    congr 2
    omega
  have hdivisor : n * 2 ^ (q - l).toNat ≠ 0 := by
    intro hzero
    rw [hsplit', hzero, Nat.zero_mul] at hpos
    exact absurd hpos (Nat.lt_irrefl 0)
  have hremainder : remainder x y =
      doubleOf (.finite false (m * 2 ^ (e - l).toNat % (n * 2 ^ (q - l).toNat)) l) := by
    rw [remainder, hvalue, hvalue', Binary.remainder, hl]
    exact congrArg doubleOf (if_neg hdivisor)
  have hunits : m * 2 ^ (e - l).toNat % (n * 2 ^ (q - l).toNat) * 2 ^ (l + double.scale).toNat =
      double.units a % double.units b := by
    rw [hsplit, hsplit', Nat.mul_mod_mul_right]
  have hmagnitude := magnitude_doubleOf (m := m * 2 ^ (e - l).toNat % (n * 2 ^ (q - l).toNat))
    (show -(double.scale : Int) ≤ l by omega)
  rw [hunits, ← hremainder] at hmagnitude
  have hle : double.nearest (double.units a % double.units b) 1 ≤ b := by
    calc double.nearest (double.units a % double.units b) 1
        ≤ double.nearest (double.units b * 1) 1 := by
          refine BinaryFormat.nearest_mono (by decide) Nat.one_pos Nat.one_pos ?_
          rw [Nat.mul_one, Nat.mul_one, Nat.mul_one]
          exact (Nat.mod_lt _ hpos).le
      _ = b := BinaryFormat.nearest_units (by decide) Nat.one_pos b
  rwa [min_eq_right (hle.trans hb'.le)] at hmagnitude

/-- A count of 53 digits is a double. -/
theorem magnitude_doubleOfCount {n : Nat} (h : n ≤ 2 ^ 53) :
    ∃ a < double.infinity, Magnitude (doubleOfCount n) a ∧
      double.units a = n * 2 ^ double.scale := by
  have hunits := BinaryFormat.units_nearest_of_le (f := double) (k := double.scale) h
  have hlt := BinaryFormat.nearest_lt_infinity (f := double) (by decide) h
  have hmagnitude := magnitude_doubleOf (m := n) (e := 0) (by omega)
  rw [Int.zero_add, Int.toNat_natCast, min_eq_right hlt.le] at hmagnitude
  exact ⟨_, hlt, hmagnitude, hunits⟩

end Double

end Federated
