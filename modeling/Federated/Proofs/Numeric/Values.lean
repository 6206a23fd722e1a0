/-
  Federated.Proofs.Numeric.Values

  Patterns as values. A value is read off a pattern in units of the least subnormal, and written as
  the nearest pattern, which for a short integer stands for this integer.

    * `BinaryFormat.decode_eq`, `BinaryFormat.encode_eq` — reading and writing patterns.
    * `BinaryFormat.units_nearest_of_le` — an integer that is short enough is not rounded.
    * `BinaryFormat.nearest_lt_infinity`, `BinaryFormat.nearest_eq_zero_iff` — nor is it lost at
      either end of the range.
-/
import Federated.Proofs.Numeric.Nearest

namespace Federated

namespace BinaryFormat

variable {f : BinaryFormat}

/-! ## Reading and writing -/

/-- A finite pattern without a sign is read as a value of as many units. -/
theorem decode_eq (hsign : f.infinity ≤ f.signBit) {a : Nat} (ha : a < f.infinity) :
    ∃ m e, f.decode a = .finite false m e ∧ -(f.scale : Int) ≤ e ∧
      m * 2 ^ (e + f.scale).toNat = f.units a := by
  have hfield : a / 2 ^ f.fractionBits < 2 ^ f.exponentBits - 1 :=
    (Nat.div_lt_iff_lt_mul (Nat.two_pow_pos _)).2 ha
  have hpositive : ¬ a / f.signBit % 2 = 1 := by
    rw [Nat.div_eq_of_lt (Nat.lt_of_lt_of_le ha hsign)]
    decide
  have hfraction : a / 2 ^ f.fractionBits = 0 → a % 2 ^ f.fractionBits = a := fun hzero =>
    Nat.mod_eq_of_lt ((Nat.div_eq_zero_iff_lt (Nat.two_pow_pos _)).1 hzero)
  unfold decode units
  simp only [Nat.pow_eq, decide_eq_false hpositive]
  generalize a / 2 ^ f.fractionBits = biased at hfield hfraction ⊢
  rw [Nat.mod_eq_of_lt (by omega), if_neg (by omega)]
  split_ifs with hzero
  · have hexponent : (-(f.scale : Int) + f.scale).toNat = 0 := by omega
    exact ⟨_, _, rfl, le_rfl, by rw [hexponent, hfraction hzero, Nat.pow_zero, Nat.mul_one]⟩
  · have hexponent : ((biased : Int) - 1 - f.scale + f.scale).toNat = biased - 1 := by omega
    exact ⟨_, _, rfl, by omega, by rw [hexponent]⟩

/-- A value that is a number of units is written as the nearest pattern. -/
theorem encode_eq (hf : 0 < f.fractionBits) {m : Nat} {e : Int} (he : -(f.scale : Int) ≤ e) :
    f.encode (.finite false m e) = min f.infinity (f.nearest (m * 2 ^ (e + f.scale).toNat) 1) := by
  have hcongr : f.nearest (m * 2 ^ e.toNat * 2 ^ f.scale) (2 ^ (-e).toNat) =
      f.nearest (m * 2 ^ (e + f.scale).toNat) 1 := by
    refine nearest_congr hf (Nat.two_pow_pos _) Nat.one_pos ?_
    have hexponents : e.toNat + f.scale = (e + f.scale).toNat + (-e).toNat := by omega
    rw [Nat.mul_one, Nat.mul_assoc, Nat.mul_assoc, ← Nat.pow_add, ← Nat.pow_add, hexponents]
  rw [← hcongr]
  simp only [encode, magnitudeOfScaled, magnitude_eq, Nat.pow_eq]
  simp

/-! ## Integers -/

/-- An integer of at most one digit more than a pattern holds is not rounded. -/
theorem units_nearest_of_le {n k : Nat} (h : n ≤ 2 * 2 ^ f.fractionBits) :
    f.units (f.nearest (n * 2 ^ k) 1) = n * 2 ^ k := by
  have hdvd : 2 ^ f.dropped (n * 2 ^ k) 1 ∣ n * 2 ^ k := by
    rcases Nat.eq_zero_or_pos n with rfl | hn
    · rw [Nat.zero_mul]
      exact dvd_zero _
    · rw [dropped, Nat.div_one, log2_mul_two_pow hn.ne']
      rcases h.lt_or_eq with hlt | rfl
      · have hlog : n.log2 < f.fractionBits + 1 :=
          (Nat.log2_lt hn.ne').2 (by rw [Nat.pow_succ]; omega)
        exact (Nat.pow_dvd_pow 2 (by omega)).mul_left n
      · rw [Nat.mul_comm 2, ← Nat.pow_succ, Nat.log2_two_pow, ← Nat.pow_add]
        exact Nat.pow_dvd_pow 2 (by omega)
  have hexact := units_nearest_of_dvd (f := f) Nat.one_pos (by rwa [Nat.one_mul])
  rwa [Nat.one_mul] at hexact

/-- Such an integer is far from the end of the range. -/
theorem nearest_lt_infinity (hf : f.scale + 4 < 2 ^ f.exponentBits) {n : Nat}
    (h : n ≤ 2 * 2 ^ f.fractionBits) : f.nearest (n * 2 ^ f.scale) 1 < f.infinity := by
  have hdropped : f.dropped (n * 2 ^ f.scale) 1 ≤ f.scale + 1 := by
    rw [dropped, Nat.div_one]
    rcases Nat.eq_zero_or_pos n with rfl | hn
    · simp
    · have hlog : n.log2 < f.fractionBits + 2 := (Nat.log2_lt hn.ne').2 (by
        rw [Nat.pow_add]
        have := Nat.two_pow_pos f.fractionBits
        omega)
      rw [log2_mul_two_pow hn.ne']
      omega
  have hbinade := Nat.mul_le_mul_right (2 ^ f.fractionBits) hdropped
  have hlast := Nat.mul_lt_mul_of_pos_right (show f.scale + 3 < 2 ^ f.exponentBits - 1 by omega)
    (Nat.two_pow_pos f.fractionBits)
  have hround := (f.significand_bounds (n * 2 ^ f.scale) Nat.one_pos).2
  rw [nearest, infinity]
  simp only [Nat.pow_eq]
  linarith

/-- Only nothing is rounded to zero of what is a number of units. -/
theorem nearest_eq_zero_iff (hf : 0 < f.fractionBits) {n : Nat} : f.nearest n 1 = 0 ↔ n = 0 := by
  refine ⟨fun h => ?_, fun h => h ▸ nearest_zero hf Nat.one_pos⟩
  by_contra hn
  have hleast : f.units 1 = 1 := by
    have hone := units_add (f := f) (q := 1) (k := 0) (.inr rfl) (by
      have := Nat.two_pow_pos f.fractionBits
      omega)
    simpa using hone
  have hpos := lt_nearest (f := f) hf Nat.one_pos (a := 0) (by
    rw [units_zero, hleast]
    show 1 * (0 + 1) < 2 * n
    omega)
  omega

end BinaryFormat

end Federated
