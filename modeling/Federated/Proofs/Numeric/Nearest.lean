/-
  Federated.Proofs.Numeric.Nearest

  The patterns of a binary format in the order of their values, and the pattern nearest to a
  ratio. Signs are left out: a pattern stands for a magnitude, counted in units of the least
  subnormal, so that magnitudes are naturals and halfway points are compared without division.

    * `roundHalfEven_bounds` — the integer nearest to a ratio is off by a half at most.
    * `units` — what a pattern stands for; `units_strictMono`.
    * `nearest` — the pattern that rounding takes, with no end to the exponents.
    * `Nearest` — that the ratio lies between the halfway points to the neighbours of a pattern;
      `nearest_spec` and `Nearest.le` show that this says all about `nearest`.
    * `nearest_mono`, `nearest_units`, `nearest_le`, `lt_nearest`, `units_nearest_of_dvd`,
      `units_nearest_near` — what the operations need of it.
-/
import Federated.Numeric.Binary
import Mathlib.Tactic.Linarith
import Mathlib.Tactic.Ring
import Mathlib.Order.Monotone.Basic

namespace Federated

/-! ## Integers -/

/-- The nearest integer is off by a half at most, and by a half only if it is even. -/
theorem roundHalfEven_bounds (num : Nat) {den : Nat} (hden : 0 < den) :
    (den * (2 * roundHalfEven num den) ≤ 2 * num + den ∧
      (den * (2 * roundHalfEven num den) = 2 * num + den → roundHalfEven num den % 2 = 0)) ∧
    2 * num ≤ den * (2 * roundHalfEven num den) + den ∧
      (2 * num = den * (2 * roundHalfEven num den) + den → roundHalfEven num den % 2 = 0) := by
  have hnum := Nat.div_add_mod num den
  have hrest := Nat.mod_lt num hden
  have hdown : den * (2 * (num / den)) = 2 * (den * (num / den)) := by ring
  have hup : den * (2 * (num / den + 1)) = 2 * (den * (num / den)) + 2 * den := by ring
  unfold roundHalfEven
  simp only
  split_ifs
  · rw [hdown]
    omega
  · rw [hup]
    omega
  · rw [hdown]
    omega
  · rw [hup]
    omega

theorem log2_mul_two_pow {n : Nat} (h : n ≠ 0) (k : Nat) : (n * 2 ^ k).log2 = n.log2 + k := by
  have hpos : 0 < 2 ^ k := Nat.two_pow_pos k
  rw [Nat.log2_eq_iff (Nat.mul_ne_zero h hpos.ne'), Nat.pow_add, Nat.add_right_comm, Nat.pow_add]
  exact ⟨Nat.mul_le_mul_right _ (Nat.log2_self_le h),
    Nat.mul_lt_mul_of_pos_right Nat.lt_log2_self hpos⟩

/-- A quotient has the digits that the dividend has more than the divisor, or one less. -/
theorem log2_le_log2_div_add {n d : Nat} (hd : 0 < d) : n.log2 ≤ (n / d).log2 + d.log2 + 1 := by
  rcases Nat.eq_zero_or_pos n with rfl | hn
  · simp
  · refine Nat.le_of_lt_succ ((Nat.log2_lt hn.ne').2 ?_)
    have hquot : n / d + 1 ≤ 2 ^ ((n / d).log2 + 1) := Nat.succ_le_of_lt Nat.lt_log2_self
    have hdiv : d ≤ 2 ^ (d.log2 + 1) := Nat.lt_log2_self.le
    calc n < d * (n / d + 1) := Nat.lt_mul_div_succ n hd
      _ ≤ 2 ^ (d.log2 + 1) * 2 ^ ((n / d).log2 + 1) := Nat.mul_le_mul hdiv hquot
      _ = 2 ^ ((n / d).log2 + d.log2 + 1 + 1) := by ring

/-- Integers below a ratio are not passed by rounding it, -/
theorem le_roundHalfEven {num den n : Nat} (hden : 0 < den) (h : den * n ≤ num) :
    n ≤ roundHalfEven num den := by
  obtain ⟨-, hup, -⟩ := roundHalfEven_bounds num hden
  refine Nat.le_of_not_lt fun hlt => ?_
  have := Nat.mul_le_mul_left den (Nat.succ_le_of_lt hlt)
  nlinarith

/-- and neither are those above. -/
theorem roundHalfEven_le {num den n : Nat} (hden : 0 < den) (h : num < den * n) :
    roundHalfEven num den ≤ n := by
  obtain ⟨⟨hdown, -⟩, -⟩ := roundHalfEven_bounds num hden
  refine Nat.le_of_not_lt fun hlt => ?_
  have := Nat.mul_le_mul_left den (Nat.succ_le_of_lt hlt)
  nlinarith

/-- A ratio that is an integer is not rounded. -/
theorem roundHalfEven_of_dvd {num den : Nat} (hden : 0 < den) (h : den ∣ num) :
    den * roundHalfEven num den = num := by
  unfold roundHalfEven
  simp only [Nat.mod_eq_zero_of_dvd h, Nat.mul_zero, if_pos hden]
  exact Nat.mul_div_cancel' h

/-- Rounding sees a ratio, not its terms. -/
theorem roundHalfEven_mul_right (num den : Nat) {c : Nat} (hc : 0 < c) :
    roundHalfEven (num * c) (den * c) = roundHalfEven num den := by
  unfold roundHalfEven
  simp only [Nat.mul_div_mul_right _ _ hc, Nat.mul_mod_mul_right, ← Nat.mul_assoc,
    Nat.mul_lt_mul_right hc]

theorem roundHalfEven_congr {num den num' den' : Nat} (hden : 0 < den) (hden' : 0 < den')
    (h : num * den' = num' * den) : roundHalfEven num den = roundHalfEven num' den' := by
  rw [← roundHalfEven_mul_right num den hden', ← roundHalfEven_mul_right num' den' hden, h,
    Nat.mul_comm den den']

namespace BinaryFormat

/-! ## What patterns stand for -/

/-- The magnitude of a pattern below infinity, in units of the least subnormal. -/
def units (f : BinaryFormat) (a : Nat) : Nat :=
  if a / 2 ^ f.fractionBits = 0 then a
  else (a % 2 ^ f.fractionBits + 2 ^ f.fractionBits) * 2 ^ (a / 2 ^ f.fractionBits - 1)

variable {f : BinaryFormat}

/-- A significand of full length in a binade, or any in the lowest one, and its pattern. One unit
    beyond the length is the first significand of the next binade. -/
theorem units_add {q k : Nat} (hlow : 2 ^ f.fractionBits ≤ q ∨ k = 0)
    (hhigh : q ≤ 2 * 2 ^ f.fractionBits) : f.units (q + k * 2 ^ f.fractionBits) = q * 2 ^ k := by
  have hpos : 0 < 2 ^ f.fractionBits := Nat.two_pow_pos _
  generalize hunit : 2 ^ f.fractionBits = unit at *
  by_cases hsub : q < unit
  · obtain rfl : k = 0 := by omega
    rw [Nat.zero_mul, Nat.add_zero, units, hunit, if_pos (Nat.div_eq_of_lt hsub), Nat.pow_zero,
      Nat.mul_one]
  · by_cases hcarry : q = 2 * unit
    · have hsplit : q + k * unit = (k + 2) * unit := by rw [hcarry]; ring
      rw [hsplit, units, hunit, Nat.mul_div_cancel _ hpos, if_neg (by omega), Nat.mul_mod_left,
        hcarry, show k + 2 - 1 = k + 1 by omega, Nat.pow_succ]
      ring
    · have hsplit : q + k * unit = (q - unit) + (k + 1) * unit := by
        rw [Nat.add_mul, Nat.one_mul]
        omega
      have hfraction : q - unit < unit := by omega
      rw [hsplit, units, hunit, Nat.add_mul_div_right _ _ hpos, Nat.div_eq_of_lt hfraction,
        if_neg (by omega), Nat.add_mul_mod_self_right, Nat.mod_eq_of_lt hfraction,
        Nat.sub_add_cancel (by omega), show 0 + (k + 1) - 1 = k by omega]

/-- Every pattern has a significand and a binade. -/
theorem exists_significand (f : BinaryFormat) (a : Nat) : ∃ q k,
    a = q + k * 2 ^ f.fractionBits ∧ (2 ^ f.fractionBits ≤ q ∨ k = 0) ∧
      q < 2 * 2 ^ f.fractionBits := by
  have hpos : 0 < 2 ^ f.fractionBits := Nat.two_pow_pos _
  have hsplit := Nat.div_add_mod' a (2 ^ f.fractionBits)
  have hrest := Nat.mod_lt a hpos
  rcases Nat.eq_zero_or_pos (a / 2 ^ f.fractionBits) with hzero | hnormal
  · rw [hzero] at hsplit
    exact ⟨a, 0, by simp, .inr rfl, by omega⟩
  · obtain ⟨k, hk⟩ : ∃ k, a / 2 ^ f.fractionBits = k + 1 := ⟨_, (Nat.sub_add_cancel hnormal).symm⟩
    rw [hk, Nat.add_mul, Nat.one_mul] at hsplit
    exact ⟨a % 2 ^ f.fractionBits + 2 ^ f.fractionBits, k, by omega, .inl (by omega), by omega⟩

theorem units_lt_succ (f : BinaryFormat) (a : Nat) : f.units a < f.units (a + 1) := by
  obtain ⟨q, k, rfl, hlow, hhigh⟩ := f.exists_significand a
  have hnext : f.units (q + k * 2 ^ f.fractionBits + 1) = (q + 1) * 2 ^ k := by
    rw [Nat.add_right_comm]
    exact units_add (by omega) (by omega)
  rw [hnext, units_add hlow (by omega)]
  exact Nat.mul_lt_mul_of_pos_right (Nat.lt_succ_self q) (Nat.two_pow_pos k)

/-- Patterns are ordered as what they stand for. -/
theorem units_strictMono (f : BinaryFormat) : StrictMono f.units :=
  strictMono_nat_of_lt_succ f.units_lt_succ

@[simp] theorem units_zero (f : BinaryFormat) : f.units 0 = 0 := by
  rw [units, Nat.zero_div, if_pos rfl]

theorem units_pos {a : Nat} (h : 0 < a) : 0 < f.units a := by
  have hlt := f.units_strictMono h
  rwa [units_zero] at hlt

/-- The step to the next pattern is not small beside it. -/
theorem units_succ_le (f : BinaryFormat) (a : Nat) :
    f.units (a + 1) ≤ 2 * 2 ^ f.fractionBits * (f.units (a + 1) - f.units a) := by
  obtain ⟨q, k, rfl, hlow, hhigh⟩ := f.exists_significand a
  have hnext : f.units (q + k * 2 ^ f.fractionBits + 1) = (q + 1) * 2 ^ k := by
    rw [Nat.add_right_comm]
    exact units_add (by omega) (by omega)
  rw [hnext, units_add hlow (by omega), ← Nat.sub_mul, Nat.add_sub_cancel_left, Nat.one_mul]
  exact Nat.mul_le_mul_right _ (by omega)

/-- The two halfway points around a pattern grow with it. -/
theorem units_add_units_le {a b : Nat} (h : a ≤ b) :
    f.units a + f.units (a + 1) ≤ f.units b + f.units (b + 1) :=
  Nat.add_le_add (f.units_strictMono.monotone h) (f.units_strictMono.monotone (by omega))

/-! ## Rounding -/

/-- The binary places that are dropped of a ratio of units, down to the digits that a pattern
    holds. -/
def dropped (f : BinaryFormat) (num den : Nat) : Nat := Nat.log2 (num / den) - f.fractionBits

/-- The pattern nearest to a ratio of units, if there were no greatest exponent. -/
def nearest (f : BinaryFormat) (num den : Nat) : Nat :=
  roundHalfEven num (den * 2 ^ f.dropped num den) + f.dropped num den * 2 ^ f.fractionBits

/-- Magnitudes are nearest patterns, up to infinity. -/
theorem magnitude_eq (f : BinaryFormat) (num den : Nat) :
    f.magnitude num den = min f.infinity (f.nearest (num * 2 ^ f.scale) den) := rfl

/-- `a` is a pattern nearest to a ratio: the ratio lies between the halfway points to its
    neighbours, and on one of them only if the pattern is the even one of the two. -/
structure Nearest (f : BinaryFormat) (num den a : Nat) : Prop where
  above : 2 * num ≤ den * (f.units a + f.units (a + 1))
  above_even : 2 * num = den * (f.units a + f.units (a + 1)) → a % 2 = 0
  below : ∀ b, a = b + 1 → den * (f.units b + f.units (b + 1)) ≤ 2 * num
  below_even : ∀ b, a = b + 1 → den * (f.units b + f.units (b + 1)) = 2 * num → a % 2 = 0

variable {num den a : Nat}

/-- A ratio whose digits reach beyond those that a pattern holds. -/
theorem le_of_dropped (hden : 0 < den) (h : 0 < f.dropped num den) :
    den * 2 ^ f.dropped num den * 2 ^ f.fractionBits ≤ num := by
  have hlog : Nat.log2 (num / den) = f.dropped num den + f.fractionBits := by
    unfold dropped at h ⊢
    omega
  have hquot : num / den ≠ 0 := by
    intro hzero
    rw [dropped, hzero] at h
    simp at h
  have hle := Nat.log2_self_le hquot
  rw [hlog, Nat.le_div_iff_mul_le hden, Nat.pow_add] at hle
  calc den * 2 ^ f.dropped num den * 2 ^ f.fractionBits
      = 2 ^ f.dropped num den * 2 ^ f.fractionBits * den := by ring
    _ ≤ num := hle

/-- Not more digits are kept than a pattern holds. -/
theorem lt_of_dropped (f : BinaryFormat) (hden : 0 < den) :
    num < den * 2 ^ f.dropped num den * (2 * 2 ^ f.fractionBits) := by
  have hlog : Nat.log2 (num / den) + 1 ≤ f.dropped num den + (f.fractionBits + 1) := by
    unfold dropped
    omega
  have hlt : num / den < 2 ^ (f.dropped num den + (f.fractionBits + 1)) :=
    Nat.lt_of_lt_of_le Nat.lt_log2_self (Nat.pow_le_pow_right (by omega) hlog)
  rw [Nat.div_lt_iff_lt_mul hden, Nat.pow_add, Nat.pow_succ] at hlt
  calc num < 2 ^ f.dropped num den * (2 ^ f.fractionBits * 2) * den := hlt
    _ = den * 2 ^ f.dropped num den * (2 * 2 ^ f.fractionBits) := by ring

/-- These bounds determine how many places are dropped. -/
theorem dropped_eq {k : Nat} (hden : 0 < den)
    (hlow : den * 2 ^ k * 2 ^ f.fractionBits ≤ num ∨ k = 0)
    (hhigh : num < den * 2 ^ k * (2 * 2 ^ f.fractionBits)) : f.dropped num den = k := by
  have hlt : num / den < 2 ^ (k + f.fractionBits + 1) := by
    rw [Nat.div_lt_iff_lt_mul hden]
    calc num < den * 2 ^ k * (2 * 2 ^ f.fractionBits) := hhigh
      _ = 2 ^ (k + f.fractionBits + 1) * den := by ring
  rw [dropped]
  rcases hlow with hlow | rfl
  · have hle : 2 ^ (k + f.fractionBits) ≤ num / den := by
      rw [Nat.le_div_iff_mul_le hden]
      calc 2 ^ (k + f.fractionBits) * den = den * 2 ^ k * 2 ^ f.fractionBits := by ring
        _ ≤ num := hlow
    have hquot : num / den ≠ 0 := Nat.ne_of_gt (Nat.lt_of_lt_of_le (Nat.two_pow_pos _) hle)
    rw [(Nat.log2_eq_iff hquot).2 ⟨hle, hlt⟩, Nat.add_sub_cancel]
  · rcases Nat.eq_zero_or_pos (num / den) with hzero | hpos
    · rw [hzero, Nat.log2_zero, Nat.zero_sub]
    · have := (Nat.log2_lt (by omega)).2 hlt
      omega

/-- The significand that rounding yields has full length, or is that of a subnormal; it may be one
    unit beyond the length. -/
theorem significand_bounds (f : BinaryFormat) (num : Nat) {den : Nat} (hden : 0 < den) :
    (2 ^ f.fractionBits ≤ roundHalfEven num (den * 2 ^ f.dropped num den) ∨
      f.dropped num den = 0) ∧
    roundHalfEven num (den * 2 ^ f.dropped num den) ≤ 2 * 2 ^ f.fractionBits := by
  have hunit : 0 < den * 2 ^ f.dropped num den := Nat.mul_pos hden (Nat.two_pow_pos _)
  refine ⟨?_, roundHalfEven_le hunit (f.lt_of_dropped hden)⟩
  rcases Nat.eq_zero_or_pos (f.dropped num den) with hzero | hpos
  · exact .inr hzero
  · exact .inl (le_roundHalfEven hunit (le_of_dropped hden hpos))

/-- A significand of the right length, in whatever units, and its binade. -/
theorem nearest_of_ratio {n d k : Nat} (hden : 0 < den) (hd : 0 < d)
    (h : num * d = n * (den * 2 ^ k)) (hlow : d * 2 ^ f.fractionBits ≤ n ∨ k = 0)
    (hhigh : n < d * (2 * 2 ^ f.fractionBits)) :
    f.nearest num den = roundHalfEven n d + k * 2 ^ f.fractionBits := by
  have hunit : 0 < den * 2 ^ k := Nat.mul_pos hden (Nat.two_pow_pos k)
  have hdropped : f.dropped num den = k := by
    refine dropped_eq hden (hlow.imp_left fun hlow => ?_) ?_
    · refine Nat.le_of_mul_le_mul_right ?_ hd
      calc den * 2 ^ k * 2 ^ f.fractionBits * d = d * 2 ^ f.fractionBits * (den * 2 ^ k) := by ring
        _ ≤ n * (den * 2 ^ k) := Nat.mul_le_mul_right _ hlow
        _ = num * d := h.symm
    · refine Nat.lt_of_mul_lt_mul_right (a := d) ?_
      calc num * d = n * (den * 2 ^ k) := h
        _ < d * (2 * 2 ^ f.fractionBits) * (den * 2 ^ k) := Nat.mul_lt_mul_of_pos_right hhigh hunit
        _ = den * 2 ^ k * (2 * 2 ^ f.fractionBits) * d := by ring
  rw [nearest, hdropped, roundHalfEven_congr hunit hd h]

/-- What the nearest pattern stands for: the rounded significand, at the places dropped. -/
theorem units_nearest (f : BinaryFormat) (num : Nat) {den : Nat} (hden : 0 < den) :
    f.units (f.nearest num den) =
      roundHalfEven num (den * 2 ^ f.dropped num den) * 2 ^ f.dropped num den :=
  units_add (f.significand_bounds num hden).1 (f.significand_bounds num hden).2

/-- The upper neighbour stands for at least one more unit at the places dropped. -/
theorem le_units_succ (f : BinaryFormat) (num : Nat) {den : Nat} (hden : 0 < den) :
    (roundHalfEven num (den * 2 ^ f.dropped num den) + 1) * 2 ^ f.dropped num den ≤
      f.units (f.nearest num den + 1) := by
  obtain ⟨hlow, hhigh⟩ := f.significand_bounds num hden
  rw [nearest]
  generalize roundHalfEven num _ = q at hlow hhigh ⊢
  generalize f.dropped num den = k at hlow ⊢
  have hpos : 0 < 2 ^ f.fractionBits := Nat.two_pow_pos _
  by_cases hcarry : q = 2 * 2 ^ f.fractionBits
  · -- in the next binade a unit counts twice
    have hsplit : q + k * 2 ^ f.fractionBits + 1 =
        (2 ^ f.fractionBits + 1) + (k + 1) * 2 ^ f.fractionBits := by
      rw [hcarry]
      ring
    rw [hsplit, units_add (.inl (Nat.le_succ _)) (by omega), hcarry, Nat.pow_succ]
    nlinarith [Nat.two_pow_pos k]
  · rw [Nat.add_right_comm, units_add (by omega) (by omega)]

/-- A pattern is even if its significand is. -/
theorem pattern_even (hf : 0 < f.fractionBits) {q : Nat} (k : Nat) (h : q % 2 = 0) :
    (q + k * 2 ^ f.fractionBits) % 2 = 0 := by
  obtain ⟨n, hn⟩ : ∃ n, f.fractionBits = n + 1 := ⟨_, (Nat.sub_add_cancel hf).symm⟩
  rw [hn, Nat.pow_succ, ← Nat.mul_assoc]
  omega

/-- The pattern that rounding takes is nearest. -/
theorem nearest_spec (hf : 0 < f.fractionBits) (num : Nat) {den : Nat} (hden : 0 < den) :
    f.Nearest num den (f.nearest num den) := by
  have hunit : 0 < den * 2 ^ f.dropped num den := Nat.mul_pos hden (Nat.two_pow_pos _)
  obtain ⟨⟨hdown, hdownEven⟩, hup, hupEven⟩ := roundHalfEven_bounds num hunit
  obtain ⟨hlow, hhigh⟩ := f.significand_bounds num hden
  have hfull : 0 < f.dropped num den → _ := le_of_dropped hden
  have hvalue := f.units_nearest num hden
  have hnext := f.le_units_succ num hden
  have heven : ∀ {q}, q % 2 = 0 → _ := pattern_even hf (f.dropped num den)
  rw [nearest] at hvalue hnext ⊢
  generalize roundHalfEven num _ = q at *
  generalize f.dropped num den = k at *
  have habove : den * 2 ^ k * (2 * q) + den * 2 ^ k ≤
      den * (f.units (q + k * 2 ^ f.fractionBits) + f.units (q + k * 2 ^ f.fractionBits + 1)) := by
    calc den * 2 ^ k * (2 * q) + den * 2 ^ k = den * (q * 2 ^ k + (q + 1) * 2 ^ k) := by ring
      _ ≤ _ := Nat.mul_le_mul_left den (by rw [hvalue]; exact Nat.add_le_add_left hnext _)
  -- the lower neighbour is one unit away, but for the first pattern of a binade, where the ratio
  -- is not below the pattern at all
  have hbelow : ∀ b, q + k * 2 ^ f.fractionBits = b + 1 →
      den * (f.units b + f.units (b + 1)) + den * 2 ^ k = den * 2 ^ k * (2 * q) ∨
        den * (f.units b + f.units (b + 1)) < 2 * num := by
    intro b hb
    rw [← hb, hvalue]
    by_cases hfirst : q = 2 ^ f.fractionBits ∧ 0 < k
    · refine .inr ?_
      have hlt := f.units_lt_succ b
      rw [← hb, hvalue] at hlt
      calc den * (f.units b + q * 2 ^ k) < den * (q * 2 ^ k + q * 2 ^ k) :=
            Nat.mul_lt_mul_of_pos_left (Nat.add_lt_add_right hlt _) hden
        _ = 2 * (den * 2 ^ k * 2 ^ f.fractionBits) := by rw [hfirst.1]; ring
        _ ≤ 2 * num := Nat.mul_le_mul_left 2 (hfull hfirst.2)
    · refine .inl ?_
      obtain ⟨p, rfl⟩ : ∃ p, q = p + 1 := ⟨q - 1, by
        have hpos : 0 < 2 ^ f.fractionBits := Nat.two_pow_pos _
        rcases hlow with hlow | rfl <;> omega⟩
      obtain rfl : b = p + k * 2 ^ f.fractionBits := by omega
      rw [units_add (by omega) (by omega)]
      ring
  refine ⟨hup.trans habove, fun htie => ?_, fun b hb => ?_, fun b hb htie => ?_⟩
  · exact heven (hupEven (Nat.le_antisymm hup (htie ▸ habove)))
  · rcases hbelow b hb with h | h <;> omega
  · rcases hbelow b hb with h | h
    · exact heven (hdownEven (by omega))
    · omega

/-- Nearest patterns are in the order of the ratios: two that were not would both be even
    neighbours of the halfway point between them. -/
theorem Nearest.le {num' den' a' : Nat} (h : f.Nearest num den a) (h' : f.Nearest num' den' a')
    (hden : 0 < den) (hden' : 0 < den') (hle : num * den' ≤ num' * den) : a ≤ a' := by
  refine Nat.le_of_not_lt fun hlt => ?_
  obtain ⟨b, rfl⟩ : ∃ b, a = b + 1 := ⟨a - 1, by omega⟩
  -- both halfway points are the one between `b` and `b + 1`, and both ratios lie on it
  have hmid := f.units_add_units_le (Nat.le_of_lt_succ hlt)
  have hscaled := Nat.mul_le_mul_left (den * den') hmid
  have hlow := Nat.mul_le_mul_right den' (h.below b rfl)
  have hhigh := Nat.mul_le_mul_right den h'.above
  have hdd : 0 < den * den' := Nat.mul_pos hden hden'
  have hsame : f.units a' + f.units (a' + 1) = f.units b + f.units (b + 1) :=
    Nat.le_antisymm hmid (Nat.le_of_mul_le_mul_left (by linarith) hdd)
  have htie : den * (f.units b + f.units (b + 1)) = 2 * num :=
    Nat.le_antisymm (h.below b rfl) (Nat.le_of_mul_le_mul_right (by linarith) hden')
  have htie' : 2 * num' = den' * (f.units a' + f.units (a' + 1)) :=
    Nat.le_antisymm h'.above (Nat.le_of_mul_le_mul_right (by linarith) hden)
  have heven := h.below_even b rfl htie
  have heven' := h'.above_even htie'
  obtain rfl : a' = b := by
    have hlast := f.units_strictMono.lt_iff_lt (a := a') (b := b)
    have hnext := f.units_strictMono.lt_iff_lt (a := a' + 1) (b := b + 1)
    omega
  omega

/-- The nearest pattern grows with the ratio. -/
theorem nearest_mono (hf : 0 < f.fractionBits) {num' den' : Nat} (hden : 0 < den) (hden' : 0 < den')
    (h : num * den' ≤ num' * den) : f.nearest num den ≤ f.nearest num' den' :=
  (nearest_spec hf num hden).le (nearest_spec hf num' hden') hden hden' h

theorem nearest_congr (hf : 0 < f.fractionBits) {num' den' : Nat} (hden : 0 < den)
    (hden' : 0 < den') (h : num * den' = num' * den) : f.nearest num den = f.nearest num' den' :=
  Nat.le_antisymm (nearest_mono hf hden hden' h.le) (nearest_mono hf hden' hden h.ge)

/-- A pattern is nearest to what it stands for. -/
theorem nearest_units (hf : 0 < f.fractionBits) (hden : 0 < den) (a : Nat) :
    f.nearest (f.units a * den) den = a := by
  have hself : f.Nearest (f.units a * den) den a := by
    have hnext := Nat.mul_lt_mul_of_pos_left (f.units_lt_succ a) hden
    refine ⟨by linarith, fun h => absurd h (by linarith), fun b hb => ?_, fun b hb h => ?_⟩
    · have hlast := Nat.mul_lt_mul_of_pos_left (f.units_lt_succ b) hden
      subst hb
      linarith
    · have hlast := Nat.mul_lt_mul_of_pos_left (f.units_lt_succ b) hden
      subst hb
      linarith
  exact Nat.le_antisymm ((nearest_spec hf _ hden).le hself hden hden (Nat.le_refl _))
    (hself.le (nearest_spec hf _ hden) hden hden (Nat.le_refl _))

theorem nearest_zero (hf : 0 < f.fractionBits) (hden : 0 < den) : f.nearest 0 den = 0 := by
  have hself := nearest_units hf hden 0
  rwa [units_zero, Nat.zero_mul] at hself

/-- A ratio not beyond the upper halfway point of a pattern is not rounded beyond it, -/
theorem nearest_le (hf : 0 < f.fractionBits) (hden : 0 < den)
    (h : 2 * num < den * (f.units a + f.units (a + 1))) : f.nearest num den ≤ a := by
  refine Nat.le_of_not_lt fun hlt => ?_
  obtain ⟨b, hb⟩ : ∃ b, f.nearest num den = b + 1 := ⟨f.nearest num den - 1, by omega⟩
  have hbelow := (nearest_spec hf num hden).below b hb
  have hmid := Nat.mul_le_mul_left den (f.units_add_units_le (show a ≤ b by omega))
  omega

/-- and one beyond it is. -/
theorem lt_nearest (hf : 0 < f.fractionBits) (hden : 0 < den)
    (h : den * (f.units a + f.units (a + 1)) < 2 * num) : a < f.nearest num den := by
  refine Nat.lt_of_not_le fun hle => ?_
  have habove := (nearest_spec hf num hden).above
  have hmid := Nat.mul_le_mul_left den (f.units_add_units_le hle)
  omega

/-- A ratio without digits at the places dropped is not rounded. -/
theorem units_nearest_of_dvd (hden : 0 < den) (h : den * 2 ^ f.dropped num den ∣ num) :
    den * f.units (f.nearest num den) = num := by
  have hexact := roundHalfEven_of_dvd (Nat.mul_pos hden (Nat.two_pow_pos _)) h
  calc den * f.units (f.nearest num den)
      = den * 2 ^ f.dropped num den * roundHalfEven num (den * 2 ^ f.dropped num den) := by
        rw [units_nearest f num hden]
        ring
    _ = num := hexact

/-- Rounding a ratio of full length changes it by less than its last digit. -/
theorem units_nearest_near (hden : 0 < den) (h : den * 2 ^ f.fractionBits ≤ num) :
    2 * 2 ^ f.fractionBits * (den * f.units (f.nearest num den)) ≤
        2 * 2 ^ f.fractionBits * num + num ∧
      2 * 2 ^ f.fractionBits * num ≤
        2 * 2 ^ f.fractionBits * (den * f.units (f.nearest num den)) + num := by
  have hunit : 0 < den * 2 ^ f.dropped num den := Nat.mul_pos hden (Nat.two_pow_pos _)
  obtain ⟨⟨hdown, -⟩, hup, -⟩ := roundHalfEven_bounds num hunit
  have hfull : den * 2 ^ f.dropped num den * 2 ^ f.fractionBits ≤ num := by
    rcases Nat.eq_zero_or_pos (f.dropped num den) with hzero | hpos
    · rwa [hzero, Nat.pow_zero, Nat.mul_one]
    · exact le_of_dropped hden hpos
  have hdown := Nat.mul_le_mul_right (2 ^ f.fractionBits) hdown
  have hup := Nat.mul_le_mul_right (2 ^ f.fractionBits) hup
  rw [units_nearest f num hden]
  constructor
  · linarith
  · linarith

end BinaryFormat

end Federated
