/-
  Federated.Proofs.Numeric.Machine

  What the arithmetic of machine floats does to magnitudes: sums and quotients of data that are not
  below zero are the patterns nearest to those of the magnitudes.

    * `Machine.ratio` — a ratio as rounding sees it; `Machine.shiftRight_ratio`,
      `Machine.roundedMantissa_ratio`.
    * `Machine.toNat_pack_roundWithAccuracy` — rounded data are stored as the nearest pattern.
    * `Machine.Holds.add`, `Machine.Holds.div` — the operations.
-/
import Federated.Proofs.Numeric.Data
import Mathlib.Tactic.LinearCombination

namespace Federated

open Float.Model (Format UnpackedFloat)
open Float.Model.UnpackedFloat (Accuracy ExtendedMantissa)

namespace Machine

variable {g : Format}

/-! ## Rounding -/

/-- A ratio as rounding sees it: the integer part, whether half a unit is passed or met, and whether
    anything else is left. -/
def ratio (n d : Nat) : ExtendedMantissa :=
  ⟨n / d, decide (d ≤ 2 * (n % d)), decide (n % d ≠ 0 ∧ 2 * (n % d) ≠ d)⟩

theorem ofMantissaAndAccuracy_eq {d : Nat} (n : Nat) (hd : 0 < d) :
    ExtendedMantissa.ofMantissaAndAccuracy (n / d) (UnpackedFloat.accuracyOfFraction (n % d) d) =
      ratio n d := by
  unfold UnpackedFloat.accuracyOfFraction ratio
  split_ifs with hzero
  · simp [ExtendedMantissa.ofMantissaAndAccuracy, hzero, hd.ne']
  · rcases Nat.lt_trichotomy (2 * (n % d)) d with h | h | h
    · simp [ExtendedMantissa.ofMantissaAndAccuracy, Nat.compare_eq_lt.2 h, hzero, h, h.ne]
    · simp [ExtendedMantissa.ofMantissaAndAccuracy, h]
    · simp [ExtendedMantissa.ofMantissaAndAccuracy, Nat.compare_eq_gt.2 h, hzero, h.le, h.ne']

/-- Dropping a place doubles the unit. -/
theorem shiftRightOne_ratio {d : Nat} (n : Nat) (hd : 0 < d) :
    (ratio n d).shiftRightOne = ratio n (d * 2) := by
  have hrest : n % (d * 2) = n % d + d * (n / d % 2) := Nat.mod_mul
  have hlt := Nat.mod_lt n hd
  have hround : (n / d % 2 != 0) = decide (d * 2 ≤ 2 * (n % (d * 2))) := by
    rw [hrest, Bool.eq_iff_iff, bne_iff_ne, decide_eq_true_iff]
    rcases Nat.mod_two_eq_zero_or_one (n / d) with h | h <;> rw [h] <;> omega
  have hsticky : (decide (d ≤ 2 * (n % d)) || decide (n % d ≠ 0 ∧ 2 * (n % d) ≠ d)) =
      decide (n % (d * 2) ≠ 0 ∧ 2 * (n % (d * 2)) ≠ d * 2) := by
    rw [hrest, Bool.eq_iff_iff, Bool.or_eq_true, decide_eq_true_iff, decide_eq_true_iff,
      decide_eq_true_iff]
    rcases Nat.mod_two_eq_zero_or_one (n / d) with h | h <;> rw [h] <;> omega
  unfold ratio
  rw [← Nat.div_div_eq_div_mul, ← hround, ← hsticky]
  rfl

theorem shiftRight_ratio {d : Nat} (n k : Nat) (hd : 0 < d) :
    ratio n d >>> k = ratio n (d * 2 ^ k) := by
  show k.repeat ExtendedMantissa.shiftRightOne (ratio n d) = _
  induction k with
  | zero => simp [Nat.repeat]
  | succ k ih =>
    rw [Nat.repeat, ih, shiftRightOne_ratio n (Nat.mul_pos hd (Nat.two_pow_pos k)), Nat.mul_assoc,
      Nat.pow_succ]

theorem roundedMantissa_ratio {d : Nat} (n : Nat) (hd : 0 < d) :
    (ratio n d).roundedMantissa = roundHalfEven n d := by
  unfold ratio ExtendedMantissa.roundedMantissa roundHalfEven
  simp only
  rcases Nat.lt_trichotomy (2 * (n % d)) d with h | h | h
  · rw [if_pos h, decide_eq_false (Nat.not_le.2 h)]
    cases decide (n % d ≠ 0 ∧ 2 * (n % d) ≠ d) <;> rfl
  · have hparity := Nat.mod_two_eq_zero_or_one (n / d)
    rw [if_neg h.ge.not_gt, if_neg h.le.not_gt, decide_eq_true h.ge, decide_eq_false (by omega)]
    show n / d + n / d % 2 = _
    split_ifs <;> omega
  · rw [if_neg h.le.not_gt, if_pos h, decide_eq_true h.le, decide_eq_true (by omega)]
    rfl

/-- What shifting to the format's digits leaves, once rounded. -/
theorem shiftToExponent_ratio {n d : Nat} (hd : 0 < d) (e t : Int) :
    UnpackedFloat.shiftToExponent (n / d) e (UnpackedFloat.accuracyOfFraction (n % d) d) t =
      (ratio n (d * 2 ^ (t - e).toNat), e + (t - e).toNat) := by
  rw [UnpackedFloat.shiftToExponent, ofMantissaAndAccuracy_eq n hd, shiftRight_ratio n _ hd]

theorem targetExponent_eq (wide : 2 ≤ g.exponentBits) (m : Nat) (e : Int) :
    g.targetExponent (Float.Model.totalExponent m e) =
      max (m.log2 + e - g.mantissaBitsWithoutImplicit) (-(BinaryFormat.of g).scale) := by
  rw [Format.targetExponent, Float.Model.totalExponent, minExponent_eq wide, Format.mantissaBits]
  push_cast
  congr 1
  omega

/-- The data that rounding makes of a rounded significand: a carry may have left it with a digit too
    many. -/
def settled (g : Format) (q : Nat) (e : Int) : UnpackedFloat :=
  let shifted := UnpackedFloat.shiftToTargetExponent g q e .exact
  if h : shifted.1.mantissa = 0 then .zero .positive
  else .finite .positive shifted.1.mantissa shifted.2 (Nat.pos_of_ne_zero h)

theorem settled_eq {q s : Nat} {e : Int}
    (hs : (g.targetExponent (Float.Model.totalExponent q e) - e).toNat = s) (hq : 0 < q / 2 ^ s) :
    settled g q e = .finite .positive (q / 2 ^ s) (e + s) hq := by
  have hexact : UnpackedFloat.accuracyOfFraction (q % 1) 1 = .exact := by
    rw [Nat.mod_one]
    rfl
  have hshift := shiftToExponent_ratio (n := q) Nat.one_pos e
    (g.targetExponent (Float.Model.totalExponent q e))
  rw [Nat.div_one, hexact, Nat.one_mul, hs] at hshift
  unfold settled UnpackedFloat.shiftToTargetExponent
  simp only [hshift]
  exact dif_neg hq.ne'

theorem settled_zero (e : Int) : settled g 0 e = .zero .positive := by
  have hexact : UnpackedFloat.accuracyOfFraction (0 % 1) 1 = .exact := rfl
  have hshift := shiftToExponent_ratio (n := 0) Nat.one_pos e
    (g.targetExponent (Float.Model.totalExponent 0 e))
  rw [Nat.zero_div, hexact] at hshift
  unfold settled UnpackedFloat.shiftToTargetExponent
  simp only [hshift]
  exact dif_pos (Nat.zero_div _)

theorem toNat_pack_settled (wide : 2 ≤ g.exponentBits) {q k : Nat}
    (hlow : 2 ^ g.mantissaBitsWithoutImplicit ≤ q ∨ k = 0)
    (hhigh : q ≤ 2 * 2 ^ g.mantissaBitsWithoutImplicit) :
    (UnpackedFloat.pack g (settled g q (k - (BinaryFormat.of g).scale))).toNat =
      min (BinaryFormat.of g).infinity (q + k * 2 ^ g.mantissaBitsWithoutImplicit) := by
  have hunit : 0 < 2 ^ g.mantissaBitsWithoutImplicit := Nat.two_pow_pos _
  rcases Nat.eq_zero_or_pos q with rfl | hq
  · obtain rfl : k = 0 := by omega
    rw [settled_zero, (Holds.zero (g := g) .positive).toNat_pack wide nofun]
    simp
  · by_cases hcarry : q = 2 * 2 ^ g.mantissaBitsWithoutImplicit
    · have hlog : q.log2 = g.mantissaBitsWithoutImplicit + 1 := by
        rw [hcarry, Nat.mul_comm, ← Nat.pow_succ, Nat.log2_two_pow]
      have hshift : (g.targetExponent (Float.Model.totalExponent q
          (k - (BinaryFormat.of g).scale)) - (k - (BinaryFormat.of g).scale)).toNat = 1 := by
        rw [targetExponent_eq wide, hlog]
        omega
      have hhalf : q / 2 ^ 1 = 2 ^ g.mantissaBitsWithoutImplicit := by omega
      have hpattern : q + k * 2 ^ g.mantissaBitsWithoutImplicit =
          2 ^ g.mantissaBitsWithoutImplicit + (k + 1) * 2 ^ g.mantissaBitsWithoutImplicit := by
        rw [hcarry]
        ring
      rw [settled_eq hshift (by omega), hpattern, ← toNat_pack wide hunit (.inl le_rfl) (by omega)]
      congr 2
      exact finite_congr hhalf (by push_cast; ring)
    · have hlt : q.log2 < g.mantissaBitsWithoutImplicit + 1 :=
        (Nat.log2_lt (by omega)).2 (by rw [Nat.pow_succ]; omega)
      have hshift : (g.targetExponent (Float.Model.totalExponent q
          (k - (BinaryFormat.of g).scale)) - (k - (BinaryFormat.of g).scale)).toNat = 0 := by
        rw [targetExponent_eq wide]
        omega
      rw [settled_eq hshift (by rwa [Nat.pow_zero, Nat.div_one]),
        ← toNat_pack wide hq hlow (by omega)]
      congr 2
      exact finite_congr (by rw [Nat.pow_zero, Nat.div_one]) (by simp)

/-- The nearest pattern is stored. -/
theorem toNat_pack_roundWithAccuracy (wide : 2 ≤ g.exponentBits) {n d : Nat} (hd : 0 < d) {e : Int}
    (hfull : e ≤ g.targetExponent (Float.Model.totalExponent (n / d) e)) {num den : Nat}
    (hden : 0 < den) (hratio : num * (d * 2 ^ (-(e + (BinaryFormat.of g).scale)).toNat) =
      n * (den * 2 ^ (e + (BinaryFormat.of g).scale).toNat)) :
    (UnpackedFloat.pack g (UnpackedFloat.roundWithAccuracy g .positive (n / d) e
      (UnpackedFloat.accuracyOfFraction (n % d) d))).toNat =
      min (BinaryFormat.of g).infinity ((BinaryFormat.of g).nearest num den) := by
  have hm := g.hm
  have htarget := targetExponent_eq wide (n / d) e
  obtain ⟨s, hs⟩ : ∃ s : Nat, g.targetExponent (Float.Model.totalExponent (n / d) e) = e + s :=
    ⟨(g.targetExponent (Float.Model.totalExponent (n / d) e) - e).toNat, by omega⟩
  obtain ⟨k, hk⟩ : ∃ k : Nat, e + s = k - (BinaryFormat.of g).scale :=
    ⟨(e + s + (BinaryFormat.of g).scale).toNat, by omega⟩
  have hround : UnpackedFloat.roundWithAccuracy g .positive (n / d) e
      (UnpackedFloat.accuracyOfFraction (n % d) d) =
      settled g (roundHalfEven n (d * 2 ^ s)) (k - (BinaryFormat.of g).scale) := by
    have hshift : (e + s - e).toNat = s := by omega
    rw [← hk]
    unfold UnpackedFloat.roundWithAccuracy UnpackedFloat.shiftToTargetExponent
    simp only [hs, shiftToExponent_ratio hd, hshift,
      roundedMantissa_ratio n (Nat.mul_pos hd (Nat.two_pow_pos s))]
    rfl
  have hunit : 0 < d * 2 ^ s := Nat.mul_pos hd (Nat.two_pow_pos s)
  -- the digits kept are as many as the format holds, unless the binade is the lowest
  have hlow : d * 2 ^ s * 2 ^ g.mantissaBitsWithoutImplicit ≤ n ∨ k = 0 := by
    refine or_iff_not_imp_right.2 fun hk0 => ?_
    have hlog : (n / d).log2 = s + g.mantissaBitsWithoutImplicit := by omega
    have hne : n / d ≠ 0 := by
      intro hzero
      rw [hzero, Nat.log2_zero] at hlog
      omega
    have hle := Nat.log2_self_le hne
    rw [hlog, Nat.le_div_iff_mul_le hd] at hle
    calc d * 2 ^ s * 2 ^ g.mantissaBitsWithoutImplicit
        = 2 ^ (s + g.mantissaBitsWithoutImplicit) * d := by ring
      _ ≤ n := hle
  have hhigh : n < d * 2 ^ s * (2 * 2 ^ g.mantissaBitsWithoutImplicit) := by
    have hlog : (n / d).log2 + 1 ≤ s + g.mantissaBitsWithoutImplicit + 1 := by omega
    have hlt : n / d < 2 ^ (s + g.mantissaBitsWithoutImplicit + 1) :=
      Nat.lt_of_lt_of_le Nat.lt_log2_self (Nat.pow_le_pow_right (by omega) hlog)
    rw [Nat.div_lt_iff_lt_mul hd] at hlt
    calc n < 2 ^ (s + g.mantissaBitsWithoutImplicit + 1) * d := hlt
      _ = d * 2 ^ s * (2 * 2 ^ g.mantissaBitsWithoutImplicit) := by ring
  have hnearest : (BinaryFormat.of g).nearest num den =
      roundHalfEven n (d * 2 ^ s) + k * 2 ^ g.mantissaBitsWithoutImplicit := by
    refine BinaryFormat.nearest_of_ratio hden hunit ?_ hlow hhigh
    rcases Nat.le_total s k with hle | hle
    · obtain ⟨i, rfl⟩ := Nat.exists_eq_add_of_le hle
      rw [show (-(e + (BinaryFormat.of g).scale)).toNat = 0 by omega,
        show (e + (BinaryFormat.of g).scale).toNat = i by omega] at hratio
      linear_combination 2 ^ s * hratio
    · obtain ⟨j, rfl⟩ := Nat.exists_eq_add_of_le hle
      rw [show (-(e + (BinaryFormat.of g).scale)).toNat = j by omega,
        show (e + (BinaryFormat.of g).scale).toNat = 0 by omega] at hratio
      linear_combination 2 ^ k * hratio
  rw [hround, hnearest]
  exact toNat_pack_settled wide (hlow.imp_left (le_roundHalfEven hunit))
    (roundHalfEven_le hunit hhigh)

/-! ## Operations -/

/-- A significand at an exponent of the format is stored as the nearest pattern. -/
theorem toNat_pack_round (wide : 2 ≤ g.exponentBits) {m k : Nat} (hm : 0 < m) :
    (UnpackedFloat.pack g
      (UnpackedFloat.round g .positive m (k - (BinaryFormat.of g).scale))).toNat =
      min (BinaryFormat.of g).infinity ((BinaryFormat.of g).nearest (m * 2 ^ k) 1) := by
  have hexact : ∀ n, UnpackedFloat.accuracyOfFraction (n % 1) 1 = .exact := fun n => by
    rw [Nat.mod_one]
    rfl
  have htarget := targetExponent_eq wide m (k - (BinaryFormat.of g).scale)
  obtain ⟨s, hs⟩ : ∃ s : Nat, ((k - (BinaryFormat.of g).scale : Int) -
      g.targetExponent (Float.Model.totalExponent m (k - (BinaryFormat.of g).scale))).toNat = s :=
    ⟨_, rfl⟩
  have hlog : (m * 2 ^ s).log2 = m.log2 + s := log2_mul_two_pow hm.ne' s
  have hround := @toNat_pack_roundWithAccuracy g wide (m * 2 ^ s) 1 Nat.one_pos
    (k - (BinaryFormat.of g).scale - s)
  rw [Nat.div_one, hexact, targetExponent_eq wide, hlog] at hround
  unfold UnpackedFloat.round UnpackedFloat.decreaseExponent
  simp only [hs, Nat.shiftLeft_eq]
  refine hround ?_ Nat.one_pos ?_
  · push_cast
    omega
  · obtain ⟨i, hi⟩ : ∃ i, k = s + i := ⟨k - s, by omega⟩
    have hdown : (-((k : Int) - (BinaryFormat.of g).scale - s +
        (BinaryFormat.of g).scale)).toNat = 0 := by omega
    have hup : ((k : Int) - (BinaryFormat.of g).scale - s +
        (BinaryFormat.of g).scale).toNat = i := by omega
    rw [hdown, hup, hi]
    ring

/-- Brought to one exponent, significands are added. -/
theorem toNat_pack_add_finite (wide : 2 ≤ g.exponentBits) {m m' k k' : Nat} (h : 0 < m)
    (h' : 0 < m') :
    (UnpackedFloat.pack g (UnpackedFloat.add g
      (.finite .positive m (k - (BinaryFormat.of g).scale) h)
      (.finite .positive m' (k' - (BinaryFormat.of g).scale) h'))).toNat =
      min (BinaryFormat.of g).infinity
        ((BinaryFormat.of g).nearest (m * 2 ^ k + m' * 2 ^ k') 1) := by
  have hmin : min ((k : Int) - (BinaryFormat.of g).scale) (k' - (BinaryFormat.of g).scale) =
      (min k k' : Nat) - (BinaryFormat.of g).scale := by omega
  have hsum : UnpackedFloat.add g (.finite .positive m (k - (BinaryFormat.of g).scale) h)
      (.finite .positive m' (k' - (BinaryFormat.of g).scale) h') =
        UnpackedFloat.round g .positive (m * 2 ^ (k - min k k') + m' * 2 ^ (k' - min k k'))
          ((min k k' : Nat) - (BinaryFormat.of g).scale) := by
    have hpos : 0 < m * 2 ^ (k - min k k') := Nat.mul_pos h (Nat.two_pow_pos _)
    have hshift : ((k : Int) - (BinaryFormat.of g).scale -
        ((min k k' : Nat) - (BinaryFormat.of g).scale)).toNat = k - min k k' := by omega
    have hshift' : ((k' : Int) - (BinaryFormat.of g).scale -
        ((min k k' : Nat) - (BinaryFormat.of g).scale)).toNat = k' - min k k' := by omega
    simp only [UnpackedFloat.add, hmin, UnpackedFloat.decreaseExponent, hshift, hshift',
      Nat.shiftLeft_eq, UnpackedFloat.Sign.apply, UnpackedFloat.normalize]
    rw [Int.compare_eq_gt.2 (by omega)]
    congr 1
  rw [hsum, toNat_pack_round wide (Nat.add_pos_left (Nat.mul_pos h (Nat.two_pow_pos _)) _),
    Nat.add_mul, Nat.mul_assoc, Nat.mul_assoc, ← Nat.pow_add, ← Nat.pow_add,
    Nat.sub_add_cancel (Nat.min_le_left _ _), Nat.sub_add_cancel (Nat.min_le_right _ _)]

/-- A sum is the pattern nearest to it. -/
theorem Holds.add (wide : 2 ≤ g.exponentBits) {u v : UnpackedFloat} {a b : Nat}
    (hu : Holds g u a) (hv : Holds g v b) :
    Holds g (UnpackedFloat.unpack g (UnpackedFloat.pack g (UnpackedFloat.add g u v)))
      (min (BinaryFormat.of g).infinity ((BinaryFormat.of g).nearest
        ((BinaryFormat.of g).units a + (BinaryFormat.of g).units b) 1)) := by
  have hinfinity : ∀ c, min (BinaryFormat.of g).infinity ((BinaryFormat.of g).nearest
      ((BinaryFormat.of g).units (BinaryFormat.of g).infinity + c) 1) =
        (BinaryFormat.of g).infinity := by
    intro c
    have hself := (Holds.infinity (g := g)).min_nearest
    have hmono := BinaryFormat.nearest_mono (f := .of g) g.hm Nat.one_pos Nat.one_pos
      (Nat.mul_le_mul_right 1 (Nat.le_add_right
        ((BinaryFormat.of g).units (BinaryFormat.of g).infinity) c))
    omega
  cases hu with
  | zero s =>
    rw [BinaryFormat.units_zero, Nat.zero_add, hv.min_nearest]
    cases hv with
    | zero t =>
      have hadd : ∃ r, UnpackedFloat.add g (.zero s) (.zero t) = .zero r := by
        cases s <;> cases t <;> exact ⟨_, rfl⟩
      obtain ⟨r, hr⟩ := hadd
      rw [hr]
      exact (Holds.zero r).stored wide
    | finite h full fits below => exact (Holds.finite h full fits below).stored wide
    | infinity => exact Holds.infinity.stored wide
  | finite h full fits below => cases hv with
    | zero t =>
      have hsum := (Holds.finite h full fits below).stored wide
      rw [BinaryFormat.units_zero, Nat.add_zero, (Holds.finite h full fits below).min_nearest]
      exact hsum
    | finite h' full' fits' below' =>
      rw [units_finite full fits, units_finite full' fits']
      apply holds_of_toNat_pack wide
      exact toNat_pack_add_finite wide h h'
    | infinity =>
      rw [Nat.add_comm, hinfinity]
      exact Holds.infinity.stored wide
  | infinity =>
    rw [hinfinity]
    cases hv with
    | zero t => exact Holds.infinity.stored wide
    | finite h full fits below => exact Holds.infinity.stored wide
    | infinity => exact Holds.infinity.stored wide

/-- The quotient is computed with as many digits as the format holds. -/
theorem toNat_pack_div_finite (wide : 2 ≤ g.exponentBits) {m m' k k' : Nat} (h : 0 < m)
    (h' : 0 < m') :
    (UnpackedFloat.pack g (UnpackedFloat.div g
      (.finite .positive m (k - (BinaryFormat.of g).scale) h)
      (.finite .positive m' (k' - (BinaryFormat.of g).scale) h'))).toNat =
      min (BinaryFormat.of g).infinity ((BinaryFormat.of g).nearest
        (m * 2 ^ k * 2 ^ (BinaryFormat.of g).scale) (m' * 2 ^ k')) := by
  have hm := g.hm
  obtain ⟨e, he⟩ : ∃ e : Int, min ((k : Int) - (BinaryFormat.of g).scale -
      (k' - (BinaryFormat.of g).scale)) (g.targetExponent
        (Float.Model.totalExponent m (k - (BinaryFormat.of g).scale) -
          Float.Model.totalExponent m' (k' - (BinaryFormat.of g).scale))) = e := ⟨_, rfl⟩
  obtain ⟨s, hs⟩ : ∃ s : Nat, (k : Int) - k' = e + s := ⟨(k - k' - e : Int).toNat, by omega⟩
  have hshift : ((k : Int) - (BinaryFormat.of g).scale - (k' - (BinaryFormat.of g).scale) -
      e).toNat = s := by omega
  have hdiv : UnpackedFloat.div g (.finite .positive m (k - (BinaryFormat.of g).scale) h)
      (.finite .positive m' (k' - (BinaryFormat.of g).scale) h') =
        UnpackedFloat.roundWithAccuracy g .positive (m * 2 ^ s / m') e
          (UnpackedFloat.accuracyOfFraction (m * 2 ^ s % m') m') := by
    simp only [UnpackedFloat.div, UnpackedFloat.divCore, he, hshift, Nat.shiftLeft_eq]
    rfl
  rw [hdiv]
  refine toNat_pack_roundWithAccuracy wide h' ?_ (Nat.mul_pos h' (Nat.two_pow_pos _)) ?_
  · have hlog := log2_le_log2_div_add (n := m * 2 ^ s) h'
    rw [log2_mul_two_pow h.ne'] at hlog
    rw [targetExponent_eq wide]
    simp only [Format.targetExponent, Float.Model.totalExponent, minExponent_eq wide,
      Format.mantissaBits] at he
    push_cast at he
    omega
  · obtain ⟨i, hi⟩ : ∃ i, (e + (BinaryFormat.of g).scale).toNat = i := ⟨_, rfl⟩
    obtain ⟨j, hj⟩ : ∃ j, (-(e + (BinaryFormat.of g).scale)).toNat = j := ⟨_, rfl⟩
    have hexponents : k + (BinaryFormat.of g).scale + j = s + k' + i := by omega
    rw [hi, hj]
    calc m * 2 ^ k * 2 ^ (BinaryFormat.of g).scale * (m' * 2 ^ j)
        = m * m' * 2 ^ (k + (BinaryFormat.of g).scale + j) := by ring
      _ = m * m' * 2 ^ (s + k' + i) := by rw [hexponents]
      _ = m * 2 ^ s * (m' * 2 ^ k' * 2 ^ i) := by ring

/-- A quotient is the pattern nearest to it. -/
theorem Holds.div (wide : 2 ≤ g.exponentBits) {u v : UnpackedFloat} {a b : Nat}
    (hu : Holds g u a) (hv : Holds g v b) (ha : a < (BinaryFormat.of g).infinity) (hb : 0 < b)
    (hb' : b < (BinaryFormat.of g).infinity) :
    Holds g (UnpackedFloat.unpack g (UnpackedFloat.pack g (UnpackedFloat.div g u v)))
      (min (BinaryFormat.of g).infinity ((BinaryFormat.of g).nearest
        ((BinaryFormat.of g).units a * 2 ^ (BinaryFormat.of g).scale)
        ((BinaryFormat.of g).units b))) := by
  cases hv with
  | zero t => exact absurd hb (Nat.lt_irrefl 0)
  | infinity => exact absurd hb' (Nat.lt_irrefl _)
  | finite h' full' fits' below' => cases hu with
    | zero s =>
      obtain ⟨r, hr⟩ : ∃ r, UnpackedFloat.div g (.zero s) (.finite .positive _ _ h') = .zero r :=
        ⟨_, rfl⟩
      rw [hr, BinaryFormat.units_zero, Nat.zero_mul,
        BinaryFormat.nearest_zero g.hm (BinaryFormat.units_pos hb), Nat.min_zero]
      exact (Holds.zero r).stored wide
    | infinity => exact absurd ha (Nat.lt_irrefl _)
    | finite h full fits below =>
      rw [units_finite full fits, units_finite full' fits']
      exact holds_of_toNat_pack wide (toNat_pack_div_finite wide h h')

/-- Nothing is left of a finite magnitude divided by infinity. -/
theorem Holds.div_infinity (wide : 2 ≤ g.exponentBits) {u v : UnpackedFloat} {a : Nat}
    (hu : Holds g u a) (ha : a < (BinaryFormat.of g).infinity)
    (hv : Holds g v (BinaryFormat.of g).infinity) :
    Holds g (UnpackedFloat.unpack g (UnpackedFloat.pack g (UnpackedFloat.div g u v))) 0 := by
  have hv' : v = .infinity .positive := by
    generalize hb : (BinaryFormat.of g).infinity = b at hv
    cases hv with
    | zero s => exact absurd hb (infinity_pos wide).ne'
    | finite h full fits below => exact absurd hb below.ne'
    | infinity => rfl
  have hzero : ∃ s, UnpackedFloat.div g u v = .zero s := by
    subst hv'
    cases hu with
    | zero s => exact ⟨_, rfl⟩
    | finite h full fits below => exact ⟨_, rfl⟩
    | infinity => exact absurd ha (Nat.lt_irrefl _)
  obtain ⟨s, hs⟩ := hzero
  rw [hs]
  exact (Holds.zero s).stored wide

end Machine

end Federated
