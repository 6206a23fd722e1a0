/-
  Federated.Proofs.Numeric.Data

  Machine floats as data. The language computes on a sign, a significand and an exponent, which are
  read off a pattern and stored as one again. Data that are not below zero hold the magnitude of a
  pattern, and compare as patterns do.

    * `Machine.Holds` — the data that hold the magnitude of a pattern.
    * `Machine.toNat_pack`, `Machine.holds_unpack`, `Machine.Holds.stored` — from data to a pattern
      and back.
    * `Machine.holds_of_zero_le` — what is not below zero holds a magnitude.
    * `Machine.Holds.compare_eq`, `Machine.Holds.isFinite` — data are compared by what they hold.
-/
import Federated.Proofs.Numeric.Nearest
import Mathlib

namespace Federated

open Float.Model (Format UnpackedFloat)

/-- The widths of a machine format. -/
abbrev BinaryFormat.of (g : Format) : BinaryFormat :=
  ⟨g.mantissaBitsWithoutImplicit, g.exponentBits⟩

namespace Machine

variable {g : Format}

/-! ## Fields -/

theorem toNat_unpackMantissa (b : BitVec g.numBits) :
    (UnpackedFloat.unpackMantissa b).toNat = b.toNat % 2 ^ g.mantissaBitsWithoutImplicit := by
  have := g.hm
  rw [UnpackedFloat.unpackMantissa, BitVec.toNat_cast, BitVec.extractLsb_toNat, Nat.shiftRight_zero]
  congr 2
  omega

theorem toNat_unpackExponent (b : BitVec g.numBits) :
    (UnpackedFloat.unpackExponent b).toNat =
      b.toNat / 2 ^ g.mantissaBitsWithoutImplicit % 2 ^ g.exponentBits := by
  have := g.he
  rw [UnpackedFloat.unpackExponent, BitVec.toNat_cast, BitVec.extractLsb_toNat,
    Nat.shiftRight_eq_div_pow]
  congr 2
  omega

theorem toNat_unpackSign (b : BitVec g.numBits) :
    (UnpackedFloat.unpackSign b).toNat =
      b.toNat / 2 ^ (g.mantissaBitsWithoutImplicit + g.exponentBits) % 2 := by
  rw [UnpackedFloat.unpackSign, BitVec.toNat_cast, BitVec.extractLsb_toNat,
    Nat.shiftRight_eq_div_pow, Nat.sub_self]

theorem toNat_packComponents (e : BitVec g.exponentBits)
    (m : BitVec g.mantissaBitsWithoutImplicit) :
    (UnpackedFloat.packComponents g .positive e m).toNat =
      e.toNat * 2 ^ g.mantissaBitsWithoutImplicit + m.toNat := by
  rw [UnpackedFloat.packComponents, BitVec.toNat_append, BitVec.toNat_append]
  have hsign : UnpackedFloat.Sign.positive.toBitVec.toNat = 0 := rfl
  rw [hsign, Nat.zero_shiftLeft, Nat.zero_or, ← Nat.shiftLeft_add_eq_or_of_lt m.isLt,
    Nat.shiftLeft_eq]

theorem eq_allOnes_iff {w : Nat} (x : BitVec w) : x = -1#w ↔ x.toNat = 2 ^ w - 1 := by
  rw [← BitVec.toNat_inj, BitVec.neg_one_eq_allOnes, BitVec.toNat_allOnes]

theorem eq_zero_iff {w : Nat} (x : BitVec w) : x = 0#w ↔ x.toNat = 0 := by
  rw [← BitVec.toNat_inj, BitVec.toNat_ofNat, Nat.zero_mod]

/-! ## Data -/

/-- Data that hold the magnitude of a pattern; zero may have either sign. -/
inductive Holds (g : Format) : UnpackedFloat → Nat → Prop
  | zero (s : UnpackedFloat.Sign) : Holds g (.zero s) 0
  | finite {m k : Nat} (h : 0 < m) (full : 2 ^ g.mantissaBitsWithoutImplicit ≤ m ∨ k = 0)
      (fits : m < 2 * 2 ^ g.mantissaBitsWithoutImplicit)
      (below : m + k * 2 ^ g.mantissaBitsWithoutImplicit < (BinaryFormat.of g).infinity) :
      Holds g (.finite .positive m (k - (BinaryFormat.of g).scale) h)
        (m + k * 2 ^ g.mantissaBitsWithoutImplicit)
  | infinity : Holds g (.infinity .positive) (BinaryFormat.of g).infinity

/-- The exponent field of all ones. -/
theorem two_pow_exponentBits (wide : 2 ≤ g.exponentBits) :
    2 ^ g.exponentBits = 2 * 2 ^ (g.exponentBits - 1) ∧ 2 ≤ 2 ^ (g.exponentBits - 1) := by
  obtain ⟨n, hn⟩ : ∃ n, g.exponentBits = n + 2 := ⟨g.exponentBits - 2, by omega⟩
  have hpos := Nat.two_pow_pos n
  rw [hn, show n + 2 - 1 = n + 1 by omega, Nat.pow_succ, Nat.pow_succ]
  omega

theorem bias_add (wide : 2 ≤ g.exponentBits) :
    ((g.exponentBias : Int) + g.mantissaBitsWithoutImplicit) = (BinaryFormat.of g).scale + 1 := by
  obtain ⟨-, hle⟩ := two_pow_exponentBits wide
  simp only [Format.exponentBias, BinaryFormat.scale, Nat.pow_eq]
  omega

theorem minExponent_eq (wide : 2 ≤ g.exponentBits) :
    g.minExponent = -((BinaryFormat.of g).scale : Int) := by
  obtain ⟨-, hle⟩ := two_pow_exponentBits wide
  have hcast : (2 : Int) ^ (g.exponentBits - 1) = ((2 ^ (g.exponentBits - 1) : Nat) : Int) := by
    norm_cast
  simp only [Format.minExponent, Format.mantissaBits, BinaryFormat.scale, Nat.pow_eq, hcast]
  omega

/-- What positive data are stored as. -/
theorem toNat_pack (wide : 2 ≤ g.exponentBits) {m k : Nat} (h : 0 < m)
    (full : 2 ^ g.mantissaBitsWithoutImplicit ≤ m ∨ k = 0)
    (fits : m < 2 * 2 ^ g.mantissaBitsWithoutImplicit) :
    (UnpackedFloat.pack g
      (.finite .positive m (k - (BinaryFormat.of g).scale) h)).toNat =
      min (BinaryFormat.of g).infinity (m + k * 2 ^ g.mantissaBitsWithoutImplicit) := by
  have hbiased : ((k : Int) - (BinaryFormat.of g).scale + g.exponentBias +
      g.mantissaBitsWithoutImplicit).toNat = k + 1 := by
    have := bias_add wide
    omega
  obtain ⟨hones, htwo⟩ := two_pow_exponentBits wide
  have hlog : m.log2 + 1 = g.mantissaBits ↔ 2 ^ g.mantissaBitsWithoutImplicit ≤ m := by
    have hlt : m.log2 < g.mantissaBitsWithoutImplicit + 1 :=
      (Nat.log2_lt (by omega)).2 (by rw [Nat.pow_succ]; omega)
    rw [← Nat.le_log2 (by omega), Format.mantissaBits]
    omega
  simp only [UnpackedFloat.pack, hbiased, BinaryFormat.infinity, Nat.pow_eq, hlog]
  by_cases hover : 2 ^ g.exponentBits ≤ k + 1 + 1
  · -- the exponent is beyond the range of the format
    have hle : (2 ^ g.exponentBits - 1) * 2 ^ g.mantissaBitsWithoutImplicit ≤
        (k + 1) * 2 ^ g.mantissaBitsWithoutImplicit := Nat.mul_le_mul_right _ (by omega)
    rw [Nat.add_mul, Nat.one_mul] at hle
    rw [if_pos hover, UnpackedFloat.packedInfinity, toNat_packComponents, BitVec.neg_one_eq_allOnes,
      BitVec.toNat_allOnes, min_eq_left (by omega)]
    rfl
  · have hlt : (k + 2) * 2 ^ g.mantissaBitsWithoutImplicit ≤
        (2 ^ g.exponentBits - 1) * 2 ^ g.mantissaBitsWithoutImplicit :=
      Nat.mul_le_mul_right _ (by omega)
    rw [Nat.add_mul] at hlt
    rw [if_neg hover, min_eq_right (by omega)]
    -- a significand of full length has its first digit left out, and one more in the field
    by_cases hfull : 2 ^ g.mantissaBitsWithoutImplicit ≤ m
    · have hfraction : m % 2 ^ g.mantissaBitsWithoutImplicit =
          m - 2 ^ g.mantissaBitsWithoutImplicit := by
        rw [Nat.mod_eq_sub_mod hfull, Nat.mod_eq_of_lt (by omega)]
      rw [if_pos hfull, toNat_packComponents, BitVec.toNat_ofNat, BitVec.toNat_ofNat,
        Nat.mod_eq_of_lt (by omega), hfraction, Nat.add_mul]
      omega
    · obtain rfl : k = 0 := full.resolve_left hfull
      rw [if_neg hfull, toNat_packComponents, BitVec.toNat_ofNat, BitVec.toNat_ofNat, Nat.zero_mod,
        Nat.mod_eq_of_lt (by omega)]
      omega

theorem infinity_lt_signBit : (BinaryFormat.of g).infinity < (BinaryFormat.of g).signBit := by
  have hpos : 0 < 2 ^ g.exponentBits := Nat.two_pow_pos _
  simp only [BinaryFormat.infinity, BinaryFormat.signBit, Nat.pow_eq, Nat.pow_add]
  exact Nat.mul_lt_mul_of_pos_right (by omega) (Nat.two_pow_pos _)

theorem toNat_append_one {w : Nat} (m : BitVec w) : (1#1 ++ m).toNat = 2 ^ w + m.toNat := by
  rw [BitVec.toNat_append, ← Nat.shiftLeft_add_eq_or_of_lt m.isLt, Nat.shiftLeft_eq]
  simp

theorem finite_congr {s : UnpackedFloat.Sign} {m m' : Nat} {e e' : Int} {h : 0 < m} (hm : m = m')
    (he : e = e') : UnpackedFloat.finite s m e h = .finite s m' e' (hm ▸ h) := by
  subst hm he
  rfl

/-- How a pattern of positive sign is read, by its fields. -/
theorem unpack_eq (wide : 2 ≤ g.exponentBits) {b : BitVec g.numBits} {e m : Nat}
    (hsign : UnpackedFloat.unpackSign b = 0#1) (he : (UnpackedFloat.unpackExponent b).toNat = e)
    (hm : (UnpackedFloat.unpackMantissa b).toNat = m) :
    UnpackedFloat.unpack g b =
      if e = 2 ^ g.exponentBits - 1 then if m = 0 then .infinity .positive else .notANumber
      else if e = 0 then
        if h : m = 0 then .zero .positive
        else .finite .positive m ((0 : Nat) - (BinaryFormat.of g).scale) (Nat.pos_of_ne_zero h)
      else .finite .positive (2 ^ g.mantissaBitsWithoutImplicit + m)
        ((e - 1 : Nat) - (BinaryFormat.of g).scale)
        (Nat.add_pos_left (Nat.two_pow_pos _) m) := by
  subst he hm
  have hpositive : UnpackedFloat.Sign.ofBitVec 0#1 = .positive := rfl
  have hbias := bias_add wide
  unfold UnpackedFloat.unpack
  simp only [hsign, hpositive, eq_allOnes_iff, eq_zero_iff]
  split_ifs
  · rfl
  · rfl
  · rfl
  · exact finite_congr rfl (by omega)
  · exact finite_congr (toNat_append_one _) (by omega)

/-- A pattern up to infinity is read as data that hold it. -/
theorem holds_unpack (wide : 2 ≤ g.exponentBits) {b : BitVec g.numBits}
    (h : b.toNat ≤ (BinaryFormat.of g).infinity) : Holds g (UnpackedFloat.unpack g b) b.toNat := by
  have hinfinity : (BinaryFormat.of g).infinity =
    (2 ^ g.exponentBits - 1) * 2 ^ g.mantissaBitsWithoutImplicit := rfl
  have hunit : 0 < 2 ^ g.mantissaBitsWithoutImplicit := Nat.two_pow_pos _
  obtain ⟨hones, htwo⟩ := two_pow_exponentBits wide
  have hsplit := Nat.div_add_mod' b.toNat (2 ^ g.mantissaBitsWithoutImplicit)
  have hrest := Nat.mod_lt b.toNat hunit
  have hfield : b.toNat / 2 ^ g.mantissaBitsWithoutImplicit ≤ 2 ^ g.exponentBits - 1 :=
    Nat.div_le_of_le_mul (by rw [Nat.mul_comm]; exact h)
  have hsign : UnpackedFloat.unpackSign b = 0#1 := by
    have hlt : b.toNat < 2 ^ (g.mantissaBitsWithoutImplicit + g.exponentBits) := by
      rw [Nat.add_comm]
      exact Nat.lt_of_le_of_lt h infinity_lt_signBit
    rw [eq_zero_iff, toNat_unpackSign, Nat.div_eq_of_lt hlt]
  have hexponent := toNat_unpackExponent b
  rw [Nat.mod_eq_of_lt (by omega)] at hexponent
  rw [unpack_eq wide hsign hexponent (toNat_unpackMantissa b)]
  generalize b.toNat / 2 ^ g.mantissaBitsWithoutImplicit = e at *
  generalize b.toNat % 2 ^ g.mantissaBitsWithoutImplicit = m at *
  have hbelow : e ≠ 2 ^ g.exponentBits - 1 →
      e * 2 ^ g.mantissaBitsWithoutImplicit + m < (BinaryFormat.of g).infinity := by
    intro hne
    have hle := Nat.mul_le_mul_right (2 ^ g.mantissaBitsWithoutImplicit)
      (show e + 1 ≤ 2 ^ g.exponentBits - 1 by omega)
    rw [Nat.add_mul] at hle
    omega
  rw [← hsplit] at h ⊢
  split_ifs with hall hzero hsub hzero
  · subst hall hzero
    exact .infinity
  · subst hall
    omega
  · subst hsub hzero
    rw [Nat.zero_mul]
    exact .zero .positive
  · subst hsub
    rw [Nat.zero_mul, Nat.zero_add] at hbelow ⊢
    simpa using Holds.finite (k := 0) (Nat.pos_of_ne_zero hzero) (.inr rfl) (by omega)
      (by simpa using hbelow hall)
  · have hpattern : e * 2 ^ g.mantissaBitsWithoutImplicit + m =
        2 ^ g.mantissaBitsWithoutImplicit + m + (e - 1) * 2 ^ g.mantissaBitsWithoutImplicit := by
      rw [Nat.sub_mul]
      have := Nat.mul_le_mul_right (2 ^ g.mantissaBitsWithoutImplicit)
        (Nat.one_le_iff_ne_zero.2 hsub)
      omega
    rw [hpattern] at hbelow ⊢
    exact .finite _ (.inl (Nat.le_add_right _ _)) (by omega) (hbelow hall)

/-- Data other than the negative zero are stored as the pattern they hold. -/
theorem Holds.toNat_pack (wide : 2 ≤ g.exponentBits) {u : UnpackedFloat} {a : Nat}
    (h : Holds g u a) (hu : u ≠ .zero .negative) : (UnpackedFloat.pack g u).toNat = a := by
  cases h with
  | zero s => cases s with
    | negative => exact absurd rfl hu
    | positive =>
      rw [UnpackedFloat.pack, UnpackedFloat.packedZero, toNat_packComponents]
      simp
  | finite h full fits below =>
    rw [Machine.toNat_pack wide h full fits, min_eq_right below.le]
  | infinity =>
    rw [UnpackedFloat.pack, UnpackedFloat.packedInfinity, toNat_packComponents,
      BitVec.neg_one_eq_allOnes, BitVec.toNat_allOnes]
    rfl

theorem Holds.le {u : UnpackedFloat} {a : Nat} (h : Holds g u a) :
    a ≤ (BinaryFormat.of g).infinity := by
  cases h with
  | zero s => exact Nat.zero_le _
  | finite h full fits below => exact below.le
  | infinity => exact Nat.le_refl _

/-- What a pattern stands for. -/
theorem units_finite {m k : Nat} (full : 2 ^ g.mantissaBitsWithoutImplicit ≤ m ∨ k = 0)
    (fits : m < 2 * 2 ^ g.mantissaBitsWithoutImplicit) :
    (BinaryFormat.of g).units (m + k * 2 ^ g.mantissaBitsWithoutImplicit) = m * 2 ^ k :=
  BinaryFormat.units_add full fits.le

/-- Data are stored without a change. -/
theorem Holds.stored (wide : 2 ≤ g.exponentBits) {u : UnpackedFloat} {a : Nat}
    (h : Holds g u a) : Holds g (UnpackedFloat.unpack g (UnpackedFloat.pack g u)) a := by
  by_cases hu : u = .zero .negative
  · subst hu
    cases h
    have hfield : ¬ 0#g.exponentBits = -1#_ := by
      obtain ⟨hones, htwo⟩ := two_pow_exponentBits wide
      rw [eq_allOnes_iff, BitVec.toNat_ofNat, Nat.zero_mod]
      omega
    rw [UnpackedFloat.pack, UnpackedFloat.packedZero, UnpackedFloat.unpack]
    simp only [UnpackedFloat.unpackExponent_packComponents,
      UnpackedFloat.unpackMantissa_packComponents, BitVec.ofNat_eq_ofNat]
    rw [if_neg hfield, if_pos trivial, dif_pos trivial]
    exact .zero _
  · have hpack := h.toNat_pack wide hu
    have hle := h.le
    rw [← hpack] at hle ⊢
    exact holds_unpack wide hle

theorem holds_of_toNat_pack (wide : 2 ≤ g.exponentBits) {u : UnpackedFloat} {a : Nat}
    (h : (UnpackedFloat.pack g u).toNat = min (BinaryFormat.of g).infinity a) :
    Holds g (UnpackedFloat.unpack g (UnpackedFloat.pack g u))
      (min (BinaryFormat.of g).infinity a) := by
  have hle := min_le_left (BinaryFormat.of g).infinity a
  rw [← h] at hle ⊢
  exact holds_unpack wide hle

/-- A pattern is nearest to itself. -/
theorem Holds.min_nearest {u : UnpackedFloat} {a : Nat} (h : Holds g u a) :
    min (BinaryFormat.of g).infinity
      ((BinaryFormat.of g).nearest ((BinaryFormat.of g).units a) 1) = a := by
  have hself := BinaryFormat.nearest_units (f := .of g) g.hm Nat.one_pos a
  rw [Nat.mul_one] at hself
  rw [hself, min_eq_right h.le]

/-- Above infinity are the patterns of no number. -/
theorem unpack_eq_notANumber (wide : 2 ≤ g.exponentBits) {b : BitVec g.numBits}
    (hsign : UnpackedFloat.unpackSign b = 0#1) (h : (BinaryFormat.of g).infinity < b.toNat) :
    UnpackedFloat.unpack g b = .notANumber := by
  have hinfinity : (BinaryFormat.of g).infinity =
    (2 ^ g.exponentBits - 1) * 2 ^ g.mantissaBitsWithoutImplicit := rfl
  have hunit : 0 < 2 ^ g.mantissaBitsWithoutImplicit := Nat.two_pow_pos _
  have hlt : b.toNat < 2 ^ g.exponentBits * 2 ^ g.mantissaBitsWithoutImplicit := by
    have hbit : b.toNat / 2 ^ (g.mantissaBitsWithoutImplicit + g.exponentBits) < 2 := by
      rw [Nat.div_lt_iff_lt_mul (Nat.two_pow_pos _), ← Nat.pow_succ',
        show (g.mantissaBitsWithoutImplicit + g.exponentBits).succ = g.numBits by
          rw [Format.numBits]; omega]
      exact b.isLt
    rw [eq_zero_iff, toNat_unpackSign, Nat.mod_eq_of_lt hbit,
      Nat.div_eq_zero_iff_lt (Nat.two_pow_pos _), Nat.add_comm, Nat.pow_add] at hsign
    exact hsign
  have hfield : b.toNat / 2 ^ g.mantissaBitsWithoutImplicit = 2 ^ g.exponentBits - 1 := by
    have hle : 2 ^ g.exponentBits - 1 ≤ b.toNat / 2 ^ g.mantissaBitsWithoutImplicit :=
      (Nat.le_div_iff_mul_le hunit).2 h.le
    have hlt' : b.toNat / 2 ^ g.mantissaBitsWithoutImplicit < 2 ^ g.exponentBits :=
      (Nat.div_lt_iff_lt_mul hunit).2 hlt
    omega
  have hexponent := toNat_unpackExponent b
  rw [hfield, Nat.mod_eq_of_lt (Nat.sub_lt (Nat.two_pow_pos _) Nat.one_pos)] at hexponent
  have hrest : b.toNat % 2 ^ g.mantissaBitsWithoutImplicit ≠ 0 := by
    have hsplit := Nat.div_add_mod' b.toNat (2 ^ g.mantissaBitsWithoutImplicit)
    rw [hfield] at hsplit
    omega
  rw [unpack_eq wide hsign hexponent (toNat_unpackMantissa b), if_pos rfl, if_neg hrest]

/-! ## Comparisons -/

theorem infinity_pos (wide : 2 ≤ g.exponentBits) : 0 < (BinaryFormat.of g).infinity := by
  obtain ⟨hones, htwo⟩ := two_pow_exponentBits wide
  exact Nat.mul_pos (Nat.sub_pos_of_lt (by simp only [Nat.pow_eq]; omega)) (Nat.two_pow_pos _)

theorem Holds.isFinite (wide : 2 ≤ g.exponentBits) {u : UnpackedFloat} {a : Nat}
    (h : Holds g u a) : u.isFinite = true ↔ a < (BinaryFormat.of g).infinity := by
  cases h with
  | zero s => exact iff_of_true rfl (infinity_pos wide)
  | finite h full fits below => exact iff_of_true rfl below
  | infinity => exact iff_of_false Bool.false_ne_true (Nat.lt_irrefl _)

/-- Significands are compared within a binade. -/
theorem compare_finite {F m m' k k' : Nat} (full : 2 ^ F ≤ m ∨ k = 0) (fits : m < 2 * 2 ^ F)
    (full' : 2 ^ F ≤ m' ∨ k' = 0) (fits' : m' < 2 * 2 ^ F) (S : Int) :
    (compare ((k : Int) - S) (k' - S)).then (compare m m') =
      compare (m + k * 2 ^ F) (m' + k' * 2 ^ F) := by
  rcases Nat.lt_trichotomy k k' with hlt | rfl | hgt
  · have hle := Nat.mul_le_mul_right (2 ^ F) (show k + 1 ≤ k' from hlt)
    rw [Nat.add_mul] at hle
    have hpattern : m + k * 2 ^ F < m' + k' * 2 ^ F := by omega
    rw [Int.compare_eq_lt.2 (by omega), Nat.compare_eq_lt.2 hpattern]
    rfl
  · rw [Int.compare_eq_eq.2 rfl]
    show compare m m' = _
    simp only [Nat.compare_eq_ite_lt, Nat.add_lt_add_iff_right]
  · have hle := Nat.mul_le_mul_right (2 ^ F) (show k' + 1 ≤ k from hgt)
    rw [Nat.add_mul] at hle
    have hpattern : m' + k' * 2 ^ F < m + k * 2 ^ F := by omega
    rw [Int.compare_eq_gt.2 (by omega), Nat.compare_eq_gt.2 hpattern]
    rfl

/-- Data compare as the patterns they hold. -/
theorem Holds.compare_eq (wide : 2 ≤ g.exponentBits) {u v : UnpackedFloat} {a b : Nat}
    (hu : Holds g u a) (hv : Holds g v b) : u.compare v = some (compare a b) := by
  have hpos := infinity_pos wide
  cases hu with
  | zero s => cases hv with
    | zero t => exact congrArg some (Nat.compare_eq_eq.2 rfl).symm
    | finite h full fits below =>
      exact congrArg some (Nat.compare_eq_lt.2 (Nat.add_pos_left h _)).symm
    | infinity => exact congrArg some (Nat.compare_eq_lt.2 hpos).symm
  | finite h full fits below => cases hv with
    | zero t => exact congrArg some (Nat.compare_eq_gt.2 (Nat.add_pos_left h _)).symm
    | finite h' full' fits' below' => exact congrArg some (compare_finite full fits full' fits' _)
    | infinity => exact congrArg some (Nat.compare_eq_lt.2 below).symm
  | infinity => cases hv with
    | zero t => exact congrArg some (Nat.compare_eq_gt.2 hpos).symm
    | finite h' full' fits' below' => exact congrArg some (Nat.compare_eq_gt.2 below').symm
    | infinity => exact congrArg some (Nat.compare_eq_eq.2 rfl).symm

/-- Data hold one magnitude only. -/
theorem Holds.unique (wide : 2 ≤ g.exponentBits) {u : UnpackedFloat} {a b : Nat}
    (ha : Holds g u a) (hb : Holds g u b) : a = b := by
  have hself := ha.compare_eq wide ha
  rw [ha.compare_eq wide hb, Nat.compare_eq_eq.2 rfl] at hself
  exact Nat.compare_eq_eq.1 (Option.some.inj hself)

/-- A magnitude other than zero is held only by its pattern. -/
theorem toNat_of_holds (wide : 2 ≤ g.exponentBits) {b : BitVec g.numBits} {a : Nat}
    (h : Holds g (UnpackedFloat.unpack g b) a) (ha : 0 < a) : b.toNat = a := by
  by_cases hsign : UnpackedFloat.unpackSign b = 0#1
  · rcases Nat.lt_or_ge (BinaryFormat.of g).infinity b.toNat with hlt | hle
    · rw [unpack_eq_notANumber wide hsign hlt] at h
      cases h
    · exact (holds_unpack wide hle).unique wide h
  · have hnegative : UnpackedFloat.Sign.ofBitVec (UnpackedFloat.unpackSign b) = .negative :=
      if_neg hsign
    unfold UnpackedFloat.unpack at h
    simp only [hnegative] at h
    split_ifs at h
    · cases h
    · cases h
    · cases h
      exact absurd ha (Nat.lt_irrefl 0)
    · cases h
    · cases h

/-- What is not below zero holds a magnitude. -/
theorem holds_of_zero_le (wide : 2 ≤ g.exponentBits) {b : BitVec g.numBits}
    (h : (UnpackedFloat.zero .positive).le (UnpackedFloat.unpack g b) = true) :
    ∃ a, Holds g (UnpackedFloat.unpack g b) a := by
  by_cases hsign : UnpackedFloat.unpackSign b = 0#1
  · refine ⟨_, holds_unpack wide (Nat.le_of_not_lt fun hlt => ?_)⟩
    rw [unpack_eq_notANumber wide hsign hlt] at h
    cases h
  · -- of negative sign, zero alone is not below zero
    have hnegative : UnpackedFloat.Sign.ofBitVec (UnpackedFloat.unpackSign b) = .negative :=
      if_neg hsign
    unfold UnpackedFloat.unpack at h ⊢
    simp only [hnegative] at h ⊢
    split_ifs at h ⊢
    · cases h
    · cases h
    · exact ⟨0, .zero _⟩
    · cases h
    · cases h

end Machine

end Federated
