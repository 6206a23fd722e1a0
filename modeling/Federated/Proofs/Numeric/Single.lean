/-
  Federated.Proofs.Numeric.Single

  Singles that are added up, compared with zero and multiplied. Sums of positive singles are
  positive too, up to infinity, and the single nearest to a count is a finite one. Weights of a
  merge are built of nothing else.

    * `magnitude_foldl` — a rounded sum is not below any of its terms, and it stops growing at a
      pattern whose successor the terms do not reach.
    * `Positive`, `Positive.magnitude`, `positive_of_magnitude` — positive singles by their
      magnitudes.
    * `positive_foldl`, `ofCount_positive` — sums of positive singles, and counts.
    * `mul_comm` — a product does not depend on the order of its factors, not in one bit.
-/
import Federated.Proofs.Numeric.Magnitude
import Federated.Proofs.Numeric.Values

namespace Federated

namespace Single

open BinaryFormat (single)
open Float.Model (UnpackedFloat)

/-! ## Sums -/

/-- A magnitude that is added up to is not below either term. -/
theorem le_sum {x y : Float32} {a b : Nat} (hx : Magnitude x a) (hy : Magnitude y b) :
    a ≤ min single.infinity (single.nearest (single.units a + single.units b) 1) ∧
      b ≤ min single.infinity (single.nearest (single.units a + single.units b) 1) := by
  have hself : ∀ c, single.nearest (single.units c) 1 = c := fun c => by
    simpa using BinaryFormat.nearest_units (f := single) (by decide) Nat.one_pos c
  have hmono : ∀ c, single.units c ≤ single.units a + single.units b →
      c ≤ single.nearest (single.units a + single.units b) 1 := by
    intro c hc
    rw [← hself c]
    exact BinaryFormat.nearest_mono (by decide) Nat.one_pos Nat.one_pos (Nat.mul_le_mul_right 1 hc)
  exact ⟨le_min hx.le_infinity (hmono a (Nat.le_add_right _ _)),
    le_min hy.le_infinity (hmono b (Nat.le_add_left _ _))⟩

/-- A sum is not below any of its terms, nor beyond a pattern that they do not lead beyond. -/
theorem magnitude_foldl {xs : List Float32} (hxs : ∀ x ∈ xs, ∃ a, Magnitude x a)
    {start : Float32} {c : Nat} (hstart : Magnitude start c) :
    ∃ t, Magnitude (xs.foldl (· + ·) start) t ∧ c ≤ t ∧
      (∀ x ∈ xs, ∀ a, Magnitude x a → a ≤ t) ∧
      ∀ b, c ≤ b → (∀ x ∈ xs, ∀ a, Magnitude x a →
        single.units b + 2 * single.units a < single.units (b + 1)) → t ≤ b := by
  induction xs generalizing start c with
  | nil => exact ⟨c, hstart, le_rfl, nofun, fun b hb _ => hb⟩
  | cons x xs ih =>
    obtain ⟨a, ha⟩ := hxs x List.mem_cons_self
    obtain ⟨t, ht, hle, hall, hbound⟩ :=
      ih (fun y hy => hxs y (List.mem_cons_of_mem _ hy)) (hstart.add ha)
    obtain ⟨hc, ha'⟩ := le_sum hstart ha
    refine ⟨t, ht, hc.trans hle, fun y hy d hd => ?_, fun b hb hstep => ?_⟩
    · rcases List.mem_cons.1 hy with rfl | hy
      · rw [hd.unique ha]
        exact ha'.trans hle
      · exact hall y hy d hd
    · refine hbound b ?_ fun y hy => hstep y (List.mem_cons_of_mem _ hy)
      have hstep' := hstep x List.mem_cons_self a ha
      have hunits := single.units_strictMono.monotone hb
      refine (min_le_right _ _).trans (BinaryFormat.nearest_le (by decide) Nat.one_pos ?_)
      omega

/-! ## Positive singles -/

/-- The bits of positive infinity, above those of every finite magnitude. -/
abbrev infinityBits : Nat := 255 * 2 ^ 23

/-- A single above zero, infinity included. -/
def Positive (x : Float32) : Prop := 0 < x.toBits.toNat ∧ x.toBits.toNat ≤ infinityBits

variable {x : Float32} {a : Nat}

theorem Positive.magnitude (h : Positive x) : Magnitude x x.toBits.toNat :=
  Machine.holds_unpack wide (b := x.toModel.toBits.toBitVec) h.2

theorem Magnitude.toNat_toBits (h : Magnitude x a) (ha : 0 < a) : x.toBits.toNat = a :=
  Machine.toNat_of_holds wide h ha

theorem positive_of_magnitude (h : Magnitude x a) (ha : 0 < a) : Positive x := by
  have hbits := h.toNat_toBits ha
  exact ⟨hbits ▸ ha, hbits ▸ h.le_infinity⟩

/-- A positive single is not at most zero. -/
theorem Positive.not_le_zero (h : Positive x) : Scalar.le x Scalar.zero = false := by
  refine Bool.eq_false_iff.2 fun hle => ?_
  exact Nat.not_le.2 h.1 ((h.magnitude.le_iff magnitude_zero).1 hle)

theorem Positive.not_lt_zero (h : Positive x) : Scalar.lt x Scalar.zero = false := by
  refine Bool.eq_false_iff.2 fun hlt => ?_
  exact Nat.not_lt_zero _ ((h.magnitude.lt_iff magnitude_zero).1 hlt)

theorem Positive.isFinite (h : Positive x) (hfin : x.toBits.toNat < infinityBits) :
    Scalar.isFinite x = true :=
  h.magnitude.isFinite_iff.2 hfin

/-- A hyperparameter that must be positive is so by its bits. -/
theorem positive_of_isPositive (h : Scalar.isPositive x = true) :
    Positive x ∧ x.toBits.toNat < infinityBits := by
  rw [Scalar.isPositive, Bool.and_eq_true, Bool.not_eq_true'] at h
  obtain ⟨hfinite, hle⟩ := h
  have hlt : Scalar.lt x Scalar.zero = false := by
    rw [← Bool.not_eq_true] at hle ⊢
    refine fun hlt => hle (le_iff_unpack.2 ?_)
    rw [lt_iff_unpack, UnpackedFloat.lt, beq_iff_eq] at hlt
    rw [UnpackedFloat.le, hlt]
    rfl
  obtain ⟨a, ha, hx⟩ := exists_magnitude hfinite hlt
  have hpos : 0 < a := by
    refine Nat.pos_of_ne_zero fun hzero => ?_
    rw [(hx.le_iff magnitude_zero).2 hzero.le] at hle
    cases hle
  exact ⟨positive_of_magnitude hx hpos, (hx.toNat_toBits hpos).trans_lt ha⟩

/-- A sum of positive singles, not empty, is positive. -/
theorem positive_foldl {xs : List Float32} (hne : xs ≠ []) (h : ∀ x ∈ xs, Positive x) :
    Positive (xs.foldl (· + ·) Scalar.zero) := by
  obtain ⟨t, ht, -, hall, -⟩ :=
    magnitude_foldl (fun x hx => ⟨_, (h x hx).magnitude⟩) magnitude_zero
  obtain ⟨x, hx⟩ := List.exists_mem_of_ne_nil xs hne
  exact positive_of_magnitude ht ((h x hx).1.trans_le (hall x hx _ (h x hx).magnitude))

theorem one_positive : Positive Scalar.one ∧ Scalar.isFinite (Scalar.one : Float32) = true :=
  ⟨positive_of_magnitude magnitude_one (by decide), magnitude_one.isFinite_iff.2 (by decide)⟩

/-! ## Counts -/

/-- A count of 64 bits is far from the end of the range. -/
theorem nearest_count_lt {n : Nat} (hn : n < 2 ^ 64) :
    single.nearest (n * 2 ^ single.scale) 1 < single.infinity := by
  have hlast : 2 ^ 64 * 2 ^ single.scale ≤ single.units (single.infinity - 1) := by decide
  refine Nat.lt_of_le_of_lt ?_ (show single.infinity - 1 < single.infinity by decide)
  calc single.nearest (n * 2 ^ single.scale) 1
      ≤ single.nearest (single.units (single.infinity - 1) * 1) 1 := by
        refine BinaryFormat.nearest_mono (by decide) Nat.one_pos Nat.one_pos ?_
        rw [Nat.mul_one, Nat.mul_one, Nat.mul_one]
        exact (Nat.mul_le_mul_right _ hn.le).trans hlast
    _ = single.infinity - 1 := BinaryFormat.nearest_units (by decide) Nat.one_pos _

theorem magnitude_ofCount {n : Nat} (hn : n < 2 ^ 64) :
    Magnitude (Scalar.ofCount n) (single.nearest (n * 2 ^ single.scale) 1) := by
  have hlt := nearest_count_lt hn
  have hencode : single.encode (.finite false n 0) =
      single.nearest (n * 2 ^ single.scale) 1 := by
    rw [BinaryFormat.encode_eq (by decide) (by decide), Int.zero_add, Int.toNat_natCast,
      min_eq_right hlt.le]
  have hword : (UInt32.ofNat (single.encode (.finite false n 0))).toNat =
      single.nearest (n * 2 ^ single.scale) 1 := by
    have hinfinity : single.infinity < 2 ^ 32 := by decide
    rw [hencode, UInt32.toNat_ofNat', Nat.mod_eq_of_lt (hlt.trans hinfinity)]
  have hbits := magnitude_ofBits (hword.trans_le hlt.le)
  rwa [hword] at hbits

/-- A count of 64 bits, not zero, becomes a finite positive single. -/
theorem ofCount_positive {n : Nat} (hpos : 0 < n) (hn : n < 2 ^ 64) :
    Positive (Scalar.ofCount n) ∧ Scalar.isFinite (Scalar.ofCount n : Float32) = true := by
  have hmagnitude := magnitude_ofCount hn
  have hne : single.nearest (n * 2 ^ single.scale) 1 ≠ 0 := by
    rw [Ne, BinaryFormat.nearest_eq_zero_iff (by decide)]
    exact (Nat.mul_pos hpos (Nat.two_pow_pos _)).ne'
  exact ⟨positive_of_magnitude hmagnitude (Nat.pos_of_ne_zero hne),
    hmagnitude.isFinite_iff.2 (nearest_count_lt hn)⟩

/-! ## Products -/

theorem sign_mul_comm (s t : UnpackedFloat.Sign) : s * t = t * s := by
  cases s <;> cases t <;> rfl

theorem mul_unpacked_comm (u v : UnpackedFloat) :
    UnpackedFloat.mul .binary32 u v = UnpackedFloat.mul .binary32 v u := by
  cases u <;> cases v <;> simp only [UnpackedFloat.mul]
  case finite.finite s m e hm t n f hn =>
    rw [sign_mul_comm, Nat.mul_comm, Int.add_comm]
  all_goals rw [sign_mul_comm]

/-- The factors of a product can be exchanged: signs, mantissas and exponents are combined apart,
    and rounding sees only what comes of them. -/
theorem mul_comm (x y : Float32) : x * y = y * x := by
  show Float32.ofModel (.pack (UnpackedFloat.mul .binary32 x.toModel.unpack y.toModel.unpack)) =
    .ofModel (.pack (UnpackedFloat.mul .binary32 y.toModel.unpack x.toModel.unpack))
  rw [mul_unpacked_comm]

end Single

end Federated
