/-
  Federated.Proofs.Training.Exponent

  The exponents that a schedule goes through, in exact arithmetic and for any cosine that is one at
  zero and does not leave the interval from minus one to one. Both plans are weighted means of the
  logarithms of the rates, but for a cosine that goes up: it takes the distance of the logarithms
  without its sign, and so goes down to the end rate from above it.

    * `ExactSchedule` — a schedule without roundings.
    * `ExactSchedule.phase_bounds` — a phase lies within its period.
    * `ExactSchedule.exponent_logLinear`, `ExactSchedule.exponent_logCosine` — the exponents as
      weighted means.
    * `ExactSchedule.stays_within_iff` — the schedules that start at the start rate and stay between
      both rates.
-/
import Federated.Proofs.Numeric.Exact
import Federated.Proofs.Training.Restarts
import Mathlib.Analysis.SpecialFunctions.Log.Base
import Mathlib.Analysis.SpecialFunctions.Trigonometric.Basic

namespace Federated

/-- A schedule in exact arithmetic. -/
structure ExactSchedule where
  /-- Epochs from one start to the next. -/
  period : ℝ
  /-- The logarithms of both rates. -/
  start : ℝ
  stop : ℝ
  plan : SchedulePlan

namespace ExactSchedule

/-- A schedule over a number of epochs. -/
noncomputable def ofRates (epochs : Nat) (startRate endRate : Float32) (plan : SchedulePlan)
    (restarts : Nat) : ExactSchedule :=
  ⟨epochs / (restarts + 1), Real.logb 10 (singleValue startRate).value,
    Real.logb 10 (singleValue endRate).value, plan⟩

/-- The epochs since the last start: what is left after whole periods. -/
noncomputable def phase (s : ExactSchedule) (epoch : Nat) : ℝ :=
  epoch - ⌊epoch / s.period⌋₊ * s.period

/-- The exponent of an epoch. -/
noncomputable def exponent (s : ExactSchedule) (cosine : ℝ → ℝ) (epoch : Nat) : ℝ :=
  s.plan.exponent (fun phase period => cosine (Real.pi * phase / period)) s.start s.stop s.period
    (s.phase epoch)

/-- The exponents lie between the logarithms of the rates, and where a period starts, the exponent
    is the logarithm of the start rate. -/
def StaysWithin (s : ExactSchedule) (cosine : ℝ → ℝ) : Prop :=
  ∀ epoch, min s.start s.stop ≤ s.exponent cosine epoch ∧
    s.exponent cosine epoch ≤ max s.start s.stop ∧
      (s.phase epoch = 0 → s.exponent cosine epoch = s.start)

/-- The exponents come down to the logarithm of the end rate, and where a period starts, the
    exponent is as far above it as the logarithm of the start rate is below it. -/
def Overshoots (s : ExactSchedule) (cosine : ℝ → ℝ) : Prop :=
  ∀ epoch, s.stop ≤ s.exponent cosine epoch ∧
    s.exponent cosine epoch ≤ s.stop + (s.stop - s.start) ∧
      (s.phase epoch = 0 → s.exponent cosine epoch = s.stop + (s.stop - s.start))

variable {s : ExactSchedule} {cosine : ℝ → ℝ}

/-! ## Phases -/

@[simp] theorem phase_zero (s : ExactSchedule) : s.phase 0 = 0 := by simp [phase]

theorem phase_bounds (h : 0 < s.period) (epoch : Nat) :
    0 ≤ s.phase epoch ∧ s.phase epoch < s.period := by
  have hfloor := Nat.floor_le (div_nonneg (Nat.cast_nonneg epoch) h.le)
  have hnext := Nat.lt_floor_add_one ((epoch : ℝ) / s.period)
  rw [le_div_iff₀ h] at hfloor
  rw [div_lt_iff₀ h] at hnext
  constructor
  · exact sub_nonneg.2 hfloor
  · rw [phase]
    linarith

/-! ## Exponents -/

/-- The part of a period that is over. -/
noncomputable def elapsed (s : ExactSchedule) (epoch : Nat) : ℝ := s.phase epoch / s.period

/-- The linear plan leaves the start rate as the period elapses. -/
theorem exponent_logLinear (hplan : s.plan = .logLinear) (epoch : Nat) :
    s.exponent cosine epoch = (1 - s.elapsed epoch) * s.start + s.elapsed epoch * s.stop := by
  have hread : s.exponent cosine epoch =
      (s.stop - s.start) / s.period * s.phase epoch + s.start := by
    rw [exponent, hplan]
    rfl
  rw [hread, elapsed]
  ring

/-- How far up the cosine still is, from one down to zero. -/
noncomputable def height (s : ExactSchedule) (cosine : ℝ → ℝ) (epoch : Nat) : ℝ :=
  (cosine (Real.pi * s.phase epoch / s.period) + 1) / (2 : ℕ)

/-- The cosine plan adds a share of the distance to the logarithm of the end rate. -/
theorem exponent_logCosine (hplan : s.plan = .logCosine) (epoch : Nat) :
    s.exponent cosine epoch = s.height cosine epoch * |s.start - s.stop| + s.stop := by
  have hread : s.exponent cosine epoch =
      (cosine (Real.pi * s.phase epoch / s.period) / ((2 : ℕ) : ℝ) + 1 / ((2 : ℕ) : ℝ)) *
        |s.start - s.stop| + s.stop := by
    rw [exponent, hplan, ← Scalar.abs_exact Real.sqrt]
    rfl
  rw [hread, height]
  push_cast
  ring

theorem height_bounds (hcosine : ∀ x, -1 ≤ cosine x ∧ cosine x ≤ 1) (epoch : Nat) :
    0 ≤ s.height cosine epoch ∧ s.height cosine epoch ≤ 1 := by
  obtain ⟨hlow, hhigh⟩ := hcosine (Real.pi * s.phase epoch / s.period)
  rw [height, Nat.cast_ofNat]
  constructor <;> linarith

theorem height_of_phase (hzero : cosine 0 = 1) {epoch : Nat} (h : s.phase epoch = 0) :
    s.height cosine epoch = 1 := by
  rw [height, h, mul_zero, zero_div, hzero]
  norm_num

/-- The linear plan stays between both rates, in whatever order they are. -/
theorem staysWithin_logLinear (hperiod : 0 < s.period) (hplan : s.plan = .logLinear) :
    s.StaysWithin cosine := by
  intro epoch
  obtain ⟨hlow, hhigh⟩ := phase_bounds hperiod epoch
  have hstart : 0 ≤ 1 - s.elapsed epoch := sub_nonneg.2 ((div_le_one hperiod).2 hhigh.le)
  have hstop : 0 ≤ s.elapsed epoch := div_nonneg hlow hperiod.le
  rw [exponent_logLinear hplan]
  refine ⟨Convex.min_le_combo _ _ hstart hstop (by ring),
    Convex.combo_le_max _ _ hstart hstop (by ring), fun hphase => ?_⟩
  rw [elapsed, hphase]
  ring

/-- So does the cosine plan if it goes down. -/
theorem staysWithin_logCosine (hzero : cosine 0 = 1)
    (hcosine : ∀ x, -1 ≤ cosine x ∧ cosine x ≤ 1) (hplan : s.plan = .logCosine)
    (hdown : s.stop ≤ s.start) : s.StaysWithin cosine := by
  intro epoch
  obtain ⟨hlow, hhigh⟩ := height_bounds (s := s) hcosine epoch
  have hmean : s.exponent cosine epoch =
      s.height cosine epoch * s.start + (1 - s.height cosine epoch) * s.stop := by
    rw [exponent_logCosine hplan, abs_of_nonneg (sub_nonneg.2 hdown)]
    ring
  rw [hmean]
  refine ⟨Convex.min_le_combo _ _ hlow (sub_nonneg.2 hhigh) (by ring),
    Convex.combo_le_max _ _ hlow (sub_nonneg.2 hhigh) (by ring), fun hphase => ?_⟩
  rw [height_of_phase hzero hphase]
  ring

/-- A cosine plan that should go up does not: it takes the distance of the logarithms without its
    sign. -/
theorem overshoots_logCosine (hzero : cosine 0 = 1)
    (hcosine : ∀ x, -1 ≤ cosine x ∧ cosine x ≤ 1) (hplan : s.plan = .logCosine)
    (hup : s.start < s.stop) : s.Overshoots cosine := by
  intro epoch
  obtain ⟨hlow, hhigh⟩ := height_bounds (s := s) hcosine epoch
  have hdistance := sub_pos.2 hup
  have hread : s.exponent cosine epoch = s.height cosine epoch * (s.stop - s.start) + s.stop := by
    rw [exponent_logCosine hplan, abs_sub_comm, abs_of_pos hdistance]
  refine ⟨?_, ?_, fun hphase => ?_⟩
  · have := mul_nonneg hlow hdistance.le
    linarith
  · have := mul_le_of_le_one_left hdistance.le hhigh
    linarith
  · rw [hread, height_of_phase hzero hphase]
    ring

/-! ## Accepted schedules -/

variable {epochs restarts : Nat} {startRate endRate : Float32} {plan : SchedulePlan}

theorem period_pos {c : Schedule}
    (h : Schedule.ofRates epochs startRate endRate plan restarts = .ok c) :
    0 < (ofRates epochs startRate endRate plan restarts).period := by
  have hepochs : 0 < epochs := Nat.zero_lt_of_lt (Schedule.ofRates_eq_ok_iff.1 h).1
  show (0 : ℝ) < epochs / (restarts + 1)
  positivity

/-- The logarithms are in the order of the rates. -/
theorem stop_le_start_iff {c : Schedule}
    (h : Schedule.ofRates epochs startRate endRate plan restarts = .ok c) :
    (ofRates epochs startRate endRate plan restarts).stop ≤
        (ofRates epochs startRate endRate plan restarts).start ↔
      (singleValue endRate).value ≤ (singleValue startRate).value := by
  obtain ⟨-, hstart, hend, -⟩ := Schedule.ofRates_eq_ok_iff.1 h
  exact Real.logb_le_logb (by norm_num) (Single.value_pos hend) (Single.value_pos hstart)

theorem value_one : (singleValue Scalar.one).value = 1 := by
  have hvalue : singleValue Scalar.one = .finite false 0x800000 (-23) := by decide +kernel
  rw [hvalue, Binary.value]
  norm_num

theorem value_ten : (singleValue (Float32.ofBits 0x41200000)).value = 10 := by
  have hvalue : singleValue (Float32.ofBits 0x41200000) = .finite false 0xa00000 (-20) := by
    decide +kernel
  rw [hvalue, Binary.value]
  norm_num

/-- An accepted schedule starts every period at its start rate and stays between its two rates
    exactly if its plan is linear or the end rate is not above the start rate. A cosine that should
    go up overshoots the end rate instead, and never comes below it. -/
theorem stays_within_iff {c : Schedule}
    (h : Schedule.ofRates epochs startRate endRate plan restarts = .ok c) (hzero : cosine 0 = 1)
    (hcosine : ∀ x, -1 ≤ cosine x ∧ cosine x ≤ 1) :
    let s := ofRates epochs startRate endRate plan restarts
    s.phase 0 = 0 ∧
      (s.StaysWithin cosine ↔
        plan = .logLinear ∨ (singleValue endRate).value ≤ (singleValue startRate).value) ∧
      (plan = .logCosine → (singleValue startRate).value < (singleValue endRate).value →
        s.Overshoots cosine) := by
  intro s
  have horder : s.stop ≤ s.start ↔ _ := stop_le_start_iff h
  have hover : plan = .logCosine → (singleValue startRate).value < (singleValue endRate).value →
      s.Overshoots cosine := fun hplan hrates =>
    overshoots_logCosine hzero hcosine hplan
      (not_le.1 fun hdown => not_le.2 hrates (horder.1 hdown))
  refine ⟨phase_zero s, ⟨fun hwithin => ?_, ?_⟩, hover⟩
  · cases hplan : plan with
    | logLinear => exact .inl rfl
    | logCosine =>
      refine .inr (not_lt.1 fun hrates => ?_)
      -- the first epoch has the start rate, and is above the end rate all the same
      obtain ⟨hstop, -, -⟩ := hover hplan hrates 0
      have hstart := (hwithin 0).2.2 (phase_zero s)
      exact not_le.2 hrates (horder.1 (hstop.trans hstart.le))
  · rintro (hplan | hdown)
    · exact staysWithin_logLinear (period_pos h) hplan
    · cases hplan : plan with
      | logLinear => exact staysWithin_logLinear (period_pos h) hplan
      | logCosine => exact staysWithin_logCosine hzero hcosine hplan (horder.2 hdown)

/-- From ten down to one along the cosine, the schedule stays between its rates; from one up to ten
    it overshoots. -/
theorem stays_within_iff_cosine :
    let down := ofRates 4 (Float32.ofBits 0x41200000) Scalar.one .logCosine 1
    let up := ofRates 4 Scalar.one (Float32.ofBits 0x41200000) .logCosine 1
    (∃ c, Schedule.ofRates 4 (Float32.ofBits 0x41200000) Scalar.one .logCosine 1 = .ok c) ∧
      (∃ c, Schedule.ofRates 4 Scalar.one (Float32.ofBits 0x41200000) .logCosine 1 = .ok c) ∧
      Real.cos 0 = 1 ∧ (∀ x, -1 ≤ Real.cos x ∧ Real.cos x ≤ 1) ∧
      (singleValue Scalar.one).value < (singleValue (Float32.ofBits 0x41200000)).value ∧
      down.StaysWithin Real.cos ∧ up.Overshoots Real.cos := by
  intro down up
  obtain ⟨c, hdown⟩ : ∃ c,
      Schedule.ofRates 4 (Float32.ofBits 0x41200000) Scalar.one .logCosine 1 = .ok c :=
    ⟨_, Schedule.ofRates_eq_ok_iff.2 ⟨by decide, by decide +kernel, by decide +kernel, rfl⟩⟩
  obtain ⟨d, hup⟩ : ∃ d,
      Schedule.ofRates 4 Scalar.one (Float32.ofBits 0x41200000) .logCosine 1 = .ok d :=
    ⟨_, Schedule.ofRates_eq_ok_iff.2 ⟨by decide, by decide +kernel, by decide +kernel, rfl⟩⟩
  have hcosine : ∀ x, -1 ≤ Real.cos x ∧ Real.cos x ≤ 1 := fun x =>
    ⟨Real.neg_one_le_cos x, Real.cos_le_one x⟩
  have hrates : (singleValue Scalar.one).value <
      (singleValue (Float32.ofBits 0x41200000)).value := by
    rw [value_one, value_ten]
    norm_num
  exact ⟨⟨c, hdown⟩, ⟨d, hup⟩, Real.cos_zero, hcosine, hrates,
    (stays_within_iff hdown Real.cos_zero hcosine).2.1.2 (.inr hrates.le),
    (stays_within_iff hup Real.cos_zero hcosine).2.2 rfl hrates⟩

/-- From one up to ten along the cosine, the first epoch has the rate of a hundred. -/
theorem rises_above_end_rate :
    ∃ c, Schedule.ofRates 4 Scalar.one (Float32.ofBits 0x41200000) .logCosine 0 = .ok c ∧
      let s := ofRates 4 Scalar.one (Float32.ofBits 0x41200000) .logCosine 0
      s.start = 0 ∧ s.stop = 1 ∧ s.phase 0 = 0 ∧ s.exponent Real.cos 0 = 2 ∧
        ¬ s.StaysWithin Real.cos := by
  refine ⟨_, Schedule.ofRates_eq_ok_iff.2 ⟨by decide, by decide +kernel, by decide +kernel, rfl⟩,
    ?_⟩
  intro s
  have hstart : s.start = 0 := (congrArg (Real.logb 10) value_one).trans Real.logb_one
  have hstop : s.stop = 1 :=
    (congrArg (Real.logb 10) value_ten).trans (Real.logb_self_eq_one (by norm_num))
  have hfirst : s.exponent Real.cos 0 = 2 := by
    rw [exponent_logCosine rfl, height_of_phase Real.cos_zero (phase_zero s), hstart, hstop]
    norm_num
  refine ⟨hstart, hstop, phase_zero s, hfirst, fun hwithin => ?_⟩
  have hzero := (hwithin 0).2.2 (phase_zero s)
  rw [hfirst, hstart] at hzero
  norm_num at hzero

end ExactSchedule

end Federated
