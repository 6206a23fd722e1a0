/-
  Federated.Proofs.Training.Restarts

  Where a schedule starts over. The period is the double nearest to the epochs over the number of
  periods, and the phase of an epoch is what is left of it after whole periods. At a boundary
  between the periods that were asked for, nothing is left if the period did not have to be rounded,
  and something is left otherwise.

    * `eq_of_mul_eq_of_near` — a rounded ratio has few multiples in common with the exact one.
    * `Schedule.ofRates_eq_ok_iff` — which schedules are accepted.
    * `Schedule.magnitude_period`, `Schedule.units_period_of_dvd` — the period, rounded and not.
    * `Schedule.phase_eq_zero_iff` — an epoch without a phase is a multiple of the period.
    * `Schedule.restarts_at_boundary` — the boundaries at which the schedule starts over.
-/
import Federated.Training.Schedule
import Federated.Proofs.Model.Layout
import Federated.Proofs.Numeric.Double

namespace Federated

open BinaryFormat (double)

/-! ## Multiples of a rounded ratio -/

/-- Of two numbers that are equal but for a relative error, few multiples agree. -/
theorem eq_of_mul_eq_of_near {m n j k b : Nat} (hn : 0 < n) (hup : b * m ≤ b * n + n)
    (hlow : b * n ≤ b * m + n) (h : k * m = j * n) (hj : j + 1 < b) : k = j := by
  rcases Nat.lt_trichotomy k j with hlt | heq | hgt
  · have hscaled : b * j * n ≤ (b * k + k) * n := by
      calc b * j * n = b * (k * m) := by rw [h]; ring
        _ = k * (b * m) := by ring
        _ ≤ k * (b * n + n) := Nat.mul_le_mul_left k hup
        _ = (b * k + k) * n := by ring
    have hle := Nat.le_of_mul_le_mul_right hscaled hn
    have hstep := Nat.mul_le_mul_left b (Nat.succ_le_of_lt hlt)
    rw [Nat.mul_succ] at hstep
    omega
  · exact heq
  · obtain ⟨d, rfl⟩ := Nat.exists_eq_add_of_lt hgt
    have hscaled : b * (j + d + 1) * n ≤ (b * j + (j + d + 1)) * n := by
      calc b * (j + d + 1) * n = (j + d + 1) * (b * n) := by ring
        _ ≤ (j + d + 1) * (b * m + n) := Nat.mul_le_mul_left _ hlow
        _ = b * ((j + d + 1) * m) + (j + d + 1) * n := by ring
        _ = (b * j + (j + d + 1)) * n := by rw [h]; ring
    have hle := Nat.le_of_mul_le_mul_right hscaled hn
    have hstep := Nat.mul_le_mul_right (d + 1) (show j + 2 ≤ b from hj)
    linarith [Nat.zero_le (j * d)]

namespace Schedule

/-! ## The period -/

variable {epochs restarts : Nat}

/-- The pattern of the period. -/
def periodPattern (epochs restarts : Nat) : Nat :=
  double.nearest (epochs * 2 ^ double.scale) (restarts + 1)

theorem magnitude_period (h : restarts < epochs) (hepochs : epochs ≤ 2 ^ 53) :
    0 < periodPattern epochs restarts ∧ periodPattern epochs restarts < double.infinity ∧
      Double.Magnitude (periodOf epochs restarts) (periodPattern epochs restarts) := by
  obtain ⟨a, ha, hmagnitude, hunits⟩ := Double.magnitude_doubleOfCount hepochs
  obtain ⟨b, hb, hmagnitude', hunits'⟩ :=
    Double.magnitude_doubleOfCount (show restarts + 1 ≤ 2 ^ 53 by omega)
  have hscale : 0 < 2 ^ double.scale := Nat.two_pow_pos _
  have hbpos : 0 < b := by
    refine Nat.pos_of_ne_zero fun hzero => ?_
    rw [hzero, BinaryFormat.units_zero] at hunits'
    exact absurd hunits'.symm (Nat.mul_pos (Nat.succ_pos _) hscale).ne'
  have hratio : double.nearest (double.units a * 2 ^ double.scale) (double.units b) =
      periodPattern epochs restarts := by
    rw [hunits, hunits']
    exact BinaryFormat.nearest_congr (by decide) (Nat.mul_pos (Nat.succ_pos _) hscale)
      (Nat.succ_pos _) (by ring)
  have hpos : 0 < periodPattern epochs restarts := by
    have hleast : double.units 1 = 1 := by decide
    refine BinaryFormat.lt_nearest (by decide) (Nat.succ_pos _) ?_
    have hle := Nat.mul_le_mul_left epochs (Nat.succ_le_of_lt hscale)
    rw [BinaryFormat.units_zero, hleast]
    omega
  have hfin : periodPattern epochs restarts < double.infinity := by
    refine Nat.lt_of_le_of_lt ?_ (BinaryFormat.nearest_lt_infinity (by decide) hepochs)
    exact BinaryFormat.nearest_mono (by decide) (Nat.succ_pos _) Nat.one_pos
      (Nat.mul_le_mul_left _ (Nat.succ_pos _))
  have hdiv := hmagnitude.div hmagnitude' ha hbpos hb (by rwa [hratio])
  rw [hratio, min_eq_right hfin.le] at hdiv
  exact ⟨hpos, hfin, hdiv⟩

/-- A period with a finite binary expansion is not rounded. -/
theorem units_period_of_dvd (h : restarts < epochs) (hepochs : epochs ≤ 2 ^ 53) {k : Nat}
    (hk : restarts + 1 ∣ epochs * 2 ^ k) :
    (restarts + 1) * double.units (periodPattern epochs restarts) =
      epochs * 2 ^ double.scale := by
  obtain ⟨i, odd, hodd, hsplit⟩ := Nat.exists_eq_two_pow_mul_odd (Nat.succ_ne_zero restarts)
  -- the odd part of the divisor goes into the epochs
  obtain ⟨t, rfl⟩ : odd ∣ epochs := by
    have hcoprime : Nat.Coprime odd (2 ^ k) := (Nat.coprime_two_right.2 hodd).pow_right k
    refine hcoprime.dvd_of_dvd_mul_right (Dvd.dvd.trans ?_ hk)
    exact ⟨2 ^ i, by rw [← Nat.succ_eq_add_one, hsplit, Nat.mul_comm]⟩
  have hi : i ≤ double.scale := by
    have hle : 2 ^ i ≤ 2 ^ 53 := by
      have hfactor := Nat.le_mul_of_pos_right (2 ^ i) hodd.pos
      omega
    exact ((Nat.pow_le_pow_iff_right (by decide)).1 hle).trans (by decide)
  have hperiod : odd * t * 2 ^ double.scale = (restarts + 1) * (t * 2 ^ (double.scale - i)) := by
    rw [← Nat.succ_eq_add_one, hsplit]
    calc odd * t * 2 ^ double.scale = odd * t * 2 ^ (i + (double.scale - i)) := by
          rw [Nat.add_sub_cancel' hi]
      _ = 2 ^ i * odd * (t * 2 ^ (double.scale - i)) := by
          rw [Nat.pow_add]
          ring
  have ht : t ≤ 2 ^ 53 := (Nat.le_mul_of_pos_left t hodd.pos).trans hepochs
  have hnearest : periodPattern (odd * t) restarts =
      double.nearest (t * 2 ^ (double.scale - i)) 1 :=
    BinaryFormat.nearest_congr (by decide) (Nat.succ_pos _) Nat.one_pos (by
      rw [hperiod]
      ring)
  rw [hnearest, BinaryFormat.units_nearest_of_le ht, hperiod]

/-! ## Phases -/

/-- What is accepted: fewer restarts than epochs, and rates that are positive. -/
theorem ofRates_eq_ok_iff {startRate endRate : Float32} {plan : SchedulePlan} {s : Schedule} :
    ofRates epochs startRate endRate plan restarts = .ok s ↔
      restarts < epochs ∧ Scalar.isPositive startRate = true ∧ Scalar.isPositive endRate = true ∧
        s = ⟨periodOf epochs restarts, Float.log10 (widen startRate),
          Float.log10 (widen endRate), plan⟩ := by
  unfold ofRates OptimizerSpec.requirePositive
  by_cases hzero : epochs = 0
  · simp [hzero, bind, Except.bind, throw, throwThe, MonadExceptOf.throw]
  · by_cases hrestarts : epochs ≤ restarts
    · simp [hzero, hrestarts, Nat.not_lt.2 hrestarts, bind, Except.bind, throw, throwThe,
        MonadExceptOf.throw]
    · rw [if_neg hzero]
      simp only [if_neg hrestarts]
      cases Scalar.isPositive startRate <;> cases Scalar.isPositive endRate <;>
        simp [Nat.lt_of_not_le hrestarts, bind, Except.bind, pure, Except.pure, eq_comm]

/-- The epochs since the last start, in units. -/
theorem magnitude_phase {s : Schedule} (hperiod : s.period = periodOf epochs restarts)
    (h : restarts < epochs) (hepochs : epochs ≤ 2 ^ 53) {e : Nat} (he : e < epochs) :
    Double.Magnitude (s.phase e) (double.nearest
      (e * 2 ^ double.scale % double.units (periodPattern epochs restarts)) 1) := by
  obtain ⟨hpos, hfin, hmagnitude⟩ := magnitude_period h hepochs
  obtain ⟨a, ha, hepoch, hunits⟩ := Double.magnitude_doubleOfCount (he.le.trans hepochs)
  have hremainder := hepoch.remainder_eq hmagnitude ha hpos hfin
  rwa [hunits, ← hperiod] at hremainder

theorem phase_eq_zero_iff {s : Schedule} (hperiod : s.period = periodOf epochs restarts)
    (h : restarts < epochs) (hepochs : epochs ≤ 2 ^ 53) {e : Nat} (he : e < epochs) :
    s.phase e = Scalar.zero ↔
      double.units (periodPattern epochs restarts) ∣ e * 2 ^ double.scale := by
  rw [(magnitude_phase hperiod h hepochs he).eq_zero_iff,
    BinaryFormat.nearest_eq_zero_iff (by decide), Nat.dvd_iff_mod_eq_zero]

/-- A boundary between periods is where a period starts exactly if the period has a finite binary
    expansion: the multiples of a period that was rounded pass by all boundaries but the first. -/
theorem dvd_boundary_iff (h : restarts < epochs) (hepochs : epochs ≤ 2 ^ 53) {e : Nat}
    (he : e < epochs) (hboundary : epochs ∣ e * (restarts + 1)) :
    double.units (periodPattern epochs restarts) ∣ e * 2 ^ double.scale ↔
      e = 0 ∨ ∃ k, restarts + 1 ∣ epochs * 2 ^ k := by
  obtain ⟨j, hj⟩ := hboundary
  have hscale : 0 < 2 ^ double.scale := Nat.two_pow_pos _
  constructor
  · rintro ⟨k, hk⟩
    refine or_iff_not_imp_left.2 fun hne => ?_
    by_cases hevery : restarts + 1 = epochs
    · exact ⟨0, by rw [hevery, Nat.pow_zero, Nat.mul_one]⟩
    · have hjpos : 0 < j := by
        refine Nat.pos_of_ne_zero fun hzero => ?_
        rw [hzero, Nat.mul_zero] at hj
        exact (Nat.mul_pos (Nat.pos_of_ne_zero hne) (Nat.succ_pos restarts)).ne' hj
      have hjlt : j < restarts + 1 := by
        refine Nat.lt_of_mul_lt_mul_left (a := epochs) ?_
        rw [← hj]
        exact Nat.mul_lt_mul_of_pos_right he (Nat.succ_pos restarts)
      have hfull : (restarts + 1) * 2 ^ double.fractionBits ≤ epochs * 2 ^ double.scale :=
        Nat.mul_le_mul h (Nat.pow_le_pow_right (by decide) (by decide))
      obtain ⟨hup, hlow⟩ := BinaryFormat.units_nearest_near (Nat.succ_pos restarts) hfull
      change 2 * 2 ^ double.fractionBits *
        ((restarts + 1) * double.units (periodPattern epochs restarts)) ≤ _ at hup
      change _ ≤ 2 * 2 ^ double.fractionBits *
        ((restarts + 1) * double.units (periodPattern epochs restarts)) + _ at hlow
      -- the boundary is as many exact periods away as it is rounded ones, so nothing was rounded
      have hcount : k * ((restarts + 1) * double.units (periodPattern epochs restarts)) =
          j * (epochs * 2 ^ double.scale) := by
        calc k * ((restarts + 1) * double.units (periodPattern epochs restarts))
            = (restarts + 1) * (double.units (periodPattern epochs restarts) * k) := by ring
          _ = e * (restarts + 1) * 2 ^ double.scale := by rw [← hk]; ring
          _ = j * (epochs * 2 ^ double.scale) := by rw [hj]; ring
      obtain rfl := eq_of_mul_eq_of_near (Nat.mul_pos (by omega) hscale) hup hlow hcount (by
        show j + 1 < 2 ^ 53
        omega)
      exact ⟨double.scale, _, (Nat.eq_of_mul_eq_mul_left hjpos hcount).symm⟩
  · rintro (rfl | ⟨k, hk⟩)
    · rw [Nat.zero_mul]
      exact dvd_zero _
    · have hexact := units_period_of_dvd h hepochs hk
      refine ⟨j, Nat.eq_of_mul_eq_mul_left (Nat.succ_pos restarts) ?_⟩
      calc (restarts + 1) * (e * 2 ^ double.scale)
          = e * (restarts + 1) * 2 ^ double.scale := by ring
        _ = j * (epochs * 2 ^ double.scale) := by rw [hj]; ring
        _ = (restarts + 1) * (double.units (periodPattern epochs restarts) * j) := by
          rw [← hexact]
          ring

/-- The schedule starts over at a boundary between periods exactly if the boundary is the first
    epoch, or the period has a finite binary expansion; then the boundary has the rate of the first
    epoch. -/
theorem restarts_at_boundary {startRate endRate : Float32} {plan : SchedulePlan} {s : Schedule}
    (h : ofRates epochs startRate endRate plan restarts = .ok s) (hepochs : epochs ≤ 2 ^ 53)
    {e : Nat} (he : e < epochs) (hboundary : epochs ∣ e * (restarts + 1)) :
    (s.phase e = Scalar.zero ↔ e = 0 ∨ ∃ k, restarts + 1 ∣ epochs * 2 ^ k) ∧
      (s.phase e = Scalar.zero → s.rate e = s.rate 0) := by
  obtain ⟨hrestarts, -, -, hs⟩ := ofRates_eq_ok_iff.1 h
  have hperiod : s.period = periodOf epochs restarts := by rw [hs]
  refine ⟨?_, fun hphase => ?_⟩
  · rw [phase_eq_zero_iff hperiod hrestarts hepochs he,
      dvd_boundary_iff hrestarts hepochs he hboundary]
  · have hfirst : s.phase 0 = Scalar.zero := by
      rw [phase_eq_zero_iff hperiod hrestarts hepochs (Nat.lt_of_le_of_lt (Nat.zero_le e) he),
        Nat.zero_mul]
      exact dvd_zero _
    rw [rate, rate, hphase, hfirst]

/-- Six epochs in two periods: the second one starts at epoch three. -/
theorem restarts_at_boundary_halves :
    ∃ s, ofRates 6 Scalar.one (Float32.ofBits 0x3a83126f) .logLinear 1 = .ok s ∧ 6 ≤ 2 ^ 53 ∧
      3 < 6 ∧ 6 ∣ 3 * (1 + 1) ∧
      (s.phase 3 = Scalar.zero ↔ 3 = 0 ∨ ∃ k, 1 + 1 ∣ 6 * 2 ^ k) ∧
      (s.phase 3 = Scalar.zero → s.rate 3 = s.rate 0) := by
  obtain ⟨s, h⟩ : ∃ s, ofRates 6 Scalar.one (Float32.ofBits 0x3a83126f) .logLinear 1 = .ok s :=
    ⟨_, ofRates_eq_ok_iff.2 ⟨by decide, by decide +kernel, by decide +kernel, rfl⟩⟩
  exact ⟨s, h, by decide, by decide, by decide,
    restarts_at_boundary h (by decide) (by decide) (by decide)⟩

/-- Ten epochs in six periods: epoch five ends the third one, but the schedule goes on as if the
    third period were not over. -/
theorem restarts_not_at_boundary :
    ∃ s, ofRates 10 Scalar.one (Float32.ofBits 0x3a83126f) .logLinear 5 = .ok s ∧
      5 < 10 ∧ 10 ∣ 5 * (5 + 1) ∧ s.phase 5 ≠ Scalar.zero := by
  refine ⟨_, ofRates_eq_ok_iff.2 ⟨by decide, by decide +kernel, by decide +kernel, rfl⟩,
    by decide, by decide, ?_⟩
  decide +kernel

end Schedule

end Federated
