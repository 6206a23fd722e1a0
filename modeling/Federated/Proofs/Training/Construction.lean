/-
  Federated.Proofs.Training.Construction

  What keeps a trainer from being made. A configuration is checked once, and then in parts again
  where its parts are put to use: the epochs are counted, the schedule is laid over them, the
  coordination is checked by the orchestration. Whatever the configuration is, the later checks
  refuse nothing that the first one has let pass, with one exception: a schedule that starts over
  too often for the epochs there are, which the first check does not look at.

    * `TrainingConfig.Checked` — what the first check demands, part by part.
    * `Schedule.ofRates_of_le` — too many restarts, which come before the rates.
    * `Trainer.ofConfig_of_checked` — behind the first check all hangs on the schedule.
    * `Trainer.construction` — when a trainer is made, and what is said when it is not.
-/
import Federated.Training.Trainer
import Federated.Proofs.Training.Restarts

namespace Federated

/-! ## The first check -/

namespace TrainingConfig

variable {c : TrainingConfig}

/-- The epochs are counted exactly if there is one left. -/
theorem effectiveEpochs_eq_ok_iff {n : Positive} :
    c.effectiveEpochs = .ok n ↔ n.val = c.epochs.val / c.federated.repetitions := by
  unfold effectiveEpochs
  by_cases hrepetitions : c.federated.repetitions = 0
  · rw [if_pos hrepetitions, hrepetitions, Nat.div_zero]
    exact iff_of_false nofun n.property.ne'
  · rw [if_neg hrepetitions]
    by_cases hepochs : 0 < c.epochs.val / c.federated.repetitions
    · rw [dif_pos hepochs]
      constructor
      · rintro ⟨⟩
        rfl
      · exact fun h => congrArg Except.ok (Subtype.ext h.symm)
    · rw [dif_neg hepochs]
      exact iff_of_false nofun fun h => hepochs (h ▸ n.property)

/-- What is demanded of a configuration before anything is made of it. -/
structure Checked (c : TrainingConfig) : Prop where
  federated : c.federated.validate (α := Float32) = .ok ()
  optimizer : c.optimizer.validate = .ok ()
  epochs : 0 < c.epochs.val / c.federated.repetitions
  schedule : ∀ s ∈ c.schedule, Scalar.isPositive s.endRate = true

theorem validate_eq_ok_iff : c.validate = .ok () ↔ c.Checked := by
  constructor
  · intro h
    obtain ⟨⟨⟩, hfederated, h⟩ := ok_of_bind h
    obtain ⟨⟨⟩, hoptimizer, h⟩ := ok_of_bind h
    obtain ⟨n, hepochs, h⟩ := ok_of_bind h
    refine ⟨hfederated, hoptimizer, effectiveEpochs_eq_ok_iff.1 hepochs ▸ n.property, ?_⟩
    intro s hs
    rw [Option.mem_def.1 hs] at h
    exact of_check h
  · intro h
    have hepochs : c.effectiveEpochs = .ok ⟨_, h.epochs⟩ := effectiveEpochs_eq_ok_iff.2 rfl
    unfold validate
    rw [h.federated, h.optimizer, hepochs]
    cases hs : c.schedule with
    | none => rfl
    | some s =>
      show OptimizerSpec.requirePositive .endRate s.endRate = .ok ()
      exact if_pos (h.schedule s hs)

/-- An optimizer that has been checked has a positive rate. -/
theorem Checked.rate (h : c.Checked) : Scalar.isPositive c.optimizer.rate = true := by
  obtain ⟨⟨⟩, hrate, -⟩ := ok_of_bind h.optimizer
  exact of_check hrate

end TrainingConfig

/-! ## The later checks -/

/-- As many restarts as epochs are refused, whatever the rates are. -/
theorem Schedule.ofRates_of_le {epochs restarts : Nat} (hpos : 0 < epochs) (h : epochs ≤ restarts)
    (startRate endRate : Float32) (plan : SchedulePlan) :
    ofRates epochs startRate endRate plan restarts =
      .error (.schedule (.restarts restarts epochs)) := by
  unfold ofRates
  rw [if_neg hpos.ne']
  simp only [if_pos h]
  rfl

namespace Trainer

variable {c : TrainingConfig} {n : Positive}

/-- A schedule that has been checked can be laid over epochs that it does not start over too often
    for. -/
theorem exists_ofRates (h : c.Checked) {s : ScheduleConfig} (hs : s ∈ c.schedule) {epochs : Nat}
    (hfits : s.restarts < epochs) : ∃ checked,
      Schedule.ofRates epochs c.optimizer.rate s.endRate s.plan s.restarts = .ok checked :=
  ⟨_, Schedule.ofRates_eq_ok_iff.2 ⟨hfits, h.rate, h.schedule s hs, rfl⟩⟩

theorem exists_scheduleOf (h : c.Checked) (hfits : ∀ s ∈ c.schedule, s.restarts < n.val) :
    ∃ schedule, scheduleOf c n = .ok schedule := by
  unfold scheduleOf
  cases hs : c.schedule with
  | none => exact ⟨none, rfl⟩
  | some s =>
    obtain ⟨checked, hchecked⟩ := exists_ofRates h hs (hfits s hs)
    refine ⟨some checked, ?_⟩
    simp only [hchecked]
    rfl

theorem scheduleOf_of_le {s : ScheduleConfig} (hs : s ∈ c.schedule) (h : n.val ≤ s.restarts) :
    scheduleOf c n = .error (.schedule (.restarts s.restarts n.val)) := by
  unfold scheduleOf
  rw [Option.mem_def.1 hs]
  simp only [Schedule.ofRates_of_le n.property h]
  rfl

/-! ## Trainers -/

/-- What does not pass the first check is refused with its cause. -/
theorem ofConfig_of_refused {cause : ConfigError Float32} (h : c.validate = .error cause) :
    ofConfig c = .error cause := by
  unfold ofConfig
  rw [h]
  rfl

/-- Behind the first check all hangs on the schedule. -/
theorem ofConfig_of_checked (h : c.Checked) :
    ofConfig c = (scheduleOf c ⟨_, h.epochs⟩).map fun schedule =>
      ⟨c, ⟨_, h.epochs⟩, schedule, Bank.ofSpec c.optimizer, Board.empty⟩ := by
  have hepochs : c.effectiveEpochs = .ok ⟨_, h.epochs⟩ :=
    TrainingConfig.effectiveEpochs_eq_ok_iff.2 rfl
  unfold ofConfig
  rw [TrainingConfig.validate_eq_ok_iff.2 h, hepochs, h.federated]
  show (scheduleOf c ⟨_, h.epochs⟩ >>= fun schedule => .ok _) = _
  cases scheduleOf c ⟨_, h.epochs⟩ <;> rfl

theorem exists_ofConfig (h : c.Checked)
    (hfits : ∀ s ∈ c.schedule, s.restarts < c.epochs.val / c.federated.repetitions) :
    ∃ t, ofConfig c = .ok t := by
  obtain ⟨schedule, hschedule⟩ := exists_scheduleOf (n := ⟨_, h.epochs⟩) h hfits
  rw [ofConfig_of_checked h, hschedule]
  exact ⟨_, rfl⟩

theorem ofConfig_of_restarts (h : c.Checked) {s : ScheduleConfig} (hs : s ∈ c.schedule)
    (hle : c.epochs.val / c.federated.repetitions ≤ s.restarts) : ofConfig c =
      .error (.schedule (.restarts s.restarts (c.epochs.val / c.federated.repetitions))) := by
  rw [ofConfig_of_checked h, scheduleOf_of_le hs hle]
  rfl

/-- A trainer that has been made has a configuration that was checked, and its epochs. -/
theorem checked_of_ofConfig {t : Trainer} (h : ofConfig c = .ok t) :
    c.Checked ∧ t.epochs.val = c.epochs.val / c.federated.repetitions := by
  obtain ⟨⟨⟩, hvalid, h⟩ := ok_of_bind h
  obtain ⟨n, hepochs, h⟩ := ok_of_bind h
  obtain ⟨schedule, -, h⟩ := ok_of_bind h
  obtain ⟨-, -, h⟩ := ok_of_bind h
  cases h
  exact ⟨TrainingConfig.validate_eq_ok_iff.1 hvalid,
    TrainingConfig.effectiveEpochs_eq_ok_iff.1 hepochs⟩

/-- When a trainer is made of a configuration, whatever its settings are. It is made exactly if the
    configuration passes its check and no schedule starts over as often as there are epochs, and
    then its epochs are the quotient, which is not zero. What the check refuses is refused with the
    same cause. All else that is refused is a schedule, for its restarts: what passes the check
    passes that of the orchestration and, if its restarts fit, that of the schedule. -/
theorem construction (c : TrainingConfig) :
    let epochs := c.epochs.val / c.federated.repetitions
    ((∃ t, ofConfig c = .ok t) ↔
      c.validate = .ok () ∧ ∀ s ∈ c.schedule, s.restarts < epochs) ∧
    (∀ t, ofConfig c = .ok t → t.epochs.val = epochs ∧ 1 ≤ epochs) ∧
    (∀ cause, c.validate = .error cause → ofConfig c = .error cause) ∧
    (c.validate = .ok () →
      (∀ cause, ofConfig c = .error cause → ∃ s ∈ c.schedule, epochs ≤ s.restarts ∧
        cause = .schedule (.restarts s.restarts epochs)) ∧
      c.federated.validate (α := Float32) = .ok () ∧
      ∀ s ∈ c.schedule, s.restarts < epochs → ∃ checked,
        Schedule.ofRates epochs c.optimizer.rate s.endRate s.plan s.restarts = .ok checked) := by
  intro epochs
  refine ⟨⟨?_, ?_⟩, fun t h => ?_, fun cause => ofConfig_of_refused, fun hvalid => ?_⟩
  · rintro ⟨t, ht⟩
    have hchecked := (checked_of_ofConfig ht).1
    refine ⟨TrainingConfig.validate_eq_ok_iff.2 hchecked, fun s hs => ?_⟩
    by_contra hle
    rw [ofConfig_of_restarts hchecked hs (Nat.le_of_not_lt hle)] at ht
    cases ht
  · rintro ⟨hvalid, hfits⟩
    exact exists_ofConfig (TrainingConfig.validate_eq_ok_iff.1 hvalid) hfits
  · obtain ⟨hchecked, hepochs⟩ := checked_of_ofConfig h
    exact ⟨hepochs, hchecked.epochs⟩
  · have hchecked := TrainingConfig.validate_eq_ok_iff.1 hvalid
    refine ⟨fun cause hcause => ?_, hchecked.federated, fun s hs => exists_ofRates hchecked hs⟩
    by_cases hfits : ∀ s ∈ c.schedule, s.restarts < epochs
    · obtain ⟨t, ht⟩ := exists_ofConfig hchecked hfits
      rw [ht] at hcause
      cases hcause
    · push Not at hfits
      obtain ⟨s, hs, hle⟩ := hfits
      rw [ofConfig_of_restarts hchecked hs hle] at hcause
      exact ⟨s, hs, hle, (Except.error.inj hcause).symm⟩

/-- Seven epochs that walk the dataset three times each leave two. A schedule with one restart fits
    them. One with two restarts passes the check, but no trainer is made. -/
theorem construction_restarts :
    let config (restarts : Nat) : TrainingConfig :=
      { epochs := ⟨7, by decide⟩, batchSize := ⟨1, by decide⟩, seed := none,
        optimizer := .descent Scalar.one, schedule := some { endRate := Scalar.one, restarts },
        federated := { repetitions := 3 } }
    (∃ t, ofConfig (config 1) = .ok t ∧ t.epochs.val = 2) ∧ (config 2).validate = .ok () ∧
      ∃ cause, ofConfig (config 2) = .error cause ∧ cause = .schedule (.restarts 2 2) := by
  intro config
  have hvalid : ∀ restarts ∈ [1, 2], (config restarts).validate = .ok () := by
    have hpass : ∀ restarts ∈ [1, 2], (config restarts).validate.toOption = some () := by
      decide +kernel
    intro restarts hrestarts
    cases hresult : (config restarts).validate with
    | ok _ => rfl
    | error e =>
      have hnone := hpass restarts hrestarts
      rw [hresult] at hnone
      cases hnone
  have hleft : ∀ restarts,
      (config restarts).epochs.val / (config restarts).federated.repetitions = 2 :=
    fun _ => show (7 : Nat) / 3 = 2 by decide
  obtain ⟨hmade, hepochs, -, -⟩ := construction (config 1)
  obtain ⟨hmade', -, -, hrefused⟩ := construction (config 2)
  constructor
  · have hfits : ∀ s ∈ (config 1).schedule,
        s.restarts < (config 1).epochs.val / (config 1).federated.repetitions := by
      rintro s ⟨⟩
      rw [hleft 1]
      decide
    obtain ⟨t, ht⟩ := hmade.2 ⟨hvalid 1 (by decide), hfits⟩
    exact ⟨t, ht, (hepochs t ht).1.trans (hleft 1)⟩
  · refine ⟨hvalid 2 (by decide), ?_⟩
    cases hresult : ofConfig (config 2) with
    | ok t =>
      have hlt := (hmade'.1 ⟨t, hresult⟩).2 _ rfl
      exact absurd hlt (by decide)
    | error cause =>
      obtain ⟨s, ⟨⟩, -, hcause⟩ := (hrefused (hvalid 2 (by decide))).1 cause hresult
      rw [hleft 2] at hcause
      exact ⟨cause, rfl, hcause⟩

end Trainer

end Federated
