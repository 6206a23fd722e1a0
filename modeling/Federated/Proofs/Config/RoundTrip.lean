/-
  Federated.Proofs.Config.RoundTrip

  A valid configuration survives its text, as far as its numbers do.

    * `ofJson?_toJson`, for each part of a configuration — the reader finds under its names what
      the writer has put under its own.
    * `TrainingConfig.writable_toJson` — the written object has a text of its own.
    * `TrainingConfig.isFinite_singles`, `TrainingConfig.isFinite_doubles` — what is valid has
      finite numbers only.
    * `TrainingConfig.ofText_text` — the text of a valid configuration is read as this one.
-/
import Federated.Config.Json
import Federated.Proofs.Json.Fields
import Federated.Proofs.Model.Layout
import Federated.Proofs.Numeric.Finite

namespace Federated

/-! ## Optimizers -/

namespace OptimizerSpec

/-- The numbers of an optimizer. -/
def numbers : OptimizerSpec Float32 → List Float32
  | .adam rate beta1 beta2 epsilon => [rate, beta1, beta2, epsilon]
  | .descent rate => [rate]
  | .momentum rate mu => [rate, mu]

theorem ofJson?_toJson {s : OptimizerSpec Float32} (h : ∀ x ∈ s.numbers, SingleReads x) :
    ofJson? s.toJson = some s := by
  cases s with
  | adam rate beta1 beta2 epsilon =>
    simp only [numbers, List.forall_mem_cons, singleReads_iff] at h
    obtain ⟨hrate, hbeta1, hbeta2, hepsilon, -⟩ := h
    show ofNamed? "adam".toList (.ofMembers _) = _
    simp [ofNamed?, Json.Record.required?, hrate, hbeta1, hbeta2, hepsilon]
  | descent rate =>
    simp only [numbers, List.forall_mem_cons, singleReads_iff] at h
    obtain ⟨hrate, -⟩ := h
    show ofNamed? "gradient_descent".toList (.ofMembers _) = _
    simp [ofNamed?, Json.Record.required?, hrate]
  | momentum rate mu =>
    simp only [numbers, List.forall_mem_cons, singleReads_iff] at h
    obtain ⟨hrate, hmu, -⟩ := h
    show ofNamed? "gradient_descent_with_momentum".toList (.ofMembers _) = _
    simp [ofNamed?, Json.Record.required?, hrate, hmu]

theorem writable_toJson (s : OptimizerSpec Float32) : s.toJson.Writable := by
  cases s with
  | adam rate beta1 beta2 epsilon => simp [toJson]
  | descent rate => simp [toJson]
  | momentum rate mu => simp [toJson]

/-- A valid optimizer has finite hyperparameters. -/
theorem isFinite_numbers {s : OptimizerSpec Float32} (valid : s.validate = .ok ()) :
    ∀ x ∈ s.numbers, Scalar.isFinite x = true := by
  obtain ⟨⟨⟩, hrate, valid⟩ := ok_of_bind valid
  have hrate := isFinite_of_isPositive (of_check hrate)
  cases s with
  | adam rate beta1 beta2 epsilon =>
    obtain ⟨⟨⟩, hbeta1, valid⟩ := ok_of_bind valid
    obtain ⟨⟨⟩, hbeta2, hepsilon⟩ := ok_of_bind valid
    simp only [numbers, List.forall_mem_cons]
    exact ⟨hrate, isFinite_of_isFraction (of_check hbeta1),
      isFinite_of_isFraction (of_check hbeta2),
      isFinite_of_isPositive (of_check hepsilon), by simp⟩
  | descent rate =>
    simp only [numbers, List.forall_mem_cons]
    exact ⟨hrate, by simp⟩
  | momentum rate mu =>
    simp only [numbers, List.forall_mem_cons]
    exact ⟨hrate, isFinite_of_isFraction (of_check valid), by simp⟩

end OptimizerSpec

/-! ## Schedules -/

namespace ScheduleConfig

theorem ofJson?_toJson {s : ScheduleConfig} (hrestarts : s.restarts ≤ countLimit)
    (hend : SingleReads s.endRate) : ofJson? s.toJson = some s := by
  have hplan : SchedulePlan.ofJson? (.ofString s.plan.name) = some s.plan := by
    cases s.plan <;> rfl
  simp [ofJson?, toJson, Json.Record.required?, Json.Record.optional?, singleReads_iff.1 hend,
    hplan, Json.count?_ofCount hrestarts]

theorem writable_toJson (s : ScheduleConfig) : s.toJson.Writable := by
  simp [toJson]

end ScheduleConfig

/-! ## Coordination -/

namespace FederatedConfig

/-- The counts of the coordination fit the words that hold them. -/
structure Fits (c : FederatedConfig) : Prop where
  syncEvery : c.syncEvery ≤ countLimit
  repetitions : c.repetitions ≤ countLimit

/-- The numbers of the coordination. -/
def numbers (c : FederatedConfig) : List Float := [c.waitInterval, c.reportInterval]

theorem ofJson?_toJson {c : FederatedConfig} (fits : c.Fits) (h : ∀ x ∈ c.numbers, DoubleReads x) :
    ofJson? c.toJson = some c := by
  simp only [numbers, List.forall_mem_cons, doubleReads_iff] at h
  obtain ⟨hwait, hreport, -⟩ := h
  have hweighting : Weighting.ofJson? (.ofString c.weighting.name) = some c.weighting := by
    cases c.weighting <;> rfl
  have hscope : MergeScope.ofJson? (.ofString c.scope.name) = some c.scope := by
    cases c.scope <;> rfl
  simp [ofJson?, toJson, Json.Record.optional?, hwait, hreport, hweighting, hscope,
    Json.count?_ofCount fits.syncEvery, Json.count?_ofCount fits.repetitions, Json.bool?]

theorem writable_toJson (c : FederatedConfig) : c.toJson.Writable := by
  simp [toJson, Json.Writable]

/-- A valid coordination has finite intervals. -/
theorem isFinite_numbers {α : Type} {c : FederatedConfig}
    (valid : (c.validate : Except (ConfigError α) Unit) = .ok ()) :
    ∀ x ∈ c.numbers, Scalar.isFinite x = true := by
  unfold validate at valid
  by_cases hzero : c.syncEvery = 0
  · rw [if_pos hzero] at valid
    cases valid
  · rw [if_neg hzero] at valid
    obtain ⟨⟨⟩, hwait, valid⟩ := ok_of_bind valid
    obtain ⟨⟨⟩, hreport, -⟩ := ok_of_bind valid
    simp only [numbers, List.forall_mem_cons]
    exact ⟨isFinite_of_usable? (of_check hwait), isFinite_of_usable? (of_check hreport), by simp⟩

end FederatedConfig

/-! ## Runs -/

namespace TrainingConfig

/-- The counts of a configuration fit the words that hold them. -/
structure Fits (c : TrainingConfig) : Prop where
  epochs : c.epochs.val ≤ countLimit
  batchSize : c.batchSize.val ≤ countLimit
  seed : ∀ n ∈ c.seed, n ≤ countLimit
  restarts : ∀ s ∈ c.schedule, s.restarts ≤ countLimit
  federated : c.federated.Fits

/-- The singles of a configuration. -/
def singles (c : TrainingConfig) : List Float32 :=
  c.optimizer.numbers ++ c.schedule.toList.map (·.endRate)

/-- The doubles of a configuration. -/
def doubles (c : TrainingConfig) : List Float := c.federated.numbers

theorem positive?_ofCount {n : Positive} (h : n.val ≤ countLimit) :
    positive? (.ofCount n.val) = some n := by
  simp [positive?, Json.count?_ofCount h, n.property]

/-- The reader finds what the writer has written, once the numbers read back. -/
theorem ofJson?_toJson {c : TrainingConfig} (fits : c.Fits) (hs : ∀ x ∈ c.singles, SingleReads x)
    (hd : ∀ x ∈ c.doubles, DoubleReads x) : ofJson? c.toJson = some c := by
  have hseed : Json.nullable? Json.count? (.ofOption .ofCount c.seed) = some c.seed :=
    Json.nullable?_ofOption (fun _ => nofun) fun n hn => Json.count?_ofCount (fits.seed n hn)
  have hoptimizer : OptimizerSpec.ofJson? c.optimizer.toJson = some c.optimizer :=
    OptimizerSpec.ofJson?_toJson fun x hx => hs x (List.mem_append_left _ hx)
  have hschedule : Json.nullable? ScheduleConfig.ofJson?
      (.ofOption ScheduleConfig.toJson c.schedule) = some c.schedule := by
    refine Json.nullable?_ofOption (fun _ => nofun) fun s hc => ?_
    refine ScheduleConfig.ofJson?_toJson (fits.restarts s hc) (hs _ (List.mem_append_right _ ?_))
    exact List.mem_map_of_mem (Option.mem_toList.2 hc)
  simp [ofJson?, toJson, Json.Record.required?, Json.Record.optional?,
    positive?_ofCount fits.epochs, positive?_ofCount fits.batchSize, hseed, hoptimizer, hschedule,
    FederatedConfig.ofJson?_toJson fits.federated hd]

theorem writable_toJson (c : TrainingConfig) : c.toJson.Writable := by
  simp [toJson, Json.writable_ofOption, OptimizerSpec.writable_toJson,
    ScheduleConfig.writable_toJson, FederatedConfig.writable_toJson]

variable {c : TrainingConfig}

theorem isFinite_singles (valid : c.validate = .ok ()) :
    ∀ x ∈ c.singles, Scalar.isFinite x = true := by
  obtain ⟨-, -, valid⟩ := ok_of_bind valid
  obtain ⟨⟨⟩, hoptimizer, valid⟩ := ok_of_bind valid
  obtain ⟨-, -, hschedule⟩ := ok_of_bind valid
  intro x hx
  rcases List.mem_append.1 hx with hx | hx
  · exact OptimizerSpec.isFinite_numbers hoptimizer x hx
  · obtain ⟨s, hs, rfl⟩ := List.mem_map.1 hx
    rw [Option.mem_toList.1 hs] at hschedule
    exact isFinite_of_isPositive (of_check hschedule)

theorem isFinite_doubles (valid : c.validate = .ok ()) :
    ∀ x ∈ c.doubles, Scalar.isFinite x = true := by
  obtain ⟨⟨⟩, hfederated, -⟩ := ok_of_bind valid
  exact FederatedConfig.isFinite_numbers hfederated

/-- A valid configuration survives its text: reading it yields this configuration, whatever the
    optimizer, the schedule, the seed, the choices and the flags are. All that is assumed of the
    numbers is that those of the configuration read back, as far as they are finite. -/
theorem ofText_text (valid : c.validate = .ok ()) (fits : c.Fits)
    (hs : ∀ x ∈ c.singles, Scalar.isFinite x = true → SingleReads x)
    (hd : ∀ x ∈ c.doubles, Scalar.isFinite x = true → DoubleReads x) :
    ofText c.text = .ok c := by
  have hread : ofJson? c.toJson = some c :=
    ofJson?_toJson fits (fun x hx => hs x hx (isFinite_singles valid x hx))
      fun x hx => hd x hx (isFinite_doubles valid x hx)
  rw [ofText, text, Json.parse?_text (writable_toJson c), Option.bind_some, hread]
  show c.validate.map _ = _
  rw [valid]
  rfl

/-- A run with a setting of every kind: its numbers read back, and so does the whole of it. -/
theorem ofText_text_adam :
    let c : TrainingConfig :=
      { epochs := ⟨20, by decide⟩, batchSize := ⟨32, by decide⟩, seed := some countLimit
        optimizer := .adam (narrow 0.001) (narrow 0.9) (narrow 0.999) (narrow 0.00000001)
        schedule := some ⟨narrow 0.00001, .logCosine, 2⟩
        federated := { weighting := .proportional, scope := .waitingOnly, repetitions := 3 } }
    c.validate = .ok () ∧ c.Fits ∧ (∀ x ∈ c.singles, Scalar.isFinite x = true → SingleReads x) ∧
      (∀ x ∈ c.doubles, Scalar.isFinite x = true → DoubleReads x) ∧ ofText c.text = .ok c := by
  intro c
  have valid : c.validate = .ok () := by
    have hvalid : c.validate.toOption = some () := by decide +kernel
    cases hresult : c.validate with
    | ok _ => rfl
    | error e =>
      rw [hresult] at hvalid
      cases hvalid
  have fits : c.Fits := by
    refine ⟨by decide, by decide, ?_, ?_, by decide, by decide⟩
    · rintro n ⟨⟩
      exact Nat.le_refl _
    · rintro s ⟨⟩
      decide
  have hs : ∀ x ∈ c.singles, Scalar.isFinite x = true → SingleReads x := by
    have hsingles : ∀ x ∈ c.singles, (Json.ofSingle x).single? = some x := by decide +kernel
    exact fun x hx _ => singleReads_iff.2 (hsingles x hx)
  have hd : ∀ x ∈ c.doubles, Scalar.isFinite x = true → DoubleReads x := by
    have hdoubles : ∀ x ∈ c.doubles, (Json.ofDouble x).double? = some x := by decide +kernel
    exact fun x hx _ => doubleReads_iff.2 (hdoubles x hx)
  exact ⟨valid, fits, hs, hd, ofText_text valid fits hs hd⟩

end TrainingConfig

end Federated
