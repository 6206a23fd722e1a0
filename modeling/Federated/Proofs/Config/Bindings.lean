/-
  Federated.Proofs.Config.Bindings

  What the text of a configuration means: the bindings of its fields, however they are written.

    * `OptimizerSpec.schema`, `ScheduleConfig.schema`, `FederatedConfig.schema`,
      `TrainingConfig.schema` — the fields of each part of a configuration, their names and
      defaults.
    * `ofJson?_edit`, `ofJson?_repeats`, for each part of a configuration — an edit does not change
      what is read, and an object with a repeated field is not read.
    * `OptimizerSpec.isDefault_toJson`, `FederatedConfig.same_toJson_default` — what is written for
      defaults says no more than leaving them out.
    * `TrainingConfig.ofText_bindings` — the same for the texts of configurations.
-/
import Federated.Proofs.Config.RoundTrip
import Federated.Proofs.Json.Bindings

namespace Federated

open Json (Field Schema Members)

variable {ms ms' : Members}

/-! ## Optimizers -/

namespace OptimizerSpec

/-- The names of the hyperparameters of a named kind of optimizer. -/
def fieldNames (kind : List Char) : List String :=
  if kind = "adam".toList then ["learning_rate", "beta1", "beta2", "epsilon"]
  else if kind = "gradient_descent".toList then ["learning_rate"]
  else if kind = "gradient_descent_with_momentum".toList then ["learning_rate", "momentum"]
  else []

/-- The hyperparameters of a named kind of optimizer; none has a default. -/
def schema (kind : List Char) : Schema where
  fields := (fieldNames kind).map Field.required
  distinct := by
    have hnames : ((fieldNames kind).map Field.required).flatMap Field.names = fieldNames kind := by
      rw [List.flatMap_map]
      exact List.flatMap_singleton' _
    rw [hnames, fieldNames]
    split_ifs <;> decide

variable {kind : List Char}

theorem ofNamed?_edit (h : (schema kind).Edit ms ms') :
    ofNamed? kind (.object ms) = ofNamed? kind (.object ms') := by
  -- the kinds are told apart as the reader does it, and each one looks up all of its own fields
  unfold ofNamed?
  split_ifs with hadam hdescent hmomentum
  · refine h.bind_record? 4 fun r r' agree => ?_
    simp only [schema, fieldNames, if_pos hadam, List.map_cons, List.forall_mem_cons] at agree
    obtain ⟨rate, beta1, beta2, epsilon, -⟩ := agree
    rw [rate.required? Field.readBy_required, beta1.required? Field.readBy_required,
      beta2.required? Field.readBy_required, epsilon.required? Field.readBy_required]
  · refine h.bind_record? 1 fun r r' agree => ?_
    simp only [schema, fieldNames, if_neg hadam, if_pos hdescent, List.map_cons,
      List.forall_mem_cons] at agree
    obtain ⟨rate, -⟩ := agree
    rw [rate.required? Field.readBy_required]
  · refine h.bind_record? 2 fun r r' agree => ?_
    simp only [schema, fieldNames, if_neg hadam, if_neg hdescent, if_pos hmomentum, List.map_cons,
      List.forall_mem_cons] at agree
    obtain ⟨rate, mu, -⟩ := agree
    rw [rate.required? Field.readBy_required, mu.required? Field.readBy_required]
  · rfl

theorem ofNamed?_repeats (h : (schema kind).Repeats ms) : ofNamed? kind (.object ms) = none := by
  unfold ofNamed?
  split_ifs with hadam hdescent hmomentum
  · refine h.bind_record? 4 fun r f hf spoils => ?_
    simp only [schema, fieldNames, if_pos hadam, List.map_cons, List.map_nil, List.mem_cons,
      List.not_mem_nil, or_false] at hf
    obtain rfl | rfl | rfl | rfl := hf
    all_goals simp [spoils.required? Field.readBy_required]
  · refine h.bind_record? 1 fun r f hf spoils => ?_
    simp only [schema, fieldNames, if_neg hadam, if_pos hdescent, List.map_cons, List.map_nil,
      List.mem_cons, List.not_mem_nil, or_false] at hf
    obtain rfl := hf
    simp [spoils.required? Field.readBy_required]
  · refine h.bind_record? 2 fun r f hf spoils => ?_
    simp only [schema, fieldNames, if_neg hadam, if_neg hdescent, if_pos hmomentum, List.map_cons,
      List.map_nil, List.mem_cons, List.not_mem_nil, or_false] at hf
    obtain rfl | rfl := hf
    all_goals simp [spoils.required? Field.readBy_required]
  · rfl

/-- The optimizer of a run: an object named for its kind, and in it the hyperparameters. -/
def asField : Field :=
  { Field.optional ["optimizer"] ofJson? OptimizerSpec.default with
    Same := fun v v' => ∃ kind fields fields', v = .object [(some kind, fields)] ∧
      v' = .object [(some kind, fields')] ∧ (schema kind).SameObject fields fields'
    Repeats := fun v => ∃ kind fields, v = .object [(some kind, fields)] ∧
      (schema kind).RepeatsObject fields }

theorem readBy_asField : asField.ReadBy ["optimizer"] ofJson? (some OptimizerSpec.default) where
  names_eq := rfl
  default := fun _ => id
  same := by
    rintro _ _ ⟨kind, _, _, rfl, rfl, ms, ms', rfl, rfl, h⟩
    show ofNamed? kind (.object ms) = ofNamed? kind (.object ms')
    exact h.eq fun _ _ => ofNamed?_edit
  repeats := by
    rintro _ ⟨kind, _, rfl, ms, rfl, h⟩
    exact ofNamed?_repeats h

/-- The optimizer of a run that names none may be written out. -/
theorem isDefault_toJson : asField.IsDefault OptimizerSpec.default.toJson := by
  refine ofJson?_toJson fun x hx => singleReads_iff.2 ?_
  have hnumbers : ∀ x ∈ OptimizerSpec.default.numbers, (Json.ofSingle x).single? = some x := by
    decide +kernel
  exact hnumbers x hx

end OptimizerSpec

/-! ## Schedules -/

namespace ScheduleConfig

/-- The fields of a schedule; only its end rate must be given. -/
def schema : Schema where
  fields := [.required "lr_end", .optional ["plan"] SchedulePlan.ofJson? .logLinear,
    .optional ["restarts"] Json.count? 0]
  distinct := by decide

theorem ofJson?_edit (h : schema.Edit ms ms') : ofJson? (.object ms) = ofJson? (.object ms') := by
  refine h.bind_record? 3 fun r r' agree => ?_
  simp only [schema, List.forall_mem_cons] at agree
  obtain ⟨endRate, plan, restarts, -⟩ := agree
  rw [endRate.required? Field.readBy_required, plan.optional? Field.readBy_optional,
    restarts.optional? Field.readBy_optional]

theorem ofJson?_repeats (h : schema.Repeats ms) : ofJson? (.object ms) = none := by
  refine h.bind_record? 3 fun r f hf spoils => ?_
  simp only [schema, List.mem_cons, List.not_mem_nil, or_false] at hf
  obtain rfl | rfl | rfl := hf
  · simp [spoils.required? Field.readBy_required]
  · simp [spoils.optional? Field.readBy_optional]
  · simp [spoils.optional? Field.readBy_optional]

end ScheduleConfig

/-! ## Coordination -/

namespace FederatedConfig

/-- The settings of the coordination; each has a default. The optimizer's survival goes by two
    names. -/
def schema : Schema where
  fields :=
    let d : FederatedConfig := {}
    [.optional ["sync_every_n_batch"] Json.count? d.syncEvery,
      .optional ["wait_interval"] Json.double? d.waitInterval,
      .optional ["keep_optimizer_state", "keep_optim_dict"] Json.bool? d.keepOptimizer,
      .optional ["repetitions_dataset"] Json.count? d.repetitions,
      .optional ["weighting"] Weighting.ofJson? d.weighting,
      .optional ["merge_scope"] MergeScope.ofJson? d.scope,
      .optional ["verbose"] Json.bool? d.verbose,
      .optional ["report_interval"] Json.double? d.reportInterval]
  distinct := by decide

theorem ofJson?_edit (h : schema.Edit ms ms') : ofJson? (.object ms) = ofJson? (.object ms') := by
  refine h.bind_record? 8 fun r r' agree => ?_
  simp only [schema, List.forall_mem_cons] at agree
  obtain ⟨sync, wait, keep, repetitions, weighting, scope, verbose, report, -⟩ := agree
  rw [sync.optional? Field.readBy_optional, wait.optional? Field.readBy_optional,
    keep.optional? Field.readBy_optional, repetitions.optional? Field.readBy_optional,
    weighting.optional? Field.readBy_optional, scope.optional? Field.readBy_optional,
    verbose.optional? Field.readBy_optional, report.optional? Field.readBy_optional]

theorem ofJson?_repeats (h : schema.Repeats ms) : ofJson? (.object ms) = none := by
  refine h.bind_record? 8 fun r f hf spoils => ?_
  simp only [schema, List.mem_cons, List.not_mem_nil, or_false] at hf
  obtain rfl | rfl | rfl | rfl | rfl | rfl | rfl | rfl := hf
  all_goals simp [spoils.optional? Field.readBy_optional]

/-- The settings of a coordination that names none may all be written out. -/
theorem same_toJson_default :
    ∃ ms, ({} : FederatedConfig).toJson = .object ms ∧ schema.Same [] ms := by
  have hread : (Json.ofCount 10).count? = some 10 ∧ (Json.ofDouble 0.1).double? = some 0.1 ∧
      (Json.bool false).bool? = some false ∧ (Json.ofCount 1).count? = some 1 ∧
      Weighting.ofJson? (.ofString Weighting.uniform.name) = some .uniform ∧
      MergeScope.ofJson? (.ofString MergeScope.retained.name) = some .retained ∧
      (Json.bool false).bool? = some false ∧ (Json.ofDouble 1.0).double? = some 1.0 := by
    decide +kernel
  refine ⟨_, rfl, Schema.same_defaults ?_ ?_⟩
  · simpa [schema, Field.optional] using hread
  · decide

end FederatedConfig

/-! ## Runs -/

namespace TrainingConfig

/-- The fields of a run; the counts of epochs and of rows per batch must be given. -/
def schema : Schema where
  fields := [.required "epochs", .required "batch_size",
    .optional ["seed"] (Json.nullable? Json.count?) none, OptimizerSpec.asField,
    ScheduleConfig.schema.asField ["schedule"] (Json.nullable? ScheduleConfig.ofJson?) none,
    FederatedConfig.schema.asField ["federated"] FederatedConfig.ofJson? {}]
  distinct := by decide

theorem readBy_schedule :
    (ScheduleConfig.schema.asField ["schedule"] (Json.nullable? ScheduleConfig.ofJson?) none).ReadBy
      ["schedule"] (Json.nullable? ScheduleConfig.ofJson?) (some none) :=
  Schema.readBy_asField
    (fun _ _ h => congrArg (Option.map some) (ScheduleConfig.ofJson?_edit h))
    fun _ h => congrArg (Option.map some) (ScheduleConfig.ofJson?_repeats h)

theorem readBy_federated :
    (FederatedConfig.schema.asField ["federated"] FederatedConfig.ofJson? {}).ReadBy
      ["federated"] FederatedConfig.ofJson? (some {}) :=
  Schema.readBy_asField (fun _ _ => FederatedConfig.ofJson?_edit)
    fun _ => FederatedConfig.ofJson?_repeats

theorem ofJson?_edit (h : schema.Edit ms ms') : ofJson? (.object ms) = ofJson? (.object ms') := by
  refine h.bind_record? 6 fun r r' agree => ?_
  simp only [schema, List.forall_mem_cons] at agree
  obtain ⟨epochs, batchSize, seed, optimizer, schedule, federated, -⟩ := agree
  rw [epochs.required? Field.readBy_required, batchSize.required? Field.readBy_required,
    seed.optional? Field.readBy_optional, optimizer.optional? OptimizerSpec.readBy_asField,
    schedule.optional? readBy_schedule, federated.optional? readBy_federated]

theorem ofJson?_repeats (h : schema.Repeats ms) : ofJson? (.object ms) = none := by
  refine h.bind_record? 6 fun r f hf spoils => ?_
  simp only [schema, List.mem_cons, List.not_mem_nil, or_false] at hf
  obtain rfl | rfl | rfl | rfl | rfl | rfl := hf
  · simp [spoils.required? Field.readBy_required]
  · simp [spoils.required? Field.readBy_required]
  · simp [spoils.optional? Field.readBy_optional]
  · simp [spoils.optional? OptimizerSpec.readBy_asField]
  · simp [spoils.optional? readBy_schedule]
  · simp [spoils.optional? readBy_federated]

/-- The text of a configuration means the bindings of its fields. What is read from it, be it a
    configuration or the fault that was found in one, is read from every text that binds the same:
    one with the members of the whole, of the coordination, of the schedule or of the optimizer in
    another order, with more members of unknown names, with defaults written out, or with the other
    name of a flag. A text that repeats a field in any of these objects is none. -/
theorem ofText_bindings :
    (∀ (s s' : String) (ms ms' : Members), Json.parse? s = some (.object ms) →
      Json.parse? s' = some (.object ms') → schema.Same ms ms' → ofText s' = ofText s) ∧
    ∀ (s : String) (ms : Members), Json.parse? s = some (.object ms) → schema.Repeats ms →
      ofText s = .error .parse := by
  refine ⟨fun s s' ms ms' hs hs' h => ?_, fun s ms hs h => ?_⟩
  · rw [ofText, ofText, hs, hs', Option.bind_some, Option.bind_some,
      h.eq fun _ _ => ofJson?_edit]
  · rw [ofText, hs, Option.bind_some, ofJson?_repeats h]

/-- A flag goes by its other name, next to a default and a note, behind a schedule that there is
    none of. Under both its names it is refused. -/
theorem ofText_bindings_flag :
    let plain : Json := .ofMembers [("federated", .ofMembers [("keep_optim_dict", .bool true)]),
      ("epochs", .ofCount 6), ("batch_size", .ofCount 32)]
    let edited : Json := .ofMembers [("schedule", .null),
      ("federated", .ofMembers [("note", .ofString "as ever"), ("weighting", .ofString "uniform"),
        ("keep_optimizer_state", .bool true)]),
      ("epochs", .ofCount 6), ("batch_size", .ofCount 32)]
    let twice : Json := .ofMembers [("federated",
      .ofMembers [("keep_optim_dict", .bool true), ("keep_optimizer_state", .bool true)])]
    (ofText plain.text).toOption.isSome ∧ ofText edited.text = ofText plain.text ∧
      ofText twice.text = .error .parse := by
  intro plain edited twice
  have hkeep : .optional ["keep_optimizer_state", "keep_optim_dict"] Json.bool? false ∈
      FederatedConfig.schema.fields := by simp [FederatedConfig.schema]
  have hweighting : .optional ["weighting"] Weighting.ofJson? .uniform ∈
      FederatedConfig.schema.fields := by simp [FederatedConfig.schema]
  have hschedule :
      ScheduleConfig.schema.asField ["schedule"] (Json.nullable? ScheduleConfig.ofJson?) none ∈
        schema.fields := by simp [schema]
  have hfederated : FederatedConfig.schema.asField ["federated"] FederatedConfig.ofJson? {} ∈
      schema.fields := by simp [schema]
  -- the object inside is rewritten first, and taken over as another spelling of the field's value
  have hflag : FederatedConfig.schema.Same [(some "keep_optim_dict".toList, .bool true)]
      [(some "note".toList, .ofString "as ever"), (some "weighting".toList, .ofString "uniform"),
        (some "keep_optimizer_state".toList, .bool true)] := by
    have hrename : "keep_optimizer_state" ∈ ["keep_optimizer_state", "keep_optim_dict"] := by decide
    have huniform : Weighting.ofJson? (.ofString "uniform") = some .uniform := rfl
    refine (Schema.Edit.rename hkeep (by decide) hrename).trans_same ?_
    refine (Schema.Edit.default hweighting List.mem_cons_self (by decide) huniform).trans_same ?_
    exact .rel _ _ (.ignored "note".toList (.ofString "as ever") (by decide))
  have hsame : schema.Same
      [(some "federated".toList, .object [(some "keep_optim_dict".toList, .bool true)]),
        (some "epochs".toList, .ofCount 6), (some "batch_size".toList, .ofCount 32)]
      [(some "schedule".toList, .null),
        (some "federated".toList, .object [(some "note".toList, .ofString "as ever"),
          (some "weighting".toList, .ofString "uniform"),
          (some "keep_optimizer_state".toList, .bool true)]),
        (some "epochs".toList, .ofCount 6), (some "batch_size".toList, .ofCount 32)] := by
    refine (Schema.Edit.within hfederated (by decide) ⟨_, _, rfl, rfl, hflag⟩).trans_same ?_
    exact .rel _ _ (.default hschedule (by decide) (by decide) rfl)
  have htwice : schema.Repeats [(some "federated".toList,
      .object [(some "keep_optim_dict".toList, .bool true),
        (some "keep_optimizer_state".toList, .bool true)])] :=
    .within hfederated (by decide) List.mem_cons_self
      ⟨_, rfl, .twice hkeep (by decide) (by decide) (List.Perm.refl _)⟩
  have hplain : Json.parse? plain.text = some plain :=
    Json.parse?_text (by simp [plain, Json.Writable])
  have hedited : Json.parse? edited.text = some edited :=
    Json.parse?_text (by simp [edited, Json.Writable])
  have hrepeats : Json.parse? twice.text = some twice :=
    Json.parse?_text (by simp [twice, Json.Writable])
  exact ⟨by decide +kernel, ofText_bindings.1 _ _ _ _ hplain hedited hsame,
    ofText_bindings.2 _ _ hrepeats htwice⟩

end TrainingConfig

end Federated
