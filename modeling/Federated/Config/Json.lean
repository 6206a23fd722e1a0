/-
  Federated.Config.Json

  Configurations as JSON: reading accepts the fields in any order and fills in defaults,
  writing shows every field in a fixed order.
-/
import Federated.Config.Basic
import Federated.Json.Reader
import Federated.Json.Record
import Federated.Json.Writer

namespace Federated

/-! ## Names -/

/-- The name of a weighting. -/
def Weighting.name : Weighting → String
  | .uniform => "uniform"
  | .proportional => "proportional"

/-- The name of a scope. -/
def MergeScope.name : MergeScope → String
  | .retained => "retained"
  | .waitingOnly => "waiting_only"

/-- The name of a plan. -/
def SchedulePlan.name : SchedulePlan → String
  | .logLinear => "log_linear"
  | .logCosine => "log_cosine"

/-- The choice that a JSON value names. -/
def Json.choice? {β : Type} (choices : List (String × β)) (j : Json) : Option β := do
  let name ← j.name? (choices.map (·.1))
  (choices.find? (·.1 == name)).map (·.2)

/-- A weighting by its name. -/
def Weighting.ofJson? : Json → Option Weighting :=
  Json.choice? ([.uniform, .proportional].map fun w => (w.name, w))

/-- A scope by its name. -/
def MergeScope.ofJson? : Json → Option MergeScope :=
  Json.choice? ([.retained, .waitingOnly].map fun s => (s.name, s))

/-- A plan by its name. -/
def SchedulePlan.ofJson? : Json → Option SchedulePlan :=
  Json.choice? ([.logLinear, .logCosine].map fun p => (p.name, p))

/-! ## Optimizers -/

namespace OptimizerSpec

/-- The hyperparameters of a named kind of optimizer; none has a default. -/
def ofNamed? (kind : List Char) (fields : Json) : Option (OptimizerSpec Float32) :=
  if kind = "adam".toList then do
    let r ← fields.record? 4
    return .adam (← r.required? 0 ["learning_rate"] Json.single?)
      (← r.required? 1 ["beta1"] Json.single?) (← r.required? 2 ["beta2"] Json.single?)
      (← r.required? 3 ["epsilon"] Json.single?)
  else if kind = "gradient_descent".toList then do
    let r ← fields.record? 1
    return .descent (← r.required? 0 ["learning_rate"] Json.single?)
  else if kind = "gradient_descent_with_momentum".toList then do
    let r ← fields.record? 2
    return .momentum (← r.required? 0 ["learning_rate"] Json.single?)
      (← r.required? 1 ["momentum"] Json.single?)
  else none

/-- An object whose only member is named for the kind of optimizer. -/
def ofJson? : Json → Option (OptimizerSpec Float32)
  | .object [(some kind, fields)] => ofNamed? kind fields
  | _ => none

/-- An object whose only member is named for the kind of optimizer. -/
def toJson : OptimizerSpec Float32 → Json
  | .adam rate beta1 beta2 epsilon =>
    .ofMembers [("adam", .ofMembers [("learning_rate", .ofSingle rate),
      ("beta1", .ofSingle beta1), ("beta2", .ofSingle beta2), ("epsilon", .ofSingle epsilon)])]
  | .descent rate =>
    .ofMembers [("gradient_descent", .ofMembers [("learning_rate", .ofSingle rate)])]
  | .momentum rate mu =>
    .ofMembers [("gradient_descent_with_momentum", .ofMembers [("learning_rate", .ofSingle rate),
      ("momentum", .ofSingle mu)])]

end OptimizerSpec

/-! ## Schedules, coordination, runs -/

namespace ScheduleConfig

/-- A schedule; only its end rate must be given. -/
def ofJson? (j : Json) : Option ScheduleConfig := do
  let r ← j.record? 3
  let endRate ← r.required? 0 ["lr_end"] Json.single?
  let plan ← r.optional? 1 ["plan"] SchedulePlan.ofJson? .logLinear
  let restarts ← r.optional? 2 ["restarts"] Json.count? 0
  return { endRate, plan, restarts }

/-- All fields of a schedule. -/
def toJson (s : ScheduleConfig) : Json :=
  .ofMembers [("lr_end", .ofSingle s.endRate), ("plan", .ofString s.plan.name),
    ("restarts", .ofCount s.restarts)]

end ScheduleConfig

namespace FederatedConfig

/-- Settings of the coordination; each has a default. The optimizer's survival goes by two
    names. -/
def ofJson? (j : Json) : Option FederatedConfig := do
  let d : FederatedConfig := {}
  let r ← j.record? 8
  let syncEvery ← r.optional? 0 ["sync_every_n_batch"] Json.count? d.syncEvery
  let waitInterval ← r.optional? 1 ["wait_interval"] Json.double? d.waitInterval
  let keepOptimizer ←
    r.optional? 2 ["keep_optimizer_state", "keep_optim_dict"] Json.bool? d.keepOptimizer
  let repetitions ← r.optional? 3 ["repetitions_dataset"] Json.count? d.repetitions
  let weighting ← r.optional? 4 ["weighting"] Weighting.ofJson? d.weighting
  let scope ← r.optional? 5 ["merge_scope"] MergeScope.ofJson? d.scope
  let verbose ← r.optional? 6 ["verbose"] Json.bool? d.verbose
  let reportInterval ← r.optional? 7 ["report_interval"] Json.double? d.reportInterval
  return { syncEvery, waitInterval, keepOptimizer, repetitions, weighting, scope, verbose,
           reportInterval }

/-- All settings of the coordination. -/
def toJson (c : FederatedConfig) : Json :=
  .ofMembers [("sync_every_n_batch", .ofCount c.syncEvery),
    ("wait_interval", .ofDouble c.waitInterval),
    ("keep_optimizer_state", .bool c.keepOptimizer),
    ("repetitions_dataset", .ofCount c.repetitions),
    ("weighting", .ofString c.weighting.name), ("merge_scope", .ofString c.scope.name),
    ("verbose", .bool c.verbose), ("report_interval", .ofDouble c.reportInterval)]

end FederatedConfig

namespace TrainingConfig

/-- A count other than zero. -/
def positive? (j : Json) : Option Positive := do
  let n ← j.count?
  if h : 0 < n then some ⟨n, h⟩ else none

/-- The configuration of a run; the counts of epochs and of rows per batch must be given. -/
def ofJson? (j : Json) : Option TrainingConfig := do
  let r ← j.record? 6
  let epochs ← r.required? 0 ["epochs"] positive?
  let batchSize ← r.required? 1 ["batch_size"] positive?
  let seed ← r.optional? 2 ["seed"] (Json.nullable? Json.count?) none
  let optimizer ← r.optional? 3 ["optimizer"] OptimizerSpec.ofJson? OptimizerSpec.default
  let schedule ← r.optional? 4 ["schedule"] (Json.nullable? ScheduleConfig.ofJson?) none
  let federated ← r.optional? 5 ["federated"] FederatedConfig.ofJson? {}
  return { epochs, batchSize, seed, optimizer, schedule, federated }

/-- All settings of a run. -/
def toJson (c : TrainingConfig) : Json :=
  .ofMembers [("epochs", .ofCount c.epochs.val), ("batch_size", .ofCount c.batchSize.val),
    ("seed", .ofOption .ofCount c.seed), ("optimizer", c.optimizer.toJson),
    ("schedule", .ofOption ScheduleConfig.toJson c.schedule),
    ("federated", c.federated.toJson)]

/-- The text of a configuration. -/
def text (c : TrainingConfig) : String := c.toJson.text

/-- Reads a configuration and checks it. -/
def ofText (s : String) : Except (ConfigError Float32) TrainingConfig :=
  match (Json.parse? s).bind ofJson? with
  | none => .error .parse
  | some c => c.validate.map fun _ => c

/-- Reads a configuration from the bytes of a file, which must be UTF-8, and checks it. -/
def ofBytes (bytes : ByteArray) : Except (ConfigError Float32) TrainingConfig :=
  match String.fromUTF8? bytes with
  | none => .error (.io "stream did not contain valid UTF-8")
  | some s => ofText s

end TrainingConfig

end Federated
