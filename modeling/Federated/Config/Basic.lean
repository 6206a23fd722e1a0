/-
  Federated.Config.Basic

  The configuration of a federated training run and the checks on it.
-/
import Federated.Barrier.Basic
import Federated.Config.Interval
import Federated.Optimizer.Spec
import Federated.Training.Worker

namespace Federated

/-- A count other than zero. -/
abbrev Positive := { n : Nat // 0 < n }

/-- How the learning rate goes from its start to its end. -/
inductive SchedulePlan where
  /-- Along a line, on a logarithmic scale. -/
  | logLinear
  /-- Along half a cosine, on a logarithmic scale. -/
  | logCosine
  deriving DecidableEq

/-- The learning rate schedule of a run; it starts at the optimizer's rate. -/
structure ScheduleConfig where
  endRate : Float32
  plan : SchedulePlan := .logLinear
  restarts : Nat := 0

/-- How the workers of an epoch are coordinated. -/
structure FederatedConfig where
  /-- Batches between two synchronizations. -/
  syncEvery : Nat := 10
  /-- Seconds after which a waiting worker notes that it still waits. -/
  waitInterval : Float := 0.1
  /-- Whether what an optimizer has accumulated survives a merge. -/
  keepOptimizer : Bool := false
  /-- How often an epoch walks the dataset. -/
  repetitions : Nat := 1
  weighting : Weighting := .uniform
  scope : MergeScope := .retained
  /-- Whether progress lines are logged while an epoch runs. -/
  verbose : Bool := false
  /-- Seconds between two rounds of progress lines. -/
  reportInterval : Float := 1.0

/-- The configuration of a training run. -/
structure TrainingConfig where
  epochs : Positive
  batchSize : Positive
  /-- The seed of shuffling; without one the rows keep their order. -/
  seed : Option Nat
  optimizer : OptimizerSpec Float32
  schedule : Option ScheduleConfig
  federated : FederatedConfig

/-- The optimizer of a run that names none: momentum, with a rate of a thousandth. -/
def OptimizerSpec.default : OptimizerSpec Float32 :=
  .momentum (narrow 0.001) (narrow 0.5)

/-- What the clock reads, in nanoseconds, when a worker begins to wait before a batch. The clock
    goes on while an epoch runs, so every wait has a reading of its own. -/
abbrev Clock := WorkerId → Nat → Nat

/-- A clock that has just started. -/
def Clock.started : Clock := fun _ _ => 0

namespace FederatedConfig

/-- Refuses an amount of seconds that no timer can use. -/
def requireInterval {α : Type} (x : Float) : Except (ConfigError α) Unit :=
  if (Period.usable? x).isSome then .ok () else .error (.waitInterval x)

/-- Refuses the first setting that cannot be used. -/
def validate {α : Type} (c : FederatedConfig) : Except (ConfigError α) Unit := do
  if c.syncEvery = 0 then throw (.syncInterval c.syncEvery)
  requireInterval c.waitInterval
  requireInterval c.reportInterval
  if c.repetitions = 0 then throw .repetitions

/-- The period that is set for a waiting worker's notes. -/
def waitPeriod (c : FederatedConfig) : Period := (Period.usable? c.waitInterval).getD .fallback

/-- The period of a waiting worker's notes. -/
def notePeriod (c : FederatedConfig) : Period :=
  ⟨max c.waitPeriod.nanoseconds Period.least.nanoseconds⟩

/-- How workers meet. A wait can be timed if the clock reaches the end of its first period. -/
def policy (c : FederatedConfig) (clock : Clock) : SyncPolicy :=
  ⟨c.syncEvery, c.keepOptimizer, fun w i => c.notePeriod.endsOnClock (clock w i)⟩

/-- The period of progress lines. -/
def reportPeriod (c : FederatedConfig) : Period := (Period.usable? c.reportInterval).getD .fallback

end FederatedConfig

namespace TrainingConfig

/-- The epochs to run when every epoch walks the dataset several times. -/
def effectiveEpochs (c : TrainingConfig) : Except (ConfigError Float32) Positive :=
  let n := c.epochs.val / c.federated.repetitions
  if c.federated.repetitions = 0 then .error .repetitions
  else if h : 0 < n then .ok ⟨n, h⟩
  else .error (.epochs c.epochs.val c.federated.repetitions)

/-- Refuses the first setting that cannot be used: of the coordination, the optimizer, the
    epochs, the schedule, in this order. -/
def validate (c : TrainingConfig) : Except (ConfigError Float32) Unit := do
  c.federated.validate
  c.optimizer.validate
  let _ ← c.effectiveEpochs
  match c.schedule with
  | none => return ()
  | some s => OptimizerSpec.requirePositive .endRate s.endRate

end TrainingConfig

end Federated
