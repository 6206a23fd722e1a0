/-
  Federated.Training.Trainer

  Federated training over several epochs. Optimizers stay in a bank for the whole run, and the
  learning rate schedule, if there is one, is applied before every epoch.
-/
import Federated.Config.Json
import Federated.Sampling.Loader
import Federated.Training.Epoch
import Federated.Training.Schedule

namespace Federated

/-- An epoch as the trainer sees it. -/
structure EpochSummary where
  epoch : Nat
  loss : Float32
  rate : Float32
  rounds : Nat

namespace EpochSummary

/-- All fields of a summary. -/
def toJson (s : EpochSummary) : Json :=
  .ofMembers [("epoch", .ofCount s.epoch), ("loss", .ofSingle s.loss),
    ("learning_rate", .ofSingle s.rate), ("rounds", .ofCount s.rounds)]

/-- The text of a list of summaries. -/
def listText (summaries : List EpochSummary) : String :=
  (Json.array (summaries.map toJson)).text

end EpochSummary

/-- A checked configuration, and what lasts from epoch to epoch. -/
structure Trainer where
  config : TrainingConfig
  epochs : Positive
  schedule : Option Schedule
  bank : Bank Float32
  board : Board Float32

/-- What a training run leaves: the summaries of its completed epochs, what ended it early if it
    was, the trainer, and the model with the last merged parameters. -/
structure TrainingRun where
  summaries : List EpochSummary
  halt : Option (Halt (FederatedError Float32))
  trainer : Trainer
  model : Affine Float32

/-- The summary of every epoch, or what ended the run early. -/
def TrainingRun.result (r : TrainingRun) :
    Except (Halt (FederatedError Float32)) (List EpochSummary) :=
  match r.halt with
  | none => .ok r.summaries
  | some halt => .error halt

namespace Trainer

/-- The schedule of a configuration, from its optimizer's rate over its epochs. -/
def scheduleOf (config : TrainingConfig) (epochs : Positive) :
    Except (ConfigError Float32) (Option Schedule) :=
  match config.schedule with
  | none => .ok none
  | some s =>
    (Schedule.ofRates epochs.val config.optimizer.rate s.endRate s.plan s.restarts).map some

/-- A trainer for a configuration, which is checked here. -/
def ofConfig (config : TrainingConfig) : Except (ConfigError Float32) Trainer := do
  config.validate
  let epochs ← config.effectiveEpochs
  let schedule ← scheduleOf config epochs
  config.federated.validate
  return ⟨config, epochs, schedule, Bank.ofSpec config.optimizer, Board.empty⟩

/-- How often a loader walks its rows per epoch. -/
def repetitions (t : Trainer) : Positive :=
  if h : 0 < t.config.federated.repetitions then ⟨_, h⟩ else ⟨1, Nat.one_pos⟩

/-- The loader of one of `workers` balanced shards; with a seed, each worker shuffles by its
    own. -/
def shardLoader (t : Trainer) (dataset : Dataset Float32) (workers index : Nat) :
    Except Defect (Loader Float32) := do
  let rows ← Rows.shard dataset.size index workers
  let loader := (Loader.ofRows dataset rows t.config.batchSize).repeated t.repetitions
  return match t.config.seed with
    | none => loader
    | some seed => loader.shuffled ((seed + index) % Nat.pow 2 64)

/-- The most loaders that a run can hold. -/
def loaderLimit : Nat := (Nat.pow 2 63 - 1) / 56

/-- One loader per worker. -/
def shardLoaders (t : Trainer) (dataset : Dataset Float32) (workers : Nat) :
    Except Defect (List (Loader Float32)) :=
  if loaderLimit < workers then .error .overflow
  else (List.range workers).mapM (t.shardLoader dataset workers)

/-- The trainer with the learning rate of an epoch in force. -/
def scheduled (t : Trainer) (epoch : Nat) : Trainer :=
  match t.schedule with
  | none => t
  | some s => { t with bank := t.bank.withRate (s.rate epoch) }

/-- The batches that loaders have for an epoch. -/
def shards (loaders : List (Loader Float32)) (epoch : Nat) :
    Except Defect (List (List (Batch Float32))) :=
  loaders.mapM fun l => do (← l.batches epoch).toList

/-- How an epoch ends for the trainer: a summary and the model to go on with, or the halt. -/
abbrev EpochEnd :=
  Except (Halt (FederatedError Float32)) (EpochSummary × Affine Float32) × Trainer

/-- Takes over what epoch `e` left, and loads the merged parameters into the model. -/
def adopt (t : Trainer) (model : Affine Float32) (e : Nat) (run : Epoch.Run Float32) : EpochEnd :=
  let t := { t with bank := run.bank, board := run.board }
  match run.result with
  | .error halt => (.error halt, t)
  | .ok result =>
    match model.load result.model with
    | .error cause => (.error (.error (.model cause)), t)
    | .ok model => (.ok (⟨e, result.loss, t.bank.spec.rate, result.rounds⟩, model), t)

/-- Trains one epoch at its learning rate. -/
def epoch (t : Trainer) (model : Affine Float32) (loaders : List (Loader Float32)) (e : Nat)
    (clock : Clock) : EpochEnd :=
  let t := t.scheduled e
  match shards loaders e with
  | .error defect => (.error (.defect defect), t)
  | .ok shards => t.adopt model e (Epoch.run t.config.federated model shards t.bank t.board clock)

/-- Trains `count` epochs from epoch `e` on, behind those already summarized; the clock is given
    epoch by epoch. -/
def fitFrom (t : Trainer) (model : Affine Float32) (loaders : List (Loader Float32))
    (clocks : Nat → Clock) (summaries : List EpochSummary) (e : Nat) : Nat → TrainingRun
  | 0 => ⟨summaries, none, t, model⟩
  | count + 1 =>
    match t.epoch model loaders e (clocks e) with
    | (.error halt, t) => ⟨summaries, some halt, t, model⟩
    | (.ok (summary, model), t) =>
      fitFrom t model loaders clocks (summaries ++ [summary]) (e + 1) count

/-- The most summaries that a run can hold. -/
def summaryLimit : Nat := (Nat.pow 2 63 - 1) / 24

/-- Trains a model over all epochs, a worker per loader. After every epoch the model has the
    merged parameters; a failure ends the run and leaves those of the epoch before. -/
def fit (t : Trainer) (model : Affine Float32) (loaders : List (Loader Float32))
    (clocks : Nat → Clock := fun _ => .started) : TrainingRun :=
  if summaryLimit < t.epochs.val then ⟨[], some (.defect .overflow), t, model⟩
  else t.fitFrom model loaders clocks [] 0 t.epochs.val

end Trainer

end Federated
