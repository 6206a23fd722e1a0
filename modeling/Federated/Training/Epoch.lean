/-
  Federated.Training.Epoch

  One federated epoch: a worker per shard, the coordinator, and what they leave behind.
-/
import Federated.Training.System

namespace Federated

variable {α : Type}

/-- The result of an epoch. -/
structure EpochResult (α : Type) where
  /-- The merged model that the epoch ended with. -/
  model : Params α
  /-- The mean of the workers' losses, each weighing by its count of batches. -/
  loss : α
  rounds : Nat
  reports : List (Report α)

variable [Scalar α]

namespace Epoch

/-- The mean of the final losses of reports, each weighing by its count of batches; zero if
    there is none. -/
def loss (reports : List (Report α)) : α :=
  let final := reports.filterMap fun r => r.finalLoss?.map (·, r.total)
  let sum := final.foldl (fun sum e => sum + e.1 * Scalar.ofCount e.2) Scalar.zero
  let batches := final.foldl (fun n e => n + e.2) 0
  if batches = 0 then Scalar.zero else sum / Scalar.ofCount batches

/-- The result of a coordinator's run. -/
def resultOf (outcome : Outcome α) : Except (FederatedError α) (EpochResult α) :=
  match outcome.merged with
  | none => .error .nothingMerged
  | some model => .ok ⟨model, loss outcome.reports, outcome.rounds, outcome.reports⟩

/-- The result of an epoch whose stop signal was given and taken. A worker's failure wins, but
    if it failed because the coordinator was gone, then what ended the coordinator does. -/
def result? (s : System α) : Option (Except (FederatedError α) (EpochResult α)) :=
  if s.stopped then
    match s.failure, s.session.stage with
    | _, .serving => none
    | none, .completed outcome => some (resultOf outcome)
    | none, .failed cause => some (.error (.aggregation cause))
    | some (.coordinatorGone _), .failed cause => some (.error (.aggregation cause))
    | some failure, _ => some (.error failure)
  else none

/-- Seats for the workers of shards, numbered from `next`, each with its optimizer out of the
    bank. -/
def seats (config : FederatedConfig) (clock : Clock) (model : Affine α) (bank : Bank α)
    (next : Nat) : List (List (Batch α)) → List (Seat α) × Bank α
  | [] => ([], bank)
  | shard :: shards =>
    let id : WorkerId := ⟨next⟩
    let taken := bank.take id
    let worker := Worker.start id ⟨model, taken.1⟩ bank.spec (config.policy clock) shard
    let rest := seats config clock model taken.2 (next + 1) shards
    (⟨worker, none, false⟩ :: rest.1, rest.2)

/-- The first worker without batches. -/
def emptyShard? (shards : List (List (Batch α))) : Option WorkerId :=
  (shards.findIdx? (·.isEmpty)).map WorkerId.mk

/-- The state before the first step, or the refusal of an epoch without workers or with a
    worker without batches. -/
def start (config : FederatedConfig) (clock : Clock) (model : Affine α)
    (shards : List (List (Batch α))) (bank : Bank α) : Except (ConfigError α) (System α) := do
  if shards.isEmpty then throw .noWorkers
  if let some worker := emptyShard? shards then throw (.emptyShard worker)
  let totals := shards.map List.length
  let weights := Weights.ofBatches config.weighting (totals.zipIdx.map fun e => (⟨e.2⟩, e.1))
  let coordinator := Coordinator.ofTotals totals weights config.scope
  let placed := seats config clock model bank 0 shards
  return ⟨placed.1.toArray, [], ⟨coordinator, .serving⟩, placed.2, false, none⟩

/-- What an epoch leaves: its result, the bank, and the progress board. -/
structure Run (α : Type) where
  result : Except (Halt (FederatedError α)) (EpochResult α)
  bank : Bank α
  board : Board α

/-- What an execution leaves once it is over. -/
def leave (s : System α) : Run α :=
  let result := match result? s with
    | none => .error (.defect .stalled)
    | some result => result.mapError Halt.error
  ⟨result, s.bank, s.session.coordinator.board⟩

/-- Trains one epoch, a worker per shard, all from the same model. An epoch that is refused
    leaves bank and board as they were. -/
def run (config : FederatedConfig) (model : Affine α) (shards : List (List (Batch α)))
    (bank : Bank α) (board : Board α) (clock : Clock := .started) : Run α :=
  match start config clock model shards bank with
  | .error cause => ⟨.error (.error (.config cause)), bank, board⟩
  | .ok s => leave (s.settle 0 s.fuel)

end Epoch

end Federated
