/-
  Federated.Error

  Failures of federated training, and the chain of causes that a caller is told.
-/
import Federated.Averaging.Weights
import Federated.Config.Error
import Federated.Model.Error

namespace Federated

/-- Why federated training failed. -/
inductive FederatedError (α : Type) where
  | config (cause : ConfigError α)
  | aggregation (cause : AggregationError α)
  | model (cause : ModelError)
  /-- The coordinator ended while the worker was talking to it or waiting for it. -/
  | coordinatorGone (worker : WorkerId)
  /-- The stop signal came while the worker was still training. -/
  | cancelled (worker : WorkerId)
  /-- A local step had no answer at all. -/
  | workerFailed (note : String)
  /-- The epoch ended without a merged model. -/
  | nothingMerged
  | io (cause : String)

/-- The words for the cause of a configuration's fault, if it has one of its own. -/
def ConfigError.causes : ConfigError Float32 → List String
  | .io cause => [cause]
  | _ => []

namespace FederatedError

/-- The words for a failure. -/
def message : FederatedError Float32 → String
  | .config cause => "config error: " ++ cause.message
  | .aggregation cause => "aggregation error: " ++ cause.message
  | .model cause => "training error: " ++ cause.message
  | .coordinatorGone worker => "the coordinator stopped before releasing " ++ worker.name
  | .cancelled worker => worker.name ++ " was cancelled while training"
  | .workerFailed note => "worker task failed: " ++ note
  | .nothingMerged => "the epoch finished without a merged model"
  | .io cause => "io error: " ++ cause

/-- The words for the causes of a failure, each the cause of the one before. -/
def causes : FederatedError Float32 → List String
  | .config cause => cause.message :: cause.causes
  | .aggregation cause => [cause.message]
  | .model cause => [cause.message]
  | .io cause => [cause]
  | .coordinatorGone _ | .cancelled _ | .workerFailed _ | .nothingMerged => []

end FederatedError

end Federated
