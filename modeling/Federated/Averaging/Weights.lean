/-
  Federated.Averaging.Weights

  How much the model of each worker counts in a merge. Weights are given without a common
  scale; restricting them to the workers of a merge makes them sum to one.
-/
import Federated.Model.Params
import Federated.Numeric.Notation
import Federated.WorkerId

namespace Federated

/-- Why models cannot be averaged. -/
inductive AggregationError (α : Type) where
  /-- A worker's parameters differ from the others' in name or shape. -/
  | layout (worker : WorkerId) (mismatch : LayoutMismatch)
  /-- A weight is negative or not finite. -/
  | invalidWeight (worker : WorkerId) (weight : α)
  /-- A worker of the merge has no weight. -/
  | missingWeight (worker : WorkerId)
  | zeroTotalWeight

/-- The words for a refused merge. -/
def AggregationError.message : AggregationError Float32 → String
  | .layout worker mismatch =>
    "cannot merge the model of " ++ worker.name ++ ": " ++ mismatch.message
  | .invalidWeight worker weight =>
    "invalid weight " ++ singleText weight ++ " for " ++ worker.name
  | .missingWeight worker => "no weight assigned to " ++ worker.name
  | .zeroTotalWeight => "the weights of the merged models sum to zero"

/-- How the weights of an epoch follow from its workers' counts of batches. -/
inductive Weighting where
  /-- Every worker counts the same. -/
  | uniform
  /-- A worker counts by its batches. -/
  | proportional
  deriving DecidableEq

/-- The weight of each worker that has one. -/
structure Weights (α : Type) where
  byWorker : Dict WorkerId α

namespace Weights

variable {α : Type}

/-- Weights given one by one; of a repeated worker the last one stays. -/
def ofList (pairs : List (WorkerId × α)) : Weights α := ⟨Dict.ofList pairs⟩

/-- The weight of a worker. -/
def find? (ws : Weights α) (w : WorkerId) : Option α := ws.byWorker.find? w

/-- The number of weights. -/
def size (ws : Weights α) : Nat := ws.byWorker.size

/-- Whether no worker has a weight. -/
def isEmpty (ws : Weights α) : Bool := ws.byWorker.isEmpty

variable [Scalar α]

/-- The weight one for each worker. -/
def uniform (workers : List WorkerId) : Weights α :=
  ofList (workers.map fun w => (w, Scalar.one))

/-- The count of batches of each worker as its weight. -/
def proportional (batches : List (WorkerId × Nat)) : Weights α :=
  ofList (batches.map fun b => (b.1, Scalar.ofCount b.2))

/-- The weights of an epoch. -/
def ofBatches (scheme : Weighting) (batches : List (WorkerId × Nat)) : Weights α :=
  match scheme with
  | .uniform => uniform (batches.map (·.1))
  | .proportional => proportional batches

/-- A worker's weight, if it can be used. -/
def usable (ws : Weights α) (w : WorkerId) : Except (AggregationError α) α :=
  match ws.find? w with
  | none => .error (.missingWeight w)
  | some x =>
    if Scalar.isFinite x && !Scalar.lt x Scalar.zero then .ok x else .error (.invalidWeight w x)

/-- The usable weights of workers in list order, or the first refusal. -/
def collect (ws : Weights α) : List WorkerId → Except (AggregationError α) (List (WorkerId × α))
  | [] => .ok []
  | w :: rest => do
    let x ← ws.usable w
    return (w, x) :: (← ws.collect rest)

/-- The sum of all weights, by ascending worker. -/
def total (ws : Weights α) : α := ws.byWorker.values.foldl (· + ·) Scalar.zero

/-- The weights of the given workers alone, each divided by their sum. -/
def restrict (ws : Weights α) (workers : List WorkerId) :
    Except (AggregationError α) (Weights α) := do
  let chosen : Weights α := ofList (← ws.collect workers)
  let total := chosen.total
  if Scalar.le total Scalar.zero then throw .zeroTotalWeight
  return ⟨chosen.byWorker.mapValues fun _ x => x / total⟩

end Weights

end Federated
