/-
  Federated.Training.Local

  Local training: one step on a batch, and a run over batches with no synchronization.
-/
import Federated.Model.Affine
import Federated.Optimizer.Basic

namespace Federated

variable {α : Type} [Scalar α]

/-- A model and the optimizer that trains it. -/
structure Learner (α : Type) where
  model : Affine α
  optimizer : Optimizer α

/-- The mean of `n` losses with the given sum, zero if there are none. -/
def meanLoss (sum : α) (n : Nat) : α :=
  if n = 0 then Scalar.zero else sum / Scalar.ofCount n

namespace Learner

/-- One step on a batch: the loss before the step, and what the step leaves. -/
def step (l : Learner α) (batch : Batch α) : Except (Halt ModelError) (α × Learner α) := do
  let (loss, gradient) ← l.model.gradient batch
  let (optimizer, params) ← l.optimizer.update gradient l.model.params
  return (loss, ⟨{ l.model with params }, optimizer⟩)

/-- Steps on batches in order, until one has no result; `sum` is the sum of the `n` losses
    before them. The mean loss, and what the steps left. -/
def trainFrom (l : Learner α) (sum : α) (n : Nat) :
    List (Batch α) → Except (Halt ModelError) α × Learner α
  | [] => (.ok (meanLoss sum n), l)
  | batch :: rest =>
    match l.step batch with
    | .error halt => (.error halt, l)
    | .ok (loss, l) => l.trainFrom (sum + loss) (n + 1) rest

/-- Steps on batches in order. -/
def train (l : Learner α) (batches : List (Batch α)) : Except (Halt ModelError) α × Learner α :=
  l.trainFrom Scalar.zero 0 batches

end Learner

end Federated
