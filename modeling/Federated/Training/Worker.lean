/-
  Federated.Training.Worker

  The program of one worker, in steps that each send at most one message. Before every batch
  the worker announces it, and where a synchronization is due it publishes its model and waits
  for the merged one. After the last batch it publishes its final model.
-/
import Federated.Barrier.Coordinator
import Federated.Error
import Federated.Training.Local

namespace Federated

/-- How a worker meets the others. -/
structure SyncPolicy where
  /-- Batches between two synchronizations; zero counts as one. -/
  every : Nat
  /-- Whether what the optimizer has accumulated survives a merge. -/
  keep : Bool
  /-- Whether the notes of a worker that waits before a batch can be timed. Where they cannot,
      the worker fails as soon as it would wait. -/
  timed : WorkerId → Nat → Bool := fun _ _ => true

/-- Whether a synchronization comes before batch `i`. -/
def SyncPolicy.isDue (p : SyncPolicy) (i : Nat) : Bool := 0 < i && i % max p.every 1 == 0

/-- Where a worker's program stands. -/
inductive WorkerPoint (α : Type) where
  /-- Before the next batch, or behind the last one. -/
  | announcing
  /-- Before it publishes its model. -/
  | joining
  /-- Until its ticket is answered. -/
  | waiting
  /-- Before it trains on the next batch. -/
  | stepping
  | finished (loss : α)
  | failed (cause : FederatedError α)

/-- A worker: what it trains, what is left to train on, and where it stands. -/
structure Worker (α : Type) where
  id : WorkerId
  learner : Learner α
  /-- What a fresh optimizer is built from after a merge. -/
  spec : OptimizerSpec α
  policy : SyncPolicy
  /-- The count of its batches, and of those it has trained on. -/
  total : Nat
  index : Nat
  remaining : List (Batch α)
  lossSum : α
  lastLoss : α
  point : WorkerPoint α

namespace Worker

variable {α : Type} [Scalar α]

/-- A worker before its first batch. -/
def start (id : WorkerId) (learner : Learner α) (spec : OptimizerSpec α) (policy : SyncPolicy)
    (batches : List (Batch α)) : Worker α :=
  ⟨id, learner, spec, policy, batches.length, 0, batches, Scalar.zero, Scalar.zero, .announcing⟩

/-- The worker at another point of its program. -/
def goto (w : Worker α) (point : WorkerPoint α) : Worker α := { w with point }

/-- The failure of a local step. -/
def stepFailure (id : WorkerId) : Halt ModelError → FederatedError α
  | .error cause => .model cause
  | .defect _ => .workerFailed (id.name ++ ": the step has no answer")

/-- Where a worker stands behind its submission: it waits, if this wait can be timed. -/
def joined (w : Worker α) : WorkerPoint α :=
  if w.policy.timed w.id w.index then .waiting
  else .failed (.workerFailed (w.id.name ++ ": the wait cannot be timed"))

/-- The next step of a worker that neither waits nor has ended, and the message it sends. A
    submission waits under the worker's own number. -/
def step? (w : Worker α) : Option (Worker α × Option (Message α WorkerId)) :=
  let params := w.learner.model.params
  match w.point, w.remaining with
  | .announcing, [] =>
    let loss := meanLoss w.lossSum w.total
    some (w.goto (.finished loss), some (.finish w.id params loss w.total))
  | .announcing, _ :: _ =>
    some (w.goto (if w.policy.isDue w.index then .joining else .stepping),
      some (.progress w.id w.index w.total))
  | .joining, _ =>
    some (w.goto w.joined, some (.submit w.id w.index params w.lastLoss w.id))
  | .stepping, batch :: rest =>
    match w.learner.step batch with
    | .error halt => some (w.goto (.failed (stepFailure w.id halt)), none)
    | .ok (loss, learner) =>
      some ({ w with
        learner
        remaining := rest
        index := w.index + 1
        lossSum := w.lossSum + loss
        lastLoss := loss
        point := .announcing }, none)
  | _, _ => none

/-- A waiting worker once its ticket is answered: it goes on from the merged model, with a
    fresh optimizer unless what it accumulated is kept. -/
def resume (w : Worker α) : Answer α → Worker α
  | .closed => w.goto (.failed (.coordinatorGone w.id))
  | .merged model =>
    match w.learner.model.load model with
    | .error cause => w.goto (.failed (.model cause))
    | .ok model =>
      let optimizer := if w.policy.keep then w.learner.optimizer else w.spec.build
      { w with learner := ⟨model, optimizer⟩, point := .stepping }

/-- A worker whose message nobody took. -/
def refused (w : Worker α) : Worker α := w.goto (.failed (.coordinatorGone w.id))

/-- A worker whose wait was cancelled. -/
def cancelled (w : Worker α) : Worker α := w.goto (.failed (.cancelled w.id))

/-- Whether a worker waits. -/
def isWaiting (w : Worker α) : Bool :=
  match w.point with
  | .waiting => true
  | _ => false

/-- Whether a worker has ended. -/
def hasEnded (w : Worker α) : Bool :=
  match w.point with
  | .finished _ | .failed _ => true
  | _ => false

end Worker

end Federated
