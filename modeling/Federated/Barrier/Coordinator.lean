/-
  Federated.Barrier.Coordinator

  The coordinator of an epoch: it takes the workers' messages one by one, resolves a round
  whenever one is due, keeps the progress board up to date, and at the stop signal applies what
  is still queued and resolves a last round.
-/
import Federated.Barrier.Basic
import Federated.Barrier.Board

namespace Federated

/-- What a worker tells the coordinator. -/
inductive Message (α τ : Type) where
  /-- The worker is about to train on a batch. -/
  | progress (worker : WorkerId) (batch total : Nat)
  /-- The worker waits for the merged model, to come under its ticket. -/
  | submit (worker : WorkerId) (batch : Nat) (model : Params α) (loss : α) (ticket : τ)
  /-- The worker has trained on all its batches. -/
  | finish (worker : WorkerId) (model : Params α) (loss : α) (total : Nat)

namespace Message

variable {α τ : Type}

/-- The sender. -/
def worker : Message α τ → WorkerId
  | .progress w _ _ => w
  | .submit w _ _ _ _ => w
  | .finish w _ _ _ => w

/-- The ticket of a message that nobody will read, given up. -/
def abandon : Message α τ → List (Reply α τ)
  | .submit _ _ _ _ ticket => [⟨ticket, .closed⟩]
  | _ => []

end Message

/-- Lets the barrier take a message. -/
def Barrier.take {α τ : Type} (b : Barrier α τ) : Message α τ → Barrier α τ × List (Reply α τ)
  | .progress w batch total => (b.progress w batch total, [])
  | .submit w batch model loss ticket => b.submit w batch model loss ticket
  | .finish w model loss total => b.finish w model loss total

/-- The barrier, the board that shows it, and how its rounds are merged. -/
structure Coordinator (α τ : Type) where
  barrier : Barrier α τ
  board : Board α
  weights : Weights α
  scope : MergeScope

namespace Coordinator

variable {α τ : Type}

/-- A coordinator for workers with the given counts of batches. -/
def ofTotals (totals : List Nat) (weights : Weights α) (scope : MergeScope) : Coordinator α τ :=
  let barrier := Barrier.ofTotals totals
  ⟨barrier, Board.publish barrier.reports, weights, scope⟩

/-- Copies a worker's report to the board. -/
def post (c : Coordinator α τ) (w : WorkerId) : Coordinator α τ :=
  match c.barrier.report? w with
  | some r => { c with board := c.board.update r }
  | none => c

/-- Takes a message, without looking whether a round is due. -/
def apply (c : Coordinator α τ) (m : Message α τ) : Coordinator α τ × List (Reply α τ) :=
  let (barrier, replies) := c.barrier.take m
  (({ c with barrier } : Coordinator α τ).post m.worker, replies)

/-- Takes messages one after another, without looking whether a round is due. -/
def applyAll (c : Coordinator α τ) : List (Message α τ) → Coordinator α τ × List (Reply α τ)
  | [] => (c, [])
  | m :: ms =>
    let (c, replies) := c.apply m
    let (c, later) := c.applyAll ms
    (c, replies ++ later)

/-- Resolves a round. -/
def resolve [Scalar α] (c : Coordinator α τ) :
    Except (AggregationError α) (Coordinator α τ × Round × List (Reply α τ)) := do
  let (barrier, round, replies) ← c.barrier.resolve c.weights c.scope
  let c : Coordinator α τ := { c with barrier }
  return (round.released.foldl Coordinator.post c, round, replies)

end Coordinator

/-- What an epoch's coordinator leaves behind. -/
structure Outcome (α : Type) where
  merged : Option (Params α)
  rounds : Nat
  reports : List (Report α)

/-- How far the coordinator's run has come. -/
inductive Stage (α : Type) where
  /-- It takes messages. -/
  | serving
  /-- It took the stop signal and resolved its last round. -/
  | completed (outcome : Outcome α)
  /-- A round could not be merged. -/
  | failed (cause : AggregationError α)

/-- A coordinator and how far its run has come. -/
structure Session (α τ : Type) where
  coordinator : Coordinator α τ
  stage : Stage α

namespace Session

variable {α τ : Type} [Scalar α]

/-- Whether messages are still taken. -/
def isServing (s : Session α τ) : Bool :=
  match s.stage with
  | .serving => true
  | _ => false

/-- The end of a run at a round that could not be merged; nobody waits any longer. -/
def fail (c : Coordinator α τ) (cause : AggregationError α) : Session α τ × List (Reply α τ) :=
  (⟨c, .failed cause⟩, c.barrier.abandon)

/-- Takes a message, and resolves a round if one is due then. A run that has ended takes none. -/
def receive (s : Session α τ) (m : Message α τ) : Session α τ × List (Reply α τ) :=
  match s.stage with
  | .serving =>
    let (c, replies) := s.coordinator.apply m
    if c.barrier.roundReady then
      match c.resolve with
      | .ok (c, _, answers) => (⟨c, .serving⟩, replies ++ answers)
      | .error cause =>
        let (s, answers) := fail c cause
        (s, replies ++ answers)
    else (⟨c, .serving⟩, replies)
  | _ => (s, m.abandon)

/-- Takes the stop signal: applies what is queued and resolves a last round. -/
def conclude (s : Session α τ) (queue : List (Message α τ)) : Session α τ × List (Reply α τ) :=
  match s.stage with
  | .serving =>
    let (c, replies) := s.coordinator.applyAll queue
    match c.resolve with
    | .ok (c, _, answers) =>
      let b := c.barrier
      (⟨c, .completed ⟨b.merged, b.rounds, b.reports⟩⟩, replies ++ answers ++ b.abandon)
    | .error cause =>
      let (s, answers) := fail c cause
      (s, replies ++ answers)
  | _ => (s, queue.flatMap Message.abandon)

end Session

end Federated
