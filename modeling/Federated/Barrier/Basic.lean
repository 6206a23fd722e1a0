/-
  Federated.Barrier.Basic

  The barrier that the workers of an epoch meet at. It holds a record per worker: the model it
  last submitted, whether it trains, waits or has finished, its progress and its losses. A
  round averages submitted models and answers every waiting worker with the merged model.

  A waiting worker is reached through its ticket. Each operation says which tickets it
  answers; a ticket that is given up is answered by `closed`.
-/
import Federated.Averaging.Merge
import Federated.Barrier.Report

namespace Federated

/-- Which submissions a round averages. -/
inductive MergeScope where
  /-- The latest of every worker that has submitted at least once. -/
  | retained
  /-- Those of the workers that wait when the round is resolved. -/
  | waitingOnly
  deriving DecidableEq

/-- What a worker is doing, as far as the barrier knows. -/
inductive Status (τ : Type) where
  | training
  | waiting (ticket : τ)
  | finished

namespace Status

variable {τ : Type}

/-- Whether a worker waits. -/
def isWaiting : Status τ → Bool
  | .waiting _ => true
  | _ => false

/-- Whether a worker trains. -/
def isTraining : Status τ → Bool
  | .training => true
  | _ => false

/-- Whether a worker has finished. -/
def isFinished : Status τ → Bool
  | .finished => true
  | _ => false

/-- The ticket of a waiting worker. -/
def ticket? : Status τ → Option τ
  | .waiting ticket => some ticket
  | _ => none

end Status

/-- What the barrier knows of a worker. -/
structure Record (α τ : Type) where
  submitted : Option (Params α)
  status : Status τ
  done : Nat
  total : Nat
  losses : Dict LossLabel α

/-- The answer to a ticket. -/
inductive Answer (α : Type) where
  /-- The model of the round that the ticket's submission took part in. -/
  | merged (model : Params α)
  /-- The ticket was given up. -/
  | closed

/-- A ticket and its answer. -/
structure Reply (α τ : Type) where
  ticket : τ
  answer : Answer α

/-- What a round did. -/
structure Round where
  /-- The workers whose models were averaged. -/
  merged : List WorkerId
  /-- The workers that were answered. -/
  released : List WorkerId

/-- The records of all workers, the latest merged model, and the number of merges. -/
structure Barrier (α τ : Type) where
  records : Array (Record α τ)
  merged : Option (Params α)
  rounds : Nat

namespace Barrier

variable {α τ : Type}

/-- A barrier for workers with the given counts of batches. -/
def ofTotals (totals : List Nat) : Barrier α τ :=
  ⟨(totals.map fun total => ⟨none, .training, 0, total, Dict.empty⟩).toArray, none, 0⟩

/-- The number of workers. -/
def size (b : Barrier α τ) : Nat := b.records.size

/-- The record of a worker. -/
def record? (b : Barrier α τ) (w : WorkerId) : Option (Record α τ) := b.records[w.index]?

/-- Changes the record of a worker, if there is one. -/
def modify (b : Barrier α τ) (w : WorkerId) (f : Record α τ → Record α τ) : Barrier α τ :=
  { b with records := b.records.modify w.index f }

@[simp] theorem size_modify (b : Barrier α τ) (w : WorkerId) (f : Record α τ → Record α τ) :
    (b.modify w f).size = b.size := by simp [size, modify]

/-- Changing a record changes no other one. -/
theorem record?_modify (b : Barrier α τ) (w v : WorkerId) (f : Record α τ → Record α τ) :
    (b.modify w f).record? v = if w = v then (b.record? v).map f else b.record? v := by
  unfold record? modify
  rw [Array.getElem?_modify]
  by_cases h : w = v
  · simp [h]
  · have h' : w.index ≠ v.index := fun hi => h (by cases w; cases v; simpa using hi)
    simp [h, h']

/-! ## Messages of one worker -/

/-- Notes that a worker is about to train on a batch. Progress never goes back. -/
def progress (b : Barrier α τ) (w : WorkerId) (batch total : Nat) : Barrier α τ :=
  b.modify w fun r => { r with done := max batch r.done, total }

/-- The ticket that a worker gives up when its status changes. -/
def closing (r : Record α τ) : List (Reply α τ) :=
  (r.status.ticket?.map fun ticket => (⟨ticket, .closed⟩ : Reply α τ)).toList

/-- Takes a model in, and lets its worker wait. A finished or unknown worker is not heard. -/
def submit (b : Barrier α τ) (w : WorkerId) (batch : Nat) (model : Params α) (loss : α)
    (ticket : τ) : Barrier α τ × List (Reply α τ) :=
  match b.record? w with
  | none => (b, [⟨ticket, .closed⟩])
  | some r =>
    if r.status.isFinished then (b, [⟨ticket, .closed⟩])
    else
      (b.modify w fun r =>
        { r with
          submitted := some model
          status := .waiting ticket
          done := max batch r.done
          losses := r.losses.insert (.batch batch) loss },
        closing r)

/-- Takes a worker's last model in, and lets it leave for good. -/
def finish (b : Barrier α τ) (w : WorkerId) (model : Params α) (loss : α) (total : Nat) :
    Barrier α τ × List (Reply α τ) :=
  match b.record? w with
  | none => (b, [])
  | some r =>
    (b.modify w fun r =>
      { submitted := some model
        status := .finished
        done := total
        total := total
        losses := r.losses.insert .final loss },
      closing r)

/-! ## Rounds -/

/-- Whether a round is due: some worker waits and none is training. -/
def roundReady (b : Barrier α τ) : Bool :=
  b.records.any (·.status.isWaiting) && !b.records.any (·.status.isTraining)

/-- The records with their workers, in worker order. -/
def numbered (b : Barrier α τ) : List (WorkerId × Record α τ) :=
  b.records.toList.zipIdx.map fun e => (⟨e.2⟩, e.1)

/-- Whether a record takes part in a round. -/
def takesPart (scope : MergeScope) (r : Record α τ) : Bool :=
  match scope with
  | .retained => true
  | .waitingOnly => r.status.isWaiting

/-- The models that a round resolved now would average, in worker order. -/
def contributions (b : Barrier α τ) (scope : MergeScope) : List (WorkerId × Params α) :=
  b.numbered.filterMap fun e =>
    if takesPart scope e.2 then e.2.submitted.map (e.1, ·) else none

/-- The workers whose models a round resolved now would average. -/
def participants (b : Barrier α τ) (scope : MergeScope) : List WorkerId :=
  (b.contributions scope).map (·.1)

/-- The waiting workers with their tickets, in worker order. -/
def waiting (b : Barrier α τ) : List (WorkerId × τ) :=
  b.numbered.filterMap fun e => e.2.status.ticket?.map (e.1, ·)

/-- Sends every waiting worker back to training. -/
def release (b : Barrier α τ) : Barrier α τ :=
  { b with
    records := b.records.map fun r =>
      if r.status.isWaiting then { r with status := .training } else r }

/-- Averages the models of a round and answers the waiting workers. If no model takes part, the
    merged model of the round before stands. A refused average changes nothing. -/
def resolve [Scalar α] (b : Barrier α τ) (weights : Weights α) (scope : MergeScope) :
    Except (AggregationError α) (Barrier α τ × Round × List (Reply α τ)) := do
  let models := b.contributions scope
  let ids := models.map (·.1)
  let b := match ← Params.average models (some weights) with
    | some model => { b with merged := some model, rounds := b.rounds + 1 }
    | none => b
  match b.merged with
  | none => return (b, ⟨ids, []⟩, [])
  | some model =>
    let waiting := b.waiting
    return (b.release, ⟨ids, waiting.map (·.1)⟩, waiting.map fun e => ⟨e.2, .merged model⟩)

/-! ## Views -/

/-- What a record shows. -/
def reportOf (w : WorkerId) (r : Record α τ) : Report α :=
  ⟨w, r.done, r.total, r.losses, r.status.isWaiting, r.status.isFinished⟩

/-- The report of a worker. -/
def report? (b : Barrier α τ) (w : WorkerId) : Option (Report α) :=
  (b.record? w).map (reportOf w)

/-- The reports of all workers, in worker order. -/
def reports (b : Barrier α τ) : List (Report α) := b.numbered.map fun e => reportOf e.1 e.2

/-- The tickets of waiting workers, given up. -/
def abandon (b : Barrier α τ) : List (Reply α τ) := b.waiting.map fun e => ⟨e.2, .closed⟩

end Barrier

end Federated
