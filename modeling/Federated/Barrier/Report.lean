/-
  Federated.Barrier.Report

  What can be seen of a worker while an epoch runs: its progress, the losses it recorded, and
  whether it waits or has finished. Also the line that shows a report.
-/
import Federated.Numeric.Notation
import Federated.WorkerId

namespace Federated

/-- The point of an epoch that a loss was recorded at. -/
inductive LossLabel where
  /-- The synchronization before batch `n`. -/
  | batch (n : Nat)
  /-- The end of the epoch. -/
  | final
  deriving DecidableEq

namespace LossLabel

/-- Batches in order, and the end of the epoch behind all of them. -/
def order : LossLabel → LossLabel → Ordering
  | .batch a, .batch b => compare a b
  | .batch _, .final => .lt
  | .final, .batch _ => .gt
  | .final, .final => .eq

instance : Ord LossLabel := ⟨order⟩

instance : Std.TransOrd LossLabel where
  eq_swap {a b} :=
    match a, b with
    | .batch _, .batch _ => (inferInstance : Std.OrientedOrd Nat).eq_swap
    | .batch _, .final | .final, .batch _ | .final, .final => rfl
  isLE_trans {a b c} hab hbc :=
    match a, b, c with
    | .batch _, .batch _, .batch _ => (inferInstance : Std.TransOrd Nat).isLE_trans hab hbc
    | .batch _, _, .final => rfl
    | .batch _, .final, .batch _ => Bool.noConfusion hbc
    | .final, .batch _, _ => Bool.noConfusion hab
    | .final, .final, .batch _ => Bool.noConfusion hbc
    | .final, .final, .final => rfl

instance : Std.LawfulEqOrd LossLabel where
  eq_of_compare {a b} h :=
    match a, b with
    | .batch _, .batch _ =>
      congrArg LossLabel.batch ((inferInstance : Std.LawfulEqOrd Nat).eq_of_compare h)
    | .final, .final => rfl

end LossLabel

/-- A view of one worker's record. -/
structure Report (α : Type) where
  worker : WorkerId
  /-- Batches begun or completed, and all batches of the worker. -/
  done : Nat
  total : Nat
  losses : Dict LossLabel α
  waiting : Bool
  finished : Bool

namespace Report

/-- The mean loss of a worker's epoch, once it has finished. -/
def finalLoss? {α : Type} (r : Report α) : Option α := r.losses.find? .final

/-- Reports agree if they show the same. -/
instance {α : Type} [BEq α] : BEq (Report α) :=
  ⟨fun a b => a.worker == b.worker && a.done == b.done && a.total == b.total &&
    a.losses == b.losses && a.waiting == b.waiting && a.finished == b.finished⟩

/-- The word for what a worker is doing. -/
def status {α : Type} (r : Report α) : String :=
  if r.finished then "finished" else if r.waiting then "waiting" else "training"

/-- A loss in a progress line, with four decimals. -/
def lossText (x : Float32) : String := (singleValue x).fixedText 4

/-- The latest loss in a progress line. -/
def latestLoss (r : Report Float32) : String :=
  match r.losses.entries.getLast? with
  | some (.final, x) => "final loss " ++ lossText x
  | some (.batch n, x) => "loss " ++ lossText x ++ " at batch " ++ countText n
  | none => "no loss yet"

/-- The progress line of a worker. -/
def line (r : Report Float32) : String :=
  r.worker.name ++ ": " ++ countText r.done ++ "/" ++ countText r.total ++ " batches, " ++
    r.status ++ ", " ++ r.latestLoss

end Report

end Federated
