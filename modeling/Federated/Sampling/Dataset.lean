/-
  Federated.Sampling.Dataset

  A supervised dataset in memory, one sample per row, and the batches copied out of it.
-/
import Federated.Model.Affine

namespace Federated

/-- Rows of inputs and the rows of labels that belong to them. -/
structure Dataset (α : Type) where
  inputs : Matrix α
  labels : Matrix α
  rows_eq : inputs.rows = labels.rows

namespace Dataset

variable {α : Type}

/-- A dataset with as many rows of labels as of inputs. -/
def ofRows (inputs labels : Matrix α) : Except ModelError (Dataset α) :=
  if h : inputs.rows = labels.rows then .ok ⟨inputs, labels, h⟩
  else .error (.sizeMismatch .inputs .labels labels.rows inputs.rows)

/-- The number of samples. -/
def size (d : Dataset α) : Nat := d.inputs.rows

/-- The chosen rows in order. -/
def gather (d : Dataset α) (chosen : Array Nat) : Except Defect (Batch α) := do
  return ⟨← d.inputs.gather chosen, ← d.labels.gather chosen⟩

end Dataset

end Federated
