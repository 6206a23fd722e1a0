/-
  Federated.Optimizer.Bank

  The optimizers of an epoch's workers between epochs. A worker takes its optimizer out for
  the length of an epoch and hands it back at its end.
-/
import Federated.Optimizer.Basic

namespace Federated

/-- Stored optimizers, and the hyperparameters fresh ones are built from. -/
structure Bank (α : Type) where
  spec : OptimizerSpec α
  stored : Dict WorkerId (Optimizer α)

namespace Bank

variable {α : Type}

/-- A bank that holds nothing. -/
def ofSpec (spec : OptimizerSpec α) : Bank α := ⟨spec, Dict.empty⟩

/-- The number of stored optimizers. -/
def size (b : Bank α) : Nat := b.stored.size

/-- Whether nothing is stored. -/
def isEmpty (b : Bank α) : Bool := b.stored.isEmpty

/-- Gives stored and future optimizers another learning rate. -/
def withRate (b : Bank α) (rate : α) : Bank α :=
  ⟨b.spec.withRate rate, b.stored.mapValues fun _ o => o.withRate rate⟩

/-- Takes a worker's optimizer out, a fresh one if none is stored. -/
def take [Scalar α] (b : Bank α) (w : WorkerId) : Optimizer α × Bank α :=
  ((b.stored.find? w).getD b.spec.build, { b with stored := b.stored.erase w })

/-- Stores a worker's optimizer. -/
def restore (b : Bank α) (w : WorkerId) (o : Optimizer α) : Bank α :=
  { b with stored := b.stored.insert w o }

/-- A worker that takes its optimizer out leaves nothing behind. -/
theorem find?_take [Scalar α] (b : Bank α) (w v : WorkerId) :
    (b.take w).2.stored.find? v = if v = w then none else b.stored.find? v :=
  Dict.find?_erase b.stored w v

/-- A worker's optimizer is stored under its own number alone. -/
theorem find?_restore (b : Bank α) (w v : WorkerId) (o : Optimizer α) :
    (b.restore w o).stored.find? v = if v = w then some o else b.stored.find? v :=
  Dict.find?_insert b.stored w v o

end Bank

end Federated
