/-
  Federated.Model.SquaredError

  The mean squared error of predictions against labels, and its slope.
-/
import Federated.Tensor.Matrix

namespace Federated

namespace SquaredError

variable {α : Type} [Scalar α]

/-- The mean of the squared differences, zero if there are none. -/
def loss (predicted labels : Matrix α) : Except Defect α := do
  let difference ← Matrix.zipWith (fun p y : α => p - y) predicted labels
  let squares := difference.map fun x => x * x
  return if squares.size = 0 then Scalar.zero
    else Scalar.lanedSum squares.data / Scalar.ofCount squares.size

/-- The slope of the loss in each prediction: twice the difference, over the number of
    predictions. -/
def slope (predicted labels : Matrix α) : Except Defect (Matrix α) := do
  let difference ← Matrix.zipWith (fun p y : α => p - y) predicted labels
  let factor : α := Scalar.ofCount 2 / Scalar.ofCount predicted.size
  return difference.map fun x => x * factor

end SquaredError

end Federated
