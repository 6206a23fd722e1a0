/-
  Federated.Model.Affine

  The affine model `y = x W + b`: its prediction, and the loss and gradient of a batch under
  the mean squared error. Its parameters are a matrix named `weight` and a row named `bias`,
  but any parameters can be put in, so each use looks them up and checks them.
-/
import Federated.Model.Error
import Federated.Model.SquaredError

namespace Federated

/-- Rows of inputs and the rows of labels that belong to them. -/
structure Batch (α : Type) where
  inputs : Matrix α
  labels : Matrix α

namespace Batch

variable {α : Type}

/-- A batch with as many rows of labels as of inputs. -/
def ofRows (inputs labels : Matrix α) : Except ModelError (Batch α) :=
  if inputs.rows = labels.rows then .ok ⟨inputs, labels⟩
  else .error (.sizeMismatch .inputs .labels labels.rows inputs.rows)

/-- The number of samples. -/
def size (b : Batch α) : Nat := b.inputs.rows

end Batch

/-- An affine model with its extents and its current parameters. -/
structure Affine (α : Type) where
  inputs : Nat
  outputs : Nat
  params : Params α

namespace Affine

variable {α : Type} [Scalar α]

/-- The name of the matrix. -/
def weightName : String := "weight"

/-- The name of the row. -/
def biasName : String := "bias"

/-- The parameters made of a matrix and a row. -/
def paramsOf (weight bias : Tensor α) : Params α :=
  (Params.empty.insert weightName weight).insert biasName bias

/-- Refuses extents whose matrix or row cannot be stored. -/
def requireExtents (inputs outputs : Nat) : Except Defect Unit := do
  requireStorage [inputs, outputs]
  requireStorage [outputs]

/-- A model with given weights and a bias of zeros. -/
def ofWeights (weight : Matrix α) : Affine α :=
  ⟨weight.rows, weight.cols, paramsOf weight.toTensor (Tensor.zeros [weight.cols])⟩

/-- The model whose parameters are all zero. -/
def zeros (inputs outputs : Nat) : Except Defect (Affine α) := do
  requireExtents inputs outputs
  return ofWeights (Matrix.zeros inputs outputs)

/-- The same model with other parameters of the same layout. -/
def load (m : Affine α) (params : Params α) : Except ModelError (Affine α) :=
  match m.params.assign params with
  | .ok params => .ok { m with params }
  | .error mismatch => .error (.layout mismatch)

/-- A parameter, seen with the rank its use calls for. -/
def parameter {β : Type} (m : Affine α) (name : String) (view : Tensor α → Option β) :
    Except ModelError β :=
  match m.params.find? name with
  | none => .error (.parameter name .missing)
  | some t =>
    match view t with
    | none => .error (.parameter name .rank)
    | some v => .ok v

/-- The matrix and the row of a model. -/
def view (m : Affine α) : Except ModelError (Matrix α × Array α) := do
  let weight ← m.parameter weightName Tensor.toMatrix?
  let bias ← m.parameter biasName Tensor.toVector?
  return (weight, bias)

/-- One prediction per row of inputs. -/
def predict (m : Affine α) (x : Matrix α) : Except (Halt ModelError) (Matrix α) := do
  let (weight, bias) ← m.view.mapError Halt.error
  if x.cols ≠ weight.rows then
    throw (.error (.sizeMismatch .inputs .weights x.cols weight.rows))
  let product ← (x.mul weight).mapError Halt.defect
  (Matrix.zipWith (fun p b : α => p + b) product (Matrix.ofRow bias)).mapError Halt.defect

/-- The loss of a batch and the gradient of every parameter. -/
def gradient (m : Affine α) (batch : Batch α) : Except (Halt ModelError) (α × Params α) := do
  if batch.labels.cols ≠ m.outputs then
    throw (.error (.sizeMismatch .labels .outputs batch.labels.cols m.outputs))
  let predicted ← m.predict batch.inputs
  let loss ← (SquaredError.loss predicted batch.labels).mapError Halt.defect
  let slope ← (SquaredError.slope predicted batch.labels).mapError Halt.defect
  let weight ← (batch.inputs.transpose.mul slope).mapError Halt.defect
  let bias ← slope.columnSums.mapError Halt.defect
  return (loss, paramsOf weight.toTensor (Tensor.ofVector bias))

end Affine

end Federated
