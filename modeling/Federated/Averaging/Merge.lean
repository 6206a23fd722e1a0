/-
  Federated.Averaging.Merge

  The weighted average of models. Models are combined in worker order whatever order they
  come in; a single model is its own average.
-/
import Federated.Averaging.Weights

namespace Federated

variable {α : Type} [Scalar α]

/-- A tensor with the multiple of another of the same shape added to it. -/
def Tensor.addScaled (acc : Tensor α) (w : α) (t : Tensor α) : Tensor α :=
  match Tensor.zipWith (fun a x => a + w * x) acc t with
  | .ok sum => sum
  | .error _ => acc

namespace Params

/-- The first model whose layout differs from that of `first`. -/
def foreignLayout? (first : Params α) (others : List (WorkerId × Params α)) :
    Option (AggregationError α) :=
  others.findSome? fun e => (first.layoutMismatch? e.2).map (.layout e.1)

/-- The weighted sum of a parameter, the first model's share scaled and the others' added to
    it in order. -/
def weightedSum (name : String) (w : α) (first : Tensor α) (others : List (α × Params α)) :
    Tensor α :=
  others.foldl
    (fun acc e => match e.2.find? name with
      | some t => acc.addScaled e.1 t
      | none => acc)
    (first.map fun x => x * w)

/-- The average of models by worker: none without models, the model itself if there is one, and
    else the sum weighted by the restricted weights. Without weights all models count the same. -/
def average (models : List (WorkerId × Params α)) (weights : Option (Weights α)) :
    Except (AggregationError α) (Option (Params α)) := do
  let models := Dict.ofList models
  match models.entries with
  | [] => return none
  | [(_, only)] => return some only
  | (w, first) :: others =>
    if let some refusal := first.foreignLayout? others then throw refusal
    let weights ← (weights.getD (Weights.uniform models.keys)).restrict models.keys
    let weightOf (w : WorkerId) : α := (weights.find? w).getD Scalar.zero
    let scaled := others.map fun e => (weightOf e.1, e.2)
    return some ⟨first.tensors.mapValues fun name t => weightedSum name (weightOf w) t scaled⟩

end Params

end Federated
