/-
  Federated.Optimizer.Basic

  The three optimizers. An update first compares the layouts of gradient and parameters and
  refuses a difference before anything changes. Accumulated tensors are created, as zeros in
  the shape of the gradient, when their parameter is met for the first time.
-/
import Federated.Model.Error
import Federated.Optimizer.Spec

namespace Federated

variable {α : Type}

/-- Gradient descent. -/
structure Descent (α : Type) where
  rate : α

/-- Gradient descent along a velocity that keeps a share of itself from step to step. -/
structure Momentum (α : Type) where
  rate : α
  momentum : α
  velocity : Dict String (Tensor α)

/-- The running means of a gradient and of its square. -/
structure Moments (α : Type) where
  mean : Tensor α
  square : Tensor α

/-- Descent by the ratio of a gradient's running mean to the root of its running square, both
    corrected for their start at zero by the powers of their decay rates. -/
structure Adam (α : Type) where
  rate : α
  beta1 : α
  beta2 : α
  epsilon : α
  power1 : α
  power2 : α
  moments : Dict String (Moments α)

/-- An optimizer with everything it has accumulated. -/
inductive Optimizer (α : Type) where
  | descent (o : Descent α)
  | momentum (o : Momentum α)
  | adam (o : Adam α)

namespace Optimizer

/-- The learning rate in force. -/
def rate : Optimizer α → α
  | .descent o => o.rate
  | .momentum o => o.rate
  | .adam o => o.rate

/-- The same optimizer with another learning rate. -/
def withRate (r : α) : Optimizer α → Optimizer α
  | .descent o => .descent { o with rate := r }
  | .momentum o => .momentum { o with rate := r }
  | .adam o => .adam { o with rate := r }

end Optimizer

variable [Scalar α]

namespace Descent

/-- The step of one parameter. -/
def step (o : Descent α) (p g : Tensor α) : Except Defect (Tensor α) :=
  Tensor.zipWith (fun p g => p + -o.rate * g) p g

/-- The parameters after a step. -/
def update (o : Descent α) (pairs : Dict String (Tensor α × Tensor α)) :
    Except Defect (Descent α × Params α) := do
  let stepped ← pairs.traverse fun _ pair => o.step pair.1 pair.2
  return (o, ⟨stepped⟩)

end Descent

namespace Momentum

/-- The step of one parameter: the parameter and its velocity after it. -/
def step (o : Momentum α) (name : String) (p g : Tensor α) :
    Except Defect (Tensor α × Tensor α) := do
  let start := (o.velocity.find? name).getD (Tensor.zeros g.shape)
  let velocity ← Tensor.zipWith (fun v g => o.momentum * v + g) start g
  let moved ← Tensor.zipWith (fun p v => p - o.rate * v) p velocity
  return (moved, velocity)

/-- The optimizer and the parameters after a step. -/
def update (o : Momentum α) (pairs : Dict String (Tensor α × Tensor α)) :
    Except Defect (Momentum α × Params α) := do
  let stepped ← pairs.traverse fun name pair => o.step name pair.1 pair.2
  let velocity := o.velocity.insertAll (stepped.mapValues fun _ s => s.2).entries
  return ({ o with velocity }, ⟨stepped.mapValues fun _ s => s.1⟩)

end Momentum

namespace Adam

/-- The optimizer with its powers taken to the next step. -/
def advance (o : Adam α) : Adam α :=
  { o with power1 := o.power1 * o.beta1, power2 := o.power2 * o.beta2 }

/-- The learning rate with both corrections applied. -/
def stepSize (o : Adam α) : α :=
  let one : α := Scalar.one
  o.rate * (Scalar.sqrt (one - o.power2) / (one - o.power1))

/-- The step of one parameter: the parameter and its moments after it. -/
def step (o : Adam α) (name : String) (p g : Tensor α) :
    Except Defect (Tensor α × Moments α) := do
  let one : α := Scalar.one
  let start := (o.moments.find? name).getD ⟨Tensor.zeros g.shape, Tensor.zeros g.shape⟩
  let mean ← Tensor.zipWith (fun v g => o.beta1 * v + (one - o.beta1) * g) start.mean g
  let square ← Tensor.zipWith (fun s g => o.beta2 * s + (one - o.beta2) * (g * g)) start.square g
  let size := o.stepSize
  let change ← Tensor.zipWith (fun v s => size * v / (Scalar.sqrt s + o.epsilon)) mean square
  let moved ← Tensor.zipWith (fun p c => p - c) p change
  return (moved, ⟨mean, square⟩)

/-- The optimizer and the parameters after a step. -/
def update (o : Adam α) (pairs : Dict String (Tensor α × Tensor α)) :
    Except Defect (Adam α × Params α) := do
  let o := o.advance
  let stepped ← pairs.traverse fun name pair => o.step name pair.1 pair.2
  let moments := o.moments.insertAll (stepped.mapValues fun _ s => s.2).entries
  return ({ o with moments }, ⟨stepped.mapValues fun _ s => s.1⟩)

end Adam

/-- A fresh optimizer, which has accumulated nothing. -/
def OptimizerSpec.build : OptimizerSpec α → Optimizer α
  | .adam rate beta1 beta2 epsilon =>
    .adam ⟨rate, beta1, beta2, epsilon, Scalar.one, Scalar.one, Dict.empty⟩
  | .descent rate => .descent ⟨rate⟩
  | .momentum rate mu => .momentum ⟨rate, mu, Dict.empty⟩

namespace Optimizer

/-- The optimizer and the parameters after a step along the negative gradient. -/
def update (o : Optimizer α) (gradient params : Params α) :
    Except (Halt ModelError) (Optimizer α × Params α) := do
  let pairs ← (params.paired gradient).mapError fun m => Halt.error (.layout m)
  match o with
  | .descent o =>
    let (o, params) ← (o.update pairs).mapError Halt.defect
    return (.descent o, params)
  | .momentum o =>
    let (o, params) ← (o.update pairs).mapError Halt.defect
    return (.momentum o, params)
  | .adam o =>
    let (o, params) ← (o.update pairs).mapError Halt.defect
    return (.adam o, params)

end Optimizer

end Federated
