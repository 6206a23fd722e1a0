/-
  Federated.Optimizer.Spec

  The hyperparameters an optimizer is built from.
-/
import Federated.Config.Error
import Federated.Scalar

namespace Federated

/-- A kind of optimizer and its hyperparameters. -/
inductive OptimizerSpec (α : Type) where
  | adam (rate beta1 beta2 epsilon : α)
  | descent (rate : α)
  | momentum (rate momentum : α)

namespace OptimizerSpec

variable {α : Type}

/-- The learning rate. -/
def rate : OptimizerSpec α → α
  | .adam r _ _ _ => r
  | .descent r => r
  | .momentum r _ => r

/-- The same hyperparameters with another learning rate. -/
def withRate (r : α) : OptimizerSpec α → OptimizerSpec α
  | .adam _ beta1 beta2 epsilon => .adam r beta1 beta2 epsilon
  | .descent _ => .descent r
  | .momentum _ mu => .momentum r mu

variable [Scalar α]

/-- Refuses a hyperparameter that is not a finite number above zero. -/
def requirePositive (name : Hyperparameter) (x : α) : Except (ConfigError α) Unit :=
  if Scalar.isPositive x then .ok () else .error (.hyperparameter name x)

/-- Refuses a hyperparameter outside the half-open interval from zero to one. -/
def requireFraction (name : Hyperparameter) (x : α) : Except (ConfigError α) Unit :=
  if Scalar.isFraction x then .ok () else .error (.hyperparameter name x)

/-- Refuses the first hyperparameter that cannot be used. -/
def validate (s : OptimizerSpec α) : Except (ConfigError α) Unit := do
  requirePositive .learningRate s.rate
  match s with
  | .adam _ beta1 beta2 epsilon =>
    requireFraction .beta1 beta1
    requireFraction .beta2 beta2
    requirePositive .epsilon epsilon
  | .descent _ => return ()
  | .momentum _ mu => requireFraction .momentum mu

end OptimizerSpec

end Federated
