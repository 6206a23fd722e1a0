/-
  Federated.Model.Error

  Refusals of a local training step: data or parameters that do not fit the model.
-/
import Federated.Model.Params

namespace Federated

/-- What the two extents of a size mismatch belong to. -/
inductive DataPart where
  | inputs
  | labels
  | weights
  | outputs
  deriving DecidableEq

/-- The name of a part in a message. -/
def DataPart.name : DataPart → String
  | .inputs => "inputs"
  | .labels => "labels"
  | .weights => "weights"
  | .outputs => "outputs"

/-- What is wrong with a parameter. -/
inductive ParameterFault where
  | missing
  /-- The tensor does not have the rank its use calls for. -/
  | rank
  /-- A fault in a caller's own words. -/
  | noted (text : String)
  deriving DecidableEq

/-- The words for a fault. -/
def ParameterFault.message : ParameterFault → String
  | .missing => "missing"
  | .rank => "ShapeError/IncompatibleShape: incompatible shapes"
  | .noted text => text

/-- Why a local training step was refused. -/
inductive ModelError where
  | sizeMismatch (a b : DataPart) (got expected : Nat)
  | layout (mismatch : LayoutMismatch)
  | parameter (name : String) (fault : ParameterFault)
  deriving DecidableEq

/-- The words for a refusal. -/
def ModelError.message : ModelError → String
  | .sizeMismatch a b got expected =>
    "There's a size mismatch between " ++ a.name ++ " and " ++ b.name ++ ", got " ++
      countText got ++ " and expected " ++ countText expected
  | .layout mismatch => "model layout mismatch: " ++ mismatch.message
  | .parameter name fault => "parameter \x60" ++ name ++ "\x60 is invalid: " ++ fault.message

end Federated
