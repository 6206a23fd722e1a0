/-
  Federated.Sampling.Initial

  Random matrices and random starting models.
-/
import Federated.Model.Affine
import Federated.Sampling.Generator

namespace Federated

/-- A matrix of random elements from `low` to `high`, drawn row by row. -/
def Matrix.random (g : Generator) (low high : Float32) (rows cols : Nat) :
    Matrix Float32 × Generator :=
  let drawn := g.fill low high #[] (rows * cols)
  (⟨rows, cols, drawn.1, by simp [drawn, Generator.size_fill]⟩, drawn.2)

namespace Affine

/-- The bound of the starting weights of a model of given extents. -/
def weightBound (extents : Nat) : Float32 :=
  Float32.sqrt (singleOfCount 6 / singleOfCount extents)

/-- A model with weights spread evenly within a bound that keeps the spread of its outputs near
    that of its inputs, and a bias of zeros. -/
def random (g : Generator) (inputs outputs : Nat) :
    Except Defect (Affine Float32 × Generator) := do
  let bound := weightBound (← counted (inputs + outputs))
  requireExtents inputs outputs
  let drawn := Matrix.random g (-bound) bound inputs outputs
  return (ofWeights drawn.1, drawn.2)

end Affine

end Federated
