/-
  Federated.Proofs.Model.Gradient

  The gradient of the mean squared error in exact arithmetic. The loss is a quadratic function of
  the parameters, so that around every model it is its value there, a linear part and a square:
  what is computed as the gradient is the linear part.

    * `Affine.lossAt_exact` — the loss is the mean of the squared differences.
    * `Affine.outputAt_add`, `Affine.slopes_mul` — what moved parameters do to the outputs, and
      what the slopes say of it.
    * `Affine.gradient_expands` — the loss at moved parameters, to the last term.
-/
import Federated.Proofs.Model.Parts
import Federated.Proofs.Numeric.Sums

namespace Federated

-- the operations of exact arithmetic are written as those of the field
attribute [-instance] Scalar.toAdd Scalar.toSub Scalar.toMul Scalar.toDiv Scalar.toNeg

variable {K : Type} [Field K] [LinearOrder K] [Root K] {rows inputs outputs : Nat}

omit [LinearOrder K] [Root K] in
/-- The elements of a matrix sum up row by row. -/
theorem Matrix.sum_data_ofFn (f : Fin rows → Fin outputs → K) :
    (ofFn rows outputs f).data.toList.sum = ∑ i, ∑ j, f i j := by
  have hcells : ∑ k : Fin (rows * outputs), f k.divNat k.modNat =
      ∑ cell : Fin rows × Fin outputs, f cell.1 cell.2 :=
    finProdFinEquiv.symm.sum_comp fun cell : Fin rows × Fin outputs => f cell.1 cell.2
  calc (ofFn rows outputs f).data.toList.sum
      = ∑ k : Fin (rows * outputs), f k.divNat k.modNat := by
        rw [ofFn, Array.toList_ofFn, List.sum_ofFn]
        rfl
    _ = ∑ i, ∑ j, f i j := by rw [hcells, Fintype.sum_prod_type]

namespace Affine

variable (weight : Fin inputs → Fin outputs → K) (bias : Fin outputs → K)
  (x : Fin rows → Fin inputs → K) (y : Fin rows → Fin outputs → K)

theorem outputAt_exact (i : Fin rows) (j : Fin outputs) :
    outputAt weight bias x i j = ∑ k, x i k * weight k j + bias j :=
  congrArg (· + bias j) (Scalar.blockedSum_exact inputs fun k => x i k * weight k j)

theorem slopeAt_exact (i : Fin rows) (j : Fin outputs) :
    slopeAt weight bias x y i j =
      (outputAt weight bias x i j - y i j) * (2 / ((rows * outputs : Nat) : K)) := by
  have htwo : (Scalar.ofCount 2 : K) = 2 := Nat.cast_ofNat
  rw [slopeAt, htwo]
  rfl

/-- The loss is the mean of the squared differences. -/
theorem lossAt_exact : lossAt weight bias x y =
    (∑ i, ∑ j, (outputAt weight bias x i j - y i j) ^ 2) / ((rows * outputs : Nat) : K) := by
  have hsum : Scalar.lanedSum (Matrix.ofFn rows outputs fun i j =>
      (outputAt weight bias x i j - y i j) * (outputAt weight bias x i j - y i j)).data =
      ∑ i, ∑ j, (outputAt weight bias x i j - y i j) ^ 2 := by
    rw [Scalar.lanedSum_exact, Matrix.sum_data_ofFn]
    simp only [sq]
  unfold lossAt
  split_ifs with hnone
  · rw [hnone, Nat.cast_zero, div_zero]
    rfl
  · exact congrArg (· / ((rows * outputs : Nat) : K)) hsum

/-- What a model puts out after its parameters have moved. -/
theorem outputAt_add (dweight : Fin inputs → Fin outputs → K) (dbias : Fin outputs → K)
    (i : Fin rows) (j : Fin outputs) :
    outputAt (weight + dweight) (bias + dbias) x i j =
      outputAt weight bias x i j + (∑ k, x i k * dweight k j + dbias j) := by
  simp only [outputAt_exact, Pi.add_apply, mul_add, Finset.sum_add_distrib]
  ring

/-- The slopes in the parameters, along a move of these, say what the slopes in the outputs say
    along what the outputs move by. -/
theorem slopes_mul (dweight : Fin inputs → Fin outputs → K) (dbias : Fin outputs → K) :
    ∑ k, ∑ j, weightSlopeAt weight bias x y k j * dweight k j +
        ∑ j, biasSlopeAt weight bias x y j * dbias j =
      ∑ i, ∑ j, slopeAt weight bias x y i j * (∑ k, x i k * dweight k j + dbias j) := by
  have hweight : ∑ k, ∑ j, weightSlopeAt weight bias x y k j * dweight k j =
      ∑ i, ∑ j, slopeAt weight bias x y i j * ∑ k, x i k * dweight k j := by
    calc ∑ k, ∑ j, weightSlopeAt weight bias x y k j * dweight k j
        = ∑ k, ∑ j, ∑ i, slopeAt weight bias x y i j * (x i k * dweight k j) := by
          refine Finset.sum_congr rfl fun k _ => Finset.sum_congr rfl fun j _ => ?_
          rw [weightSlopeAt, Scalar.blockedSum_exact, Finset.sum_mul]
          refine Finset.sum_congr rfl fun i _ => ?_
          ring
      _ = ∑ j, ∑ k, ∑ i, slopeAt weight bias x y i j * (x i k * dweight k j) := Finset.sum_comm
      _ = ∑ j, ∑ i, ∑ k, slopeAt weight bias x y i j * (x i k * dweight k j) :=
          Finset.sum_congr rfl fun j _ => Finset.sum_comm
      _ = ∑ i, ∑ j, ∑ k, slopeAt weight bias x y i j * (x i k * dweight k j) := Finset.sum_comm
      _ = ∑ i, ∑ j, slopeAt weight bias x y i j * ∑ k, x i k * dweight k j := by
          simp only [Finset.mul_sum]
  have hbias : ∑ j, biasSlopeAt weight bias x y j * dbias j =
      ∑ i, ∑ j, slopeAt weight bias x y i j * dbias j := by
    rw [Finset.sum_comm]
    refine Finset.sum_congr rfl fun j _ => ?_
    rw [biasSlopeAt, Scalar.sum_exact, Finset.sum_mul]
  rw [hweight, hbias]
  simp only [← Finset.sum_add_distrib, mul_add]

/-- The loss at moved parameters: the loss, the gradient along the move, and the mean of the squares
    by which the outputs move. -/
theorem lossAt_add (dweight : Fin inputs → Fin outputs → K) (dbias : Fin outputs → K) :
    lossAt (weight + dweight) (bias + dbias) x y = lossAt weight bias x y +
      (∑ k, ∑ j, weightSlopeAt weight bias x y k j * dweight k j +
        ∑ j, biasSlopeAt weight bias x y j * dbias j) +
      1 / ((rows * outputs : Nat) : K) *
        ∑ i, ∑ j, (∑ k, x i k * dweight k j + dbias j) ^ 2 := by
  rw [slopes_mul, lossAt_exact, lossAt_exact]
  simp only [outputAt_add, slopeAt_exact, Finset.sum_div, Finset.mul_sum,
    ← Finset.sum_add_distrib]
  refine Finset.sum_congr rfl fun i _ => Finset.sum_congr rfl fun j _ => ?_
  ring

/-- The gradient is the true one. In exact arithmetic, for every model and every batch that fits it,
    the loss at parameters moved by anything is the loss, the sum of the products of gradient and
    move, and the mean of the squares by which the outputs move. -/
theorem gradient_expands (extents : Storable inputs outputs)
    (storable : isStorable [rows, outputs] = true) :
    ∃ loss gweight gbias,
      (ofParts weight bias).gradient (.ofParts x y) = .ok (loss, parts gweight gbias) ∧
      ∀ (dweight : Fin inputs → Fin outputs → K) (dbias : Fin outputs → K), ∃ moved gradient,
        (ofParts (weight + dweight) (bias + dbias)).gradient (.ofParts x y) =
          .ok (moved, gradient) ∧
        moved = loss + (∑ k, ∑ j, gweight k j * dweight k j + ∑ j, gbias j * dbias j) +
          1 / ((rows * outputs : Nat) : K) *
            ∑ i, ∑ j, (∑ k, x i k * dweight k j + dbias j) ^ 2 := by
  refine ⟨_, _, _, gradient_ofParts weight bias x y extents storable, fun dweight dbias => ?_⟩
  exact ⟨_, _, gradient_ofParts (weight + dweight) (bias + dbias) x y extents storable,
    lossAt_add weight bias x y dweight dbias⟩

/-- Two rows of two inputs and two outputs, over the rationals. With one added to all parameters the
    loss goes from 125/8 to 333/8, of which 10 is the sum of the gradient and 16 that of squares. -/
theorem gradient_expands_two :
    let weight : Fin 2 → Fin 2 → ℚ := ![![1, 0], ![2, -1]]
    let bias : Fin 2 → ℚ := ![1, 1 / 2]
    let x : Fin 2 → Fin 2 → ℚ := ![![1, 2], ![0, 3]]
    let y : Fin 2 → Fin 2 → ℚ := ![![1, 1], ![2, 0]]
    Storable 2 2 ∧ isStorable [2, 2] = true ∧
      ∃ (gweight : Fin 2 → Fin 2 → ℚ) (gbias : Fin 2 → ℚ),
        (ofParts weight bias).gradient (.ofParts x y) = .ok (125 / 8, parts gweight gbias) ∧
        (∃ gradient, (ofParts (weight + 1) (bias + 1)).gradient (.ofParts x y) =
          .ok (333 / 8, gradient)) ∧
        ∑ k, ∑ j, gweight k j + ∑ j, gbias j = 10 := by
  intro weight bias x y
  have extents : Storable 2 2 := ⟨by decide, by decide⟩
  have storable : isStorable [2, 2] = true := by decide
  obtain ⟨loss, gweight, gbias, hgradient, hmove⟩ :=
    gradient_expands weight bias x y extents storable
  obtain ⟨moved, gradient, hmoved, hsum⟩ := hmove 1 1
  have hloss : ((ofParts weight bias).gradient (.ofParts x y)).toOption.map (·.1) =
      some (125 / 8) := by
    decide +kernel
  have hloss' : ((ofParts (weight + 1) (bias + 1)).gradient (.ofParts x y)).toOption.map (·.1) =
      some (333 / 8) := by
    decide +kernel
  rw [hgradient] at hloss
  rw [hmoved] at hloss'
  obtain rfl : loss = 125 / 8 := Option.some.inj hloss
  obtain rfl : moved = 333 / 8 := Option.some.inj hloss'
  refine ⟨extents, storable, gweight, gbias, hgradient, ⟨gradient, hmoved⟩, ?_⟩
  have hsquares : 1 / ((2 * 2 : Nat) : ℚ) *
      ∑ i, ∑ j : Fin 2,
        (∑ k, x i k * (1 : Fin 2 → Fin 2 → ℚ) k j + (1 : Fin 2 → ℚ) j) ^ 2 = 16 := by
    decide +kernel
  rw [hsquares] at hsum
  simp only [Pi.one_apply, mul_one] at hsum
  linarith

end Affine

end Federated
