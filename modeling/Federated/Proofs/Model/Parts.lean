/-
  Federated.Proofs.Model.Parts

  Models and batches by their elements. A model of given extents is a matrix and a row, a batch
  that fits it a matrix of inputs and one of labels, and on these prediction, loss and gradient
  are functions of the elements.

    * `Affine.ofParts`, `Batch.ofParts` — the model and the batch of given elements.
    * `Affine.exists_eq_ofParts`, `Batch.exists_eq_ofParts` — there are no others.
    * `Affine.predict_ofParts`, `Affine.gradient_ofParts` — what comes of them, element by element.
-/
import Federated.Proofs.Model.Layout
import Federated.Proofs.Tensor.Matrix

namespace Federated

variable {α : Type} {rows inputs outputs : Nat}

/-! ## Tensors of rank one and two -/

theorem Tensor.exists_eq_toTensor {t : Tensor α} (h : t.shape = [rows, outputs]) :
    ∃ f : Fin rows → Fin outputs → α, t = (Matrix.ofFn rows outputs f).toTensor := by
  obtain ⟨shape, data, size⟩ := t
  obtain rfl : shape = [rows, outputs] := h
  have hsize : data.size = rows * outputs := by simpa [elementCount] using size
  obtain ⟨f, hf⟩ := Matrix.exists_eq_ofFn (m := ⟨rows, outputs, data, hsize⟩) rfl rfl
  exact ⟨f, by rw [← hf]; rfl⟩

theorem Tensor.exists_eq_ofVector {t : Tensor α} (h : t.shape = [outputs]) :
    ∃ f : Fin outputs → α, t = ofVector (.ofFn f) := by
  obtain ⟨shape, data, size⟩ := t
  obtain rfl : shape = [outputs] := h
  obtain rfl : data.size = outputs := by simpa [elementCount] using size
  have hdata : Array.ofFn (fun i : Fin data.size => data[i]) = data := by simp
  exact ⟨fun i => data[i], by rw [hdata]; rfl⟩

/-! ## Models -/

namespace Affine

/-- The parameters with given elements. -/
def parts (weight : Fin inputs → Fin outputs → α) (bias : Fin outputs → α) : Params α :=
  paramsOf (Matrix.ofFn inputs outputs weight).toTensor (Tensor.ofVector (.ofFn bias))

/-- The model with parameters of given elements. -/
def ofParts (weight : Fin inputs → Fin outputs → α) (bias : Fin outputs → α) : Affine α :=
  ⟨inputs, outputs, parts weight bias⟩

/-- The layout of a model of given extents: a matrix and a row, and nothing else. -/
def layoutOf (inputs outputs : Nat) : Dict String (List Nat) :=
  (Dict.empty.insert weightName [inputs, outputs]).insert biasName [outputs]

/-- Extents of a model that can be stored. -/
structure Storable (inputs outputs : Nat) : Prop where
  weight : isStorable [inputs, outputs] = true
  bias : isStorable [outputs] = true

theorem find?_paramsOf (weight bias : Tensor α) (name : String) :
    (paramsOf weight bias).find? name =
      if name = biasName then some bias else if name = weightName then some weight else none := by
  simp only [paramsOf, Params.insert, Params.empty, Params.find?, Dict.find?_insert,
    Dict.find?_empty]

theorem find?_layoutOf (name : String) :
    (layoutOf inputs outputs).find? name =
      if name = biasName then some [outputs]
      else if name = weightName then some [inputs, outputs] else none := by
  simp only [layoutOf, Dict.find?_insert, Dict.find?_empty]

theorem layout_paramsOf {weight bias : Tensor α} (hweight : weight.shape = [inputs, outputs])
    (hbias : bias.shape = [outputs]) :
    (paramsOf weight bias).layout = layoutOf inputs outputs := by
  apply Dict.ext_find?
  intro name
  rw [Params.find?_layout, find?_paramsOf, find?_layoutOf]
  split_ifs <;> simp [hweight, hbias]

theorem layout_parts (weight : Fin inputs → Fin outputs → α) (bias : Fin outputs → α) :
    (parts weight bias).layout = layoutOf inputs outputs :=
  layout_paramsOf rfl (by simp [Tensor.ofVector])

/-- Parameters of the layout of a model have given elements. -/
theorem exists_eq_parts {p : Params α} (h : p.layout = layoutOf inputs outputs) :
    ∃ (weight : Fin inputs → Fin outputs → α) (bias : Fin outputs → α), p = parts weight bias := by
  have hname : ∀ name, (p.find? name).map (·.shape) = (layoutOf inputs outputs).find? name := by
    intro name
    rw [← h, Params.find?_layout]
  have hweight : (layoutOf inputs outputs).find? weightName = some [inputs, outputs] := by
    rw [find?_layoutOf, if_neg (by decide), if_pos rfl]
  have hbias : (layoutOf inputs outputs).find? biasName = some [outputs] := by
    rw [find?_layoutOf, if_pos rfl]
  obtain ⟨t, ht, htshape⟩ := Option.map_eq_some_iff.1 ((hname weightName).trans hweight)
  obtain ⟨u, hu, hushape⟩ := Option.map_eq_some_iff.1 ((hname biasName).trans hbias)
  obtain ⟨weight, rfl⟩ := Tensor.exists_eq_toTensor htshape
  obtain ⟨bias, rfl⟩ := Tensor.exists_eq_ofVector hushape
  refine ⟨weight, bias, ?_⟩
  obtain ⟨tensors⟩ := p
  refine congrArg Params.mk (Dict.ext_find? fun name => ?_)
  refine Eq.trans ?_ (find?_paramsOf _ _ name).symm
  split_ifs with hb hw
  · rw [hb]
    exact hu
  · rw [hw]
    exact ht
  · have hnone := hname name
    rw [find?_layoutOf, if_neg hb, if_neg hw] at hnone
    exact Option.map_eq_none_iff.1 hnone

/-- A model of given extents, with parameters of its layout, has given elements. -/
theorem exists_eq_ofParts {m : Affine α} (hinputs : m.inputs = inputs)
    (houtputs : m.outputs = outputs) (h : m.params.layout = layoutOf inputs outputs) :
    ∃ (weight : Fin inputs → Fin outputs → α) (bias : Fin outputs → α),
      m = ofParts weight bias := by
  obtain ⟨_, _, params⟩ := m
  obtain rfl := hinputs
  obtain rfl := houtputs
  obtain ⟨weight, bias, hparams⟩ := exists_eq_parts h
  exact ⟨weight, bias, congrArg (Affine.mk _ _) hparams⟩

end Affine

/-! ## Batches -/

/-- The batch with inputs and labels of given elements. -/
def Batch.ofParts (x : Fin rows → Fin inputs → α) (y : Fin rows → Fin outputs → α) : Batch α :=
  ⟨Matrix.ofFn rows inputs x, Matrix.ofFn rows outputs y⟩

/-- A batch of given extents, with as many rows of labels as of inputs, has given elements. -/
theorem Batch.exists_eq_ofParts {b : Batch α} (hrows : b.inputs.rows = b.labels.rows)
    (hinputs : b.inputs.cols = inputs) (houtputs : b.labels.cols = outputs) :
    ∃ (x : Fin b.labels.rows → Fin inputs → α) (y : Fin b.labels.rows → Fin outputs → α),
      b = ofParts x y := by
  obtain ⟨x, hx⟩ := Matrix.exists_eq_ofFn hrows hinputs
  obtain ⟨y, hy⟩ := Matrix.exists_eq_ofFn (rfl : b.labels.rows = _) houtputs
  refine ⟨x, y, ?_⟩
  rw [ofParts, ← hx, ← hy]

/-! ## Prediction and slope -/

namespace Affine

variable [Scalar α] (weight : Fin inputs → Fin outputs → α) (bias : Fin outputs → α)
  (x : Fin rows → Fin inputs → α) (y : Fin rows → Fin outputs → α)

/-- One output of a model for one row of inputs. -/
def outputAt (i : Fin rows) (j : Fin outputs) : α :=
  Scalar.blockedSum inputs (fun k => x i k * weight k j) + bias j

/-- The slope of the loss in one output: twice the difference from its label, over the number of
    outputs of all rows. -/
def slopeAt (i : Fin rows) (j : Fin outputs) : α :=
  (outputAt weight bias x i j - y i j) * (Scalar.ofCount 2 / Scalar.ofCount (rows * outputs))

/-- The loss of a batch: the mean of the squared differences, zero if there are none. -/
def lossAt : α :=
  if rows * outputs = 0 then Scalar.zero
  else Scalar.lanedSum (Matrix.ofFn rows outputs fun i j =>
    (outputAt weight bias x i j - y i j) * (outputAt weight bias x i j - y i j)).data /
      Scalar.ofCount (rows * outputs)

/-- The slope of the loss in one element of the matrix. -/
def weightSlopeAt (k : Fin inputs) (j : Fin outputs) : α :=
  Scalar.blockedSum rows fun i => x i k * slopeAt weight bias x y i j

/-- The slope of the loss in one element of the row. -/
def biasSlopeAt (j : Fin outputs) : α := Scalar.sum rows fun i => slopeAt weight bias x y i j

omit [Scalar α] in
theorem view_ofParts :
    (ofParts weight bias).view = .ok (Matrix.ofFn inputs outputs weight, .ofFn bias) := by
  have hweight : (parts weight bias).find? weightName =
      some (Matrix.ofFn inputs outputs weight).toTensor := by
    rw [parts, find?_paramsOf, if_neg (by decide), if_pos rfl]
  have hbias : (parts weight bias).find? biasName = some (Tensor.ofVector (.ofFn bias)) := by
    rw [parts, find?_paramsOf, if_pos rfl]
  unfold view parameter ofParts
  rw [hweight, hbias]
  rfl

/-- A model predicts the outputs of rows that have as many inputs as it takes. -/
theorem predict_ofParts (storable : isStorable [rows, outputs] = true) :
    (ofParts weight bias).predict (Matrix.ofFn rows inputs x) =
      .ok (Matrix.ofFn rows outputs (outputAt weight bias x)) := by
  have hcols : ¬(Matrix.ofFn rows inputs x).cols ≠ (Matrix.ofFn inputs outputs weight).rows :=
    fun h => h rfl
  unfold predict
  rw [view_ofParts]
  simp only [Except.mapError, bind, Except.bind, if_neg hcols, Matrix.mul_ofFn storable]
  rw [Matrix.zipWith_ofRow]
  rfl

/-- The loss and the gradient of a batch that fits a model, element by element. -/
theorem gradient_ofParts (extents : Storable inputs outputs)
    (storable : isStorable [rows, outputs] = true) :
    (ofParts weight bias).gradient (.ofParts x y) =
      .ok (lossAt weight bias x y,
        parts (weightSlopeAt weight bias x y) (biasSlopeAt weight bias x y)) := by
  have hlabels : ¬(Batch.ofParts x y).labels.cols ≠ (ofParts weight bias).outputs := fun h => h rfl
  have hloss : SquaredError.loss (Matrix.ofFn rows outputs (outputAt weight bias x))
      (Matrix.ofFn rows outputs y) = .ok (lossAt weight bias x y) := by
    unfold SquaredError.loss
    rw [Matrix.zipWith_ofFn]
    simp only [bind, Except.bind, Matrix.map_ofFn, Matrix.size_ofFn]
    rfl
  have hslope : SquaredError.slope (Matrix.ofFn rows outputs (outputAt weight bias x))
      (Matrix.ofFn rows outputs y) =
        .ok (Matrix.ofFn rows outputs (slopeAt weight bias x y)) := by
    unfold SquaredError.slope
    rw [Matrix.zipWith_ofFn, Matrix.size_ofFn]
    exact congrArg Except.ok (Matrix.map_ofFn _ _)
  have hweight : (Batch.ofParts x y).inputs.transpose.mul
      (Matrix.ofFn rows outputs (slopeAt weight bias x y)) =
        .ok (Matrix.ofFn inputs outputs (weightSlopeAt weight bias x y)) := by
    rw [Batch.ofParts, Matrix.transpose_ofFn]
    exact Matrix.mul_ofFn extents.weight _ _
  have hbias : (Matrix.ofFn rows outputs (slopeAt weight bias x y)).columnSums =
      .ok (.ofFn (biasSlopeAt weight bias x y)) :=
    Matrix.columnSums_ofFn extents.bias _
  unfold gradient
  rw [if_neg hlabels]
  simp only [Batch.ofParts] at hweight ⊢
  rw [predict_ofParts weight bias x storable]
  simp only [bind, Except.bind, pure, Except.pure, hloss, hslope, hweight, hbias, Except.mapError]
  rfl

/-- A batch whose labels are not as many as the outputs is refused for that, -/
theorem gradient_of_labels {batch : Batch α} (h : batch.labels.cols ≠ outputs) :
    (ofParts weight bias).gradient batch =
      .error (.error (.sizeMismatch .labels .outputs batch.labels.cols outputs)) := by
  have hlabels : batch.labels.cols ≠ (ofParts weight bias).outputs := h
  unfold gradient
  rw [if_pos hlabels]
  rfl

/-- and else one whose inputs are not as many as the model takes. -/
theorem gradient_of_inputs {batch : Batch α} (hlabels : batch.labels.cols = outputs)
    (h : batch.inputs.cols ≠ inputs) :
    (ofParts weight bias).gradient batch =
      .error (.error (.sizeMismatch .inputs .weights batch.inputs.cols inputs)) := by
  have hfit : ¬batch.labels.cols ≠ (ofParts weight bias).outputs := fun hne => hne hlabels
  have hrows : batch.inputs.cols ≠ (Matrix.ofFn inputs outputs weight).rows := h
  have hpredict : (ofParts weight bias).predict batch.inputs =
      .error (.error (.sizeMismatch .inputs .weights batch.inputs.cols inputs)) := by
    unfold predict
    rw [view_ofParts]
    simp only [Except.mapError, bind, Except.bind, if_pos hrows]
    rfl
  unfold gradient
  rw [if_neg hfit, hpredict]
  rfl

end Affine

end Federated
