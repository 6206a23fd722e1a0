/-
  Federated.Proofs.Optimizer.Layout

  Training changes the elements of parameters and never their layout: not in an update of any
  of the optimizers, and so not in a local step.
-/
import Federated.Proofs.Model.Layout
import Federated.Training.Local

namespace Federated

variable {α : Type} [Scalar α]

/-- The step of one parameter keeps its shape. -/
theorem Descent.shape_step {o : Descent α} {p g p' : Tensor α} (h : o.step p g = .ok p') :
    p'.shape = p.shape := Tensor.shape_of_zipWith h

theorem Momentum.shape_step {o : Momentum α} {name : String} {p g : Tensor α}
    {out : Tensor α × Tensor α} (h : o.step name p g = .ok out) : out.1.shape = p.shape := by
  unfold step at h
  obtain ⟨velocity, -, h⟩ := ok_of_bind h
  obtain ⟨moved, hmoved, h⟩ := ok_of_bind h
  cases h
  exact Tensor.shape_of_zipWith hmoved

theorem Adam.shape_step {o : Adam α} {name : String} {p g : Tensor α}
    {out : Tensor α × Moments α} (h : o.step name p g = .ok out) : out.1.shape = p.shape := by
  unfold step at h
  obtain ⟨mean, -, h⟩ := ok_of_bind h
  obtain ⟨square, -, h⟩ := ok_of_bind h
  obtain ⟨change, -, h⟩ := ok_of_bind h
  obtain ⟨moved, hmoved, h⟩ := ok_of_bind h
  cases h
  exact Tensor.shape_of_zipWith hmoved

/-! ## Updates -/

theorem Descent.layout_update {o o' : Descent α} {pairs : Dict String (Tensor α × Tensor α)}
    {params : Params α} (h : o.update pairs = .ok (o', params)) :
    params.layout = (⟨pairs.mapValues fun _ pair => pair.1⟩ : Params α).layout := by
  unfold update at h
  obtain ⟨stepped, hstepped, h⟩ := ok_of_bind h
  cases h
  have hsame : (stepped.mapValues fun _ t => t) = stepped := by
    apply Dict.ext_find?
    intro name
    rw [Dict.find?_mapValues, Option.map_id']
  have hlayout : (⟨stepped.mapValues fun _ t => t⟩ : Params α).layout =
      (⟨pairs.mapValues fun _ pair => pair.1⟩ : Params α).layout :=
    Params.layout_of_traverse hstepped fun _ _ _ => Descent.shape_step
  rwa [hsame] at hlayout

theorem Momentum.layout_update {o o' : Momentum α}
    {pairs : Dict String (Tensor α × Tensor α)} {params : Params α}
    (h : o.update pairs = .ok (o', params)) :
    params.layout = (⟨pairs.mapValues fun _ pair => pair.1⟩ : Params α).layout := by
  unfold update at h
  obtain ⟨stepped, hstepped, h⟩ := ok_of_bind h
  cases h
  exact Params.layout_of_traverse hstepped fun _ _ _ => Momentum.shape_step

theorem Adam.layout_update {o o' : Adam α} {pairs : Dict String (Tensor α × Tensor α)}
    {params : Params α} (h : o.update pairs = .ok (o', params)) :
    params.layout = (⟨pairs.mapValues fun _ pair => pair.1⟩ : Params α).layout := by
  unfold update at h
  obtain ⟨stepped, hstepped, h⟩ := ok_of_bind h
  cases h
  exact Params.layout_of_traverse hstepped fun _ _ _ => Adam.shape_step

/-- An update keeps the layout of the parameters. -/
theorem Optimizer.layout_update {o o' : Optimizer α} {gradient params params' : Params α}
    (h : o.update gradient params = .ok (o', params')) : params'.layout = params.layout := by
  unfold update at h
  obtain ⟨pairs, hpairs, h⟩ := ok_of_bind h
  obtain ⟨-, rfl⟩ := Params.paired_eq_ok_iff.1 (ok_of_mapError hpairs)
  have hfirst : (⟨(params.tensors.mapValues fun name t =>
      (t, (gradient.find? name).getD t)).mapValues fun _ pair => pair.1⟩ : Params α).layout =
      params.layout := by
    rw [Params.layout_eq_iff]
    intro name
    simp only [Params.find?, Dict.find?_mapValues, Option.map_map]
    rfl
  cases o with
  | descent o =>
    obtain ⟨⟨o₁, params₁⟩, hupdate, h⟩ := ok_of_bind h
    cases h
    exact (Descent.layout_update (ok_of_mapError hupdate)).trans hfirst
  | momentum o =>
    obtain ⟨⟨o₁, params₁⟩, hupdate, h⟩ := ok_of_bind h
    cases h
    exact (Momentum.layout_update (ok_of_mapError hupdate)).trans hfirst
  | adam o =>
    obtain ⟨⟨o₁, params₁⟩, hupdate, h⟩ := ok_of_bind h
    cases h
    exact (Adam.layout_update (ok_of_mapError hupdate)).trans hfirst

/-- A local step keeps the layout of the model's parameters. -/
theorem Learner.layout_step {l l' : Learner α} {batch : Batch α} {loss : α}
    (h : l.step batch = .ok (loss, l')) :
    l'.model.params.layout = l.model.params.layout := by
  unfold step at h
  obtain ⟨⟨loss₁, gradient⟩, -, h⟩ := ok_of_bind h
  obtain ⟨⟨o₁, params₁⟩, hupdate, h⟩ := ok_of_bind h
  cases h
  exact Optimizer.layout_update hupdate

end Federated
