/-
  Federated.Proofs.Optimizer.Rates

  The learning rate of optimizers: it is set from outside, and no update changes it.

    * `Optimizer.rate_update`, `Learner.rate_step` — training leaves the rate alone.
    * `Bank.Uniform` — a bank of which all optimizers have one rate, those yet to be built too.
-/
import Federated.Optimizer.Bank
import Federated.Proofs.Optimizer.Layout

namespace Federated

variable {α : Type}

@[simp] theorem OptimizerSpec.rate_withRate (s : OptimizerSpec α) (r : α) :
    (s.withRate r).rate = r := by
  cases s <;> rfl

@[simp] theorem Optimizer.rate_withRate (o : Optimizer α) (r : α) : (o.withRate r).rate = r := by
  cases o <;> rfl

variable [Scalar α]

@[simp] theorem OptimizerSpec.rate_build (s : OptimizerSpec α) : s.build.rate = s.rate := by
  cases s <;> rfl

/-! ## Training -/

theorem Descent.rate_update {o o' : Descent α} {pairs : Dict String (Tensor α × Tensor α)}
    {params : Params α} (h : o.update pairs = .ok (o', params)) : o'.rate = o.rate := by
  obtain ⟨stepped, -, h⟩ := ok_of_bind h
  cases h
  rfl

theorem Momentum.rate_update {o o' : Momentum α} {pairs : Dict String (Tensor α × Tensor α)}
    {params : Params α} (h : o.update pairs = .ok (o', params)) : o'.rate = o.rate := by
  obtain ⟨stepped, -, h⟩ := ok_of_bind h
  cases h
  rfl

theorem Adam.rate_update {o o' : Adam α} {pairs : Dict String (Tensor α × Tensor α)}
    {params : Params α} (h : o.update pairs = .ok (o', params)) : o'.rate = o.rate := by
  obtain ⟨stepped, -, h⟩ := ok_of_bind h
  cases h
  rfl

/-- An update leaves the learning rate as it is. -/
theorem Optimizer.rate_update {o o' : Optimizer α} {gradient params params' : Params α}
    (h : o.update gradient params = .ok (o', params')) : o'.rate = o.rate := by
  obtain ⟨pairs, -, h⟩ := ok_of_bind h
  cases o with
  | descent o =>
    obtain ⟨⟨next, _⟩, hupdate, h⟩ := ok_of_bind h
    cases h
    exact Descent.rate_update (ok_of_mapError hupdate)
  | momentum o =>
    obtain ⟨⟨next, _⟩, hupdate, h⟩ := ok_of_bind h
    cases h
    exact Momentum.rate_update (ok_of_mapError hupdate)
  | adam o =>
    obtain ⟨⟨next, _⟩, hupdate, h⟩ := ok_of_bind h
    cases h
    exact Adam.rate_update (ok_of_mapError hupdate)

/-- So does a local step. -/
theorem Learner.rate_step {l l' : Learner α} {batch : Batch α} {loss : α}
    (h : l.step batch = .ok (loss, l')) : l'.optimizer.rate = l.optimizer.rate := by
  obtain ⟨⟨loss, gradient⟩, -, h⟩ := ok_of_bind h
  obtain ⟨⟨optimizer, params⟩, hupdate, h⟩ := ok_of_bind h
  cases h
  exact Optimizer.rate_update hupdate

/-! ## The bank -/

namespace Bank

/-- All optimizers of a bank have one learning rate, the stored ones and those it builds. -/
structure Uniform (r : α) (b : Bank α) : Prop where
  spec : b.spec.rate = r
  stored : ∀ w o, b.stored.find? w = some o → o.rate = r

variable {r : α} {b : Bank α}

omit [Scalar α] in
theorem uniform_ofSpec (spec : OptimizerSpec α) : (ofSpec spec).Uniform spec.rate :=
  ⟨rfl, fun _ _ h => nomatch h⟩

omit [Scalar α] in
/-- Setting the rate sets it everywhere, whatever the rates were before. -/
theorem uniform_withRate (b : Bank α) (r : α) : (b.withRate r).Uniform r := by
  refine ⟨b.spec.rate_withRate r, fun w o h => ?_⟩
  rw [withRate, Dict.find?_mapValues] at h
  obtain ⟨stored, -, rfl⟩ := Option.map_eq_some_iff.1 h
  exact stored.rate_withRate r

/-- An optimizer taken out has the rate of the bank, stored or fresh, and so have those left. -/
theorem Uniform.take (h : b.Uniform r) (w : WorkerId) :
    (b.take w).1.rate = r ∧ (b.take w).2.Uniform r := by
  refine ⟨?_, h.spec, fun v o hv => ?_⟩
  · show ((b.stored.find? w).getD b.spec.build).rate = r
    cases hw : b.stored.find? w with
    | some o => exact h.stored w o hw
    | none => exact b.spec.rate_build.trans h.spec
  · rw [find?_take] at hv
    split at hv
    · cases hv
    · exact h.stored v o hv

omit [Scalar α] in
theorem Uniform.restore (h : b.Uniform r) (w : WorkerId) {o : Optimizer α} (ho : o.rate = r) :
    (b.restore w o).Uniform r := by
  refine ⟨h.spec, fun v o' hv => ?_⟩
  rw [find?_restore] at hv
  split at hv
  · cases hv
    exact ho
  · exact h.stored v o' hv

end Bank

end Federated
