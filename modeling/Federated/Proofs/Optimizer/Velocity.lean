/-
  Federated.Proofs.Optimizer.Velocity

  Descent along a velocity in exact arithmetic. A run takes a step along each gradient of a
  sequence, at a rate of its own. The velocity is the sum of the gradients so far, each one counting
  less with every step since, and a rate applies to the whole velocity of its step. Without momentum
  the velocity is the last gradient, and the run is one of plain descent.

    * `Optimizer.descend` — a run, carried out on an optimizer and on parameters in use.
    * `distance` — how far a run leads from an element.
    * `Momentum.Travelled` — what a run has left after `t` steps.
    * `Momentum.moved_eq_descent` — a step without momentum is one of plain descent.
    * `Momentum.descend_unrolled` — every run, in terms of its rates and gradients.
-/
import Federated.Proofs.Optimizer.Moments

namespace Federated

-- the operations of exact arithmetic are written as those of the field
attribute [-instance] Scalar.toAdd Scalar.toSub Scalar.toMul Scalar.toDiv Scalar.toNeg

open UpdateRule

/-! ## Runs -/

namespace Optimizer

section
variable {α : Type} [Scalar α]

/-- A step along a gradient, at a rate that is set for it. -/
def stepAt (rate : α) (gradient : Params α) : InPlace (Optimizer α) α Unit := do
  modify fun s => ⟨s.state.withRate rate, s.params⟩
  updateInPlace gradient

/-- The first `t` steps of a run. -/
def descend (rates : Nat → α) (gradients : Nat → Params α) : Nat → InPlace (Optimizer α) α Unit
  | 0 => return ()
  | t + 1 => do
    descend rates gradients t
    stepAt (rates t) (gradients t)

variable {o o' : Optimizer α} {shapes : String → List Nat} {gradient params : Params α}

theorem run_stepAt (fits : o.Fits shapes) (conforms : params.Conforms shapes)
    (h : params.layout = gradient.layout) (rate : α) :
    (stepAt rate gradient).run ⟨o, params⟩ =
      .ok () ⟨(o.withRate rate).absorb gradient, (o.withRate rate).move gradient params⟩ :=
  run_update (fits.withRate rate) conforms h

theorem run_descend_succ {rates : Nat → α} {gradients : Nat → Params α} {t : Nat}
    {s s' : Site (Optimizer α) α} (h : (descend rates gradients t).run s = .ok () s') :
    (descend rates gradients (t + 1)).run s = (stepAt (rates t) (gradients t)).run s' := by
  rw [descend, EStateM.run_bind, h]

/-- Optimizers that do the same to every element do the same to parameters. -/
theorem move_congr (h : ∀ name i x y, o.moved name i x y = o'.moved name i x y)
    (gradient params : Params α) : o.move gradient params = o'.move gradient params := by
  unfold move
  simp only [h]

end

end Optimizer

/-! ## Velocities -/

section
variable {K : Type} [Field K]

/-- The decayed sum of the first terms of a sequence. -/
theorem decayed_range (β : K) (xs : Nat → K) (i : Nat) :
    decayed β ((List.range (i + 1)).map xs) =
      ∑ j ∈ Finset.range (i + 1), β ^ (i - j) * xs j := by
  rw [decayed, List.length_map, List.length_range]
  refine Finset.sum_congr rfl fun j hj => ?_
  have hterm : ((List.range (i + 1)).map xs).getD j 0 = xs j := by
    simp [List.getD, Finset.mem_range.1 hj]
  rw [hterm, Nat.add_sub_add_right]

/-- The gradients of the first `t` steps. -/
def firstGradients (gradients : Nat → Params K) (t : Nat) : List (Params K) :=
  (List.range t).map gradients

omit [Field K] in
theorem firstGradients_succ (gradients : Nat → Params K) (t : Nat) :
    firstGradients gradients (t + 1) = firstGradients gradients t ++ [gradients t] := by
  rw [firstGradients, List.range_succ, List.map_append]
  rfl

/-- The elements of gradients at a place, with one more gradient that has an element there. -/
theorem valuesAt_append (gradients : List (Params K)) {gradient : Params K} {name : String}
    {i : Nat} {y : K} (hy : gradient.element? name i = some y) :
    valuesAt (gradients ++ [gradient]) name i = valuesAt gradients name i ++ [y] := by
  simp [valuesAt, Params.valueAt, hy]

theorem valuesAt_firstGradients (gradients : Nat → Params K) (t : Nat) (name : String) (i : Nat) :
    valuesAt (firstGradients gradients t) name i =
      (List.range t).map fun j => (gradients j).valueAt name i := by
  rw [valuesAt, firstGradients, List.map_map]
  rfl

/-- How far the first `t` steps lead from an element. -/
def distance (μ : K) (rates : Nat → K) (gradients : Nat → Params K) (t : Nat) (name : String)
    (i : Nat) : K :=
  ∑ k ∈ Finset.range t, rates k * decayed μ (valuesAt (firstGradients gradients (k + 1)) name i)

theorem distance_eq (μ : K) (rates : Nat → K) (gradients : Nat → Params K) (t : Nat)
    (name : String) (i : Nat) : distance μ rates gradients t name i =
      ∑ k ∈ Finset.range t,
        rates k * ∑ j ∈ Finset.range (k + 1), μ ^ (k - j) * (gradients j).valueAt name i := by
  refine Finset.sum_congr rfl fun k _ => ?_
  rw [valuesAt_firstGradients, decayed_range]

end

namespace Momentum

variable {K : Type} [Field K] [LinearOrder K] [Root K] {μ : K} {rates : Nat → K}
  {gradients : Nat → Params K} {layout : Dict String (List Nat)} {start params : Params K}
  {o : Momentum K} {t : Nat}

/-! ## With momentum -/

/-- What the first `t` steps leave of a fresh optimizer and of parameters. -/
structure Travelled (μ : K) (rates : Nat → K) (gradients : Nat → Params K)
    (layout : Dict String (List Nat)) (start : Params K) (t : Nat) (o : Momentum K)
    (params : Params K) : Prop where
  momentum : o.momentum = μ
  fits : (Optimizer.momentum o).Fits (shapesOf layout)
  laidOut : params.layout = layout
  velocity : ∀ name i, IsPlace layout name i →
    o.velocityAt name i = decayed μ (valuesAt (firstGradients gradients t) name i)
  elements : ∀ name i x, start.element? name i = some x →
    params.element? name i = some (x - distance μ rates gradients t name i)

/-- At first there is no velocity, and nothing has moved. -/
theorem travelled_build (hstart : start.layout = layout) (rate : K) :
    Travelled μ rates gradients layout start 0 ⟨rate, μ, Dict.empty⟩ start := by
  refine ⟨rfl, (fun name v hv => nomatch hv), hstart, fun name i _ => rfl, fun name i x hx => ?_⟩
  rw [distance, Finset.sum_range_zero, sub_zero]
  exact hx

/-- The velocity of a place after one more gradient. -/
theorem Travelled.velocityAfter (h : Travelled μ rates gradients layout start t o params)
    {name : String} {i : Nat} (hplace : IsPlace layout name i) {y : K}
    (hy : (gradients t).element? name i = some y) :
    o.velocityAfter name i y =
      decayed μ (valuesAt (firstGradients gradients (t + 1)) name i) := by
  have hvelocity : o.velocityAfter name i y = o.momentum * o.velocityAt name i + y := rfl
  rw [hvelocity, h.momentum, h.velocity name i hplace, firstGradients_succ, valuesAt_append _ hy,
    decayed_append]

/-- One more step leads as far as its rate takes the whole velocity; the rate is not kept in it. -/
theorem Travelled.step (h : Travelled μ rates gradients layout start t o params)
    (hstart : start.layout = layout) (hgradient : (gradients t).layout = layout) :
    Travelled μ rates gradients layout start (t + 1)
      (Momentum.absorb { o with rate := rates t } (gradients t))
      (((Optimizer.momentum o).withRate (rates t)).move (gradients t) params) := by
  have hlayout := h.laidOut.trans hgradient.symm
  have hfits := h.fits.withRate (rates t)
  have hconforms : (gradients t).Conforms (shapesOf layout) := Params.conforms_shapesOf hgradient
  refine ⟨h.momentum, hfits.absorb hconforms, (Optimizer.layout_move _ _ _).trans h.laidOut,
    fun name i hplace => ?_, fun name i x hx => ?_⟩
  · obtain ⟨y, hy⟩ := Params.exists_element?.2 (hgradient.symm ▸ hplace)
    have hkept := Optimizer.keptAt_absorb hfits hconforms name i
    rw [hy] at hkept
    exact (List.cons.inj hkept).1.trans (h.velocityAfter hplace hy)
  · have hplace : IsPlace layout name i := hstart ▸ Params.exists_element?.1 ⟨x, hx⟩
    obtain ⟨y, hy⟩ := Params.exists_element?.2 (hgradient.symm ▸ hplace)
    have hmoved : ((Optimizer.momentum o).withRate (rates t)).moved name i
        (x - distance μ rates gradients t name i) y =
        x - distance μ rates gradients t name i - rates t * o.velocityAfter name i y := rfl
    rw [Optimizer.element?_move _ hlayout, h.elements name i x hx, hy]
    refine congrArg some ?_
    rw [hmoved, h.velocityAfter hplace hy, sub_sub, distance, distance, Finset.sum_range_succ]

/-- A step of a run. -/
theorem Travelled.run_step (h : Travelled μ rates gradients layout start t o params)
    (hgradient : (gradients t).layout = layout) :
    (Optimizer.stepAt (rates t) (gradients t)).run ⟨.momentum o, params⟩ =
      .ok () ⟨.momentum (Momentum.absorb { o with rate := rates t } (gradients t)),
        ((Optimizer.momentum o).withRate (rates t)).move (gradients t) params⟩ :=
  Optimizer.run_stepAt h.fits (Params.conforms_shapesOf h.laidOut)
    (h.laidOut.trans hgradient.symm) (rates t)

/-- A run of a fresh optimizer is completed. -/
theorem exists_travelled (hstart : start.layout = layout)
    (hgradients : ∀ k < t, (gradients k).layout = layout) (rate : K) :
    ∃ o params, (Optimizer.descend rates gradients t).run
        ⟨(OptimizerSpec.momentum rate μ).build, start⟩ = .ok () ⟨.momentum o, params⟩ ∧
      Travelled μ rates gradients layout start t o params := by
  induction t with
  | zero => exact ⟨_, start, rfl, travelled_build hstart rate⟩
  | succ t ih =>
    obtain ⟨o, params, hrun, h⟩ := ih fun k hk => hgradients k (hk.trans t.lt_succ_self)
    have hgradient := hgradients t t.lt_succ_self
    exact ⟨_, _, (Optimizer.run_descend_succ hrun).trans (h.run_step hgradient),
      h.step hstart hgradient⟩

/-! ## Without momentum -/

/-- Without momentum an element is moved as in plain descent, whatever the velocity has been. -/
theorem moved_eq_descent (hzero : o.momentum = 0) (rate : K) (d : Descent K) (name : String)
    (i : Nat) (x y : K) : ((Optimizer.momentum o).withRate rate).moved name i x y =
      ((Optimizer.descent d).withRate rate).moved name i x y := by
  have hmoved : ((Optimizer.momentum o).withRate rate).moved name i x y =
      x - rate * (o.momentum * o.velocityAt name i + y) := rfl
  have hplain : ((Optimizer.descent d).withRate rate).moved name i x y = x + -rate * y := rfl
  rw [hmoved, hplain, hzero]
  ring

/-- A run without momentum has the parameters of a run of plain descent. -/
theorem exists_plain (hstart : start.layout = layout)
    (hgradients : ∀ k < t, (gradients k).layout = layout) (rate : K) :
    ∃ o d params, (Optimizer.descend rates gradients t).run
        ⟨(OptimizerSpec.momentum rate 0).build, start⟩ = .ok () ⟨.momentum o, params⟩ ∧
      (Optimizer.descend rates gradients t).run
        ⟨(OptimizerSpec.descent rate).build, start⟩ = .ok () ⟨.descent d, params⟩ ∧
      Travelled 0 rates gradients layout start t o params := by
  induction t with
  | zero => exact ⟨_, _, start, rfl, rfl, travelled_build hstart rate⟩
  | succ t ih =>
    obtain ⟨o, d, params, hrun, hplain, h⟩ := ih fun k hk => hgradients k (hk.trans t.lt_succ_self)
    have hgradient := hgradients t t.lt_succ_self
    -- the last steps move all elements alike
    have hfits : (Optimizer.descent d).Fits (shapesOf layout) := trivial
    have hstep := Optimizer.run_stepAt hfits (Params.conforms_shapesOf h.laidOut)
      (h.laidOut.trans hgradient.symm) (rates t)
    rw [← Optimizer.move_congr (moved_eq_descent h.momentum (rates t) d)] at hstep
    exact ⟨_, _, _, (Optimizer.run_descend_succ hrun).trans (h.run_step hgradient),
      (Optimizer.run_descend_succ hplain).trans hstep, h.step hstart hgradient⟩

/-! ## Runs -/

/-- Every run of a fresh optimizer, in exact arithmetic, whatever the momentum and the rates are. It
    is completed, keeps the layout, and takes every element back by the sum over its steps of their
    rate times the velocity, to which a gradient adds itself, decayed by the steps since. Without
    momentum it has the parameters of plain descent after every step. -/
theorem descend_unrolled (rate μ : K) (rates : Nat → K)
    (hgradients : ∀ k < t, (gradients k).layout = layout) (hstart : start.layout = layout) :
    (∃ o params, (Optimizer.descend rates gradients t).run
        ⟨(OptimizerSpec.momentum rate μ).build, start⟩ = .ok () ⟨.momentum o, params⟩ ∧
      params.layout = layout ∧
      ∀ name i x, start.element? name i = some x →
        params.element? name i = some (x - ∑ k ∈ Finset.range t,
          rates k * ∑ j ∈ Finset.range (k + 1), μ ^ (k - j) * (gradients j).valueAt name i)) ∧
    ∀ n ≤ t, ∃ o d params,
      (Optimizer.descend rates gradients n).run
        ⟨(OptimizerSpec.momentum rate 0).build, start⟩ = .ok () ⟨.momentum o, params⟩ ∧
      (Optimizer.descend rates gradients n).run
        ⟨(OptimizerSpec.descent rate).build, start⟩ = .ok () ⟨.descent d, params⟩ := by
  constructor
  · obtain ⟨o, params, hrun, h⟩ := exists_travelled (μ := μ) hstart hgradients rate
    refine ⟨o, params, hrun, h.laidOut, fun name i x hx => ?_⟩
    rw [h.elements name i x hx, distance_eq]
  · intro n hn
    obtain ⟨o, d, params, hrun, hplain, -⟩ :=
      exists_plain hstart (fun k hk => hgradients k (hk.trans_le hn)) rate
    exact ⟨o, d, params, hrun, hplain⟩

/-- Two steps over the rationals, the second one at a rate of 3. With gradients of 2 and 4 and half
    of the velocity kept, an element goes from 1 to -1 and then, by a velocity of 5, to -16. -/
theorem descend_unrolled_two :
    let single (x : ℚ) : Params ℚ := Params.empty.insert "weight" (.ofFn [1] fun _ => x)
    let rates (k : Nat) : ℚ := 2 * k + 1
    let gradients (k : Nat) : Params ℚ := single (2 * k + 2)
    (∀ k < 2, (gradients k).layout = (single 1).layout) ∧
      ∃ o params, (Optimizer.descend rates gradients 2).run
          ⟨(OptimizerSpec.momentum 1 (1 / 2)).build, single 1⟩ = .ok () ⟨.momentum o, params⟩ ∧
        params.element? "weight" 0 = some (-16) := by
  intro single rates gradients
  have hlayout : ∀ k < 2, (gradients k).layout = (single 1).layout := fun _ _ => rfl
  have hstart : (single 1).layout = (single 1).layout := rfl
  obtain ⟨⟨o, params, hrun, -, helements⟩, -⟩ :=
    descend_unrolled 1 (1 / 2) rates hlayout hstart
  have hx : (single 1).element? "weight" 0 = some 1 := by decide +kernel
  refine ⟨hlayout, o, params, hrun, ?_⟩
  rw [helements "weight" 0 1 hx]
  decide +kernel

end Momentum

end Federated
