/-
  Federated.Proofs.Training.Safety

  A learner in use: parameters are loaded into its model and steps are made on batches, of which
  some do not fit. None of this ends without an answer. The layout of the model is that of its
  extents throughout, what the optimizer accumulates has the same shapes, and a call that is refused
  leaves both as they were.

    * `Learner.loadInPlace`, `Learner.stepInPlace` — the calls as they are carried out, and
      `run_loadInPlace`, `run_stepInPlace`, that they come to what `load` and `step` say.
    * `Learner.Sound` — what every call keeps.
    * `Learner.calls_safe` — so it is after all calls, on models of zeros and on random ones.
-/
import Federated.Proofs.Model.Assignment
import Federated.Proofs.Model.Parts
import Federated.Proofs.Optimizer.Histories
import Federated.Sampling.Initial

namespace Federated

variable {α : Type} [Scalar α]

omit [Scalar α] in
/-- A batch as there can be one: with as many rows of labels as of inputs, and with labels that can
    be stored. -/
structure Batch.Held (b : Batch α) : Prop where
  rows : b.inputs.rows = b.labels.rows
  storable : isStorable [b.labels.rows, b.labels.cols] = true

namespace Learner

/-! ## Calls as they are carried out -/

/-- Steps on a learner in use. A failure ends them and leaves everything as it is by then. -/
abbrev InPlace (α : Type) : Type → Type := EStateM (Halt ModelError) (Learner α)

/-- Parameters loaded into the model, one after another once the layouts have been compared. -/
def loadInPlace (params : Params α) : InPlace α Unit :=
  UpdateRule.zoom (fun l => ⟨(), l.model.params⟩)
    (fun l s => ⟨{ l.model with params := s.params }, l.optimizer⟩)
    (Params.takeOver.updateInPlace params)

/-- An update of the model's parameters by the optimizer. -/
def updateInPlace (gradient : Params α) : InPlace α Unit :=
  UpdateRule.zoom (fun l => ⟨l.optimizer, l.model.params⟩)
    (fun l s => ⟨{ l.model with params := s.params }, s.state⟩)
    (Optimizer.updateInPlace gradient)

/-- A step on a batch. The gradient is there before anything is written. -/
def stepInPlace (batch : Batch α) : InPlace α α := do
  let l ← get
  let out ← ofExcept (l.model.gradient batch)
  updateInPlace out.2
  return out.1

/-- A load in place comes to what `load` says. A refusal comes before anything has been written. -/
theorem run_loadInPlace (l : Learner α) (params : Params α) :
    UpdateRule.Ends l
      ((l.model.load params).mapError Halt.error |>.map fun model => ((), ⟨model, l.optimizer⟩))
      ((loadInPlace params).run l) := by
  have hends := (Params.run_takeOver l.model.params params).zoom
    (fun l : Learner α => ⟨(), l.model.params⟩)
    (fun l s => ⟨{ l.model with params := s.params }, l.optimizer⟩) rfl
  unfold Affine.load
  cases hassign : l.model.params.assign params with
  | ok p =>
    rw [hassign] at hends
    exact hends
  | error m =>
    rw [hassign] at hends
    exact hends

/-- A step in place comes to what `step` says, and a refusal of any part of it comes before anything
    has been written. -/
theorem run_stepInPlace (l : Learner α) (batch : Batch α) :
    UpdateRule.Ends l (l.step batch) ((stepInPlace batch).run l) := by
  unfold step
  cases hgradient : l.model.gradient batch with
  | error halt =>
    have hrun : (stepInPlace batch).run l = .error halt l := by
      simp only [stepInPlace, EStateM.run_bind, EStateM.run_get, hgradient, ofExcept]
      rfl
    cases halt with
    | error cause => exact hrun
    | defect d => exact ⟨l, hrun⟩
  | ok out =>
    obtain ⟨loss, gradient⟩ := out
    have hrun : (stepInPlace batch).run l =
        (updateInPlace gradient >>= fun _ => return loss).run l := by
      simp only [stepInPlace, EStateM.run_bind, EStateM.run_get, hgradient, ofExcept,
        EStateM.run_pure]
    have hends := UpdateRule.Ends.zoom (fun l : Learner α => ⟨l.optimizer, l.model.params⟩)
      (fun l s => ⟨{ l.model with params := s.params }, s.state⟩)
      (Optimizer.run_updateInPlace l.optimizer gradient l.model.params) rfl
    rw [EStateM.run_bind] at hrun
    cases hupdate : l.optimizer.update gradient l.model.params with
    | error halt =>
      rw [hupdate] at hends
      cases halt with
      | error cause =>
        rw [show (updateInPlace gradient).run l = .error (.error cause) l from hends] at hrun
        simp only [bind, Except.bind, hupdate]
        exact hrun
      | defect d =>
        obtain ⟨left, hleft⟩ := hends
        rw [show (updateInPlace gradient).run l = .error (.defect d) left from hleft] at hrun
        simp only [bind, Except.bind, hupdate]
        exact ⟨left, hrun⟩
    | ok out =>
      rw [hupdate] at hends
      rw [show (updateInPlace gradient).run l = .ok () _ from hends] at hrun
      simp only [bind, Except.bind, pure, Except.pure, hupdate]
      exact hrun

/-! ## What every call keeps -/

/-- A learner whose model has the layout of given extents, and whose optimizer fits it. -/
structure Sound (inputs outputs : Nat) (l : Learner α) : Prop where
  storable : Affine.Storable inputs outputs
  inputs_eq : l.model.inputs = inputs
  outputs_eq : l.model.outputs = outputs
  layout : l.model.params.layout = Affine.layoutOf inputs outputs
  fits : l.optimizer.Fits (shapesOf (Affine.layoutOf inputs outputs))

variable {inputs outputs : Nat} {l : Learner α}

/-- Parameters of the layout are loaded, -/
theorem Sound.run_load (sound : l.Sound inputs outputs) {params : Params α}
    (h : params.layout = Affine.layoutOf inputs outputs) :
    ∃ l', (loadInPlace params).run l = .ok () l' ∧ l'.Sound inputs outputs ∧
      l' = ⟨{ l.model with params }, l.optimizer⟩ := by
  have hends := run_loadInPlace l params
  rw [Affine.load_eq_ok_iff.2 ⟨sound.layout.trans h.symm, rfl⟩] at hends
  exact ⟨_, hends, ⟨sound.storable, sound.inputs_eq, sound.outputs_eq, h, sound.fits⟩, rfl⟩

/-- and others are refused. -/
theorem Sound.run_load_refused (sound : l.Sound inputs outputs) {params : Params α}
    (h : params.layout ≠ Affine.layoutOf inputs outputs) :
    ∃ m, (loadInPlace params).run l = .error (.error (.layout m)) l := by
  have hends := run_loadInPlace l params
  unfold Affine.load at hends
  cases hassign : l.model.params.assign params with
  | ok p => exact absurd ((Params.assign_eq_ok_iff.1 hassign).1.symm.trans sound.layout) h
  | error m =>
    rw [hassign] at hends
    exact ⟨m, hends⟩

/-- A batch that fits has a gradient, which has the layout of the model. -/
theorem Sound.exists_gradient (sound : l.Sound inputs outputs) {batch : Batch α}
    (held : batch.Held) (hinputs : batch.inputs.cols = inputs)
    (houtputs : batch.labels.cols = outputs) :
    ∃ loss gradient, l.model.gradient batch = .ok (loss, gradient) ∧
      gradient.layout = Affine.layoutOf inputs outputs := by
  obtain ⟨weight, bias, hmodel⟩ :=
    Affine.exists_eq_ofParts sound.inputs_eq sound.outputs_eq sound.layout
  obtain ⟨x, y, hbatch⟩ := Batch.exists_eq_ofParts held.rows hinputs houtputs
  have hgradient := Affine.gradient_ofParts weight bias x y sound.storable
    (houtputs ▸ held.storable)
  rw [← hmodel, ← hbatch] at hgradient
  exact ⟨_, _, hgradient, Affine.layout_parts _ _⟩

/-- A step on a batch that fits is made, -/
theorem Sound.run_step (sound : l.Sound inputs outputs) {batch : Batch α} (held : batch.Held)
    (hinputs : batch.inputs.cols = inputs) (houtputs : batch.labels.cols = outputs) :
    ∃ loss l', (stepInPlace batch).run l = .ok loss l' ∧ l'.Sound inputs outputs := by
  obtain ⟨loss, gradient, hgradient, hlayout⟩ := sound.exists_gradient held hinputs houtputs
  have conforms := Params.conforms_shapesOf sound.layout
  have hupdate := Optimizer.update_eq sound.fits conforms (sound.layout.trans hlayout.symm)
  have hstep : l.step batch = .ok (loss,
      ⟨{ l.model with params := l.optimizer.move gradient l.model.params },
        l.optimizer.absorb gradient⟩) := by
    unfold step
    rw [hgradient]
    simp only [bind, Except.bind, hupdate]
    rfl
  have hrun := run_stepInPlace l batch
  rw [hstep] at hrun
  refine ⟨_, _, hrun, sound.storable, sound.inputs_eq, sound.outputs_eq, ?_, ?_⟩
  · exact (Optimizer.layout_move _ _ _).trans sound.layout
  · exact sound.fits.absorb (Params.conforms_shapesOf hlayout)

/-- and one that does not fit is refused. -/
theorem Sound.run_step_refused (sound : l.Sound inputs outputs) {batch : Batch α}
    (h : ¬(batch.inputs.cols = inputs ∧ batch.labels.cols = outputs)) :
    ∃ cause, (stepInPlace batch).run l = .error (.error cause) l := by
  obtain ⟨weight, bias, hmodel⟩ :=
    Affine.exists_eq_ofParts sound.inputs_eq sound.outputs_eq sound.layout
  have hgradient : ∃ cause, l.model.gradient batch = .error (.error cause) := by
    rw [hmodel]
    by_cases hlabels : batch.labels.cols = outputs
    · exact ⟨_, Affine.gradient_of_inputs weight bias hlabels fun hinputs => h ⟨hinputs, hlabels⟩⟩
    · exact ⟨_, Affine.gradient_of_labels weight bias hlabels⟩
  obtain ⟨cause, hcause⟩ := hgradient
  have hrun := run_stepInPlace l batch
  have hstep : l.step batch = .error (.error cause) := by
    unfold step
    rw [hcause]
    rfl
  rw [hstep] at hrun
  exact ⟨cause, hrun⟩

/-! ## Calls in any order -/

omit [Scalar α] in
/-- What can be asked of a learner. -/
inductive Call (α : Type) where
  | load (params : Params α)
  | step (batch : Batch α)

omit [Scalar α] in
/-- Calls with batches as there can be. -/
def Call.Held : Call α → Prop
  | .load _ => True
  | .step batch => batch.Held

/-- A learner as a call leaves it, successful or not. -/
def after (l : Learner α) : Call α → Learner α
  | .load params =>
    match (loadInPlace params).run l with
    | .ok _ l => l
    | .error _ l => l
  | .step batch =>
    match (stepInPlace batch).run l with
    | .ok _ l => l
    | .error _ l => l

/-- A learner as calls leave it, one after another. -/
def afterAll (l : Learner α) (calls : List (Call α)) : Learner α := calls.foldl after l

theorem Sound.after (sound : l.Sound inputs outputs) {call : Call α} (held : call.Held) :
    (l.after call).Sound inputs outputs := by
  cases call with
  | load params =>
    by_cases h : params.layout = Affine.layoutOf inputs outputs
    · obtain ⟨l', hrun, sound', -⟩ := sound.run_load h
      rw [Learner.after, hrun]
      exact sound'
    · obtain ⟨m, hrun⟩ := sound.run_load_refused h
      rw [Learner.after, hrun]
      exact sound
  | step batch =>
    by_cases h : batch.inputs.cols = inputs ∧ batch.labels.cols = outputs
    · obtain ⟨loss, l', hrun, sound'⟩ := sound.run_step held h.1 h.2
      rw [Learner.after, hrun]
      exact sound'
    · obtain ⟨cause, hrun⟩ := sound.run_step_refused h
      rw [Learner.after, hrun]
      exact sound

theorem Sound.afterAll (sound : l.Sound inputs outputs) {calls : List (Call α)}
    (held : ∀ call ∈ calls, call.Held) : (l.afterAll calls).Sound inputs outputs := by
  induction calls generalizing l with
  | nil => exact sound
  | cons call calls ih =>
    obtain ⟨hcall, hcalls⟩ := List.forall_mem_cons.1 held
    exact ih (sound.after hcall) hcalls

end Learner

/-! ## Starting models -/

namespace Affine

variable {inputs outputs : Nat}

/-- A starting model of given extents: one of zeros or a random one. -/
inductive Start (inputs outputs : Nat) (m : Affine Float32) : Prop where
  | zeros (made : Affine.zeros inputs outputs = .ok m)
  | random (g g' : Generator) (drawn : Affine.random g inputs outputs = .ok (m, g'))

theorem requireExtents_eq_ok_iff :
    requireExtents inputs outputs = .ok () ↔ Storable inputs outputs := by
  unfold requireExtents requireStorage
  constructor
  · intro h
    obtain ⟨⟨⟩, hweight, hbias⟩ := ok_of_bind h
    exact ⟨of_check hweight, of_check hbias⟩
  · rintro ⟨hweight, hbias⟩
    rw [if_pos hweight, if_pos hbias]
    rfl

/-- There is a model of zeros for all extents that can be stored. -/
theorem exists_zeros_iff :
    (∃ m : Affine α, zeros inputs outputs = .ok m) ↔ Storable inputs outputs := by
  rw [← requireExtents_eq_ok_iff]
  constructor
  · rintro ⟨m, h⟩
    obtain ⟨⟨⟩, hextents, -⟩ := ok_of_bind h
    exact hextents
  · intro h
    unfold zeros
    rw [h]
    exact ⟨_, rfl⟩

/-- A model of given weights, with a fresh optimizer, is sound. -/
theorem sound_ofWeights (storable : Storable inputs outputs) {weight : Matrix α}
    (hrows : weight.rows = inputs) (hcols : weight.cols = outputs) (spec : OptimizerSpec α) :
    (⟨ofWeights weight, spec.build⟩ : Learner α).Sound inputs outputs := by
  refine ⟨storable, hrows, hcols, ?_, Optimizer.fits_build spec⟩
  subst hrows hcols
  exact layout_paramsOf rfl rfl

theorem Start.sound {m : Affine Float32} (start : Start inputs outputs m)
    (spec : OptimizerSpec Float32) :
    (⟨m, spec.build⟩ : Learner Float32).Sound inputs outputs := by
  cases start with
  | zeros made =>
    obtain ⟨⟨⟩, hextents, h⟩ := ok_of_bind made
    cases h
    exact sound_ofWeights (requireExtents_eq_ok_iff.1 hextents) rfl rfl spec
  | random g g' drawn =>
    obtain ⟨_, -, h⟩ := ok_of_bind drawn
    obtain ⟨⟨⟩, hextents, h⟩ := ok_of_bind h
    cases h
    exact sound_ofWeights (requireExtents_eq_ok_iff.1 hextents) rfl rfl spec

end Affine

namespace Learner

variable {inputs outputs : Nat}

/-- Training is safe, whatever is asked of a learner in whatever order. The model has the layout of
    its extents throughout: a matrix and a row, and nothing else. Every call succeeds or is refused,
    a load exactly if the parameters have another layout, and a step exactly if the batch has other
    extents; and what is refused leaves model and optimizer as they were. -/
theorem calls_safe (spec : OptimizerSpec Float32) {model : Affine Float32}
    (start : Affine.Start inputs outputs model) {calls : List (Call Float32)}
    (held : ∀ call ∈ calls, call.Held) :
    let l := (⟨model, spec.build⟩ : Learner Float32).afterAll calls
    (l.model.inputs = inputs ∧ l.model.outputs = outputs ∧
      l.model.params.layout = Affine.layoutOf inputs outputs) ∧
    (∀ params : Params Float32,
      (params.layout = Affine.layoutOf inputs outputs →
        (loadInPlace params).run l = .ok () ⟨{ l.model with params }, l.optimizer⟩) ∧
      (params.layout ≠ Affine.layoutOf inputs outputs →
        ∃ m, (loadInPlace params).run l = .error (.error (.layout m)) l)) ∧
    ∀ batch : Batch Float32, batch.Held →
      (batch.inputs.cols = inputs ∧ batch.labels.cols = outputs →
        ∃ loss l', (stepInPlace batch).run l = .ok loss l') ∧
      (¬(batch.inputs.cols = inputs ∧ batch.labels.cols = outputs) →
        ∃ cause, (stepInPlace batch).run l = .error (.error cause) l) := by
  intro l
  have sound : l.Sound inputs outputs := (start.sound spec).afterAll held
  refine ⟨⟨sound.inputs_eq, sound.outputs_eq, sound.layout⟩, fun params => ⟨fun h => ?_, ?_⟩,
    fun batch hheld => ⟨fun h => ?_, sound.run_step_refused⟩⟩
  · obtain ⟨l', hrun, -, rfl⟩ := sound.run_load h
    exact hrun
  · exact sound.run_load_refused
  · obtain ⟨loss, l', hrun, -⟩ := sound.run_step hheld h.1 h.2
    exact ⟨loss, l', hrun⟩

/-- A model of zeros with two inputs and one output, trained on a batch of three rows and asked for
    what does not fit: parameters of no layout, and a batch of no rows, with one input. It can be
    trained on, and the batch that does not fit is still refused. -/
theorem calls_safe_zeros :
    let batch : Batch Float32 :=
      .ofParts (fun (_ : Fin 3) (_ : Fin 2) => Scalar.one) fun _ (_ : Fin 1) => Scalar.one
    let narrow : Batch Float32 :=
      .ofParts (fun (_ : Fin 0) (_ : Fin 1) => Scalar.one) fun _ (_ : Fin 1) => Scalar.one
    let calls : List (Call Float32) := [.step batch, .load Params.empty, .step narrow]
    ∃ model, Affine.Start 2 1 model ∧ (∀ call ∈ calls, call.Held) ∧
      let l := (⟨model, (OptimizerSpec.momentum Scalar.one Scalar.zero).build⟩ :
        Learner Float32).afterAll calls
      l.model.params.layout = Affine.layoutOf 2 1 ∧
        (∃ loss l', (stepInPlace batch).run l = .ok loss l') ∧
        ∃ cause, (stepInPlace narrow).run l = .error (.error cause) l := by
  intro batch narrow calls
  have hbatch : batch.Held := ⟨rfl, by decide⟩
  have hnarrow : narrow.Held := ⟨rfl, by decide⟩
  have held : ∀ call ∈ calls, call.Held := by
    simp only [calls, List.forall_mem_cons]
    exact ⟨hbatch, trivial, hnarrow, fun _ h => nomatch h⟩
  have hzeros : ∃ m : Affine Float32, Affine.zeros 2 1 = .ok m :=
    Affine.exists_zeros_iff.2 ⟨by decide, by decide⟩
  obtain ⟨model, hmodel⟩ := hzeros
  obtain ⟨⟨-, -, hlayout⟩, -, hsteps⟩ :=
    calls_safe (.momentum Scalar.one Scalar.zero) (.zeros hmodel) held
  exact ⟨model, .zeros hmodel, held, hlayout, (hsteps batch hbatch).1 ⟨rfl, rfl⟩,
    (hsteps narrow hnarrow).2 fun h => absurd h.1 (by decide)⟩

end Learner

end Federated
