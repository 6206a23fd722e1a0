/-
  Federated.Proofs.Training.Protocol

  A worker speaks exactly its protocol: its script is all that it ever does, and all of it is
  done if its steps have results and it is answered with models that fit.

    * `Task.Course.exists_run` — every course of a worker's batches is one that it runs.
    * `Task.Spoken`, `Task.speaks_protocol` — what every run of a worker says and does.
-/
import Federated.Proofs.Training.Script

namespace Federated

namespace Task

variable {α : Type} [Scalar α] {t : Task α}

/-! ## Every course is run -/

section
variable {visits : List (Visit α)} {l : Learner α} {w : Worker α}

/-- A worker with a batch before it gets to train on it, if it is answered with a model that fits
    where it meets the others. -/
theorem Stage.exists_approach (h : t.Stage visits l [] w) (point : w.point = .announcing)
    (rest : w.remaining ≠ []) {merged : Option (Params α)} {resumed : Learner α}
    (resumes : t.Resumes visits.length l merged resumed)
    (timed : merged.isSome = true → t.policy.timed t.id visits.length = true) :
    ∃ w', w.Does (t.approach visits l visits.length merged) w' ∧ w'.point = .stepping ∧
      w'.remaining = w.remaining ∧ w'.learner = resumed ∧
      t.Stage visits l (t.approach visits l visits.length merged) w' := by
  have hlearner : w.learner = l := by
    have hstand := h.stand
    rw [point] at hstand
    generalize w.learner = left at hstand
    cases hstand
    rfl
  have hannounce : (.tell (.progress w.id w.index w.total) : Deed α) =
      t.announce visits.length := by
    rw [h.id_eq, h.index_eq, h.total_eq]
    rfl
  cases resumes with
  | onward alone =>
    have due : w.policy.isDue w.index = false := by
      rwa [h.policy_eq, h.index_eq, ← Bool.not_eq_true, isDue_iff_meets]
    have hstep := Worker.Step.announce point rest due
    have hdoes := (Worker.Move.tell (Worker.step?_of_step hstep)).does
    have hstage := (h.tell hstep).1
    rw [hannounce] at hdoes hstage
    exact ⟨_, hdoes, rfl, rfl, hlearner, hstage⟩
  | @merged meets model fits =>
    have due : w.policy.isDue w.index = true := by
      rwa [h.policy_eq, h.index_eq, isDue_iff_meets]
    -- it announces the batch, publishes its model, and hears the merged one
    have hfirst := Worker.Step.announceSync point rest due
    have hsecond : (w.goto .joining).Step _ _ := .submit rfl
    have hstage := ((h.tell hfirst).1.tell hsecond).1
    have hpoint : (w.goto .joining).joined = .waiting := by
      show (if w.policy.timed w.id w.index then _ else _) = _
      rw [h.policy_eq, h.id_eq, h.index_eq, timed rfl, if_pos rfl]
    rw [hpoint] at hstage hsecond
    have hwaits : ((w.goto .joining).goto .waiting).isWaiting = true := rfl
    have hfits : w.learner.model.params.layout = model.layout := hlearner ▸ fits
    have hresume := Worker.resume_merged (w := (w.goto .joining).goto .waiting) hfits
    have hpublish : (.tell (.submit w.id w.index w.learner.model.params w.lastLoss w.id) : Deed α) =
        t.publish visits l visits.length := by
      rw [h.id_eq, h.index_eq, h.last_eq meets.1, hlearner]
      rfl
    have hdoes := ((Worker.Move.tell (Worker.step?_of_step hfirst)).does.trans
      (Worker.Move.tell (Worker.step?_of_step hsecond)).does).trans
        (Worker.Move.hear hwaits model).does
    rw [hannounce] at hdoes
    refine ⟨_, ?does, ?point, ?remaining, ?learner, hstage.hear hwaits hfits⟩
    case does =>
      rw [approach, ← hpublish]
      exact hdoes
    case point => rw [hresume]
    case remaining =>
      rw [hresume]
      rfl
    case learner =>
      rw [hresume]
      show (⟨_, if w.policy.keep then w.learner.optimizer else w.spec.build⟩ : Learner α) = _
      rw [h.policy_eq, h.spec_eq]
      subst hlearner
      rfl

/-- Every course of a worker's batches is one that it runs. -/
theorem Course.exists_run (h : t.Course visits l) (hbatches : visits.map (·.batch) <+: t.batches)
    (htimed : t.policy.TimesWaits t.id t.total) :
    ∃ w, t.worker.Does (t.script visits) w ∧ w.point = .announcing ∧ t.Stage visits l [] w := by
  induction h with
  | start => exact ⟨t.worker, .nothing, rfl, t.stage_start⟩
  | @visit visits l resumed next merged batch loss course resumes step ih =>
    rw [List.map_append, List.map_singleton] at hbatches
    obtain ⟨w, hdoes, hpoint, hstage⟩ := ih ((List.prefix_append _ _).trans hbatches)
    obtain ⟨after, hafter⟩ := hbatches
    have hremaining : w.remaining = batch :: after := by
      rw [hstage.remaining_eq, ← hafter, List.append_assoc]
      simp
    have hrest : w.remaining ≠ [] := by simp [hremaining]
    obtain ⟨w', hdoes', hpoint', hremaining', hlearner', hstage'⟩ :=
      hstage.exists_approach hpoint hrest resumes fun hmerged => by
        cases resumes with
        | onward => cases hmerged
        | merged meets =>
          exact htimed _ (hstage.lt_total hrest) ((t.isDue_iff_meets _).2 meets)
    subst hlearner'
    have hrest' := hremaining'.trans hremaining
    have hstep := Worker.Step.train batch after loss next hpoint' hrest' step
    have hmove := Worker.Move.train (Worker.step?_of_step hstep) hrest'
    refine ⟨_, ?_, rfl, hstage'.train resumes hrest' step⟩
    rw [script_append course (v := ⟨l, merged, w'.learner, batch, loss⟩) resumes, deeds,
      ← List.append_assoc]
    exact .more (hdoes.trans hdoes') hmove

end

/-! ## The protocol -/

/-- What a run of a worker says and does. -/
structure Spoken (t : Task α) (deeds : List (Deed α)) (w : Worker α) : Prop where
  /-- It has done what its script says for the batches that it has trained on, each once and in
      order, and is on its way to the next. -/
  script : ∃ visits l since, t.Course visits l ∧
    visits.map (·.batch) = t.batches.take visits.length ∧
    deeds = t.script visits ++ since ∧ t.Stand visits l w.point w.learner since
  /-- If it has finished, it has done all of its script, and left with its final model. -/
  finished : ∀ loss, w.point = .finished loss → ∃ visits, t.Course visits w.learner ∧
    visits.map (·.batch) = t.batches ∧ loss = t.mean visits ∧
    deeds = t.script visits ++ [t.leave visits w.learner]
  /-- Else it has not said that it has. -/
  unfinished : (∀ loss, w.point ≠ .finished loss) →
    ∀ m, Deed.tell m ∈ deeds → m.isFinish = false
  /-- Until it is answered it does nothing, -/
  awaits : w.isWaiting = true → w.step? = none
  /-- and else, until it ends, it goes on. -/
  goes : w.hasEnded = false → w.isWaiting = true ∨ ∃ moved m, w.step? = some (moved, m)

theorem not_finish_of_approach {visits : List (Visit α)} {l : Learner α} {i : Nat}
    {merged : Option (Params α)} {m : Message α WorkerId}
    (h : .tell m ∈ t.approach visits l i merged) : m.isFinish = false := by
  cases merged with
  | none =>
    obtain rfl : m = _ := by simpa [approach, announce] using h
    rfl
  | some model =>
    rcases (by simpa [approach, announce, publish] using h : m = _ ∨ m = _) with rfl | rfl <;> rfl

theorem not_finish_of_script {visits : List (Visit α)} {m : Message α WorkerId}
    (h : .tell m ∈ t.script visits) : m.isFinish = false := by
  obtain ⟨⟨v, i⟩, -, hm⟩ := List.mem_flatMap.1 h
  rw [deeds, List.mem_append] at hm
  rcases hm with hm | hm
  · exact not_finish_of_approach hm
  · simp at hm

/-- Before its end a worker is on the way to a batch. -/
theorem Stand.not_finish {visits : List (Visit α)} {l left : Learner α} {point : WorkerPoint α}
    {since : List (Deed α)} (h : t.Stand visits l point left since)
    (hpoint : ∀ loss, point ≠ .finished loss) {m : Message α WorkerId} (hm : .tell m ∈ since) :
    m.isFinish = false := by
  -- all of this begins an approach, whatever the answer will be
  have happroach : ∀ merged, Deed.tell m ∈ t.approach visits l visits.length merged →
      m.isFinish = false := fun _ => not_finish_of_approach
  have hfirst : Deed.tell m ∈ [t.announce visits.length] → m.isFinish = false := happroach none
  have hboth : Deed.tell m ∈ [t.announce visits.length, t.publish visits l visits.length] →
      m.isFinish = false := by
    intro h
    refine happroach (some l.model.params) ?_
    rw [approach]
    exact List.mem_append_left [_] h
  cases h with
  | announcing => cases hm
  | joining => exact hfirst hm
  | waiting => exact hboth hm
  | stepping => exact not_finish_of_approach hm
  | finished => exact absurd rfl (hpoint _)
  | failed fault =>
    cases fault with
    | gone => cases hm
    | unheard => exact hfirst hm
    | wait => exact hboth hm
    | load => exact not_finish_of_approach hm
    | step =>
      rcases List.mem_append.1 hm with hm | hm
      · exact not_finish_of_approach hm
      · simp at hm

/-- A worker speaks exactly its protocol. Whatever the others do and answer, what it does is its
    script for its batches, up to where it stands: an announcement before each batch, where it meets
    the others also its model and the loss of the batch before, then the batch, with the merged
    model if there is one, and behind the last batch its final model with the mean loss. If it
    fails, it has done so up to where it failed, and never says that it has finished. And whatever
    merged models it is answered with, it can do all of its script, if its steps have results, the
    models fit, and its waits can be timed. -/
theorem speaks_protocol (t : Task α) :
    (∀ deeds w, t.worker.Does deeds w → t.Spoken deeds w) ∧
      ∀ visits l, t.Course visits l → visits.map (·.batch) = t.batches →
        t.policy.TimesWaits t.id t.total →
        ∃ w, t.worker.Does (t.script visits ++ [t.leave visits l]) w ∧
          w.point = .finished (t.mean visits) ∧ w.learner = l := by
  refine ⟨fun deeds w hdoes => ?_, fun visits l hcourse hbatches htimed => ?_⟩
  · obtain ⟨visits, l, since, h, rfl⟩ := stage_does hdoes
    have hstand := h.stand
    refine ⟨⟨visits, l, since, h.course, h.visited, rfl, hstand⟩, fun loss hpoint => ?finished,
      fun hpoint m hm => ?unfinished, Worker.step?_of_isWaiting, fun hends => ?goes⟩
    case finished =>
      rw [hpoint] at hstand
      generalize hleft : w.learner = left at hstand
      cases hstand with
      | finished all =>
        refine ⟨visits, hleft ▸ h.course, ?_, rfl, rfl⟩
        rw [h.visited, all]
        exact List.take_length
    case unfinished =>
      rcases List.mem_append.1 hm with hm | hm
      · exact not_finish_of_script hm
      · exact hstand.not_finish hpoint hm
    case goes =>
      cases hstep : w.step? with
      | some next => exact .inr ⟨next.1, next.2, rfl⟩
      | none =>
        refine (Worker.stuck_cases hstep fun hpoint => ?_).imp_right fun h => ?_
        · rw [hpoint] at hstand
          cases hstand with
          | stepping more resumes =>
            rw [h.remaining_eq]
            exact fun hnil => absurd (List.drop_eq_nil_iff.1 hnil) (Nat.not_le.2 more)
        · rw [hends] at h
          cases h
  · obtain ⟨w, hdoes, hpoint, hstage⟩ :=
      hcourse.exists_run (hbatches ▸ List.prefix_refl _) htimed
    have hall : visits.length = t.total := by rw [total, ← hbatches, List.length_map]
    have hrest : w.remaining = [] := by
      rw [hstage.remaining_eq, hall]
      exact List.drop_length
    have hstep := Worker.Step.finish hpoint hrest
    have hmove := Worker.Move.tell (Worker.step?_of_step hstep)
    have hlearner : w.learner = l := by
      have hstand := hstage.stand
      rw [hpoint] at hstand
      generalize w.learner = left at hstand
      cases hstand
      rfl
    have hmean : meanLoss w.lossSum w.total = t.mean visits := by
      rw [hstage.sum_eq, hstage.total_eq]
      rfl
    rw [hmean, hstage.id_eq, hstage.total_eq, hlearner] at hmove
    exact ⟨_, .more hdoes hmove, rfl, hlearner⟩

/-- Two batches and an interval of zero, which counts as one: a worker that meets the others before
    its second batch, and goes on with their model and a fresh optimizer. -/
theorem speaks_protocol_two :
    let spec : OptimizerSpec Float32 := .momentum Scalar.one Scalar.one
    let model : Affine Float32 := Affine.ofWeights (Matrix.zeros 1 1)
    let merged : Params Float32 :=
      model.params.insert Affine.biasName (Tensor.replicate [1] Scalar.one)
    let batch : Batch Float32 :=
      ⟨Matrix.ofFn 2 1 fun i _ => Scalar.ofCount i,
        Matrix.ofFn 2 1 fun i _ => Scalar.ofCount (i + 1)⟩
    let t : Task Float32 :=
      ⟨⟨3⟩, ⟨model, spec.build⟩, spec, ⟨0, false, fun _ _ => true⟩, [batch, batch]⟩
    ∃ visits l w, t.Course visits l ∧ visits.map (·.batch) = t.batches ∧
      visits.map (·.merged) = [none, some merged] ∧
      t.worker.Does (t.script visits ++ [t.leave visits l]) w ∧
      t.Spoken (t.script visits ++ [t.leave visits l]) w := by
  intro spec model merged batch t
  have hsteps : (match t.learner.step batch with
      | .ok (_, l) => decide (l.model.params.layout.entries = merged.layout.entries) &&
        (Learner.step ⟨{ l.model with params := merged }, spec.build⟩ batch).toOption.isSome
      | .error _ => false) = true := by
    decide +kernel
  split at hsteps
  · next loss l hfirst =>
    rw [Bool.and_eq_true, decide_eq_true_eq] at hsteps
    obtain ⟨hentries, hsecond⟩ := hsteps
    have hfits : l.model.params.layout = merged.layout :=
      Dict.ext_find? fun name => congrArg (Dict.lookup name) hentries
    cases hnext : Learner.step ⟨{ l.model with params := merged }, spec.build⟩ batch with
    | error halt =>
      rw [hnext] at hsecond
      cases hsecond
    | ok out =>
      have halone : ¬ t.Meets 0 := by simp [Meets]
      have hmeets : t.Meets 1 := by simp [Meets, t]
      have hcourse := (Course.start.visit (.onward halone) hfirst).visit
        (.merged hmeets hfits) hnext
      obtain ⟨hspoken, hruns⟩ := speaks_protocol t
      obtain ⟨w, hdoes, -⟩ := hruns _ _ hcourse rfl fun _ _ _ => rfl
      exact ⟨_, _, w, hcourse, rfl, rfl, hdoes, hspoken _ _ hdoes⟩
  · cases hsteps

end Task

end Federated
