/-
  Federated.Proofs.Training.Atomicity

  A training run moves the model in whole epochs: by the merged parameters of every epoch that has
  come to its end, and by nothing of the one that has not.

    * `Trainer.Completed` — epochs behind one another that have all come to a merged model.
    * `Trainer.Atomic` — a training run as its completed epochs, and what has ended it.
    * `Trainer.fit_atomic` — every way of every training run is one of those.
-/
import Federated.Proofs.Training.Schedule

namespace Federated

/-- The model with the parameters of the last result, if there is one. -/
def Affine.behind {α : Type} (model : Affine α) (results : List (EpochResult α)) : Affine α :=
  { model with params := (results.getLast?.map EpochResult.model).getD model.params }

theorem Affine.behind_cons {α : Type} (model : Affine α) (result : EpochResult α)
    (results : List (EpochResult α)) :
    model.behind (result :: results) = { model with params := result.model }.behind results := by
  cases results with
  | nil => rfl
  | cons next results => simp only [behind, List.getLast?_cons, Option.map_some, Option.getD_some]

namespace Trainer

variable {loaders : List (Loader Float32)}

/-! ## Epochs that complete -/

/-- Epochs from epoch `e` on, each trained from the model of the one before, whatever turns its
    actors take, and each with a result that this model could load: what they have come to, the
    trainer and the model behind them. -/
inductive Completed (loaders : List (Loader Float32)) : Trainer → Affine Float32 → Nat →
    List (EpochResult Float32) → Trainer → Affine Float32 → Prop
  | none (t : Trainer) (model : Affine Float32) (e : Nat) : Completed loaders t model e [] t model
  | epoch {t last : Trainer} {model merged final : Affine Float32} {e : Nat}
      {batches : List (List (Batch Float32))} {left : Epoch.Run Float32}
      {result : EpochResult Float32} {results : List (EpochResult Float32)}
      {clock : Clock} (loaded : shards loaders e = .ok batches)
      (trained : Epoch.Leaves t.config.federated clock model batches (t.scheduled e).bank
        (t.scheduled e).board left)
      (ok : left.result = .ok result) (adopted : model.load result.model = .ok merged)
      (rest : Completed loaders { t.scheduled e with bank := left.bank, board := left.board } merged
        (e + 1) results last final) :
      Completed loaders t model e (result :: results) last final

/-- The model behind completed epochs has the parameters that were merged last. -/
theorem Completed.model_eq {t last : Trainer} {model final : Affine Float32} {e : Nat}
    {results : List (EpochResult Float32)} (h : Completed loaders t model e results last final) :
    final = model.behind results := by
  induction h with
  | none => rfl
  | epoch loaded trained ok adopted rest ih =>
    rw [ih, Affine.behind_cons, (Affine.load_eq_ok_iff.1 adopted).2]

/-- What an epoch with a summary has come to. -/
theorem Passes.completed {t next : Trainer} {model merged : Affine Float32} {e : Nat}
    {summary : EpochSummary} (h : t.Passes model loaders e (.ok (summary, merged), next)) :
    ∃ batches left clock result, shards loaders e = .ok batches ∧
      Epoch.Leaves t.config.federated clock model batches (t.scheduled e).bank
        (t.scheduled e).board left ∧
      left.result = .ok result ∧ model.load result.model = .ok merged ∧
      next = { t.scheduled e with bank := left.bank, board := left.board } ∧
      summary = ⟨e, result.loss, left.bank.spec.rate, result.rounds⟩ := by
  generalize hending : (Except.ok (summary, merged), next) = ending at h
  cases h with
  | unloaded hshards => cases hending
  | @trained batches left hshards clock hleft =>
    simp only [adopt] at hending
    split at hending
    · cases hending
    · next result hresult =>
      split at hending
      · cases hending
      · next hload =>
        cases hending
        exact ⟨batches, left, clock, result, hshards, hleft, hresult, hload, rfl, rfl⟩

/-! ## Training runs -/

/-- The summaries of completed epochs from epoch `e` on: their numbers, losses and rounds. -/
def outline (e : Nat) (results : List (EpochResult Float32)) : List (Nat × Float32 × Nat) :=
  results.zipIdx e |>.map fun r => (r.2, r.1.loss, r.1.rounds)

/-- A training run as its completed epochs. The model it leaves is the one behind them, with a
    summary for each of them; and either these were all epochs, or the run has been halted by the
    epoch next to them, or was refused before the first. -/
structure Atomic (t : Trainer) (model : Affine Float32) (loaders : List (Loader Float32))
    (run : TrainingRun) (results : List (EpochResult Float32)) : Prop where
  completed : ∃ reached, Completed loaders t model 0 results reached run.model ∧
    match run.halt with
    | none => results.length = t.epochs.val
    | some halt =>
      results.length < t.epochs.val ∧
          reached.Passes run.model loaders results.length (.error halt, run.trainer) ∨
        results = [] ∧ halt = .defect .overflow ∧ summaryLimit < t.epochs.val
  model_eq : run.model = model.behind results
  summaries : run.summaries.map (fun s => (s.epoch, s.loss, s.rounds)) = outline 0 results

/-- The epochs that complete on a way, and how it ends behind them. -/
theorem FitsFrom.completed {t : Trainer} {model : Affine Float32} {summaries : List EpochSummary}
    {e count : Nat} {onsets : List Onset} {run : TrainingRun}
    (h : FitsFrom loaders t model summaries e count onsets run) :
    ∃ results reached, Completed loaders t model e results reached run.model ∧
      run.summaries.map (fun s => (s.epoch, s.loss, s.rounds)) =
        summaries.map (fun s => (s.epoch, s.loss, s.rounds)) ++ outline e results ∧
      match run.halt with
      | none => results.length = count
      | some halt => results.length < count ∧
          reached.Passes run.model loaders (e + results.length) (.error halt, run.trainer) := by
  induction h with
  | done t model summaries e =>
    exact ⟨[], t, .none t model e, by simp [outline], rfl⟩
  | @halted t next model summaries e count halt hpasses =>
    exact ⟨[], t, .none t model e, by simp [outline], Nat.succ_pos count, hpasses⟩
  | @passed t next model merged summaries e count summary onsets run hpasses hrest ih =>
    obtain ⟨batches, left, clock, result, loaded, trained, ok, adopted, rfl, rfl⟩ :=
      hpasses.completed
    obtain ⟨results, reached, hcompleted, hsummaries, hhalt⟩ := ih
    refine ⟨result :: results, reached, .epoch loaded trained ok adopted hcompleted, ?_, ?_⟩
    · rw [hsummaries]
      simp [outline]
    · cases hrun : run.halt with
      | none =>
        rw [hrun] at hhalt
        exact congrArg (· + 1) hhalt
      | some halt =>
        rw [hrun] at hhalt
        obtain ⟨hlt, hraised⟩ := hhalt
        refine ⟨Nat.succ_lt_succ hlt, ?_⟩
        rw [List.length_cons, Nat.add_comm results.length, ← Nat.add_assoc]
        exact hraised

/-- Training moves the model in whole epochs. Whatever turns the actors of each epoch take, whatever
    the clock reads, and whatever ends the run early if something does: the epochs before have all
    completed, each from
    the model merged before it, the model has the parameters merged last, or those it had if no
    epoch has completed, and there is one summary for each completed epoch, in order; if nothing has
    ended the run early, these are all epochs. -/
theorem fit_atomic (t : Trainer) (model : Affine Float32) (loaders : List (Loader Float32)) :
    (∀ clocks, ∃ onsets, t.Fits model loaders onsets (t.fit model loaders clocks)) ∧
      ∀ onsets run, t.Fits model loaders onsets run →
        ∃ results, t.Atomic model loaders run results := by
  refine ⟨t.exists_fits model loaders, fun onsets run hfits => ?_⟩
  cases hfits with
  | refused limit =>
    exact ⟨[], ⟨t, .none t model 0, .inr ⟨rfl, rfl, limit⟩⟩, rfl, rfl⟩
  | begun hfits =>
    obtain ⟨results, reached, hcompleted, hsummaries, hhalt⟩ := hfits.completed
    refine ⟨results, ⟨reached, hcompleted, ?_⟩, hcompleted.model_eq, hsummaries⟩
    cases hrun : run.halt with
    | none =>
      rw [hrun] at hhalt
      exact hhalt
    | some halt =>
      rw [hrun, Nat.zero_add] at hhalt
      exact .inl hhalt

/-- Two epochs over one row: a run that completes both, and one without loaders, which the first
    epoch halts. -/
theorem fit_atomic_two :
    let config : TrainingConfig :=
      { epochs := ⟨2, by decide⟩, batchSize := ⟨1, by decide⟩, seed := none,
        optimizer := .momentum Scalar.one Scalar.zero, schedule := none, federated := {} }
    let t : Trainer := ⟨config, config.epochs, none, Bank.ofSpec config.optimizer, Board.empty⟩
    let model : Affine Float32 := Affine.ofWeights (Matrix.zeros 1 1)
    let dataset : Dataset Float32 := ⟨Matrix.zeros 1 1, Matrix.zeros 1 1, rfl⟩
    let loaders := [Loader.ofRows dataset ⟨0, 1⟩ config.batchSize]
    ((t.fit model loaders).halt.isSome, (t.fit model []).halt.isSome) = (false, true) ∧
      (∃ results, t.Atomic model loaders (t.fit model loaders) results) ∧
      ∃ results, t.Atomic model [] (t.fit model []) results := by
  intro config t model dataset loaders
  obtain ⟨hways, hall⟩ := fit_atomic t model loaders
  obtain ⟨hways', hall'⟩ := fit_atomic t model []
  obtain ⟨onsets, hfits⟩ := hways fun _ => .started
  obtain ⟨onsets', hfits'⟩ := hways' fun _ => .started
  exact ⟨by decide +kernel, hall onsets _ hfits, hall' onsets' _ hfits'⟩

end Trainer

end Federated
