/-
  Federated.Proofs.Training.Schedule

  The learning rate schedule governs a training run: in every epoch all optimizers have the rate
  that the configuration plans for it, whatever turns the actors take, and whatever earlier runs
  of the same trainer have come to.

    * `TrainingConfig.plannedRate` — the rate that a configuration plans for an epoch.
    * `Trainer.Fits` — the ways of a training run; `exists_fits` — the run in turns is one of them.
    * `Trainer.Ruled` — what holds of a trainer between epochs.
    * `Trainer.schedule_governs` — all of it together.
-/
import Federated.Proofs.Training.Halting
import Federated.Proofs.Training.Rates
import Federated.Training.Trainer

namespace Federated

/-! ## The plan -/

/-- The learning rate that a configuration plans for an epoch: that of its schedule, which goes
    from the optimizer's rate over the epochs to run, or the optimizer's rate if there is none. -/
def TrainingConfig.plannedRate (c : TrainingConfig) (e : Nat) :
    Except (ConfigError Float32) Float32 :=
  match c.schedule with
  | none => .ok c.optimizer.rate
  | some s => do
    let epochs ← c.effectiveEpochs
    let schedule ← Schedule.ofRates epochs.val c.optimizer.rate s.endRate s.plan s.restarts
    return schedule.rate e

/-! ## Ways of an epoch -/

namespace Epoch

variable {α : Type} [Scalar α] {config : FederatedConfig} {clock : Clock} {model : Affine α}
  {shards : List (List (Batch α))} {bank : Bank α} {board : Board α}

/-- What an epoch can leave. It is refused, or its actors take turns in some order; then it may
    also be given up at any point of its way. -/
inductive Leaves (config : FederatedConfig) (clock : Clock) (model : Affine α)
    (shards : List (List (Batch α))) (bank : Bank α) (board : Board α) : Run α → Prop
  | refused {cause : ConfigError α} (hstart : start config clock model shards bank = .error cause) :
      Leaves config clock model shards bank board ⟨.error (.error (.config cause)), bank, board⟩
  | passed {s₀ s : System α} {choices : List Choice}
      (hstart : start config clock model shards bank = .ok s₀) (hrun : s₀.run? choices = some s) :
      Leaves config clock model shards bank board (leave s)

theorem leaves_run (config : FederatedConfig) (clock : Clock) (model : Affine α)
    (shards : List (List (Batch α))) (bank : Bank α) (board : Board α) :
    Leaves config clock model shards bank board
      (run config model shards bank board clock) := by
  rw [run]
  cases hstart : start config clock model shards bank with
  | error cause => exact .refused hstart
  | ok s =>
    obtain ⟨choices, hrun⟩ := s.exists_run_settle 0 s.fuel
    exact .passed hstart hrun

/-- However an epoch goes, it leaves the bank with the rate it had. -/
theorem Leaves.uniform {r : α} {left : Run α}
    (h : Leaves config clock model shards bank board left) (hbank : bank.Uniform r) :
    left.bank.Uniform r := by
  cases h with
  | refused hstart => exact hbank
  | passed hstart hrun => exact ((rated_of_start hbank hstart).run hrun).bank

end Epoch

/-! ## Ways of a training run -/

namespace Trainer

/-- The ways of one epoch of a trainer, whatever the clock reads. -/
inductive Passes (t : Trainer) (model : Affine Float32) (loaders : List (Loader Float32))
    (e : Nat) : EpochEnd → Prop
  | unloaded {defect : Defect} (hshards : shards loaders e = .error defect) :
      Passes t model loaders e (.error (.defect defect), t.scheduled e)
  | trained {batches : List (List (Batch Float32))} {left : Epoch.Run Float32}
      (hshards : shards loaders e = .ok batches) (clock : Clock)
      (hleft : Epoch.Leaves t.config.federated clock model batches
        (t.scheduled e).bank (t.scheduled e).board left) :
      Passes t model loaders e ((t.scheduled e).adopt model e left)

/-- An epoch about to begin: the trainer and the model that it begins with. -/
structure Onset where
  trainer : Trainer
  model : Affine Float32
  epoch : Nat

/-- The ways through `count` epochs from epoch `e` on, with the epochs that begin on the way. A
    halt ends the way. -/
inductive FitsFrom (loaders : List (Loader Float32)) :
    Trainer → Affine Float32 → List EpochSummary → Nat → Nat → List Onset → TrainingRun → Prop
  | done (t : Trainer) (model : Affine Float32) (summaries : List EpochSummary) (e : Nat) :
      FitsFrom loaders t model summaries e 0 [] ⟨summaries, none, t, model⟩
  | halted {t next : Trainer} {model : Affine Float32} {summaries : List EpochSummary}
      {e count : Nat} {halt : Halt (FederatedError Float32)}
      (hpasses : t.Passes model loaders e (.error halt, next)) :
      FitsFrom loaders t model summaries e (count + 1) [⟨t, model, e⟩]
        ⟨summaries, some halt, next, model⟩
  | passed {t next : Trainer} {model merged : Affine Float32} {summaries : List EpochSummary}
      {e count : Nat} {summary : EpochSummary} {onsets : List Onset} {run : TrainingRun}
      (hpasses : t.Passes model loaders e (.ok (summary, merged), next))
      (hrest : FitsFrom loaders next merged (summaries ++ [summary]) (e + 1) count onsets run) :
      FitsFrom loaders t model summaries e (count + 1) (⟨t, model, e⟩ :: onsets) run

/-- The ways of a training run. -/
inductive Fits (t : Trainer) (model : Affine Float32) (loaders : List (Loader Float32)) :
    List Onset → TrainingRun → Prop
  | refused (limit : summaryLimit < t.epochs.val) :
      Fits t model loaders [] ⟨[], some (.defect .overflow), t, model⟩
  | begun {onsets : List Onset} {run : TrainingRun}
      (hfits : FitsFrom loaders t model [] 0 t.epochs.val onsets run) :
      Fits t model loaders onsets run

/-- A trainer behind any number of training runs, of any models on any loaders. -/
inductive Used (fresh : Trainer) : Trainer → Prop
  | fresh : Used fresh fresh
  | fit {t : Trainer} {model : Affine Float32} {loaders : List (Loader Float32)}
      {onsets : List Onset} {run : TrainingRun} (used : Used fresh t)
      (hfits : t.Fits model loaders onsets run) : Used fresh run.trainer

theorem config_scheduled (t : Trainer) (e : Nat) : (t.scheduled e).config = t.config := by
  rw [scheduled]
  split <;> rfl

theorem passes_epoch (t : Trainer) (model : Affine Float32) (loaders : List (Loader Float32))
    (e : Nat) (clock : Clock) : t.Passes model loaders e (t.epoch model loaders e clock) := by
  rw [epoch]
  cases hshards : shards loaders e with
  | error defect => exact .unloaded hshards
  | ok batches =>
    refine .trained hshards clock ?_
    rw [config_scheduled]
    exact Epoch.leaves_run _ clock model batches _ _

theorem exists_fitsFrom (t : Trainer) (model : Affine Float32) (loaders : List (Loader Float32))
    (clocks : Nat → Clock) (summaries : List EpochSummary) (e count : Nat) :
    ∃ onsets, FitsFrom loaders t model summaries e count onsets
      (t.fitFrom model loaders clocks summaries e count) := by
  induction count generalizing t model summaries e with
  | zero => exact ⟨[], .done t model summaries e⟩
  | succ count ih =>
    have hpasses := t.passes_epoch model loaders e (clocks e)
    rw [fitFrom]
    generalize t.epoch model loaders e (clocks e) = ending at hpasses
    match ending with
    | (.error halt, next) => exact ⟨_, .halted hpasses⟩
    | (.ok (summary, merged), next) =>
      obtain ⟨onsets, hrest⟩ := ih next merged (summaries ++ [summary]) (e + 1)
      exact ⟨_, .passed hpasses hrest⟩

/-- The run in turns is one of the ways. -/
theorem exists_fits (t : Trainer) (model : Affine Float32) (loaders : List (Loader Float32))
    (clocks : Nat → Clock) :
    ∃ onsets, t.Fits model loaders onsets (t.fit model loaders clocks) := by
  rw [fit]
  split
  · next limit => exact ⟨[], .refused limit⟩
  · obtain ⟨onsets, hfits⟩ := t.exists_fitsFrom model loaders clocks [] 0 t.epochs.val
    exact ⟨onsets, .begun hfits⟩

/-! ## Between epochs -/

/-- The learning rate that a trainer sets for an epoch, or leaves. -/
def rateAt (t : Trainer) (e : Nat) : Float32 :=
  match t.schedule with
  | none => t.bank.spec.rate
  | some s => s.rate e

/-- What holds of a trainer between epochs: it sets the rates that the configuration plans, and
    the bank has one rate throughout. -/
structure Ruled (config : TrainingConfig) (t : Trainer) : Prop where
  planned : ∀ e, config.plannedRate e = .ok (t.rateAt e)
  bank : t.bank.Uniform t.bank.spec.rate

theorem ruled_ofConfig {config : TrainingConfig} {t : Trainer} (h : ofConfig config = .ok t) :
    t.Ruled config := by
  obtain ⟨-, -, h⟩ := ok_of_bind h
  obtain ⟨epochs, hepochs, h⟩ := ok_of_bind h
  obtain ⟨schedule, hschedule, h⟩ := ok_of_bind h
  obtain ⟨-, -, h⟩ := ok_of_bind h
  cases h
  refine ⟨fun e => ?_, Bank.uniform_ofSpec config.optimizer⟩
  simp only [scheduleOf] at hschedule
  simp only [TrainingConfig.plannedRate, rateAt]
  cases hconfig : config.schedule with
  | none =>
    rw [hconfig] at hschedule
    cases hschedule
    rfl
  | some s =>
    rw [hconfig] at hschedule
    simp only at hschedule
    rw [hepochs]
    show (Schedule.ofRates epochs.val config.optimizer.rate s.endRate s.plan s.restarts >>=
      fun checked => .ok (checked.rate e)) = _
    cases hrates :
      Schedule.ofRates epochs.val config.optimizer.rate s.endRate s.plan s.restarts with
    | error cause =>
      rw [hrates] at hschedule
      cases hschedule
    | ok checked =>
      rw [hrates] at hschedule
      cases hschedule
      rfl

/-- With the rate of an epoch set, the whole bank has the rate that is planned. -/
theorem Ruled.scheduled {config : TrainingConfig} {t : Trainer} (h : t.Ruled config) (e : Nat) :
    (t.scheduled e).bank.Uniform (t.rateAt e) := by
  rw [Trainer.scheduled, rateAt]
  cases t.schedule with
  | none => exact h.bank
  | some s => exact t.bank.uniform_withRate (s.rate e)

theorem schedule_scheduled (t : Trainer) (e : Nat) : (t.scheduled e).schedule = t.schedule := by
  rw [Trainer.scheduled]
  split <;> rfl

/-- A bank that an epoch has left with its rate. -/
theorem Ruled.left {config : TrainingConfig} {t : Trainer} (h : t.Ruled config) {e : Nat}
    {bank : Bank Float32} (hbank : bank.Uniform (t.rateAt e)) (board : Board Float32) :
    ({ t.scheduled e with bank, board } : Trainer).Ruled config := by
  have hspec : bank.Uniform bank.spec.rate := hbank.spec.symm ▸ hbank
  refine ⟨fun e' => (h.planned e').trans (congrArg Except.ok ?_), hspec⟩
  -- without a schedule the rate of the bank has stayed what it was
  have hrate := hbank.spec
  simp only [rateAt, schedule_scheduled] at hrate ⊢
  cases hschedule : t.schedule with
  | none =>
    rw [hschedule] at hrate
    exact hrate.symm
  | some s => rfl

/-- What an epoch has come to, and what its summary says. -/
theorem Ruled.passes {config : TrainingConfig} {t next : Trainer} (h : t.Ruled config)
    {model : Affine Float32} {loaders : List (Loader Float32)} {e : Nat}
    {result : Except (Halt (FederatedError Float32)) (EpochSummary × Affine Float32)}
    (hpasses : t.Passes model loaders e (result, next)) :
    next.Ruled config ∧ ∀ summary merged, result = .ok (summary, merged) →
      config.plannedRate summary.epoch = .ok summary.rate := by
  generalize hending : (result, next) = ending at hpasses
  cases hpasses with
  | unloaded hshards =>
    cases hending
    exact ⟨h.left (h.scheduled e) (t.scheduled e).board, fun _ _ hresult => nomatch hresult⟩
  | @trained batches left hshards clock hleft =>
    have hbank := hleft.uniform (h.scheduled e)
    have hruled := h.left hbank left.board
    simp only [adopt] at hending
    split at hending
    · cases hending
      exact ⟨hruled, fun _ _ hresult => nomatch hresult⟩
    · split at hending
      · cases hending
        exact ⟨hruled, fun _ _ hresult => nomatch hresult⟩
      · cases hending
        refine ⟨hruled, fun summary merged hresult => ?_⟩
        cases hresult
        exact (h.planned e).trans (congrArg Except.ok hbank.spec.symm)

/-! ## Whole runs -/

/-- Every local step of an epoch that begins is taken with one rate, whatever turns are taken and
    whatever the clock reads. -/
def Onset.TrainsAt (o : Onset) (loaders : List (Loader Float32)) (r : Float32) : Prop :=
  ∀ batches clock s₀ choices w optimizer, shards loaders o.epoch = .ok batches →
    Epoch.start o.trainer.config.federated clock o.model batches
      (o.trainer.scheduled o.epoch).bank = .ok s₀ →
    (w, optimizer) ∈ s₀.updates choices → optimizer.rate = r

/-- An epoch that is governed by the plan of a configuration: the bank it finds has one rate, and
    all its local steps are taken with the rate that is planned. -/
structure Onset.Governed (config : TrainingConfig) (loaders : List (Loader Float32))
    (o : Onset) : Prop where
  bank : o.trainer.bank.Uniform o.trainer.bank.spec.rate
  steps : ∃ r, config.plannedRate o.epoch = .ok r ∧ o.TrainsAt loaders r

theorem Ruled.governed {config : TrainingConfig} {t : Trainer} (h : t.Ruled config)
    (model : Affine Float32) (loaders : List (Loader Float32)) (e : Nat) :
    (⟨t, model, e⟩ : Onset).Governed config loaders := by
  refine ⟨h.bank, t.rateAt e, h.planned e, ?_⟩
  intro batches clock s₀ choices w optimizer hshards hstart hupdate
  exact (Epoch.rated_of_start (h.scheduled e) hstart).updates hupdate

/-- A training run that is governed by the plan: the bank it leaves has one rate, so have all the
    epochs that began on the way, and every summary carries the rate that is planned. -/
structure Governed (config : TrainingConfig) (loaders : List (Loader Float32))
    (onsets : List Onset) (run : TrainingRun) : Prop where
  bank : run.trainer.bank.Uniform run.trainer.bank.spec.rate
  epochs : ∀ o ∈ onsets, o.Governed config loaders
  summaries : ∀ s ∈ run.summaries, config.plannedRate s.epoch = .ok s.rate

/-- The epochs of a run are governed one after another, and so is the trainer that it leaves. -/
theorem Ruled.fitsFrom {config : TrainingConfig} {loaders : List (Loader Float32)} {t : Trainer}
    {model : Affine Float32} {summaries : List EpochSummary} {e count : Nat}
    {onsets : List Onset} {run : TrainingRun} (h : t.Ruled config)
    (hsummaries : ∀ s ∈ summaries, config.plannedRate s.epoch = .ok s.rate)
    (hfits : FitsFrom loaders t model summaries e count onsets run) :
    run.trainer.Ruled config ∧ Governed config loaders onsets run := by
  induction hfits with
  | done => exact ⟨h, h.bank, by simp, hsummaries⟩
  | halted hpasses =>
    have hnext := (h.passes hpasses).1
    exact ⟨hnext, hnext.bank, by simpa using h.governed _ loaders _, hsummaries⟩
  | @passed t next model merged summaries e count summary onsets run hpasses hrest ih =>
    obtain ⟨hnext, hsummary⟩ := h.passes hpasses
    have hgrown : ∀ s ∈ summaries ++ [summary], config.plannedRate s.epoch = .ok s.rate :=
      List.forall_mem_append.2
        ⟨hsummaries, List.forall_mem_singleton.2 (hsummary summary merged rfl)⟩
    obtain ⟨hlast, hgoverned⟩ := ih hnext hgrown
    have honsets := List.forall_mem_cons.2 ⟨h.governed model loaders e, hgoverned.epochs⟩
    exact ⟨hlast, hgoverned.bank, honsets, hgoverned.summaries⟩

theorem Ruled.fits {config : TrainingConfig} {t : Trainer} (h : t.Ruled config)
    {model : Affine Float32} {loaders : List (Loader Float32)} {onsets : List Onset}
    {run : TrainingRun} (hfits : t.Fits model loaders onsets run) :
    run.trainer.Ruled config ∧ Governed config loaders onsets run := by
  cases hfits with
  | refused limit => exact ⟨h, h.bank, by simp, by simp⟩
  | begun hfits => exact h.fitsFrom (by simp) hfits

theorem Ruled.used {config : TrainingConfig} {fresh t : Trainer} (h : fresh.Ruled config)
    (used : fresh.Used t) : t.Ruled config := by
  induction used with
  | fresh => exact h
  | fit used hfits ih => exact (ih.fits hfits).1

/-- The plan of its configuration governs every training run of a trainer, whatever runs it has
    behind it and however they have ended: the bank has one rate between the runs and between
    their epochs, every local step of an epoch is taken with the rate that is planned for it,
    whatever turns the actors take and whatever the clock reads, and its summary carries that
    rate. -/
theorem schedule_governs {config : TrainingConfig} {fresh t : Trainer}
    (hconfig : ofConfig config = .ok fresh) (used : fresh.Used t) :
    t.bank.Uniform t.bank.spec.rate ∧
      ∀ model loaders,
        (∀ clocks, ∃ onsets, t.Fits model loaders onsets (t.fit model loaders clocks)) ∧
        ∀ onsets run, t.Fits model loaders onsets run → Governed config loaders onsets run := by
  have h := (ruled_ofConfig hconfig).used used
  refine ⟨h.bank, fun model loaders => ⟨t.exists_fits model loaders, ?_⟩⟩
  intro onsets run hfits
  exact (h.fits hfits).2

/-- Three epochs from rate 1 to a rate of 2 ^ -7, in a trainer with a run without workers behind it,
    which has failed. -/
theorem schedule_governs_again :
    let config : TrainingConfig :=
      { epochs := ⟨3, by decide⟩, batchSize := ⟨1, by decide⟩, seed := none,
        optimizer := .descent Scalar.one, schedule := some { endRate := Float32.ofBits 0x3C000000 },
        federated := { keepOptimizer := true } }
    let model : Affine Float32 := Affine.ofWeights (Matrix.zeros 1 1)
    ∃ fresh, ofConfig config = .ok fresh ∧ ∀ earlier, earlier = fresh.fit model [] →
      earlier.halt.isSome = true ∧ fresh.Used earlier.trainer ∧
        ∀ loaders, ∃ onsets,
          Governed config loaders onsets (earlier.trainer.fit model loaders) := by
  intro config model
  have hfacts : ((ofConfig config).toOption.map fun fresh => (fresh.fit model []).halt.isSome) =
      some true := by
    decide +kernel
  obtain ⟨fresh, hfresh, hhalt⟩ := Option.map_eq_some_iff.1 hfacts
  have hconfig : ofConfig config = .ok fresh := by
    cases hresult : ofConfig config with
    | error cause =>
      rw [hresult] at hfresh
      cases hfresh
    | ok found =>
      rw [hresult] at hfresh
      exact congrArg Except.ok (Option.some.inj hfresh)
  refine ⟨fresh, hconfig, fun earlier hearlier => ?_⟩
  obtain ⟨first, hfirst⟩ := fresh.exists_fits model [] fun _ => .started
  rw [← hearlier] at hfirst hhalt
  have hused : fresh.Used earlier.trainer := .fit .fresh hfirst
  refine ⟨hhalt, hused, fun loaders => ?_⟩
  obtain ⟨hexists, hall⟩ := (schedule_governs hconfig hused).2 model loaders
  obtain ⟨onsets, hfits⟩ := hexists fun _ => .started
  exact ⟨onsets, hall onsets _ hfits⟩

end Trainer

end Federated
