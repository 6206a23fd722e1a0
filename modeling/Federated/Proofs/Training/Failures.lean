/-
  Federated.Proofs.Training.Failures

  An epoch fails for reasons of its own: it merges a model, or nothing at all, or ends with the
  failure of a local step that some worker has taken.

    * `StepFailed` — a failure is that of a local step of a run.
    * `Running.failed_origin` — where a worker's failure comes from.
    * `Running.ends_own`, `Running.undisturbed` — the end of a complete run, and every point of
      any run.
    * `Epoch.only_own_failures` — this for every epoch, and where it fails.
-/
import Federated.Proofs.Barrier.Freshness
import Federated.Proofs.Training.Confluence
import Federated.Proofs.Training.Halting
import Federated.Proofs.Training.Traffic

namespace Federated

variable {α : Type}

/-- A failure that is only what another one comes to: a refused average, a coordinator that is
    gone, a cancelled wait. -/
def FederatedError.Secondary : FederatedError α → Prop
  | .aggregation _ | .coordinatorGone _ | .cancelled _ => True
  | _ => False

/-- A local step fails with an error of its own or in a defect. -/
theorem Worker.not_secondary_stepFailure (w : WorkerId) (halt : Halt ModelError) :
    ¬ (stepFailure w halt : FederatedError α).Secondary := by
  cases halt with
  | error cause => exact not_false
  | defect d => exact not_false

variable [Scalar α]

/-- The model that a step sends is that of the worker. -/
theorem Worker.Step.modelOf?_eq {w w' : Worker α} {m : Message α WorkerId}
    (h : w.Step w' (some m)) {v : WorkerId} {p : Params α} (hp : m.modelOf? v = some p) :
    p = w.learner.model.params := by
  cases h with
  | finish point rest => exact (Option.ite_some_none_eq_some.1 hp).2.symm
  | submit point => exact (Option.ite_some_none_eq_some.1 hp).2.symm
  | announceSync | announce => cases hp

namespace System

/-! ## Whose failure it is -/

/-- A failure is that of a local step of a run. -/
inductive StepFailed : System α → List Choice → FederatedError α → Prop
  | here {s : System α} {w : WorkerId} {seat : Seat α} {batch : Batch α}
      {rest : List (Batch α)} {halt : Halt ModelError} {choices : List Choice}
      (hseat : s.seat? w = some seat) (point : seat.worker.point = .stepping)
      (remaining : seat.worker.remaining = batch :: rest)
      (refused : seat.worker.learner.step batch = .error halt) :
      StepFailed s (.act w :: choices) (Worker.stepFailure w halt)
  | later {s s₁ : System α} {choice : Choice} {choices : List Choice} {cause : FederatedError α}
      (hstep : s.step? choice = some s₁) (h : StepFailed s₁ choices cause) :
      StepFailed s (choice :: choices) cause

theorem StepFailed.append {s : System α} {choices : List Choice} {cause : FederatedError α}
    (h : s.StepFailed choices cause) (more : List Choice) :
    s.StepFailed (choices ++ more) cause := by
  induction h with
  | here hseat point remaining refused => exact .here hseat point remaining refused
  | later hstep _ ih => exact .later hstep ih

theorem StepFailed.not_secondary {s : System α} {choices : List Choice}
    {cause : FederatedError α} (h : s.StepFailed choices cause) : ¬ cause.Secondary := by
  induction h with
  | here hseat point remaining refused => exact Worker.not_secondary_stepFailure _ _
  | later _ _ ih => exact ih

/-- Steps that succeed leave no failure. -/
theorem StepsSucceed.not_stepFailed {s : System α} {choices : List Choice}
    (h : s.StepsSucceed choices) {cause : FederatedError α} : ¬ s.StepFailed choices cause := by
  intro hfailed
  induction hfailed with
  | here hseat point remaining refused =>
    exact h.1 _ rfl ⟨_, _, _, _, hseat, point, remaining, refused⟩
  | later hstep _ ih => exact ih (h.2 _ hstep)

variable {policy : SyncPolicy} {totals : List Nat} {layout : Dict String (List Nat)}
  {bank : Bank α} {s s' : System α}

/-- A worker that has failed had failed at the start, or was brought down by a local step of the
    run, or by a wait that cannot be timed. -/
theorem Running.failed_origin (h : s.Running policy totals layout bank) {choices : List Choice}
    (hrun : s.run? choices = some s') (hserving : s'.session.stage = .serving) {w : WorkerId}
    {seat' : Seat α} (hseat' : s'.seat? w = some seat') {cause : FederatedError α}
    (hp : seat'.worker.point = .failed cause) :
    (∃ seat, s.seat? w = some seat ∧ seat.worker.point = .failed cause) ∨
      s.StepFailed choices cause ∨
      ¬ policy.TimesAll totals ∧ ∃ note, cause = .workerFailed note := by
  induction choices generalizing s with
  | nil =>
    cases hrun
    exact .inl ⟨seat', hseat', hp⟩
  | cons choice choices ih =>
    rw [run?_cons] at hrun
    obtain ⟨s₁, hstep, hrest⟩ := Option.bind_eq_some_iff.1 hrun
    have hnext := h.steady.next hstep
    have h₁ := h.next hnext (serving_of_run hrest hserving)
    rcases ih h₁ hrest with ⟨seat₁, hseat₁, hp₁⟩ | hlater | hwait
    · -- it had failed before the other steps, so the first one is left
      obtain ⟨seat, hseat, ⟨hbefore, -⟩ | ⟨hfelled, -⟩⟩ :=
        h.steady.failed_next hnext hseat₁ hp₁
      · exact .inl ⟨seat, hseat, hbefore⟩
      · cases hfelled with
        | step batch rest halt hc point remaining refused =>
          subst hc
          rw [h.steady.ids w seat hseat]
          exact .inr (.inl (.here hseat point remaining refused))
        | wait note late => exact .inr (.inr ⟨h.not_timesAll hseat late, note, rfl⟩)
    · exact .inr (.inl (.later hstep hlater))
    · exact .inr (.inr hwait)

/-! ## How an epoch ends -/

/-- The ends that an epoch comes to by itself. -/
inductive EndsOwn (s : System α) (choices : List Choice) :
    Except (FederatedError α) (EpochResult α) → Prop
  | merged (result : EpochResult α) : EndsOwn s choices (.ok result)
  | nothing : EndsOwn s choices (.error .nothingMerged)
  | step {cause : FederatedError α} (h : s.StepFailed choices cause) :
      EndsOwn s choices (.error cause)

theorem endsOwn_resultOf (s : System α) (choices : List Choice) (outcome : Outcome α) :
    s.EndsOwn choices (Epoch.resultOf outcome) := by
  rcases resultOf_cases outcome with hnothing | ⟨result, hok⟩
  · rw [hnothing]
    exact .nothing
  · rw [hok]
    exact .merged result

theorem EndsOwn.not_secondary {choices : List Choice} {cause : FederatedError α}
    (h : s.EndsOwn choices (.error cause)) : ¬ cause.Secondary := by
  cases h with
  | nothing => exact id
  | step hfailed => exact hfailed.not_secondary

/-- A complete run from a state in which nobody has failed comes to such an end, unless a worker
    has a wait that cannot be timed. -/
theorem Running.ends_own (h : s.Running policy totals layout bank) (hup : s.Unfailed)
    {choices : List Choice} (hrun : s.run? choices = some s') (hover : s'.Complete) :
    ∃ result, Epoch.result? s' = some result ∧
      (s.EndsOwn choices result ∨
        ¬ policy.TimesAll totals ∧ ∃ note, result = .error (.workerFailed note)) := by
  obtain ⟨before, s₁, merged, rfl, hbefore, h₁, -, -, -, hresult⟩ := h.closed hrun hover
  cases hfailure : s₁.failure with
  | none =>
    rw [hfailure] at hresult
    exact ⟨_, hresult, .inl (s.endsOwn_resultOf _ _)⟩
  | some cause =>
    rw [hfailure] at hresult
    refine ⟨_, hresult, ?_⟩
    -- the failure of the epoch is that of a worker
    obtain ⟨w, seat, hseat, hp⟩ := h₁.ledger.blamed cause hfailure
    rcases h.failed_origin hbefore h₁.steady.serving hseat hp with
        ⟨first, hfirst, hdown⟩ | hfailed | ⟨hwait, note, rfl⟩
    · exact absurd hdown (hup w first cause hfirst)
    · exact .inl (.step (hfailed.append _))
    · exact .inr ⟨hwait, note, rfl⟩

/-- Where no local step fails, it does so exactly if all waits can be timed. -/
theorem Running.endsOwn_iff (h : s.Running policy totals layout bank) (hsound : s.Sound)
    {choices : List Choice} (hrun : s.run? choices = some s') (hover : s'.Complete)
    (hsteps : s.StepsSucceed choices) {result : Except (FederatedError α) (EpochResult α)}
    (hresult : Epoch.result? s' = some result) :
    s.EndsOwn choices result ↔ policy.TimesAll totals := by
  obtain ⟨before, s₁, -, -, h₁, hended⟩ := h.ended hsound hrun hover hsteps
  cases hended with
  | settled all merged average hsettled _ =>
    cases hresult.symm.trans hsettled
    exact ⟨fun _ => all.timesAll h₁, fun _ => s.endsOwn_resultOf _ _⟩
  | died note untimely hdied =>
    cases hresult.symm.trans hdied
    refine ⟨fun hown => ?_, fun hwaits => absurd hwaits untimely⟩
    cases hown with
    | step hfailed => exact absurd hfailed hsteps.not_stepFailed

/-! ## On the way -/

/-- The average that a step asks for: that of a round which is due once a message is taken, or of
    the last round. -/
def averaging? (s : System α) : Choice → Option (Averaging α)
  | .receive =>
    match s.session.stage, s.queue with
    | .serving, m :: _ =>
      let c := (s.session.coordinator.apply m).1
      if c.barrier.roundReady then some ⟨c.barrier.contributions c.scope, c.weights⟩ else none
    | _, _ => none
  | .conclude =>
    match s.session.stage with
    | .serving =>
      let c := (s.session.coordinator.applyAll s.queue).1
      some ⟨c.barrier.contributions c.scope, c.weights⟩
    | _ => none
  | _ => none

/-- The averages that a run asks for, refused or not. -/
def averagings (s : System α) : List Choice → List (Averaging α) := s.trace averaging?

/-- Each is that of all messages under way. -/
theorem Steady.averaging?_eq (h : s.Steady) {choice : Choice} {a : Averaging α}
    (ha : s.averaging? choice = some a) :
    a = ⟨s.flushed.contributions s.session.coordinator.scope,
      s.session.coordinator.weights⟩ := by
  cases choice with
  | receive =>
    cases hq : s.queue with
    | nil => simp [averaging?, hq] at ha
    | cons m queue =>
      simp only [averaging?, h.serving, hq, Coordinator.apply_barrier, Coordinator.apply_scope,
        Coordinator.apply_weights, Option.ite_none_right_eq_some, Option.some.injEq] at ha
      obtain ⟨due, rfl⟩ := ha
      -- a message that makes a round due is the last one
      have horderly := h.orderly
      rw [hq] at horderly
      obtain rfl := horderly.2.eq_nil_of_due due
      rw [s.flushed_of_last hq]
      rfl
  | conclude =>
    simp only [averaging?, h.serving, Coordinator.applyAll_barrier, Coordinator.applyAll_scope,
      Coordinator.applyAll_weights, Option.some.injEq] at ha
    exact ha.symm
  | act | join | stop => cases ha

theorem Running.accepted (h : s.Running policy totals layout bank) {choice : Choice}
    {a : Averaging α} (ha : s.averaging? choice = some a) : a.Accepted layout := by
  rw [h.steady.averaging?_eq ha]
  exact h.shaped.accepted h.steady

/-- A worker sends models of the one layout only. -/
theorem Running.layout_sent (h : s.Running policy totals layout bank) {choice : Choice}
    {m : Message α WorkerId} (hm : s.sent? choice = some m) {v : WorkerId} {p : Params α}
    (hp : m.modelOf? v = some p) : p.layout = layout := by
  cases choice with
  | act w =>
    obtain ⟨seat, hseat, hsent⟩ := Option.bind_eq_some_iff.1 hm
    obtain ⟨⟨moved, sent⟩, hstep, rfl⟩ := Option.bind_eq_some_iff.1 hsent
    rw [(Worker.step_of_step? hstep).modelOf?_eq hp]
    exact h.shaped.workers w seat hseat
  | receive | join | stop | conclude => cases hm

/-- What holds of all that the steps show at the points of a run holds of all that it shows. -/
theorem Running.forall_trace {β : Type} {look : System α → Choice → Option β} {P : β → Prop}
    (h : s.Running policy totals layout bank)
    (hlook : ∀ s₁ : System α, s₁.Running policy totals layout bank → ∀ choice x,
      look s₁ choice = some x → P x)
    {choices : List Choice} (hrun : s.run? choices = some s') :
    ∀ x ∈ s.trace look choices, P x := by
  induction choices generalizing s with
  | nil => exact fun x hx => nomatch hx
  | cons choice choices ih =>
    rw [run?_cons] at hrun
    obtain ⟨s₁, hstep, hrest⟩ := Option.bind_eq_some_iff.1 hrun
    rw [trace_cons hstep]
    refine List.forall_mem_append.2
      ⟨fun x hx => hlook s h choice x (Option.mem_toList.1 hx), ?_⟩
    rcases h.step hstep with hnext | hover
    · exact ih hnext hrest
    · rw [hover.eq_nil_of_run hrest]
      exact fun x hx => nomatch hx

/-- What holds of an epoch at every point of a run, apart from how it ends. -/
structure Undisturbed (layout : Dict String (List Nat)) (s : System α) (choices : List Choice)
    (s' : System α) : Prop where
  /-- The run can be completed. -/
  completes : ∃ rest last, s'.run? rest = some last ∧ last.Complete
  /-- Behind the stop signal no worker moves, so nobody sees it while waiting. -/
  uncancelled : s'.stopped = true → ∀ w, s'.step? (.act w) = none
  /-- All models that have been sent have the one layout. -/
  layouts : ∀ m ∈ s.sent choices, ∀ p, m.modelOf? m.worker = some p → p.layout = layout
  /-- No average that was asked for is refused. -/
  averages : ∀ a ∈ s.averagings choices, a.Accepted layout

theorem Running.uncancelled (h : s.Running policy totals layout bank)
    (stopped : s.stopped = true) (w : WorkerId) : s.step? (.act w) = none := by
  refine step?_act_of_idle ((h.steady.halted stopped).imp_right fun hall v seat hseat => ?_) w
  exact h.steady.joined v seat hseat (allJoined_iff.1 hall v seat hseat)

/-- A run is complete, or can go on as it could from the start. -/
theorem Running.reached (h : s.Running policy totals layout bank) {choices : List Choice}
    (hrun : s.run? choices = some s') :
    s'.Running policy totals layout bank ∨ s'.Complete := by
  induction choices generalizing s with
  | nil =>
    cases hrun
    exact .inl h
  | cons choice choices ih =>
    rw [run?_cons] at hrun
    obtain ⟨s₁, hstep, hrest⟩ := Option.bind_eq_some_iff.1 hrun
    rcases h.step hstep with hnext | hover
    · exact ih hnext hrest
    · obtain rfl := hover.eq_nil_of_run hrest
      cases hrest
      exact .inr hover

theorem Running.undisturbed (h : s.Running policy totals layout bank) {choices : List Choice}
    (hrun : s.run? choices = some s') : s.Undisturbed layout choices s' := by
  refine ⟨?completes, ?uncancelled, ?layouts, ?averages⟩
  case completes =>
    rcases h.reached hrun with hrunning | hover
    · obtain ⟨rest, hrest, hlast⟩ := hrunning.settle 0 (Nat.le_refl _)
      exact ⟨rest, _, hrest, hlast⟩
    · exact ⟨[], s', rfl, hover⟩
  case uncancelled =>
    intro stopped w
    rcases h.reached hrun with hrunning | hover
    · exact hrunning.uncancelled stopped w
    · exact hover (.act w)
  case layouts =>
    exact h.forall_trace (fun s₁ h₁ choice m hm p hp => h₁.layout_sent hm hp) hrun
  case averages =>
    exact h.forall_trace (fun s₁ h₁ choice a ha => h₁.accepted ha) hrun

end System

namespace Epoch

variable {config : FederatedConfig} {clock : Clock} {model : Affine Float32}
  {shards : List (List (Batch Float32))} {bank : Bank Float32}

theorem unfailed_initial : (initial config clock model shards bank).Unfailed := by
  intro w seat cause hseat hp
  obtain ⟨shard, optimizer, -, rfl⟩ := seat?_initial hseat
  cases hp

/-- An epoch fails only for reasons of its own. In single precision, for every model, bank and
    configuration, whatever turns are taken: no run gets stuck, no wait is cancelled, all models
    that are sent have one layout, no average is refused, and a complete run ends with a result,
    without a merged model, or with the failure of a local step that it has taken.

    The one exception is a wait that the clock cannot time, where it reads too much for another
    period: its worker dies of it. -/
theorem only_own_failures (hne : shards ≠ []) (hfull : ∀ shard ∈ shards, shard ≠ [])
    (hcount : ∀ shard ∈ shards, shard.length ≤ countLimit) :
    ∃ s₀, start config clock model shards bank = .ok s₀ ∧
      (∀ choices s, s₀.run? choices = some s →
        s₀.Undisturbed model.params.layout choices s) ∧
      ∀ choices last, s₀.run? choices = some last → last.Complete →
        ∃ result, result? last = some result ∧
          (∀ cause, result = .error cause → ¬ cause.Secondary) ∧
          (s₀.EndsOwn choices result ∨
            ¬ (config.policy clock).TimesAll (shards.map List.length) ∧
            ∃ note, result = .error (.workerFailed note)) ∧
          (s₀.StepsSucceed choices →
            (s₀.EndsOwn choices result ↔
              (config.policy clock).TimesAll (shards.map List.length))) := by
  have h : (initial config clock model shards bank).Running (config.policy clock)
      (shards.map List.length) model.params.layout (initial config clock model shards bank).bank :=
    running_initial hfull hcount
  refine ⟨_, start_eq hne hfull, fun choices s hrun => h.undisturbed hrun, ?_⟩
  intro choices last hrun hover
  obtain ⟨result, hresult, hends⟩ := h.ends_own unfailed_initial hrun hover
  refine ⟨result, hresult, ?_, hends, fun hsteps => ?_⟩
  · rintro cause rfl
    rcases hends with hown | ⟨-, note, hnote⟩
    · exact hown.not_secondary
    · cases hnote
      exact id
  · exact h.endsOwn_iff sound_initial hrun hover hsteps hresult

/-- Two workers, the second of which has a batch that is too wide for the model. -/
theorem only_own_failures_wide :
    let config : FederatedConfig := { syncEvery := 1 }
    let clock : Clock := fun _ i => Nat.pow 10 18 + i
    let model : Affine Float32 := Affine.ofWeights (Matrix.zeros 1 1)
    let batch : Batch Float32 := ⟨Matrix.zeros 0 1, Matrix.zeros 0 1⟩
    let wide : Batch Float32 := ⟨Matrix.zeros 0 2, Matrix.zeros 0 1⟩
    let shards := [[batch], [wide]]
    let bank : Bank Float32 := Bank.ofSpec (.descent Scalar.one)
    let choices : List Choice := [.act ⟨0⟩, .receive, .act ⟨1⟩, .act ⟨1⟩, .join ⟨1⟩, .conclude]
    shards ≠ [] ∧ (∀ shard ∈ shards, shard ≠ []) ∧
      (∀ shard ∈ shards, shard.length ≤ countLimit) ∧
      ∃ s₀ last cause, start config clock model shards bank = .ok s₀ ∧
        s₀.run? choices = some last ∧ last.Complete ∧ result? last = some (.error cause) ∧
        s₀.EndsOwn choices (.error cause) := by
  intro config clock model batch wide shards bank choices
  have hne : shards ≠ [] := by simp [shards]
  have hfull : ∀ shard ∈ shards, shard ≠ [] := by simp [shards]
  have hcount : ∀ shard ∈ shards, shard.length ≤ countLimit := by simp [shards, countLimit]
  obtain ⟨s₀, hstart, -, hall⟩ :=
    @only_own_failures config clock model shards bank hne hfull hcount
  obtain rfl := Except.ok.inj ((start_eq hne hfull).symm.trans hstart)
  have hrun : ((initial config clock model shards bank).run? choices).map
      (fun s => (s.session.isServing, s.stopped, s.failure.isSome,
        (result? s).any fun result => !result.isOk)) = some (false, true, true, true) := by
    decide +kernel
  obtain ⟨last, hlast, hfacts⟩ := Option.map_eq_some_iff.1 hrun
  simp only [Prod.mk.injEq] at hfacts
  obtain ⟨hserving, hstopped, hfailed, hrefused⟩ := hfacts
  have hover : last.Complete :=
    System.complete_of_idle (System.stage_ne_serving hserving) hstopped (.inl hfailed)
  obtain ⟨result, hresult, -, hends, -⟩ := hall choices last hlast hover
  -- nobody has a wait, so the failure is that of the step
  have hwaits : (config.policy clock).TimesAll (shards.map List.length) :=
    SyncPolicy.timesAll_of_short (by simp [shards])
  have hown : (initial config clock model shards bank).EndsOwn choices result := by
    rcases hends with hown | ⟨huntimely, -⟩
    · exact hown
    · exact absurd hwaits huntimely
  cases result with
  | ok result =>
    rw [hresult] at hrefused
    cases hrefused
  | error cause =>
    exact ⟨hne, hfull, hcount, _, last, cause, hstart, hlast, hover, hresult, hown⟩

/-- Two workers with a wait each, which no clock can time although the configuration passes its
    check: no local step fails, and yet the epoch fails. -/
theorem untimed_wait_not_own :
    let config : FederatedConfig :=
      { syncEvery := 1, waitInterval := Float.ofBits 0x43E158E460913D00 }
    let model : Affine Float32 := Affine.ofWeights (Matrix.zeros 1 1)
    let batch : Batch Float32 := ⟨Matrix.zeros 0 1, Matrix.zeros 0 1⟩
    let shards := [[batch, batch], [batch, batch]]
    let bank : Bank Float32 := Bank.ofSpec (.descent Scalar.one)
    let choices : List Choice :=
      [.act ⟨0⟩, .receive, .act ⟨0⟩, .act ⟨0⟩, .receive, .act ⟨0⟩, .receive, .join ⟨0⟩, .conclude]
    (config.validate : Except (ConfigError Float32) Unit) = .ok () ∧
      ∃ s₀ last result, start config .started model shards bank = .ok s₀ ∧
        s₀.run? choices = some last ∧ last.Complete ∧ result? last = some result ∧
        ¬ s₀.EndsOwn choices result := by
  intro config model batch shards bank choices
  have valid : (config.validate : Except (ConfigError Float32) Unit) = .ok () := by
    unfold config
    rfl
  have hfull : ∀ shard ∈ shards, shard ≠ [] := by simp [shards]
  have hcount : ∀ shard ∈ shards, shard.length ≤ countLimit := by simp [shards, countLimit]
  have hstart : start config .started model shards bank =
      .ok (initial config .started model shards bank) := start_eq (by simp [shards]) hfull
  have hrun : ((initial config .started model shards bank).run? choices).map
      (fun s => (s.session.isServing, s.stopped, s.failure.isSome)) = some (false, true, true) := by
    decide +kernel
  have hsteps : (initial config .started model shards bank).StepsSucceed choices := by
    decide +kernel
  obtain ⟨last, hlast, hfacts⟩ := Option.map_eq_some_iff.1 hrun
  simp only [Prod.mk.injEq] at hfacts
  obtain ⟨hserving, hstopped, hfailed⟩ := hfacts
  have hover : last.Complete :=
    System.complete_of_idle (System.stage_ne_serving hserving) hstopped (.inl hfailed)
  have h : (initial config .started model shards bank).Running (config.policy .started)
      (shards.map List.length) model.params.layout
      (initial config .started model shards bank).bank := running_initial hfull hcount
  obtain ⟨result, hresult, -⟩ := h.ends_own unfailed_initial hlast hover
  refine ⟨valid, _, last, result, hstart, hlast, hover, hresult, fun hown => ?_⟩
  -- a wait before the second batch would have to be timed
  have hwaits := (h.endsOwn_iff sound_initial hlast hover hsteps hresult).1 hown
  have htimed := hwaits ⟨0⟩ 2 rfl 1 (by omega) (by decide +kernel)
  have huntimed : (config.policy .started).timed ⟨0⟩ 1 = false := by decide +kernel
  cases huntimed.symm.trans htimed

end Epoch

end Federated
