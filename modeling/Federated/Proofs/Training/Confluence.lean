/-
  Federated.Proofs.Training.Confluence

  Turns do not matter: complete executions of an epoch all come to the same end, because each of
  them follows the one cohort.

    * `Running.ended` — how a complete execution ends, if no local step fails on its way.
    * `Running.steps_succeed` — if none fails on one way, none fails on any other.
    * `Running.same_end` — any two complete executions leave the same result and the same bank.
    * `Epoch.schedule_independent` — this for every epoch under all clocks, and where it fails.
-/
import Federated.Proofs.Training.Clocks
import Federated.Proofs.Training.Cohort

namespace Federated

variable {α : Type} [Scalar α]

namespace System

variable {policy : SyncPolicy} {totals : List Nat} {layout : Dict String (List Nat)}
  {bank : Bank α} {s s' : System α}

/-! ## The end -/

/-- All workers have been joined, and all of them had finished. -/
structure Settled (s : System α) : Prop where
  joined : ∀ w seat, s.seat? w = some seat → seat.joined = true
  finished : ∀ w seat, s.seat? w = some seat → ∃ loss, seat.worker.point = .finished loss

theorem Settled.current {s : System α} (h : s.Settled) {w : WorkerId} {seat : Seat α}
    (hseat : s.seat? w = some seat) : seat.current = seat.worker := by
  obtain ⟨loss, hp⟩ := h.finished w seat hseat
  exact current_of_hasEnded (Worker.hasEnded_iff.2 (.inl ⟨loss, hp⟩))

/-- The cohort of a settled state is finished. -/
theorem Settled.cohort (h : s.Settled) (hsteady : s.Steady) : s.cohort.Finished := by
  intro i l hl
  obtain ⟨seat, r, hseat, hr, rfl⟩ := lane_of_cohort hl
  obtain ⟨loss, hp⟩ := h.finished ⟨i⟩ seat hseat
  have hagrees := hsteady.agrees ⟨i⟩ seat r hseat hr
  rw [h.current hseat] at hagrees ⊢
  exact ⟨⟨loss, hp⟩, (Lane.agrees_of_finished hagrees hp).1⟩

/-- How a complete execution ends: with everyone finished, or with a wait that could not be
    timed. -/
inductive Ended (policy : SyncPolicy) (totals : List Nat) (s₁ s : System α) : Prop
  | settled (all : s₁.Settled) (merged : Option (Params α))
      (average : s₁.session.coordinator.average s₁.flushed = .ok merged)
      (result : Epoch.result? s = some (Epoch.resultOf (s₁.flushed.outcome merged)))
      (bank : s.bank = s₁.bank)
  | died (note : String) (untimely : ¬ policy.TimesAll totals)
      (result : Epoch.result? s = some (.error (.workerFailed note)))

/-- If nobody has failed by the time of the stop signal, all have been joined and had finished. -/
theorem Running.settled (h : s.Running policy totals layout bank) (stopped : s.stopped = true)
    (active : s.failure = none) : s.Settled := by
  have hall : s.allJoined = true := by
    rcases h.steady.halted stopped with hfailed | hall
    · rw [active] at hfailed
      cases hfailed
    · exact hall
  have hjoined := allJoined_iff.1 hall
  exact ⟨hjoined, fun w seat hseat => h.finished_of_joined active hseat (hjoined w seat hseat)⟩

/-- What a complete execution leaves, by the state in which it takes the stop signal: the failure
    of a worker if there is one, and else what the last round has come to. -/
theorem Running.closed (h : s.Running policy totals layout bank) {choices : List Choice}
    (hrun : s.run? choices = some s') (hover : s'.Complete) :
    ∃ before s₁ merged, choices = before ++ [.conclude] ∧ s.run? before = some s₁ ∧
      s₁.Running policy totals layout bank ∧ s₁.stopped = true ∧
      s₁.session.coordinator.average s₁.flushed = .ok merged ∧ s'.bank = s₁.bank ∧
      Epoch.result? s' = match s₁.failure with
        | none => some (Epoch.resultOf (s₁.flushed.outcome merged))
        | some failure => some (.error failure) := by
  obtain ⟨before, s₁, session, replies, rfl, hbefore, h₁, stopped, stop, rfl⟩ :=
    h.concluded hrun hover
  obtain ⟨merged, average, hstage⟩ := h₁.outcome stop
  obtain ⟨-, hsession, hbank, hstopped, hfailure, -⟩ := deliverAll_frame
    ({ s₁ with session, queue := [] } : System α) replies
  generalize ({ s₁ with session, queue := [] } : System α).deliverAll replies = s' at *
  rw [show s₁.stopped = true from stopped] at hstopped
  refine ⟨before, s₁, merged, rfl, hbefore, h₁, stopped, average, hbank, ?_⟩
  unfold Epoch.result?
  rw [if_pos hstopped, show s'.failure = s₁.failure from hfailure,
    show s'.session = session from hsession, hstage]
  split <;> simp_all

theorem Running.ended (h : s.Running policy totals layout bank) (hsound : s.Sound)
    {choices : List Choice} (hrun : s.run? choices = some s') (hover : s'.Complete)
    (hsteps : s.StepsSucceed choices) :
    ∃ before s₁, choices = before ++ [.conclude] ∧ s.run? before = some s₁ ∧
      s₁.Running policy totals layout bank ∧ Ended policy totals s₁ s' := by
  obtain ⟨before, s₁, merged, rfl, hbefore, h₁, stopped, average, hbank, hresult⟩ :=
    h.closed hrun hover
  refine ⟨before, s₁, rfl, hbefore, h₁, ?_⟩
  have hsound₁ := h.run_sound hsound hbefore hsteps.start h₁.steady.serving
  -- with no failure all were joined, and had finished; else the failure is a worker's
  rcases Option.eq_none_or_eq_some s₁.failure with hf | ⟨cause, hf⟩
  · rw [hf] at hresult
    exact .settled (h₁.settled stopped hf) merged average hresult hbank
  · rw [hf] at hresult
    obtain ⟨w, seat, hseat, hp⟩ := h₁.ledger.blamed cause hf
    -- no local step failed, so it was a wait that brought the worker down
    obtain ⟨late, note, rfl⟩ := hsound₁ w seat cause hseat hp
    exact .died note (h₁.not_timesAll hseat late) hresult

/-! ## One way for all -/

/-- A state whose resting cohort is on the way to a given one. -/
structure Bound (weights : Weights α) (scope : MergeScope) (final : Cohort α) (s : System α) :
    Prop where
  leads : Cohort.Leads weights scope s.cohort.rest final
  weights : s.session.coordinator.weights = weights
  scope : s.session.coordinator.scope = scope

variable {weights : Weights α} {scope : MergeScope} {final : Cohort α}

/-- Steps do not leave the way to a finished cohort. -/
theorem Bound.next (h : s.Bound weights scope final) (hfinal : final.Finished)
    (hsteady : s.Steady) {choice : Choice} (hn : Next s choice s')
    (hserving : s'.session.stage = .serving) : s'.Bound weights scope final := by
  obtain ⟨hweights, hscope⟩ := hn.merging hserving
  refine ⟨?_, hweights.trans h.weights, hscope.trans h.scope⟩
  -- a round taken from here is the next one on the way
  rcases hsteady.cohort_step hn hserving with hsame | hround
  · rw [hsame]
    exact h.leads
  · rw [h.weights, h.scope] at hround
    exact hfinal.last h.leads (Relation.ReflTransGen.single hround)

/-- On the way to a finished cohort no local step fails: the worker would have failed at the end
    too. -/
theorem Bound.not_stepFails (h : s.Bound weights scope final) (hfinal : final.Finished)
    (hsteady : s.Steady) (w : WorkerId) : ¬ s.StepFails w := by
  rintro ⟨seat, batch, rest, halt, hseat, point, remaining, refused⟩
  have hfail := Worker.Step.fail batch rest halt point remaining refused
  obtain ⟨r, hr⟩ := hsteady.record_of_seat hseat
  have hended : (seat.worker.goto (.failed (Worker.stepFailure seat.worker.id halt))).hasEnded =
      true := rfl
  -- the worker rests where it fails, and no round moves it from there
  have hlane : s.cohort.rest.lanes[w.index]? =
      some ⟨seat.worker.goto (.failed (Worker.stepFailure seat.worker.id halt)), r⟩ := by
    show (s.cohort.lanes.map Lane.rest)[w.index]? = _
    rw [List.getElem?_map, cohort_of_lane hseat hr,
      Seat.current_of_no_mail (hsteady.mail_of_step hseat hfail)]
    refine congrArg some ?_
    rw [Lane.rest_of_step (Lane.step?_of_step hfail r)]
    exact Lane.rest_of_hasEnded hended
  obtain ⟨l, hl, hworker⟩ := h.leads.worker_eq hlane hended
  obtain ⟨⟨loss, hp⟩, -⟩ := hfinal w.index l hl
  rw [hworker] at hp
  cases hp

/-- The way of a run from the resting cohort at its start to the one at its end. -/
theorem Running.leads (h : s.Running policy totals layout bank) {choices : List Choice}
    (hrun : s.run? choices = some s') (hserving : s'.session.stage = .serving) :
    s'.session.coordinator.weights = s.session.coordinator.weights ∧
      s'.session.coordinator.scope = s.session.coordinator.scope ∧
      Cohort.Leads s.session.coordinator.weights s.session.coordinator.scope s.cohort.rest
        s'.cohort.rest := by
  have hend := h.steady.run_induction
    (P := fun s₁ choices => (s₁.session.coordinator.weights = s.session.coordinator.weights ∧
      s₁.session.coordinator.scope = s.session.coordinator.scope ∧
      Cohort.Leads s.session.coordinator.weights s.session.coordinator.scope s.cohort.rest
        s₁.cohort.rest) ∧ s₁.run? choices = some s')
    ⟨⟨rfl, rfl, Relation.ReflTransGen.refl⟩, hrun⟩ hrun hserving ?_
  · exact hend.2.1
  · rintro s₁ s₂ choice rest h₁ ⟨⟨hweights, hscope, hleads⟩, hrest⟩ hstep hnext
    rw [run?_cons, hstep] at hrest
    have hserves := serving_of_run hrest hserving
    obtain ⟨hweights₂, hscope₂⟩ := hnext.merging hserves
    refine ⟨⟨hweights₂.trans hweights, hscope₂.trans hscope, ?_⟩, hrest⟩
    -- either the resting cohort is the same, or the way is one round longer
    rcases h₁.cohort_step hnext hserves with hsame | hround
    · rw [hsame]
      exact hleads
    · rw [hweights, hscope] at hround
      exact hleads.tail hround

/-- If the way leads to a finished cohort, no local step fails whatever turns are taken. -/
theorem Running.steps_succeed (h : s.Running policy totals layout bank)
    (hbound : s.Bound weights scope final) (hfinal : final.Finished) (choices : List Choice) :
    s.StepsSucceed choices := by
  induction choices generalizing s with
  | nil => trivial
  | cons choice choices ih =>
    refine ⟨fun w _ => hbound.not_stepFails hfinal h.steady w, fun s' hstep => ?_⟩
    have hnext := h.steady.next hstep
    by_cases hserving : s'.session.stage = .serving
    · exact ih (h.next hnext hserving) (hbound.next hfinal h.steady hnext hserving)
    · -- the coordinator has just taken the stop signal, and nobody moves any more
      obtain ⟨-, stopped, session, replies, -, rfl⟩ := h.conclude_of_step hstep hserving
      rw [(deliverAll_frame _ replies).2.1] at hserving
      refine (h.steady.over stopped hserving replies).stepsSucceed (fun w => ?_) choices
      rintro ⟨seat', batch, rest, halt, hseat', hfails⟩
      obtain ⟨seat, hseat, hworker, -⟩ := worker_deliverAll hseat'
      rw [hworker] at hfails
      exact hbound.not_stepFails hfinal h.steady w ⟨seat, batch, rest, halt, hseat, hfails⟩

/-! ## One end for all -/

theorem Settled.cohort_rest (h : s.Settled) : s.cohort.rest = s.cohort := by
  refine Cohort.ext_lanes (fun i => ?_) rfl rfl
  show (s.cohort.lanes.map Lane.rest)[i]? = _
  rw [List.getElem?_map]
  cases hl : s.cohort.lanes[i]? with
  | none => rfl
  | some l =>
    obtain ⟨seat, r, hseat, hr, rfl⟩ := lane_of_cohort hl
    refine congrArg some (Lane.rest_of_hasEnded ?_)
    obtain ⟨loss, hp⟩ := h.finished ⟨i⟩ seat hseat
    rw [h.current hseat]
    exact Worker.hasEnded_iff.2 (.inl ⟨loss, hp⟩)

/-- Where the cohorts are equal, so are the workers. -/
theorem seat_of_cohort_eq (h : s.Running policy totals layout bank) (hcohort : s.cohort = s'.cohort)
    {w : WorkerId} {seat : Seat α} (hseat : s.seat? w = some seat) :
    ∃ seat', s'.seat? w = some seat' ∧ seat.current = seat'.current := by
  obtain ⟨r, hr⟩ := h.steady.record_of_seat hseat
  have hlane := cohort_of_lane hseat hr
  rw [hcohort] at hlane
  obtain ⟨seat', r', hseat', -, heq⟩ := lane_of_cohort hlane
  exact ⟨seat', hseat', congrArg Lane.worker heq⟩

/-- Settled states with the same cohort have the same bank. -/
theorem Settled.bank_eq (h : s.Running policy totals layout bank) (all : s.Settled)
    (h' : s'.Running policy totals layout bank) (all' : s'.Settled)
    (hcohort : s.cohort = s'.cohort) : s.bank = s'.bank := by
  have hstored : s.bank.stored = s'.bank.stored := by
    apply Dict.ext_find?
    intro w
    cases hseat : s.seat? w with
    | some seat =>
      -- a worker's optimizer was stored when the worker was joined
      obtain ⟨seat', hseat', heq⟩ := seat_of_cohort_eq h hcohort hseat
      obtain ⟨loss, hp⟩ := all.finished w seat hseat
      obtain ⟨loss', hp'⟩ := all'.finished w seat' hseat'
      rw [all.current hseat, all'.current hseat'] at heq
      rw [h.ledger.stored w seat loss hseat (all.joined w seat hseat) hp,
        h'.ledger.stored w seat' loss' hseat' (all'.joined w seat' hseat') hp', heq]
    | none =>
      -- a number without a worker is untouched in both
      have hseat' : ∀ seat', s'.seat? w ≠ some seat' := by
        intro seat' hsome
        obtain ⟨seat, hseat₁, -⟩ := seat_of_cohort_eq h' hcohort.symm hsome
        rw [hseat] at hseat₁
        cases hseat₁
      rw [h.ledger.kept w (fun seat hsome => by rw [hseat] at hsome; cases hsome),
        h'.ledger.kept w fun seat' hsome => absurd hsome (hseat' seat')]
  have hspec : s.bank.spec = s'.bank.spec := h.ledger.spec.trans h'.ledger.spec.symm
  calc s.bank = ⟨s.bank.spec, s.bank.stored⟩ := rfl
    _ = ⟨s'.bank.spec, s'.bank.stored⟩ := by rw [hspec, hstored]
    _ = s'.bank := rfl

/-- An epoch in which everyone has finished comes to a merged model, or to none at all. -/
theorem resultOf_cases (outcome : Outcome α) :
    Epoch.resultOf outcome = .error .nothingMerged ∨
      ∃ result, Epoch.resultOf outcome = .ok result := by
  unfold Epoch.resultOf
  split
  · exact .inl rfl
  · exact .inr ⟨_, rfl⟩

/-- If no local step fails in one complete execution, where all waits can be timed: then none fails
    in any execution, and all complete ones come to the same end. -/
theorem Running.same_end (h : s.Running policy totals layout bank) (hsound : s.Sound)
    (hwaits : policy.TimesAll totals) {choices : List Choice} {last : System α}
    (hrun : s.run? choices = some last) (hover : last.Complete) (hsteps : s.StepsSucceed choices) :
    ∃ result, (result = .error .nothingMerged ∨ ∃ e, result = .ok e) ∧
      Epoch.result? last = some result ∧ s.EndsIn result last.bank := by
  -- where nobody dies of a wait, an execution ends with everyone finished
  have hlive : ∀ {s₁ last₁ : System α}, Ended policy totals s₁ last₁ →
      ∃ merged, s₁.Settled ∧ s₁.session.coordinator.average s₁.flushed = .ok merged ∧
        Epoch.result? last₁ = some (Epoch.resultOf (s₁.flushed.outcome merged)) ∧
        last₁.bank = s₁.bank := by
    intro s₁ last₁ hended
    cases hended with
    | settled all merged average result hbank => exact ⟨merged, all, average, result, hbank⟩
    | died note untimely result => exact absurd hwaits untimely
  obtain ⟨before, s₁, rfl, hbefore, h₁, hended⟩ := h.ended hsound hrun hover hsteps
  obtain ⟨merged, all, average, hresult, hbank⟩ := hlive hended
  obtain ⟨hweights, hscope, hleads⟩ := h.leads hbefore h₁.steady.serving
  rw [all.cohort_rest] at hleads
  have hfinal := all.cohort h₁.steady
  have hsucceed := h.steps_succeed ⟨hleads, rfl, rfl⟩ hfinal
  refine ⟨Epoch.resultOf (s₁.flushed.outcome merged), resultOf_cases _, hresult, hsucceed, ?_⟩
  intro choices' last' hrun' hover'
  obtain ⟨before', s₂, rfl, hbefore', h₂, hended'⟩ :=
    h.ended hsound hrun' hover' (hsucceed _)
  obtain ⟨merged', all', average', hresult', hbank'⟩ := hlive hended'
  obtain ⟨hweights', hscope', hleads'⟩ := h.leads hbefore' h₂.steady.serving
  rw [all'.cohort_rest] at hleads'
  -- both ends are on the one way, and nothing comes behind a finished cohort
  have hcohort : s₁.cohort = s₂.cohort :=
    (all'.cohort h₂.steady).stays (hfinal.last hleads hleads')
  have hflushed : s₁.flushed = s₂.flushed := by
    rw [← h₁.steady.barrier_cohort, ← h₂.steady.barrier_cohort, hcohort]
  have hmerged : merged' = merged := by
    unfold Coordinator.average at average average'
    rw [hweights', hscope', ← hweights, ← hscope, ← hflushed, average] at average'
    exact (Except.ok.inj average').symm
  refine ⟨?_, ?_⟩
  · rw [hresult', hmerged, hflushed]
  · rw [hbank', hbank]
    exact (Settled.bank_eq h₁ all h₂ all' hcohort).symm

/-- Where everyone has finished, all waits were timed. -/
theorem Settled.timesAll (h : s.Running policy totals layout bank) (all : s.Settled) :
    policy.TimesAll totals := by
  intro w total htotal
  have hlt : w.index < s.seats.size := by
    rw [h.size]
    exact (List.getElem?_eq_some_iff.1 htotal).1
  have hseat : s.seat? w = some s.seats[w.index] := Array.getElem?_eq_getElem hlt
  obtain ⟨loss, hp⟩ := all.finished w _ hseat
  have hdrift := h.steady.drift w _ hseat
  rw [all.current hseat] at hdrift
  -- whoever has finished has come to the waits before all its batches
  have htimed := hdrift.timed
  rw [Worker.reached, hp, h.policy w _ hseat, h.steady.ids w _ hseat] at htimed
  rw [Option.some.inj (htotal.symm.trans (h.total w _ hseat))]
  exact htimed

/-- A complete execution without a failed step shows whether all waits can be timed: it has a
    result of its own, or none for want of a merged model, exactly if they can. -/
theorem Running.timesAll_iff (h : s.Running policy totals layout bank) (hsound : s.Sound)
    {choices : List Choice} {last : System α} (hrun : s.run? choices = some last)
    (hover : last.Complete) (hsteps : s.StepsSucceed choices) :
    policy.TimesAll totals ↔ ∃ result, (result = .error .nothingMerged ∨ ∃ e, result = .ok e) ∧
      Epoch.result? last = some result := by
  constructor
  · intro hwaits
    obtain ⟨result, hkind, hresult, -⟩ := h.same_end hsound hwaits hrun hover hsteps
    exact ⟨result, hkind, hresult⟩
  · rintro ⟨result, hkind, hresult⟩
    obtain ⟨before, s₁, -, -, h₁, hended⟩ := h.ended hsound hrun hover hsteps
    cases hended with
    | settled all merged average _ _ => exact all.timesAll h₁
    | died note untimely hdied =>
      obtain rfl := Option.some.inj (hdied.symm.trans hresult)
      rcases hkind with hnothing | ⟨e, hok⟩
      · cases hnothing
      · cases hok

end System

namespace Epoch

/-- What an epoch comes to under all clocks that can time the waits of its workers: a result of its
    own, or none for want of a merged model. No local step fails whatever turns are taken, and all
    complete executions leave the result and the bank of this one. -/
def OneEnd (config : FederatedConfig) (model : Affine Float32)
    (shards : List (List (Batch Float32))) (bank : Bank Float32) (last : System Float32) : Prop :=
  ∃ result, (result = .error .nothingMerged ∨ ∃ e, result = .ok e) ∧ result? last = some result ∧
    ∀ clock s₀, (config.policy clock).TimesAll (shards.map List.length) →
      start config clock model shards bank = .ok s₀ → s₀.EndsIn result last.bank

/-- The end of an epoch does not depend on the turns its actors take, nor on what the clock reads
    meanwhile. In single precision, for every configuration: if no local step fails in some
    complete execution, then none fails in any, and all complete ones leave the same result and
    the same bank.

    This holds exactly where the clock can time the waits of the workers. Else a worker dies of
    the first wait that it cannot time, and the epoch fails. -/
theorem schedule_independent {config : FederatedConfig} {clock : Clock} {model : Affine Float32}
    {shards : List (List (Batch Float32))} {bank : Bank Float32} (hne : shards ≠ [])
    (hfull : ∀ shard ∈ shards, shard ≠ [])
    (hcount : ∀ shard ∈ shards, shard.length ≤ countLimit) :
    ∃ s₀, start config clock model shards bank = .ok s₀ ∧
      ∀ choices last, s₀.run? choices = some last → last.Complete → s₀.StepsSucceed choices →
        (OneEnd config model shards bank last ↔
          (config.policy clock).TimesAll (shards.map List.length)) := by
  refine ⟨_, start_eq hne hfull, fun choices last hrun hover hsteps => ?_⟩
  have h : (initial config clock model shards bank).Running (config.policy clock)
      (shards.map List.length) model.params.layout (initial config clock model shards bank).bank :=
    running_initial hfull hcount
  constructor
  · rintro ⟨result, hkind, hresult, -⟩
    exact (h.timesAll_iff sound_initial hrun hover hsteps).2 ⟨result, hkind, hresult⟩
  · intro hwaits
    obtain ⟨result, hkind, hresult, hends⟩ := h.same_end sound_initial hwaits hrun hover hsteps
    refine ⟨result, hkind, hresult, fun clock' s₀ hother hstart => ?_⟩
    -- the epoch under the other clock takes the same steps from the same start
    obtain rfl := Except.ok.inj ((start_eq hne hfull).symm.trans hstart)
    rw [initial_retimed config clock clock']
    exact hends.retimed (h.concurs_run hwaits hother)

/-- Two workers, of one batch and of two, that synchronize before every batch but the first: the
    second one meets the final model of the first. The clock has run for thirty years. -/
theorem schedule_independent_pair :
    let config : FederatedConfig := { syncEvery := 1 }
    let clock : Clock := fun _ i => Nat.pow 10 18 + i
    let model : Affine Float32 := Affine.ofWeights (Matrix.zeros 1 1)
    let batch : Batch Float32 := ⟨Matrix.ofFn 2 1 fun i _ => Scalar.ofCount i,
      Matrix.ofFn 2 1 fun i _ => Scalar.ofCount (i + 1)⟩
    let shards := [[batch], [batch, batch]]
    let bank : Bank Float32 := Bank.ofSpec (.descent Scalar.one)
    let choices : List Choice :=
      [.act ⟨0⟩, .receive, .act ⟨1⟩, .act ⟨1⟩, .act ⟨1⟩, .receive, .act ⟨1⟩, .act ⟨0⟩, .receive,
        .receive, .act ⟨0⟩, .receive, .act ⟨1⟩, .join ⟨0⟩, .act ⟨1⟩, .act ⟨1⟩, .join ⟨1⟩, .stop,
        .conclude]
    shards ≠ [] ∧ (∀ shard ∈ shards, shard ≠ []) ∧
      (∀ shard ∈ shards, shard.length ≤ countLimit) ∧
      ∃ s₀ last, start config clock model shards bank = .ok s₀ ∧ s₀.run? choices = some last ∧
        last.Complete ∧ s₀.StepsSucceed choices ∧ OneEnd config model shards bank last := by
  intro config clock model batch shards bank choices
  have hne : shards ≠ [] := by simp [shards]
  have hfull : ∀ shard ∈ shards, shard ≠ [] := by simp [shards]
  have hcount : ∀ shard ∈ shards, shard.length ≤ countLimit := by simp [shards, countLimit]
  have hlongest : ∀ total ∈ shards.map List.length, total ≤ 2 := by simp [shards]
  have hlatest : config.notePeriod.endsOnClock (Nat.pow 10 18 + 1) = true := by decide +kernel
  have hwaits : (config.policy clock).TimesAll (shards.map List.length) :=
    FederatedConfig.timesAll_of_latest hlongest
      (fun _ _ hi => Nat.add_le_add_left (Nat.le_of_lt_succ hi) _) hlatest
  obtain ⟨s₀, hstart, hall⟩ :=
    @schedule_independent config clock model shards bank hne hfull hcount
  obtain rfl := Except.ok.inj ((start_eq hne hfull).symm.trans hstart)
  have hrun : ((initial config clock model shards bank).run? choices).map
      (fun s => (s.session.isServing, s.stopped, s.seats.all fun seat =>
        seat.joined && seat.worker.hasEnded)) = some (false, true, true) := by
    decide +kernel
  have hsteps : (initial config clock model shards bank).StepsSucceed choices := by decide +kernel
  obtain ⟨last, hlast, hfacts⟩ := Option.map_eq_some_iff.1 hrun
  have hover := System.complete_of_facts hfacts
  exact ⟨hne, hfull, hcount, _, last, hstart, hlast, hover, hsteps,
    (hall choices last hlast hover hsteps).2 hwaits⟩

/-- One worker with one wait, which no clock can time although the configuration passes its check:
    no local step fails, and yet the epoch has neither a result nor an end without models. -/
theorem untimed_wait_fails_epoch :
    let config : FederatedConfig :=
      { syncEvery := 1, waitInterval := Float.ofBits 0x43E158E460913D00 }
    let model : Affine Float32 := Affine.ofWeights (Matrix.zeros 1 1)
    let batch : Batch Float32 := ⟨Matrix.zeros 0 1, Matrix.zeros 0 1⟩
    let shards := [[batch, batch]]
    let bank : Bank Float32 := Bank.ofSpec (.descent Scalar.one)
    let choices : List Choice :=
      [.act ⟨0⟩, .receive, .act ⟨0⟩, .act ⟨0⟩, .receive, .act ⟨0⟩, .receive, .join ⟨0⟩, .conclude]
    (config.validate : Except (ConfigError Float32) Unit) = .ok () ∧
      ∃ s₀ last, start config .started model shards bank = .ok s₀ ∧ s₀.run? choices = some last ∧
        last.Complete ∧ s₀.StepsSucceed choices ∧ ¬ OneEnd config model shards bank last := by
  intro config model batch shards bank choices
  have valid : (config.validate : Except (ConfigError Float32) Unit) = .ok () := by
    unfold config
    rfl
  have hfull : ∀ shard ∈ shards, shard ≠ [] := by simp [shards]
  have hcount : ∀ shard ∈ shards, shard.length ≤ countLimit := by simp [shards, countLimit]
  have hstart : start config .started model shards bank =
      .ok (initial config .started model shards bank) := start_eq (by simp [shards]) hfull
  have hrun : ((initial config .started model shards bank).run? choices).map
      (fun s => (s.session.isServing, s.stopped, s.seats.all fun seat =>
        seat.joined && seat.worker.hasEnded)) = some (false, true, true) := by
    decide +kernel
  have hsteps : (initial config .started model shards bank).StepsSucceed choices := by
    decide +kernel
  obtain ⟨last, hlast, hfacts⟩ := Option.map_eq_some_iff.1 hrun
  have hover := System.complete_of_facts hfacts
  refine ⟨valid, _, last, hstart, hlast, hover, hsteps, ?_⟩
  rintro ⟨result, hkind, hresult, -⟩
  have hwaits := ((running_initial hfull hcount).timesAll_iff sound_initial hlast hover hsteps).2
    ⟨result, hkind, hresult⟩
  -- a wait before the second batch would have to be timed
  have htimed := hwaits ⟨0⟩ 2 rfl 1 (by omega) (by decide +kernel)
  have huntimed : (config.policy .started).timed ⟨0⟩ 1 = false := by decide +kernel
  cases huntimed.symm.trans htimed

end Epoch

end Federated
