/-
  Federated.Proofs.Training.Ending

  How an epoch ends. What is known of its models, its bank and its failures at every point is
  carried along beside the invariant of `Steady`.

    * `Shaped` — all models have one layout, so that no round is ever refused.
    * `Ledger` — what the bank holds, and whose failure the failure of the epoch is.
    * `Steady.not_stuck` — as long as the coordinator serves, somebody can move.
    * `Running.step` — every step leads on, or has ended the epoch.
    * `Running.concluded` — a complete execution has taken the stop signal last.
-/
import Federated.Proofs.Averaging.Weights
import Federated.Proofs.Optimizer.Layout
import Federated.Proofs.Training.Progress

namespace Federated

variable {α : Type} [Scalar α]

/-- What a coordinator's run leaves behind, by the average of its last round. -/
def Barrier.outcome {τ : Type} (b : Barrier α τ) : Option (Params α) → Outcome α
  | some model => ⟨some model, b.rounds + 1, (b.adopt model).reports⟩
  | none => ⟨b.merged, b.rounds, b.reports⟩

/-- An average that a round asks for. -/
structure Averaging (α : Type) where
  models : List (WorkerId × Params α)
  weights : Weights α

/-- No average is refused whose models have one layout, and whose weights can be restricted to
    their workers. -/
structure Averaging.Accepted (layout : Dict String (List Nat)) (a : Averaging α) : Prop where
  layouts : ∀ e ∈ a.models, e.2.layout = layout
  weights : a.models ≠ [] → ∃ restricted, a.weights.restrict (a.models.map (·.1)) = .ok restricted

/-- A worker's steps keep the layout of its model. -/
theorem Worker.Step.layout_eq {w w' : Worker α} {m : Option (Message α WorkerId)}
    (h : w.Step w' m) : w'.learner.model.params.layout = w.learner.model.params.layout := by
  cases h with
  | train batch rest loss learner point remaining ok => exact Learner.layout_step ok
  | finish | announceSync | announce | submit | fail => rfl

namespace System

/-! ## Models -/

/-- All models of an epoch have one layout, and its weights can be restricted to any of its
    workers. -/
structure Shaped (layout : Dict String (List Nat)) (s : System α) : Prop where
  workers : ∀ w seat, s.seat? w = some seat → seat.worker.learner.model.params.layout = layout
  records : ∀ w r p, s.flushed.record? w = some r → r.submitted = some p → p.layout = layout
  weights : ∀ ids : List WorkerId, ids ≠ [] → (ids.Pairwise fun v w => compare v w = .lt) →
    (∀ w ∈ ids, ∃ seat, s.seat? w = some seat) →
    ∃ restricted, s.session.coordinator.weights.restrict ids = .ok restricted

/-- The average of all that is submitted, or will be once the messages under way are taken, is not
    refused. -/
theorem Shaped.accepted {layout : Dict String (List Nat)} {s : System α} (h : s.Shaped layout)
    (hsteady : s.Steady) :
    (⟨s.flushed.contributions s.session.coordinator.scope,
      s.session.coordinator.weights⟩ : Averaging α).Accepted layout := by
  have hsorted := Barrier.keySorted_contributions s.flushed s.session.coordinator.scope
  -- every contribution is some worker's model, so all have one layout and weights are there
  refine ⟨?_, fun hne => h.weights _ ?_ (List.pairwise_map.2 hsorted) ?_⟩
  · rintro ⟨w, p⟩ hmem
    obtain ⟨r, hr, -, hsub⟩ := Barrier.mem_contributions.1 hmem
    exact h.records w r p hr hsub
  · intro hnil
    exact hne (List.map_eq_nil_iff.1 hnil)
  · intro w hw
    obtain ⟨⟨v, p⟩, hmem, rfl⟩ := List.mem_map.1 hw
    obtain ⟨r, hr, -, -⟩ := Barrier.mem_contributions.1 hmem
    exact hsteady.seat_of_record hr

/-- So a round that somebody takes part in merges a model. -/
theorem Shaped.average {layout : Dict String (List Nat)} {s : System α} (h : s.Shaped layout)
    (hsteady : s.Steady)
    (hne : s.flushed.contributions s.session.coordinator.scope ≠ []) :
    ∃ model, s.session.coordinator.average s.flushed = .ok (some model) ∧
      model.layout = layout := by
  obtain ⟨hlayouts, hweights⟩ := h.accepted hsteady
  have hsorted := Barrier.keySorted_contributions s.flushed s.session.coordinator.scope
  exact Params.average_isOk hsorted hne hlayouts (hweights hne)

/-- No round is refused. -/
theorem Shaped.not_refused {layout : Dict String (List Nat)} {s : System α} (h : s.Shaped layout)
    (hsteady : s.Steady) (cause : AggregationError α) :
    s.session.coordinator.average s.flushed ≠ .error cause := by
  intro hrefused
  -- an average of nothing is none, and any other one succeeds
  by_cases hne : s.flushed.contributions s.session.coordinator.scope = []
  · have hsorted := Barrier.keySorted_contributions s.flushed s.session.coordinator.scope
    have hnone : s.session.coordinator.average s.flushed = .ok none :=
      (Params.average_eq_none_iff hsorted).2 hne
    cases hrefused.symm.trans hnone
  · obtain ⟨model, hmodel, -⟩ := h.average hsteady hne
    cases hrefused.symm.trans hmodel

/-- What a record holds behind a message is what it held, or the model of the message. -/
theorem Record.submitted_absorbAny {w w' : Worker α} {m : Option (Message α WorkerId)}
    (h : w.Step w' m) {r : Record α WorkerId} {p : Params α}
    (hp : (r.absorbAny m).submitted = some p) :
    r.submitted = some p ∨ p = w.learner.model.params := by
  cases h with
  | finish point rest => exact .inr (Option.some.inj hp).symm
  | submit point =>
    simp only [Record.absorbAny, Record.absorb] at hp
    split at hp
    · exact .inl hp
    · exact .inr (Option.some.inj hp).symm
  | announceSync | announce | train | fail => exact .inl hp

/-- The models that the barrier holds, or will hold, keep the layout. -/
theorem Shaped.records_next {layout : Dict String (List Nat)} {s s' : System α}
    (h : s.Shaped layout) (hsteady : s.Steady) {choice : Choice} (hn : Next s choice s')
    (hserving : s'.session.stage = .serving) : ∀ w r p, s'.flushed.record? w = some r →
      r.submitted = some p → p.layout = layout := by
  cases hn with
  | read w seat model => exact h.records
  | move w seat moved m hseat active awake step =>
    -- the sender's record takes the model of the worker, and no other record changes
    intro v r' p hr' hsub
    have hworker : ∀ msg, m = some msg → msg.worker = w := fun msg hm =>
      (step.worker_eq hm).trans (hsteady.ids w seat hseat)
    by_cases hv : v = w
    · subst hv
      obtain ⟨r, hr⟩ := hsteady.record_of_seat hseat
      cases (record?_send_self hworker hr).symm.trans hr'
      rcases Record.submitted_absorbAny step hsub with hold | rfl
      · exact h.records v r p hr hold
      · exact h.workers v seat hseat
    · exact h.records v r' p ((record?_send_ne hworker hv).symm.trans hr') hsub
  | absorb m queue c head hb =>
    have hflushed : c.barrier.absorbAll queue = s.flushed := by
      unfold flushed
      rw [hb, head, Barrier.absorbAll_cons]
    intro v r p hr
    exact h.records v r p (hflushed ▸ hr)
  | meet m c model head average hb =>
    -- a released record keeps what was submitted
    intro v r' p hr' hsub
    rw [(s.met_frame hb).2.2.2, Barrier.record?_adopt] at hr'
    obtain ⟨r, hr, rfl⟩ := Option.map_eq_some_iff.1 hr'
    refine h.records v r p hr ?_
    unfold Record.release at hsub
    split at hsub <;> exact hsub
  | refuse m c cause replies =>
    rw [(deliverAll_frame _ replies).2.1] at hserving
    cases hserving
  | leave | lose | stop => exact h.records
  | conclude session replies stopped stop =>
    rw [(deliverAll_frame _ replies).2.1] at hserving
    cases stop <;> cases hserving

theorem Shaped.next {layout : Dict String (List Nat)} {s s' : System α} (h : s.Shaped layout)
    (hsteady : s.Steady) {choice : Choice} (hn : Next s choice s')
    (hserving : s'.session.stage = .serving) : s'.Shaped layout := by
  refine ⟨?workers, h.records_next hsteady hn hserving, ?weights⟩
  case workers =>
    intro w seat' hseat'
    obtain ⟨seat, hseat, hturned⟩ := hn.turned hseat'
    have hold := h.workers w seat hseat
    cases hturned with
    | keep mail => exact hold
    | read model hc waits mail fits =>
      rw [Worker.resume_merged fits]
      exact fits.symm.trans hold
    | move moved m hc step => exact step.layout_eq.trans hold
    | join hc ended => exact hold
  case weights =>
    intro ids hne hs hmem
    rw [(hn.merging hserving).1]
    refine h.weights ids hne hs fun w hw => ?_
    obtain ⟨seat', hseat'⟩ := hmem w hw
    obtain ⟨seat, hseat, -⟩ := hn.turned hseat'
    exact ⟨seat, hseat⟩

/-! ## Bank and failures -/

/-- What the supervisor has done with the workers that have ended; `bank` is what the epoch began
    with. -/
structure Ledger (bank : Bank α) (s : System α) : Prop where
  lost : ∀ w seat cause, s.seat? w = some seat → seat.joined = true →
    seat.worker.point = .failed cause → s.failure.isSome = true
  blamed : ∀ cause, s.failure = some cause →
    ∃ w seat, s.seat? w = some seat ∧ seat.worker.point = .failed cause
  spec : s.bank.spec = bank.spec
  stored : ∀ w seat loss, s.seat? w = some seat → seat.joined = true →
    seat.worker.point = .finished loss →
    s.bank.stored.find? w = some seat.worker.learner.optimizer
  kept : ∀ w, (∀ seat, s.seat? w = some seat → seat.joined = false) →
    s.bank.stored.find? w = bank.stored.find? w

/-- Steps that join nobody leave bank and failure alone. -/
theorem Ledger.of_same {bank : Bank α} {s s' : System α} (h : s.Ledger bank) {choice : Choice}
    (hn : Next s choice s') (hjoin : ∀ w, choice ≠ .join w)
    (hjoined : ∀ w seat, s.seat? w = some seat → seat.joined = true → seat.worker.hasEnded = true)
    (hbank : s'.bank = s.bank) (hfailure : s'.failure = s.failure) : s'.Ledger bank := by
  have hsame : ∀ w (seat seat' : Seat α), Turned choice w seat seat' →
      seat'.joined = seat.joined := by
    intro w seat seat' hturned
    cases hturned with
    | keep mail | read | move => rfl
    | join hc ended => exact absurd hc (hjoin w)
  -- whoever is marked as joined was so before, and has not moved since it ended
  have hback : ∀ w seat', s'.seat? w = some seat' → seat'.joined = true →
      ∃ seat, s.seat? w = some seat ∧ seat.joined = true ∧ seat'.worker = seat.worker := by
    intro w seat' hseat' hj
    obtain ⟨seat, hseat, hturned⟩ := hn.turned hseat'
    rw [hsame w seat seat' hturned] at hj
    exact ⟨seat, hseat, hj, hturned.worker_eq (hjoined w seat hseat hj)⟩
  refine ⟨?lost, ?blamed, ?spec, ?stored, ?kept⟩
  case lost =>
    intro w seat' cause hseat' hj hp
    obtain ⟨seat, hseat, hj, hworker⟩ := hback w seat' hseat' hj
    rw [hworker] at hp
    rw [hfailure]
    exact h.lost w seat cause hseat hj hp
  case blamed =>
    intro cause hcause
    rw [hfailure] at hcause
    obtain ⟨w, seat, hseat, hp⟩ := h.blamed cause hcause
    obtain ⟨seat', hseat', hturned⟩ := hn.seated hseat
    refine ⟨w, seat', hseat', ?_⟩
    rw [hturned.worker_eq (Worker.hasEnded_iff.2 (.inr ⟨cause, hp⟩))]
    exact hp
  case spec =>
    rw [hbank]
    exact h.spec
  case stored =>
    intro w seat' loss hseat' hj hp
    obtain ⟨seat, hseat, hj, hworker⟩ := hback w seat' hseat' hj
    rw [hworker] at hp ⊢
    rw [hbank]
    exact h.stored w seat loss hseat hj hp
  case kept =>
    intro w hw
    rw [hbank]
    refine h.kept w fun seat hseat => ?_
    obtain ⟨seat', hseat', hturned⟩ := hn.seated hseat
    rw [← hsame w seat seat' hturned]
    exact hw seat' hseat'

section
variable {bank : Bank α} {s : System α} {w : WorkerId} {seat : Seat α}

omit [Scalar α] in
/-- A worker that has finished leaves its optimizer in the bank. -/
theorem Ledger.of_leave (h : s.Ledger bank) (hseat : s.seat? w = some seat)
    (active : s.failure = none) {loss : α} (point : seat.worker.point = .finished loss) :
    ({ s.modify w (fun seat => { seat with joined := true }) with
      bank := s.bank.restore w seat.worker.learner.optimizer } : System α).Ledger bank := by
  have hself := seat?_modify_self hseat fun seat => { seat with joined := true }
  have hother := fun v (hv : w ≠ v) =>
    seat?_modify_ne s hv fun seat => { seat with joined := true }
  refine ⟨?lost, ?blamed, h.spec, ?stored, ?kept⟩
  case lost =>
    intro v seat' cause hseat' hj hp
    by_cases hv : w = v
    · subst hv
      cases hseat'.symm.trans hself
      rw [point] at hp
      cases hp
    · exact h.lost v seat' cause ((hother v hv).symm.trans hseat') hj hp
  case blamed =>
    intro cause hcause
    rw [show s.failure = some cause from hcause] at active
    cases active
  case stored =>
    intro v seat' loss' hseat' hj hp
    show (s.bank.restore w seat.worker.learner.optimizer).stored.find? v = _
    rw [Bank.find?_restore]
    by_cases hv : w = v
    · subst hv
      cases hseat'.symm.trans hself
      rw [if_pos rfl]
    · rw [if_neg fun h => hv h.symm]
      exact h.stored v seat' loss' ((hother v hv).symm.trans hseat') hj hp
  case kept =>
    -- a worker that has not been joined is another one
    intro v hv
    have hne : w ≠ v := by
      rintro rfl
      cases hv _ hself
    show (s.bank.restore w seat.worker.learner.optimizer).stored.find? v = _
    rw [Bank.find?_restore, if_neg fun h => hne h.symm]
    exact h.kept v fun seat' hseat' => hv seat' ((hother v hne).trans hseat')

omit [Scalar α] in
/-- A worker that has failed leaves its failure to the epoch, and nothing in the bank. -/
theorem Ledger.of_lose (h : s.Ledger bank) (hseat : s.seat? w = some seat)
    {cause : FederatedError α} (point : seat.worker.point = .failed cause) :
    ({ s.modify w (fun seat => { seat with joined := true }) with
      stopped := true
      failure := some cause } : System α).Ledger bank := by
  have hself := seat?_modify_self hseat fun seat => { seat with joined := true }
  have hother := fun v (hv : w ≠ v) =>
    seat?_modify_ne s hv fun seat => { seat with joined := true }
  refine ⟨fun _ _ _ _ _ _ => rfl, ?blamed, h.spec, ?stored, ?kept⟩
  case blamed =>
    rintro cause' hcause
    obtain rfl : cause = cause' := Option.some.inj hcause
    exact ⟨w, _, hself, point⟩
  case stored =>
    intro v seat' loss hseat' hj hp
    by_cases hv : w = v
    · subst hv
      cases hseat'.symm.trans hself
      rw [point] at hp
      cases hp
    · exact h.stored v seat' loss ((hother v hv).symm.trans hseat') hj hp
  case kept =>
    intro v hv
    have hne : w ≠ v := by
      rintro rfl
      cases hv _ hself
    exact h.kept v fun seat' hseat' => hv seat' ((hother v hne).trans hseat')

end

theorem Ledger.next {bank : Bank α} {s s' : System α} (h : s.Ledger bank) (hsteady : s.Steady)
    {choice : Choice} (hn : Next s choice s') : s'.Ledger bank := by
  have hn' := hn
  cases hn with
  | read | move | absorb | stop => exact h.of_same hn' (by simp) hsteady.joined rfl rfl
  | meet m c model =>
    obtain ⟨-, -, hbank, -, hfailure, -⟩ := deliverAll_frame
      ({ s with session := ⟨c, .serving⟩, queue := [] } : System α) (s.flushed.answers model)
    exact h.of_same hn' (by simp) hsteady.joined hbank hfailure
  | refuse m c cause replies =>
    obtain ⟨-, -, hbank, -, hfailure, -⟩ := deliverAll_frame
      ({ s with session := ⟨c, .failed cause⟩, queue := [] } : System α) replies
    exact h.of_same hn' (by simp) hsteady.joined hbank hfailure
  | conclude session replies =>
    obtain ⟨-, -, hbank, -, hfailure, -⟩ := deliverAll_frame
      ({ s with session, queue := [] } : System α) replies
    exact h.of_same hn' (by simp) hsteady.joined hbank hfailure
  | leave w seat loss hseat active fresh point => exact h.of_leave hseat active point
  | lose w seat cause hseat active fresh point => exact h.of_lose hseat point

/-! ## Until the stop signal is taken -/

/-- A worker that has ended can be joined. -/
theorem step?_join {s : System α} (active : s.failure = none) {w : WorkerId} {seat : Seat α}
    (hseat : s.seat? w = some seat) (fresh : seat.joined = false)
    (ended : seat.worker.hasEnded = true) : (s.step? (.join w)).isSome = true := by
  simp only [step?, active, Option.isSome_none, Bool.false_eq_true, if_false]
  rw [show s.seats[w.index]? = some seat from hseat]
  simp only [Option.bind_some, fresh, Bool.false_eq_true, if_false, joinWith]
  rcases Worker.hasEnded_iff.1 ended with ⟨loss, hp⟩ | ⟨cause, hp⟩
  · rw [hp]
    rfl
  · rw [hp]
    rfl

/-- An epoch that cannot go on. -/
def Complete (s : System α) : Prop := ∀ choice, s.step? choice = none

/-- Nothing follows a complete run. -/
theorem Complete.eq_nil_of_run {s s' : System α} (h : s.Complete) {choices : List Choice}
    (hrun : s.run? choices = some s') : choices = [] := by
  cases choices with
  | nil => rfl
  | cons choice choices =>
    rw [run?_cons, h choice] at hrun
    cases hrun

theorem Complete.stepsSucceed {s : System α} (h : s.Complete) (hsteps : ∀ w, ¬ s.StepFails w)
    (choices : List Choice) : s.StepsSucceed choices := by
  cases choices with
  | nil => trivial
  | cons choice choices =>
    refine ⟨fun w _ => hsteps w, fun s' hstep => ?_⟩
    rw [h choice] at hstep
    cases hstep

/-- As long as the coordinator serves, somebody can move. -/
theorem Steady.not_stuck {bank : Bank α} {s : System α} (h : s.Steady) (hledger : s.Ledger bank) :
    ∃ choice, (s.step? choice).isSome = true := by
  apply Classical.byContradiction
  intro hnot
  have hstuck : ∀ choice, (s.step? choice).isSome = false := by
    intro choice
    rw [← Bool.not_eq_true]
    exact fun hsome => hnot ⟨choice, hsome⟩
  -- no message is under way and no signal is given, for these would be taken
  have hqueue : s.queue = [] := by
    cases hq : s.queue with
    | nil => rfl
    | cons m queue =>
      have hreceive := hstuck .receive
      simp only [step?, h.serving, hq] at hreceive
      cases hreceive
  have hrunning : s.stopped = false := by
    cases hst : s.stopped with
    | false => rfl
    | true =>
      have hconclude := hstuck .conclude
      simp only [step?, h.serving, hst, if_true] at hconclude
      cases hconclude
  have active := h.active hrunning
  -- whoever has ended has been joined, and nobody has failed
  have hjoined : ∀ w seat, s.seat? w = some seat → seat.worker.hasEnded = true →
      seat.joined = true := by
    intro w seat hseat hend
    cases hj : seat.joined with
    | true => rfl
    | false =>
      have hjoin := step?_join active hseat hj hend
      rw [hstuck] at hjoin
      cases hjoin
  have hup : s.Unfailed := by
    intro w seat cause hseat hp
    have hj := hjoined w seat hseat (Worker.hasEnded_iff.2 (.inr ⟨cause, hp⟩))
    have hf := hledger.lost w seat cause hseat hj hp
    rw [active] at hf
    cases hf
  by_cases hall : s.allJoined = true
  · have hstop := hstuck .stop
    simp only [step?, hall, hrunning, Bool.not_false, Bool.and_self, if_true] at hstop
    cases hstop
  · refine hall (allJoined_iff.2 fun v seat hseat => ?_)
    cases hend : seat.worker.hasEnded with
    | true => exact hjoined v seat hseat hend
    | false =>
      obtain ⟨w, -, -, -, hact⟩ := h.someone_acts active hqueue hup hseat hend
      rw [hstuck] at hact
      cases hact

/-- A run that ends the service of the coordinator does so at one of its steps. -/
theorem run_split {s s' : System α} {choices : List Choice} (hrun : s.run? choices = some s')
    (hserving : s.session.stage = .serving) :
    s'.session.stage = .serving ∨ ∃ before choice after s₁ s₂,
      choices = before ++ choice :: after ∧ s.run? before = some s₁ ∧
      s₁.session.stage = .serving ∧ s₁.step? choice = some s₂ ∧
      s₂.session.stage ≠ .serving ∧ s₂.run? after = some s' := by
  induction choices generalizing s with
  | nil =>
    cases hrun
    exact .inl hserving
  | cons choice choices ih =>
    rw [run?_cons] at hrun
    obtain ⟨s₁, hfirst, hrest⟩ := Option.bind_eq_some_iff.1 hrun
    by_cases h₁ : s₁.session.stage = .serving
    · rcases ih hrest h₁ with hend | ⟨before, last, after, s₂, s₃, rfl, hbefore, htail⟩
      · exact .inl hend
      · refine .inr ⟨choice :: before, last, after, s₂, s₃, rfl, ?_, htail⟩
        rw [run?_cons, hfirst]
        exact hbefore
    · exact .inr ⟨[], choice, choices, s, s₁, rfl, rfl, hserving, hfirst, h₁, hrest⟩

/-- With a failure, or with all at their end, no worker moves. -/
theorem step?_act_of_idle {s : System α}
    (idle : s.failure.isSome = true ∨
      ∀ w seat, s.seat? w = some seat → seat.worker.hasEnded = true) (w : WorkerId) :
    s.step? (.act w) = none := by
  simp only [step?]
  split
  · rfl
  · next hf =>
    -- with no failure everyone has ended, and who has ended takes no step
    rcases idle with hfailed | hall
    · exact absurd hfailed hf
    · cases hseat : s.seat? w with
      | none =>
        rw [show s.seats[w.index]? = none from hseat]
        rfl
      | some seat =>
        have hend := hall w seat hseat
        rw [show s.seats[w.index]? = some seat from hseat]
        simp only [Option.bind_some, actWith, Worker.isWaiting_of_hasEnded hend,
          Bool.false_eq_true, if_false, Worker.step?_of_hasEnded hend]

theorem complete_of_idle {s : System α} (hstage : s.session.stage ≠ .serving)
    (stopped : s.stopped = true)
    (idle : s.failure.isSome = true ∨
      ∀ w seat, s.seat? w = some seat → seat.joined = true ∧ seat.worker.hasEnded = true) :
    s.Complete := by
  intro choice
  cases choice with
  | act w =>
    exact step?_act_of_idle (idle.imp_right fun hall v seat hseat => (hall v seat hseat).2) w
  | receive =>
    simp only [step?]
    split
    · next hserving _ => exact absurd hserving hstage
    · rfl
  | join w =>
    simp only [step?]
    split
    · rfl
    · next hf =>
      rcases idle with hfailed | hall
      · exact absurd hfailed hf
      · cases hseat : s.seat? w with
        | none =>
          rw [show s.seats[w.index]? = none from hseat]
          rfl
        | some seat =>
          rw [show s.seats[w.index]? = some seat from hseat]
          simp only [Option.bind_some, (hall w seat hseat).1, if_true]
  | stop => simp [step?, stopped]
  | conclude => simp only [step?]

omit [Scalar α] in
theorem stage_ne_serving {s : System α} (h : s.session.isServing = false) :
    s.session.stage ≠ .serving := mt Session.isServing_iff.2 (Bool.eq_false_iff.1 h)

theorem complete_of_facts {s : System α}
    (h : (s.session.isServing, s.stopped, s.seats.all fun seat =>
      seat.joined && seat.worker.hasEnded) = (false, true, true)) : s.Complete := by
  simp only [Prod.mk.injEq] at h
  obtain ⟨hserving, stopped, hall⟩ := h
  refine complete_of_idle (stage_ne_serving hserving) stopped (.inr fun w seat hseat => ?_)
  rw [Array.all_eq_true'] at hall
  have hseated := hall seat (Array.mem_of_getElem? hseat)
  rwa [Bool.and_eq_true] at hseated

/-- Once the stop signal has been taken nobody moves any more. -/
theorem Steady.over {s : System α} (h : s.Steady) (stopped : s.stopped = true)
    {session : Session α WorkerId} (hend : session.stage ≠ .serving)
    (replies : List (Reply α WorkerId)) :
    (({ s with session, queue := [] } : System α).deliverAll replies).Complete := by
  obtain ⟨-, hsession, -, hstopped, hfailure, -⟩ := deliverAll_frame
    ({ s with session, queue := [] } : System α) replies
  refine complete_of_idle (by rw [hsession]; exact hend) (hstopped.trans stopped) ?_
  -- the signal was given because somebody had failed, or because all had been joined
  rcases h.halted stopped with hfailed | hall
  · left
    rw [hfailure]
    exact hfailed
  · right
    intro w seat' hseat'
    obtain ⟨seat, hseat, hworker, hjoined⟩ := worker_deliverAll hseat'
    have hj := allJoined_iff.1 hall w seat hseat
    rw [hworker, hjoined]
    exact ⟨hj, h.joined w seat hseat hj⟩

/-! ## All of it -/

/-- What every point of an epoch has in common with its start. -/
structure Running (policy : SyncPolicy) (totals : List Nat) (layout : Dict String (List Nat))
    (bank : Bank α) (s : System α) : Prop where
  steady : s.Steady
  size : s.seats.size = totals.length
  policy : ∀ w seat, s.seat? w = some seat → seat.worker.policy = policy
  total : ∀ w seat, s.seat? w = some seat → totals[w.index]? = some seat.worker.total
  shaped : s.Shaped layout
  ledger : s.Ledger bank

variable {policy : SyncPolicy} {totals : List Nat} {layout : Dict String (List Nat)}
  {bank : Bank α} {s s' : System α}

theorem Running.size_flushed (h : s.Running policy totals layout bank) :
    s.flushed.size = totals.length :=
  ((Barrier.size_absorbAll _ _).trans h.steady.size).trans h.size

theorem Running.next (h : s.Running policy totals layout bank) {choice : Choice}
    (hn : Next s choice s') (hserving : s'.session.stage = .serving) :
    s'.Running policy totals layout bank := by
  refine ⟨h.steady.preserved hn hserving, hn.size_eq.trans h.size, ?_, ?_,
    h.shaped.next h.steady hn hserving, h.ledger.next h.steady hn⟩
  · intro w seat' hseat'
    obtain ⟨seat, hseat, hturned⟩ := hn.turned hseat'
    exact hturned.kept.1.trans (h.policy w seat hseat)
  · intro w seat' hseat'
    obtain ⟨seat, hseat, hturned⟩ := hn.turned hseat'
    rw [hturned.kept.2]
    exact h.total w seat hseat

theorem Running.run (h : s.Running policy totals layout bank) {choices : List Choice}
    (hrun : s.run? choices = some s') (hserving : s'.session.stage = .serving) :
    s'.Running policy totals layout bank := by
  have hend := h.steady.run_induction
    (P := fun s choices => s.Running policy totals layout bank ∧
      ∃ last, s.run? choices = some last ∧ last.session.stage = .serving)
    ⟨h, s', hrun, hserving⟩ hrun hserving ?_
  · exact hend.2.1
  · rintro s₁ s₂ choice rest - ⟨h₁, last, hlast, hserves⟩ hstep hnext
    rw [run?_cons, hstep] at hlast
    exact ⟨h₁.next hnext (serving_of_run hlast hserves), last, hlast, hserves⟩

/-- Only the stop signal ends the service of the coordinator: what is under way is absorbed, and
    a last round is resolved. -/
theorem Running.conclude_of_step (h : s.Running policy totals layout bank) {choice : Choice}
    (hstep : s.step? choice = some s') (hend : s'.session.stage ≠ .serving) :
    choice = .conclude ∧ s.stopped = true ∧ ∃ session replies,
      Session.Stop s.session.coordinator s.queue session replies ∧
      s' = ({ s with session, queue := [] } : System α).deliverAll replies := by
  have hnext := h.steady.next hstep
  cases hnext with
  | conclude session replies stopped stop => exact ⟨rfl, stopped, session, replies, stop, rfl⟩
  | refuse m c cause replies head average due =>
    -- no round is refused, so the coordinator never fails of itself
    exact absurd average (h.shaped.not_refused h.steady cause)
  | read | move | leave | lose | stop => exact absurd h.steady.serving hend
  | absorb m queue c head hb hw hs due => exact absurd rfl hend
  | meet m c model head average hb hw hs due =>
    rw [(s.met_frame hb).1] at hend
    exact absurd rfl hend

/-- Every step leads on, or has ended the epoch. -/
theorem Running.step (h : s.Running policy totals layout bank) {choice : Choice}
    (hstep : s.step? choice = some s') : s'.Running policy totals layout bank ∨ s'.Complete := by
  by_cases hserving : s'.session.stage = .serving
  · exact .inl (h.next (h.steady.next hstep) hserving)
  · obtain ⟨-, stopped, session, replies, -, rfl⟩ := h.conclude_of_step hstep hserving
    rw [(deliverAll_frame _ replies).2.1] at hserving
    exact .inr (h.steady.over stopped hserving replies)

/-- A complete execution has taken the stop signal last. -/
theorem Running.concluded (h : s.Running policy totals layout bank) {choices : List Choice}
    (hrun : s.run? choices = some s') (hover : s'.Complete) :
    ∃ before s₁ session replies, choices = before ++ [.conclude] ∧
      s.run? before = some s₁ ∧ s₁.Running policy totals layout bank ∧ s₁.stopped = true ∧
      Session.Stop s₁.session.coordinator s₁.queue session replies ∧
      s' = ({ s₁ with session, queue := [] } : System α).deliverAll replies := by
  rcases run_split hrun h.steady.serving with hserving |
      ⟨before, choice, after, s₁, s₂, rfl, hbefore, hserving, hstep, hend, hafter⟩
  · -- as long as the coordinator serves, the execution is not complete
    have hlast := h.run hrun hserving
    obtain ⟨choice, hsome⟩ := hlast.steady.not_stuck hlast.ledger
    rw [hover choice] at hsome
    cases hsome
  · have h₁ := h.run hbefore hserving
    obtain ⟨rfl, stopped, session, replies, stop, rfl⟩ := h₁.conclude_of_step hstep hend
    rw [(deliverAll_frame _ replies).2.1] at hend
    have hstuck := h₁.steady.over stopped hend replies
    -- nothing follows the stop signal
    obtain rfl := hstuck.eq_nil_of_run hafter
    exact ⟨before, s₁, session, replies, rfl, hbefore, h₁, stopped, stop,
      (Option.some.inj hafter).symm⟩

/-- The last round decides what the coordinator leaves behind. -/
theorem Running.outcome (h : s.Running policy totals layout bank)
    {session : Session α WorkerId} {replies : List (Reply α WorkerId)}
    (stop : Session.Stop s.session.coordinator s.queue session replies) :
    ∃ merged, s.session.coordinator.average s.flushed = .ok merged ∧
      session.stage = .completed (s.flushed.outcome merged) := by
  have hrounds : s.flushed.rounds = s.session.coordinator.barrier.rounds :=
    Barrier.absorbAll_rounds _ _
  have hmerged : s.flushed.merged = s.session.coordinator.barrier.merged :=
    Barrier.absorbAll_merged _ _
  cases stop with
  | merged c model average hb =>
    refine ⟨some model, average, ?_⟩
    rw [Barrier.outcome, hrounds]
    rfl
  | empty c average hb hn =>
    refine ⟨none, average, ?_⟩
    rw [Barrier.outcome, hrounds, hmerged]
    rfl
  | refused c cause average hb => exact absurd average (h.shaped.not_refused h.steady cause)

/-- Steps that do not fail have brought no worker down but at a wait that cannot be timed. -/
theorem Running.run_sound (h : s.Running policy totals layout bank) (hsound : s.Sound)
    {choices : List Choice} (hrun : s.run? choices = some s')
    (hsteps : s.StepsSucceed choices) (hserving : s'.session.stage = .serving) : s'.Sound := by
  have hend := h.steady.run_induction (P := fun s choices => s.Sound ∧ s.StepsSucceed choices)
    ⟨hsound, hsteps⟩ hrun hserving ?_
  · exact hend.2.1
  · rintro s₁ s₂ choice rest h₁ ⟨hsound₁, hsucceed, hrest⟩ hstep hnext
    exact ⟨hsound₁.next h₁ hnext hsucceed, hrest s₂ hstep⟩

/-- Whoever comes to a wait that cannot be timed shows that not all waits can be. -/
theorem Running.not_timesAll (h : s.Running policy totals layout bank) {w : WorkerId}
    {seat : Seat α} (hseat : s.seat? w = some seat) (late : seat.worker.Late) :
    ¬ policy.TimesAll totals := by
  intro htimes
  obtain ⟨due, more, untimed⟩ := late
  rw [h.policy w seat hseat] at due
  rw [h.policy w seat hseat, h.steady.ids w seat hseat,
    htimes w _ (h.total w seat hseat) _ more due] at untimed
  cases untimed

/-- Where all waits can be timed, steps that do not fail bring nobody down. -/
theorem Running.unfailed (h : s.Running policy totals layout bank) (hsound : s.Sound)
    (hwaits : policy.TimesAll totals) : s.Unfailed := fun w seat cause hseat hp =>
  h.not_timesAll hseat (hsound w seat cause hseat hp).1 hwaits

/-- A worker that has been joined with no failure of the epoch has finished. -/
theorem Running.finished_of_joined (h : s.Running policy totals layout bank)
    (active : s.failure = none) {w : WorkerId} {seat : Seat α} (hseat : s.seat? w = some seat)
    (hj : seat.joined = true) : ∃ loss, seat.worker.point = .finished loss := by
  rcases Worker.hasEnded_iff.1 (h.steady.joined w seat hseat hj) with hp | ⟨cause, hp⟩
  · exact hp
  · have hf := h.ledger.lost w seat cause hseat hj hp
    rw [active] at hf
    cases hf

end System

end Federated
