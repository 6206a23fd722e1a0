/-
  Federated.Proofs.Training.Alone

  An epoch with one worker. It meets nobody at the barrier but itself: every merged model is its
  own, and the epoch comes to what plain local training comes to.

    * `Lane.Alone` — the worker and its record are on the way to a given outcome.
    * `Alone.step`, `Alone.meet` — steps do not leave that way, and neither do rounds.
    * `Leads.alone` — nor does an epoch.
    * `Running.alone` — how a complete execution ends.
-/
import Federated.Proofs.Training.Confluence
import Federated.Proofs.Training.Plain

namespace Federated

variable {α : Type} [Scalar α]

/-- What a worker with nobody to meet comes to if it has a learner before its next batch. -/
def Worker.outlook (w : Worker α) (l : Learner α) : Except (Halt ModelError) α × Learner α :=
  l.trainRenewingFrom w.policy.renews w.spec.build w.lossSum w.index w.remaining

/-! ## A worker and its record -/

namespace Lane

/-- What there is to come from where a worker stands that has nobody to meet. One that has failed
    did so at a step without a result, or at a wait that could not be timed. -/
def Ahead (outcome : Except (Halt ModelError) α × Learner α) (l : Lane α) : Prop :=
  match l.worker.point with
  | .announcing => l.worker.outlook l.worker.learner = outcome
  | .joining | .waiting =>
    l.worker.policy.isDue l.worker.index = true ∧ l.worker.remaining ≠ [] ∧
      l.worker.outlook l.worker.learner = outcome
  | .stepping => ∃ before : Learner α,
    before.renewedAt l.worker.policy.renews l.worker.spec.build l.worker.index =
      l.worker.learner ∧ l.worker.outlook before = outcome
  | .finished loss =>
    outcome = (.ok loss, l.worker.learner) ∧ l.record.losses.find? .final = some loss
  | .failed cause =>
    l.worker.Late ∨ ∃ halt, outcome.1 = .error halt ∧ cause = Worker.stepFailure l.worker.id halt

/-- A worker with nobody to meet, and its record, on the way to an outcome. -/
structure Alone (outcome : Except (Halt ModelError) α × Learner α) (l : Lane α) : Prop where
  agrees : l.Agrees
  counts : l.worker.index + l.worker.remaining.length = l.worker.total
  ahead : l.Ahead outcome

variable {outcome : Except (Halt ModelError) α × Learner α} {l : Lane α}

/-- A worker at its start is on the way to what local training comes to. -/
theorem alone_start (id : WorkerId) (learner : Learner α) (spec : OptimizerSpec α)
    (policy : SyncPolicy) (batches : List (Batch α)) {r : Record α WorkerId}
    (hr : r.status = .training) :
    Alone (learner.trainRenewing policy.renews spec.build batches)
      ⟨Worker.start id learner spec policy batches, r⟩ :=
  ⟨hr, Nat.zero_add _, rfl⟩

/-- A step keeps a worker on its way. -/
theorem Alone.step (h : l.Alone outcome) {w' : Worker α} {m : Option (Message α WorkerId)}
    (hs : l.worker.Step w' m) : Alone outcome ⟨w', l.record.absorbAny m⟩ := by
  have hagrees := agrees_step h.agrees hs
  have hcounts := h.counts
  have hahead := h.ahead
  unfold Ahead at hahead
  cases hs with
  | finish point rest =>
    simp only [point] at hahead
    -- no batch is left, so what was to come is what there is
    have htotal : l.worker.index = l.worker.total := by simpa [rest] using hcounts
    rw [Worker.outlook, rest, Learner.trainRenewingFrom, htotal] at hahead
    refine ⟨hagrees, hcounts, hahead.symm, ?_⟩
    exact (Dict.find?_insert l.record.losses .final .final _).trans (if_pos rfl)
  | announceSync point rest due =>
    simp only [point] at hahead
    exact ⟨hagrees, hcounts, due, rest, hahead⟩
  | announce point rest due =>
    simp only [point] at hahead
    -- nothing is due, so the learner goes on as it is
    refine ⟨hagrees, hcounts, l.worker.learner, ?_, hahead⟩
    simp [Learner.renewedAt, SyncPolicy.renews, Worker.goto, due]
  | submit point =>
    simp only [point] at hahead
    obtain ⟨due, rest, hend⟩ := hahead
    refine ⟨hagrees, hcounts, ?_⟩
    unfold Worker.joined
    split
    · exact ⟨due, rest, hend⟩
    · next untimed =>
      -- there is a batch behind the wait that the worker dies of
      have hpos := List.length_pos_iff.2 rest
      have more : l.worker.index < l.worker.total := by omega
      exact .inl ⟨due, more, Bool.eq_false_iff.2 untimed⟩
  | train batch rest loss learner point remaining ok =>
    simp only [point] at hahead
    obtain ⟨before, hrenewed, hend⟩ := hahead
    rw [← hrenewed] at ok
    rw [Worker.outlook, remaining, Learner.trainRenewingFrom_cons ok] at hend
    rw [remaining, List.length_cons] at hcounts
    refine ⟨hagrees, ?_, hend⟩
    show l.worker.index + 1 + rest.length = l.worker.total
    omega
  | fail batch rest halt point remaining refused =>
    simp only [point] at hahead
    obtain ⟨before, hrenewed, hend⟩ := hahead
    rw [← hrenewed] at refused
    rw [Worker.outlook, remaining] at hend
    refine ⟨hagrees, hcounts, .inr ⟨halt, ?_, rfl⟩⟩
    rw [← hend]
    exact Learner.trainRenewingFrom_refused refused

/-- So does going as far as it can. -/
theorem Alone.rest (h : l.Alone outcome) : l.rest.Alone outcome := by
  induction hb : l.worker.budget using Nat.strongRecOn generalizing l with
  | ind budget ih =>
    cases hstep : l.step? with
    | none =>
      have hstuck : l.worker.step? = none := by
        unfold step? at hstep
        exact Option.map_eq_none_iff.1 hstep
      rw [rest_of_stuck hstuck]
      exact h
    | some next =>
      rw [rest_of_step hstep]
      obtain ⟨⟨w', m⟩, hworker, hnext⟩ := Option.map_eq_some_iff.1 hstep
      have hlt := budget_lt hstep
      subst hnext
      exact ih _ (hb ▸ hlt) (h.step (Worker.step_of_step? hworker)) rfl

/-- Meeting itself gives a worker its own model back, and a fresh optimizer if one is due. -/
theorem Alone.meet (h : l.Alone outcome) (idle : l.record.status.isTraining = false)
    {model : Params α} (own : l.worker.point = .waiting → l.worker.learner.model.params = model) :
    (l.meet model).Alone outcome := by
  have hahead := h.ahead
  unfold Ahead at hahead
  unfold Lane.meet
  rcases stands_of_agrees h.agrees idle with hp | hend
  · simp only [hp] at hahead
    obtain ⟨due, rest, hend⟩ := hahead
    obtain rfl := own hp
    have hagrees := agrees_resume (r := l.record) h.agrees hp rfl
    rw [if_pos (Worker.isWaiting_iff.2 hp)]
    rw [Worker.resume_merged rfl] at hagrees ⊢
    refine ⟨hagrees, h.counts, l.worker.learner, ?_, hend⟩
    cases hkeep : l.worker.policy.keep <;>
      simp [Learner.renewedAt, SyncPolicy.renews, due, hkeep]
  · have hwaits := Worker.isWaiting_of_hasEnded hend
    rw [if_neg (by simp [hwaits])]
    refine ⟨agrees_release_of_hasEnded h.agrees hend, h.counts, ?_⟩
    unfold Ahead
    rw [Record.losses_release]
    exact hahead

end Lane

/-! ## A cohort of one -/

namespace Barrier

variable {τ : Type} {b : Barrier α τ} {r : Record α τ}

omit [Scalar α] in
theorem numbered_single (hsize : b.size = 1) (hr : b.record? ⟨0⟩ = some r) :
    b.numbered = [(⟨0⟩, r)] := by
  have hfst := numbered_map_fst b
  rw [hsize] at hfst
  obtain ⟨⟨w, r'⟩, he⟩ := List.length_eq_one_iff.1 (by simpa using congrArg List.length hfst)
  rw [he] at hfst
  obtain rfl : w = ⟨0⟩ := by simpa using hfst
  have hr' := mem_numbered.1 (he ▸ List.mem_singleton_self _ : ((⟨0⟩ : WorkerId), r') ∈ b.numbered)
  cases hr.symm.trans hr'
  exact he

/-- The only worker merges what it has submitted itself. -/
theorem average_single (hsize : b.size = 1) (hr : b.record? ⟨0⟩ = some r) {p : Params α}
    (hp : r.submitted = some p) (weights : Weights α) :
    Params.average (b.contributions .retained) (some weights) = .ok (some p) := by
  have hcontr : b.contributions .retained = [(⟨0⟩, p)] := by
    unfold contributions
    simp [numbered_single hsize hr, takesPart, hp]
  rw [hcontr]
  rfl

omit [Scalar α] in
/-- The report of the only worker that is left after a last round. -/
theorem reports_adopt_single (hsize : b.size = 1) (hr : b.record? ⟨0⟩ = some r) (p : Params α) :
    (b.adopt p).reports = [reportOf ⟨0⟩ r.release] := by
  have hadopted : (b.adopt p).record? ⟨0⟩ = some r.release := by
    rw [record?_adopt, hr]
    rfl
  unfold reports
  rw [numbered_single ((size_adopt b p).trans hsize) hadopted]
  rfl

end Barrier

/-- A cohort of one worker, on the way to an outcome. -/
def Cohort.Alone (outcome : Except (Halt ModelError) α × Learner α) (c : Cohort α) : Prop :=
  ∃ l, c.lanes = [l] ∧ l.Alone outcome

variable {outcome : Except (Halt ModelError) α × Learner α} {weights : Weights α} {c c' : Cohort α}

namespace Cohort

theorem Alone.rest (h : c.Alone outcome) : c.rest.Alone outcome := by
  obtain ⟨l, hlanes, halone⟩ := h
  exact ⟨l.rest, by simp [Cohort.rest, hlanes], halone.rest⟩

/-- A round keeps its only worker on its way. -/
theorem Alone.advance (h : c.Alone outcome) (hround : c.advance? weights .retained = some c') :
    c'.Alone outcome := by
  obtain ⟨l, hlanes, halone⟩ := h
  have hsize : c.barrier.size = 1 := by simp [barrier, Barrier.size, hlanes]
  have hrecord : c.barrier.record? ⟨0⟩ = some l.record := by
    simp [barrier, Barrier.record?, hlanes]
  unfold advance? at hround
  split at hround
  · next due =>
    split at hround
    · next model average =>
      cases hround
      have hidle := (Barrier.roundReady_iff.1 due).2 ⟨0⟩ l.record hrecord
      -- a waiting worker has submitted its model, and nothing else goes into the round
      have hown : l.worker.point = .waiting → l.worker.learner.model.params = model := by
        intro hp
        have hsub := (Lane.agrees_of_waiting halone.agrees hp).2
        have hsingle := Barrier.average_single hsize hrecord hsub weights
        exact Option.some.inj (Except.ok.inj (hsingle.symm.trans average))
      exact Alone.rest ⟨l.meet model, by simp [Cohort.meet, hlanes], halone.meet hidle hown⟩
    · cases hround
  · cases hround

/-- So does any number of rounds. -/
theorem Leads.alone (hl : Leads weights .retained c c') (h : c.Alone outcome) :
    c'.Alone outcome := by
  induction hl with
  | refl => exact h
  | tail _ hround ih => exact ih.advance hround

end Cohort

/-! ## An epoch -/

namespace System

variable {policy : SyncPolicy} {total : Nat} {layout : Dict String (List Nat)} {bank : Bank α}
  {s s' : System α}

/-- The cohort of an epoch with one worker. -/
theorem Running.lanes_single (h : s.Running policy [total] layout bank) :
    ∃ seat r, s.seat? ⟨0⟩ = some seat ∧ s.flushed.record? ⟨0⟩ = some r ∧
      s.cohort.lanes = [⟨seat.current, r⟩] := by
  have hsize : s.seats.size = 1 := h.size
  have hlt : (⟨0⟩ : WorkerId).index < s.seats.size := by
    rw [hsize]
    exact Nat.one_pos
  have hseat : s.seat? ⟨0⟩ = some s.seats[0] := Array.getElem?_eq_getElem hlt
  obtain ⟨r, hr⟩ := h.steady.record_of_seat hseat
  refine ⟨_, r, hseat, hr, ?_⟩
  have hfirst := cohort_of_lane hseat hr
  have hlength : s.cohort.lanes.length = 1 := by
    have hflushed := h.size_flushed
    unfold Barrier.size at hflushed
    simp [cohort, hsize, hflushed]
  obtain ⟨l, hl⟩ := List.length_eq_one_iff.1 hlength
  rw [hl] at hfirst ⊢
  cases hfirst
  rfl

/-- A seated worker is the only one. -/
theorem Running.worker_single (h : s.Running policy [total] layout bank) {w : WorkerId}
    {seat : Seat α} (hseat : s.seat? w = some seat) : w = ⟨0⟩ := by
  have htotal := (List.getElem?_eq_some_iff.1 (h.total w seat hseat)).1
  obtain ⟨i⟩ := w
  obtain rfl : i = 0 := by simpa using htotal
  rfl

/-- How an epoch with one worker ends: with what plain local training comes to, or with a wait
    that could not be timed. -/
inductive AloneEnd (outcome : Except (Halt ModelError) α × Learner α) (policy : SyncPolicy)
    (total : Nat) (spec : OptimizerSpec α) (s : System α) : Prop
  | finished (loss : α) (e : EpochResult α) (ok : outcome.1 = .ok loss)
      (result : Epoch.result? s = some (.ok e)) (model : e.model = outcome.2.model.params)
      (final : (e.reports.head?.bind fun r => r.finalLoss?) = some loss)
      (kept : s.bank.spec = spec)
      (stored : s.bank.stored.find? ⟨0⟩ = some outcome.2.optimizer)
      (waits : policy.TimesAll [total])
  | refused (halt : Halt ModelError) (error : outcome.1 = .error halt)
      (result : Epoch.result? s = some (.error (Worker.stepFailure ⟨0⟩ halt)))
  | died (cause : FederatedError α) (untimely : ¬ policy.TimesAll [total])
      (result : Epoch.result? s = some (.error cause))

/-- Every complete execution of an epoch with one worker ends in one of those ways. -/
theorem Running.alone (h : s.Running policy [total] layout bank)
    (hscope : s.session.coordinator.scope = .retained) (halone : s.cohort.Alone outcome)
    {choices : List Choice} (hrun : s.run? choices = some s') (hover : s'.Complete) :
    AloneEnd outcome policy total bank.spec s' := by
  obtain ⟨before, s₁, merged, -, hbefore, h₁, stopped, average, hbank, hresult⟩ :=
    h.closed hrun hover
  obtain ⟨-, hscope₁, hleads⟩ := h.leads hbefore h₁.steady.serving
  rw [hscope] at hleads hscope₁
  obtain ⟨l, hl, hl₁⟩ := hleads.alone halone.rest
  obtain ⟨seat, r, hseat, hr, hlanes⟩ := h₁.lanes_single
  -- the worker has ended, so it rests where it is
  have hlane : seat.worker.hasEnded = true → l = ⟨seat.worker, r⟩ := by
    intro hend
    have hcurrent := current_of_hasEnded hend
    have hrest : s₁.cohort.rest.lanes = [⟨seat.worker, r⟩] := by
      show s₁.cohort.lanes.map Lane.rest = _
      rw [hlanes, hcurrent, List.map_singleton, Lane.rest_of_hasEnded hend]
    rw [hl] at hrest
    exact List.singleton_inj.1 hrest
  rcases Option.eq_none_or_eq_some s₁.failure with hf | ⟨cause, hf⟩
  · rw [hf] at hresult
    have all := h₁.settled stopped hf
    obtain ⟨loss, hp⟩ := all.finished ⟨0⟩ seat hseat
    obtain rfl := hlane (Worker.hasEnded_iff.2 (.inl ⟨loss, hp⟩))
    have hahead := hl₁.ahead
    unfold Lane.Ahead at hahead
    simp only [hp] at hahead
    obtain ⟨rfl, hfinal⟩ := hahead
    -- the last round merges the final model with nothing
    have hsub := (Lane.agrees_of_finished hl₁.agrees hp).2
    have hsingle := Barrier.average_single h₁.size_flushed hr hsub s₁.session.coordinator.weights
    rw [Coordinator.average, hscope₁] at average
    obtain rfl := Except.ok.inj (hsingle.symm.trans average)
    refine .finished loss _ rfl hresult rfl ?final ?kept ?stored (all.timesAll h₁)
    case final =>
      show ((s₁.flushed.adopt seat.worker.learner.model.params).reports.head?.bind _) = _
      rw [Barrier.reports_adopt_single h₁.size_flushed hr]
      exact (congrArg (Dict.find? · _) (Record.losses_release r)).trans hfinal
    case kept => exact hbank ▸ h₁.ledger.spec
    case stored =>
      rw [hbank]
      exact h₁.ledger.stored ⟨0⟩ seat loss hseat (all.joined ⟨0⟩ seat hseat) hp
  · rw [hf] at hresult
    obtain ⟨w, seat', hseat', hp⟩ := h₁.ledger.blamed cause hf
    obtain rfl := h₁.worker_single hseat'
    cases hseat.symm.trans hseat'
    obtain rfl := hlane (Worker.hasEnded_iff.2 (.inr ⟨cause, hp⟩))
    have hahead := hl₁.ahead
    unfold Lane.Ahead at hahead
    simp only [hp] at hahead
    rcases hahead with late | ⟨halt, herror, rfl⟩
    · exact .died cause (h₁.not_timesAll hseat late) hresult
    · rw [h₁.steady.ids ⟨0⟩ seat hseat] at hresult
      exact .refused halt herror hresult

end System

end Federated
