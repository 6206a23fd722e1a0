/-
  Federated.Proofs.Training.Progress

  Workers go on: where no message is under way and nobody has been brought down, a worker that
  waits is waiting for one that can still move.

    * `StepsSucceed` — a run in which no local step fails.
    * `Steady.failed_next` — what brings a worker down with one step.
    * `Steady.act_or_stand` — a worker can move, or it waits, or it has ended.
    * `Steady.someone_acts` — the workers that wait are not all there is.
-/
import Federated.Proofs.Training.Runs

namespace Federated

variable {α : Type} [Scalar α]

namespace System

/-- A worker is about to take a local step that fails. -/
def StepFails (s : System α) (w : WorkerId) : Prop :=
  ∃ seat batch rest halt, s.seat? w = some seat ∧ seat.worker.point = .stepping ∧
    seat.worker.remaining = batch :: rest ∧ seat.worker.learner.step batch = .error halt

/-- No local step fails on the way of the given choices. -/
def StepsSucceed (s : System α) : List Choice → Prop
  | [] => True
  | choice :: choices => (∀ w, choice = .act w → ¬ s.StepFails w) ∧
      ∀ s', s.step? choice = some s' → s'.StepsSucceed choices

instance (s : System α) (w : WorkerId) : Decidable (s.StepFails w) :=
  decidable_of_iff
    ((s.seat? w).any (fun seat =>
      match seat.worker.point, seat.worker.remaining with
      | .stepping, batch :: _ => !(seat.worker.learner.step batch).isOk
      | _, _ => false) = true) (by
    rw [Option.any_eq_true]
    constructor
    · rintro ⟨seat, hseat, hfails⟩
      split at hfails
      · next batch rest point remaining =>
        cases hstep : seat.worker.learner.step batch with
        | ok out => simp [hstep, Except.isOk, Except.toBool] at hfails
        | error halt => exact ⟨seat, batch, rest, halt, hseat, point, remaining, hstep⟩
      · cases hfails
    · rintro ⟨seat, batch, rest, halt, hseat, point, remaining, refused⟩
      refine ⟨seat, hseat, ?_⟩
      simp [point, remaining, refused, Except.isOk, Except.toBool])

instance decidableStepsSucceed : (s : System α) → (choices : List Choice) →
    Decidable (s.StepsSucceed choices)
  | _, [] => .isTrue trivial
  | s, choice :: choices =>
    have : Decidable (∀ w, choice = .act w → ¬ s.StepFails w) :=
      match choice with
      | .act w => decidable_of_iff (¬ s.StepFails w) (by simp)
      | .receive | .join _ | .stop | .conclude => .isTrue (by simp)
    have : Decidable (∀ s', s.step? choice = some s' → s'.StepsSucceed choices) :=
      match s.step? choice with
      | none => .isTrue (by simp)
      | some s' =>
        have := decidableStepsSucceed s' choices
        decidable_of_iff (s'.StepsSucceed choices) (by simp)
    inferInstanceAs (Decidable (_ ∧ _))

theorem StepsSucceed.start {s : System α} {choices rest : List Choice}
    (h : s.StepsSucceed (choices ++ rest)) : s.StepsSucceed choices := by
  induction choices generalizing s with
  | nil => trivial
  | cons choice choices ih => exact ⟨h.1, fun s' hstep => ih (h.2 s' hstep)⟩

/-- What brings a worker down with one step: its local step fails, or it comes to a wait that
    cannot be timed. -/
inductive Felled (choice : Choice) (w : WorkerId) (worker : Worker α) : FederatedError α → Prop
  | step (batch : Batch α) (rest : List (Batch α)) (halt : Halt ModelError)
      (hc : choice = .act w) (point : worker.point = .stepping)
      (remaining : worker.remaining = batch :: rest)
      (refused : worker.learner.step batch = .error halt) :
      Felled choice w worker (Worker.stepFailure worker.id halt)
  | wait (note : String) (late : worker.Late) : Felled choice w worker (.workerFailed note)

/-- A worker that has failed had failed before, or the step has brought it down. -/
theorem Steady.failed_next {s s' : System α} (h : s.Steady) {choice : Choice}
    (hn : Next s choice s') {w : WorkerId} {seat' : Seat α} (hseat' : s'.seat? w = some seat')
    {cause : FederatedError α} (hp : seat'.worker.point = .failed cause) :
    ∃ seat, s.seat? w = some seat ∧
      (seat.worker.point = .failed cause ∧ seat'.worker = seat.worker ∨
        Felled choice w seat.worker cause ∧ seat'.worker = seat.worker.goto (.failed cause)) := by
  obtain ⟨seat, hseat, hturned⟩ := hn.turned hseat'
  refine ⟨seat, hseat, ?_⟩
  -- only two points are behind a failure: a wait that cannot be timed, and a batch that is refused
  cases hturned with
  | keep mail => exact .inl ⟨hp, rfl⟩
  | read model hc waits mail fits =>
    rw [Worker.resume_merged fits] at hp
    cases hp
  | move moved m hc step =>
    cases step with
    | finish point rest => cases hp
    | announceSync point rest due => cases hp
    | announce point rest due => cases hp
    | submit point =>
      cases ht : seat.worker.policy.timed seat.worker.id seat.worker.index with
      | true => simp [Worker.goto, Worker.joined, ht] at hp
      | false =>
        simp only [Worker.goto, Worker.joined, ht, Bool.false_eq_true, if_false,
          WorkerPoint.failed.injEq] at hp
        subst hp
        have hdrift := h.drift w seat hseat
        rw [Seat.current_of_not_waiting (by simp [Worker.isWaiting, point])] at hdrift
        refine .inr ⟨.wait _ (hdrift.late_of_joining point ht), ?_⟩
        simp [Worker.joined, ht]
    | train batch rest loss learner point remaining ok => cases hp
    | fail batch rest halt point remaining refused =>
      obtain rfl : Worker.stepFailure seat.worker.id halt = cause := WorkerPoint.failed.inj hp
      exact .inr ⟨.step batch rest halt hc point remaining refused, rfl⟩
  | join hc ended => exact .inl ⟨hp, rfl⟩

/-- Only a wait that cannot be timed has brought a worker down. -/
def Sound (s : System α) : Prop :=
  ∀ w seat cause, s.seat? w = some seat → seat.worker.point = .failed cause →
    seat.worker.Late ∧ ∃ note, cause = .workerFailed note

/-- Steps that do not fail bring no worker down but at such a wait. -/
theorem Sound.next {s s' : System α} (h : s.Sound) (hsteady : s.Steady) {choice : Choice}
    (hn : Next s choice s') (hstep : ∀ w, choice = .act w → ¬ s.StepFails w) : s'.Sound := by
  intro w seat' cause hseat' hp
  obtain ⟨seat, hseat, ⟨hbefore, hworker⟩ | ⟨hfelled, hworker⟩⟩ :=
    hsteady.failed_next hn hseat' hp
  · rw [hworker]
    exact h w seat cause hseat hbefore
  · rw [hworker]
    cases hfelled with
    | step batch rest halt hc point remaining refused =>
      exact absurd ⟨seat, batch, rest, halt, hseat, point, remaining, refused⟩ (hstep w hc)
    | wait note late => exact ⟨⟨late.due, late.more, late.untimed⟩, note, rfl⟩

/-! ## Who can move -/

/-- Before the stop signal nobody's failure has been noticed. -/
theorem Steady.active {s : System α} (h : s.Steady) (running : s.stopped = false) :
    s.failure = none := by
  cases hf : s.failure with
  | none => rfl
  | some cause =>
    have hst := h.failed (by rw [hf]; rfl)
    rw [running] at hst
    cases hst

/-- A worker can move, or it waits for an answer that is not there, or it has ended. -/
theorem Steady.act_or_stand {s : System α} (h : s.Steady) (active : s.failure = none)
    {w : WorkerId} {seat : Seat α} (hseat : s.seat? w = some seat) :
    (s.step? (.act w)).isSome = true ∨
      (seat.worker.point = .waiting ∧ seat.mail = none) ∨ seat.worker.hasEnded = true := by
  have hact : s.step? (.act w) = s.actWith w seat := by
    simp only [step?, active, Option.isSome_none, Bool.false_eq_true, if_false]
    rw [show s.seats[w.index]? = some seat from hseat]
    rfl
  rw [hact]
  unfold actWith
  cases hw : seat.worker.isWaiting with
  | true =>
    cases hm : seat.mail with
    | none => exact .inr (.inl ⟨Worker.isWaiting_iff.1 hw, rfl⟩)
    | some answer => exact .inl rfl
  | false =>
    cases hstep : seat.worker.step? with
    | none =>
      -- a worker that is awake trains only while batches are left, so only its end is in its way
      have hrest : seat.worker.point = .stepping → seat.worker.remaining ≠ [] := by
        intro hp
        have hdrift := h.drift w seat hseat
        rw [Seat.current_of_not_waiting hw] at hdrift
        exact (hdrift.stepping hp).2.2
      rcases Worker.stuck_cases hstep hrest with hwait | hend
      · rw [hw] at hwait
        cases hwait
      · exact .inr (.inr hend)
    | some out =>
      obtain ⟨moved, m⟩ := out
      cases m <;> exact .inl rfl

/-- No worker has been brought down. -/
def Unfailed (s : System α) : Prop :=
  ∀ w seat cause, s.seat? w = some seat → seat.worker.point ≠ .failed cause

/-- The workers that wait are not all there is: with nobody brought down and no message under
    way, somebody can move as long as not all have finished. -/
theorem Steady.someone_acts {s : System α} (h : s.Steady) (active : s.failure = none)
    (hq : s.queue = []) (hup : s.Unfailed)
    {v : WorkerId} {seat : Seat α} (hseat : s.seat? v = some seat)
    (hv : seat.worker.hasEnded = false) :
    ∃ w seat, s.seat? w = some seat ∧ seat.worker.hasEnded = false ∧
      (s.step? (.act w)).isSome = true := by
  -- suppose nobody who has not ended can move
  apply Classical.byContradiction
  intro hstuck
  have hflushed := flushed_of_empty hq
  have hstand : ∀ w seat, s.seat? w = some seat →
      (seat.worker.point = .waiting ∧ seat.mail = none) ∨ seat.worker.hasEnded = true := by
    intro w seat hseat
    rcases h.act_or_stand active hseat with hact | hstands
    · cases hend : seat.worker.hasEnded with
      | true => exact .inr rfl
      | false => exact absurd ⟨w, seat, hseat, hend, hact⟩ hstuck
    · exact hstands
  -- then every record waits or has finished, one of them waits, and a round would be due
  have hrecord : ∀ w seat r, s.seat? w = some seat → s.barrier.record? w = some r →
      (seat.worker.point = .waiting ∧ r.status.isWaiting = true) ∨
        r.status.isFinished = true := by
    intro w seat r hseat hr
    have hagrees := h.agrees w seat r hseat (hflushed ▸ hr)
    rcases hstand w seat hseat with ⟨hp, hm⟩ | hend
    · rw [Seat.current_of_no_mail hm] at hagrees
      left
      refine ⟨hp, ?_⟩
      rw [(Lane.agrees_of_waiting hagrees hp).1]
      rfl
    · rw [current_of_hasEnded hend] at hagrees
      right
      rcases Worker.hasEnded_iff.1 hend with ⟨loss, hp⟩ | ⟨cause, hp⟩
      · rw [(Lane.agrees_of_finished hagrees hp).1]
        rfl
      · exact absurd hp (hup w seat cause hseat)
  have due : s.barrier.roundReady = true := by
    refine Barrier.roundReady_iff.2 ⟨?_, ?_⟩
    · obtain ⟨r, hr⟩ := h.record_of_seat hseat
      rw [hflushed] at hr
      rcases hstand v seat hseat with ⟨hp, hm⟩ | hend
      · have hagrees := h.agrees v seat r hseat (hflushed ▸ hr)
        rw [Seat.current_of_no_mail hm] at hagrees
        exact ⟨v, r, hr, by rw [(Lane.agrees_of_waiting hagrees hp).1]; rfl⟩
      · rw [hv] at hend
        cases hend
    · intro w r hr
      obtain ⟨seat, hseat⟩ := h.seat_of_record (hflushed.symm ▸ hr)
      rw [← Bool.not_eq_true]
      intro ht
      rcases hrecord w seat r hseat hr with ⟨-, hwait⟩ | hend
      · cases hs : r.status <;> simp [hs, Status.isWaiting, Status.isTraining] at hwait ht
      · cases hs : r.status <;> simp [hs, Status.isFinished, Status.isTraining] at hend ht
  rw [h.quiet] at due
  cases due

end System

/-- A worker has finished once it has sent its last message. -/
def Worker.Finished (w : Worker α) : Prop := ∃ loss, w.point = .finished loss

end Federated
