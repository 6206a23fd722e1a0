/-
  Federated.Proofs.Training.Touched

  What a step does in any state, reachable or not: to one seat, and to the books of the
  supervisor.

    * `Answered`, `answered_of_step?` — the coordinator answers, and leaves all else alone.
    * `Touched`, `touched_of_step?` — every seat is touched in one of five ways.
    * `Booked`, `booked_of_step?` — bank and failure change only where a worker is joined.
    * `System.Blameless` — the failure of an epoch is that of a worker, and no fault of its
      configuration.
-/
import Federated.Proofs.Training.Runs
import Federated.Training.Epoch

namespace Federated

variable {α : Type} [Scalar α]

namespace System

variable {s s' : System α} {choice : Choice} {w : WorkerId} {seat seat' : Seat α}

/-! ## Steps of the coordinator -/

/-- What a step of the coordinator does: it lays answers on seats, and leaves all else alone but its
    own session and the messages to it. -/
structure Answered (s s' : System α) : Prop where
  seats : ∀ w seat', s'.seat? w = some seat' →
    ∃ seat mail, s.seat? w = some seat ∧ seat' = { seat with mail }
  size : s'.seats.size = s.seats.size
  bank : s'.bank = s.bank
  failure : s'.failure = s.failure
  stopped : s'.stopped = s.stopped

omit [Scalar α] in
theorem answered_deliverAll (s : System α) (session : Session α WorkerId)
    (queue : List (Message α WorkerId)) (replies : List (Reply α WorkerId)) :
    Answered s (({ s with session, queue } : System α).deliverAll replies) := by
  obtain ⟨-, -, hbank, hstopped, hfailure, hsize⟩ :=
    deliverAll_frame ({ s with session, queue } : System α) replies
  refine ⟨fun w seat' hseat' => ?_, hsize, hbank, hfailure, hstopped⟩
  obtain ⟨seat, mail, hseat, heq⟩ := seat_of_deliverAll hseat'
  exact ⟨seat, mail, hseat, heq⟩

omit [Scalar α] in
theorem answered_withSession (s : System α) (session : Session α WorkerId)
    (queue : List (Message α WorkerId)) (replies : List (Reply α WorkerId)) :
    Answered s (s.withSession session queue replies) := by
  rw [withSession]
  split <;> exact answered_deliverAll s _ _ _

/-- To receive a message and to conclude are such steps. -/
theorem answered_of_step? (hc : choice = .receive ∨ choice = .conclude)
    (h : s.step? choice = some s') : Answered s s' := by
  rcases hc with rfl | rfl
  · simp only [step?] at h
    split at h
    · cases h
      exact answered_withSession s _ _ _
    · cases h
  · simp only [step?] at h
    split at h
    · split at h
      · cases h
        exact answered_withSession s _ _ _
      · cases h
    · cases h

/-- The stop signal is given once, behind all workers. -/
theorem stopped_of_step? (h : s.step? .stop = some s') :
    s.allJoined = true ∧ s' = { s with stopped := true } := by
  simp only [step?] at h
  split at h
  · next hstop =>
    cases h
    rw [Bool.and_eq_true] at hstop
    exact ⟨hstop.1, rfl⟩
  · cases h

/-! ## One seat -/

/-- What a step does to one seat, whatever the state. -/
inductive Touched (choice : Choice) (w : WorkerId) (seat : Seat α) : Seat α → Prop
  /-- The worker stays where it is, whatever is laid on its seat. -/
  | keep (mail : Option (Answer α)) (hc : choice ≠ .join w) :
      Touched choice w seat { seat with mail }
  /-- The worker reads its answer. -/
  | read (answer : Answer α) (hc : choice = .act w) (waits : seat.worker.isWaiting = true)
      (mail : seat.mail = some answer) :
      Touched choice w seat { seat with worker := seat.worker.resume answer, mail := none }
  /-- The worker takes a step. -/
  | move (moved : Worker α) (m : Option (Message α WorkerId)) (hc : choice = .act w)
      (step : seat.worker.Step moved m) : Touched choice w seat { seat with worker := moved }
  /-- The worker takes a step whose message nobody takes. -/
  | refuse (moved : Worker α) (m : Message α WorkerId) (hc : choice = .act w)
      (step : seat.worker.Step moved (some m)) :
      Touched choice w seat { seat with worker := moved.refused }
  /-- The worker is joined. -/
  | join (hc : choice = .join w) (ended : seat.worker.hasEnded = true) :
      Touched choice w seat { seat with joined := true }

/-- A change at one seat touches that one, and keeps the others. -/
theorem touched_modify {v : WorkerId} {found : Seat α} {f : Seat α → Seat α}
    (hfound : s.seat? v = some found) (htouched : Touched choice v found (f found))
    (hother : w ≠ v → choice ≠ .join w) (hseat' : (s.modify v f).seat? w = some seat') :
    ∃ seat, s.seat? w = some seat ∧ Touched choice w seat seat' := by
  rcases seat_of_modify hfound hseat' with ⟨rfl, rfl⟩ | ⟨hne, hold⟩
  · exact ⟨found, hfound, htouched⟩
  · exact ⟨seat', hold, .keep seat'.mail (hother hne)⟩

/-- Every step touches every seat in one of those ways. -/
theorem touched_of_step? (h : s.step? choice = some s') (hseat' : s'.seat? w = some seat') :
    ∃ seat, s.seat? w = some seat ∧ Touched choice w seat seat' := by
  cases choice with
  | act v =>
    obtain ⟨-, found, hfound, hacted⟩ := acted_of_step? h
    cases hacted with
    | read answer waits mail =>
      exact touched_modify hfound (.read answer rfl waits mail) (by simp) hseat'
    | silent moved awake step =>
      exact touched_modify hfound (.move moved none rfl step) (by simp) hseat'
    | send moved m awake step =>
      rw [dispatch] at hseat'
      split at hseat'
      · exact touched_modify hfound (.move moved (some m) rfl step) (by simp) hseat'
      · exact touched_modify hfound (.refuse moved m rfl step) (by simp) hseat'
  | receive | conclude =>
    obtain ⟨seat, mail, hseat, rfl⟩ := (answered_of_step? (by simp) h).seats w seat' hseat'
    exact ⟨seat, hseat, .keep mail (by simp)⟩
  | join v =>
    obtain ⟨-, found, hfound, -, hjoined⟩ := joined_of_step? h
    -- whoever is joined is marked, and nobody else
    have hother : w ≠ v → Choice.join v ≠ .join w := fun hne h => hne (Choice.join.inj h).symm
    cases hjoined with
    | finished loss point =>
      have hended := Worker.hasEnded_iff.2 (.inl ⟨loss, point⟩)
      exact touched_modify hfound (.join rfl hended) hother hseat'
    | failed cause point =>
      have hended := Worker.hasEnded_iff.2 (.inr ⟨cause, point⟩)
      exact touched_modify hfound (.join rfl hended) hother hseat'
  | stop =>
    obtain ⟨-, rfl⟩ := stopped_of_step? h
    exact ⟨seat', hseat', .keep seat'.mail (by simp)⟩

/-- No step adds or takes away a seat. -/
theorem size_of_step? (h : s.step? choice = some s') : s'.seats.size = s.seats.size := by
  cases choice with
  | act v =>
    obtain ⟨-, found, -, hacted⟩ := acted_of_step? h
    cases hacted with
    | read | silent => simp [modify]
    | send moved m =>
      rw [dispatch]
      split <;> simp [modify]
  | receive | conclude => exact (answered_of_step? (by simp) h).size
  | join v =>
    obtain ⟨-, found, -, -, hjoined⟩ := joined_of_step? h
    cases hjoined <;> simp [modify]
  | stop =>
    obtain ⟨-, rfl⟩ := stopped_of_step? h
    rfl

/-- So no seat is lost. -/
theorem touched_seated (h : s.step? choice = some s') (hseat : s.seat? w = some seat) :
    ∃ seat', s'.seat? w = some seat' ∧ Touched choice w seat seat' := by
  have hlt : w.index < s'.seats.size := by
    rw [size_of_step? h]
    exact (Array.getElem?_eq_some_iff.1 hseat).1
  have hseat' : s'.seat? w = some s'.seats[w.index] := Array.getElem?_eq_getElem hlt
  obtain ⟨found, hfound, htouched⟩ := touched_of_step? h hseat'
  cases hseat.symm.trans hfound
  exact ⟨_, hseat', htouched⟩

/-- A worker that has ended moves no more. -/
theorem Touched.worker_eq (h : Touched choice w seat seat') (ended : seat.worker.hasEnded = true) :
    seat'.worker = seat.worker := by
  cases h with
  | keep mail hc => rfl
  | read answer hc waits mail =>
    rw [Worker.isWaiting_of_hasEnded ended] at waits
    cases waits
  | move moved m hc step | refuse moved m hc step =>
    rw [step.awake.2] at ended
    cases ended
  | join hc ended => rfl

/-- Only a step that joins a worker marks it as joined, and that for good. -/
theorem Touched.joined_eq (h : Touched choice w seat seat') :
    seat'.joined = (seat.joined || decide (choice = .join w)) := by
  cases h with
  | keep mail hc => simp [hc]
  | read answer hc waits mail => simp [hc]
  | move moved m hc step | refuse moved m hc step => simp [hc]
  | join hc ended => simp [hc]

/-! ## The books of the supervisor -/

/-- What a step does to the bank, the failure and the stop signal. -/
inductive Booked (s : System α) : Choice → System α → Prop
  /-- Nobody is joined; the stop signal is given only behind all workers. -/
  | same {choice : Choice} {s' : System α} (hc : ∀ w, choice ≠ .join w) (bank : s'.bank = s.bank)
      (failure : s'.failure = s.failure)
      (stopped : s'.stopped = true → s.stopped = true ∨ s.allJoined = true) : Booked s choice s'
  /-- A worker that has finished hands its optimizer back. -/
  | returned {w : WorkerId} {seat : Seat α} {loss : α} {s' : System α}
      (hseat : s.seat? w = some seat) (active : s.failure = none)
      (point : seat.worker.point = .finished loss)
      (bank : s'.bank = s.bank.restore w seat.worker.learner.optimizer)
      (failure : s'.failure = none) (stopped : s'.stopped = s.stopped) : Booked s (.join w) s'
  /-- A worker that has failed hands nothing back, and fails the epoch. -/
  | lost {w : WorkerId} {seat : Seat α} {cause : FederatedError α} {s' : System α}
      (hseat : s.seat? w = some seat) (active : s.failure = none)
      (point : seat.worker.point = .failed cause) (bank : s'.bank = s.bank)
      (failure : s'.failure = some cause) : Booked s (.join w) s'

/-- Every step is booked in one of those ways. -/
theorem booked_of_step? (h : s.step? choice = some s') : Booked s choice s' := by
  cases choice with
  | act v =>
    obtain ⟨-, found, -, hacted⟩ := acted_of_step? h
    cases hacted with
    | read | silent => exact .same (by simp) rfl rfl .inl
    | send moved m =>
      rw [dispatch]
      split <;> exact .same (by simp) rfl rfl .inl
  | receive | conclude =>
    have hanswered := answered_of_step? (by simp) h
    exact .same (by simp) hanswered.bank hanswered.failure fun hst =>
      .inl (hanswered.stopped.symm.trans hst)
  | join v =>
    obtain ⟨active, found, hfound, -, hjoined⟩ := joined_of_step? h
    cases hjoined with
    | finished loss point => exact .returned hfound active point rfl active rfl
    | failed cause point => exact .lost hfound active point rfl rfl
  | stop =>
    obtain ⟨hall, rfl⟩ := stopped_of_step? h
    exact .same (by simp) rfl rfl fun _ => .inr hall

/-! ## Runs -/

/-- What every step keeps, a run keeps. -/
theorem run_induction {P : System α → Prop}
    (hstep : ∀ {s s' : System α} {choice : Choice}, P s → s.step? choice = some s' → P s')
    (h : P s) {choices : List Choice} (hrun : s.run? choices = some s') : P s' := by
  induction choices generalizing s with
  | nil =>
    cases hrun
    exact h
  | cons choice choices ih =>
    rw [run?_cons] at hrun
    obtain ⟨s₁, hfirst, hrest⟩ := Option.bind_eq_some_iff.1 hrun
    exact ih (hstep h hfirst) hrest

end System

/-! ## Failures -/

/-- The failures that a worker can come to. -/
inductive FederatedError.OfWorker : FederatedError α → Prop
  | model (cause : ModelError) : OfWorker (.model cause)
  | failed (note : String) : OfWorker (.workerFailed note)
  | gone (worker : WorkerId) : OfWorker (.coordinatorGone worker)

namespace Worker

omit [Scalar α] in
theorem ofWorker_stepFailure (id : WorkerId) (halt : Halt ModelError) :
    (stepFailure id halt : FederatedError α).OfWorker := by
  cases halt with
  | error cause => exact .model cause
  | defect defect => exact .failed _

/-- A step that brings a worker down leaves it such a failure. -/
theorem Step.ofWorker {w w' : Worker α} {m : Option (Message α WorkerId)} (h : w.Step w' m)
    {cause : FederatedError α} (hp : w'.point = .failed cause) : cause.OfWorker := by
  cases h with
  | finish | announceSync | announce | train => cases hp
  | submit point =>
    simp only [goto, joined] at hp
    split at hp
    · cases hp
    · cases hp
      exact .failed _
  | fail batch rest halt point remaining refused =>
    cases hp
    exact ofWorker_stepFailure w.id halt

omit [Scalar α] in
/-- So does an answer. -/
theorem ofWorker_resume [Scalar α] {w : Worker α} {answer : Answer α} {cause : FederatedError α}
    (hp : (w.resume answer).point = .failed cause) : cause.OfWorker := by
  cases answer with
  | closed =>
    cases hp
    exact .gone w.id
  | merged model =>
    rw [resume] at hp
    split at hp
    · cases hp
      exact .model _
    · cases hp

end Worker

namespace System

/-- Nobody has failed but in the way of a worker, and the epoch only with one that has. -/
structure Blameless (s : System α) : Prop where
  workers : ∀ w seat cause, s.seat? w = some seat → seat.worker.point = .failed cause →
    cause.OfWorker
  failure : ∀ cause, s.failure = some cause → cause.OfWorker

theorem Blameless.step {s s' : System α} {choice : Choice} (h : s.Blameless)
    (hs : s.step? choice = some s') : s'.Blameless := by
  refine ⟨fun w seat' cause hseat' hp => ?_, fun cause hcause => ?_⟩
  · obtain ⟨seat, hseat, htouched⟩ := touched_of_step? hs hseat'
    cases htouched with
    | keep mail hc => exact h.workers w seat cause hseat hp
    | read answer hc waits mail => exact Worker.ofWorker_resume hp
    | move moved m hc step => exact step.ofWorker hp
    | refuse moved m hc step =>
      cases hp
      exact .gone _
    | join hc ended => exact h.workers w seat cause hseat hp
  · cases booked_of_step? hs with
    | same hc bank failure => exact h.failure cause (failure.symm.trans hcause)
    | returned hseat active point bank failure =>
      rw [failure] at hcause
      cases hcause
    | lost hseat active point bank failure =>
      cases failure.symm.trans hcause
      exact h.workers _ _ cause hseat point

/-- The result of a run is no fault of its configuration. -/
theorem Blameless.result {s : System α} (h : s.Blameless) (cause : ConfigError α) :
    Epoch.result? s ≠ some (.error (.config cause)) := by
  intro hresult
  rw [Epoch.result?] at hresult
  split at hresult
  · split at hresult
    · cases hresult
    · next outcome _ =>
      rw [Epoch.resultOf] at hresult
      split at hresult <;> cases hresult
    · cases hresult
    · cases hresult
    · next failure _ hfailure _ _ =>
      cases hresult
      cases h.failure _ hfailure
  · cases hresult

end System

end Federated
