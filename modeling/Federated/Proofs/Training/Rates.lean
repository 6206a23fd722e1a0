/-
  Federated.Proofs.Training.Rates

  The learning rate of an epoch: all its optimizers begin with the rate of the bank, and whatever
  turns are taken, all of them keep it, in the workers and in the bank.

    * `System.updates` — the optimizers that the local steps of a run are taken with.
    * `System.Rated` — all optimizers of a state have one rate; `Rated.step` — every step keeps it.
    * `Epoch.rated_of_start` — at the start it is the rate of the bank.
-/
import Federated.Proofs.Optimizer.Rates
import Federated.Proofs.Training.Traffic
import Federated.Training.Epoch

namespace Federated

variable {α : Type} [Scalar α] {r : α}

/-! ## Workers -/

/-- A worker trains with a rate if its optimizer has it, and every fresh one will have it. -/
structure Worker.Rated (r : α) (w : Worker α) : Prop where
  optimizer : w.learner.optimizer.rate = r
  spec : w.spec.rate = r

namespace Worker

/-- A step keeps the rate. -/
theorem Rated.step {w w' : Worker α} {m : Option (Message α WorkerId)} (h : w.Rated r)
    (step : w.Step w' m) : w'.Rated r := by
  cases step with
  | train batch rest loss learner point remaining ok =>
    exact ⟨(Learner.rate_step ok).trans h.optimizer, h.spec⟩
  | finish | announceSync | announce | submit | fail => exact ⟨h.optimizer, h.spec⟩

/-- An answer keeps the rate, be the optimizer kept or built anew. -/
theorem Rated.resume {w : Worker α} (h : w.Rated r) (answer : Answer α) :
    (w.resume answer).Rated r := by
  cases answer with
  | closed => exact ⟨h.optimizer, h.spec⟩
  | merged model =>
    rw [Worker.resume]
    split
    · exact ⟨h.optimizer, h.spec⟩
    · refine ⟨?_, h.spec⟩
      show (if w.policy.keep then w.learner.optimizer else w.spec.build).rate = r
      split
      · exact h.optimizer
      · exact w.spec.rate_build.trans h.spec

end Worker

/-! ## An epoch -/

namespace System

/-- The optimizer that a worker takes its next local step with. -/
def update? (s : System α) : Choice → Option (WorkerId × Optimizer α)
  | .act w => s.seats[w.index]?.bind fun seat =>
    match seat.worker.point, seat.worker.remaining with
    | .stepping, _ :: _ => some (w, seat.worker.learner.optimizer)
    | _, _ => none
  | _ => none

/-- The optimizers that the local steps of a run are taken with, one after another. -/
def updates (s : System α) : List Choice → List (WorkerId × Optimizer α) := s.trace update?

/-- All optimizers of a state have one rate: those of the workers, those they will build, and
    those of the bank. -/
structure Rated (r : α) (s : System α) : Prop where
  workers : ∀ w seat, s.seat? w = some seat → seat.worker.Rated r
  bank : s.bank.Uniform r

variable {s s' : System α}

omit [Scalar α] in
/-- A change at one seat. -/
theorem Rated.modify (h : s.Rated r) {w : WorkerId} {seat : Seat α} (hseat : s.seat? w = some seat)
    {f : Seat α → Seat α} (hf : (f seat).worker.Rated r) : (s.modify w f).Rated r := by
  refine ⟨fun v found hfound => ?_, h.bank⟩
  by_cases hv : w = v
  · subst hv
    cases (seat?_modify_self hseat f).symm.trans hfound
    exact hf
  · rw [seat?_modify_ne s hv] at hfound
    exact h.workers v found hfound

omit [Scalar α] in
/-- Answers move no optimizer. -/
theorem Rated.deliverAll (h : s.Rated r) (replies : List (Reply α WorkerId)) :
    (s.deliverAll replies).Rated r := by
  refine ⟨fun w found hfound => ?_, ?_⟩
  · obtain ⟨seat, hseat, hworker, -⟩ := worker_deliverAll hfound
    rw [hworker]
    exact h.workers w seat hseat
  · rw [(deliverAll_frame s replies).2.2.1]
    exact h.bank

omit [Scalar α] in
theorem Rated.withSession (h : s.Rated r) (session : Session α WorkerId)
    (queue : List (Message α WorkerId)) (replies : List (Reply α WorkerId)) :
    (s.withSession session queue replies).Rated r := by
  have hframe : ∀ queue, ({ s with session, queue } : System α).Rated r :=
    fun _ => ⟨h.workers, h.bank⟩
  rw [System.withSession]
  split
  · exact (hframe _).deliverAll _
  · exact (hframe _).deliverAll _

theorem Rated.act (h : s.Rated r) {w : WorkerId} {seat : Seat α} (hseat : s.seat? w = some seat)
    (hacted : Acted s w seat s') : s'.Rated r := by
  have hworker := h.workers w seat hseat
  cases hacted with
  | read answer waits mail => exact h.modify hseat (hworker.resume answer)
  | silent moved awake step => exact h.modify hseat (hworker.step step)
  | send moved m awake step =>
    have hmoved := hworker.step step
    rw [dispatch]
    split
    · exact ⟨(h.modify hseat hmoved).workers, h.bank⟩
    · exact h.modify hseat ⟨hmoved.optimizer, hmoved.spec⟩

omit [Scalar α] in
theorem Rated.join (h : s.Rated r) {w : WorkerId} {seat : Seat α} (hseat : s.seat? w = some seat)
    (hjoined : Joined s w seat s') : s'.Rated r := by
  have hworker := h.workers w seat hseat
  have hmarked := h.modify hseat (f := fun seat => { seat with joined := true }) hworker
  cases hjoined with
  | finished loss point => exact ⟨hmarked.workers, h.bank.restore w hworker.optimizer⟩
  | failed cause point => exact ⟨hmarked.workers, h.bank⟩

/-- Every step keeps the rate. -/
theorem Rated.step (h : s.Rated r) {choice : Choice} (hs : s.step? choice = some s') :
    s'.Rated r := by
  cases choice with
  | act w =>
    obtain ⟨-, seat, hseat, hacted⟩ := acted_of_step? hs
    exact h.act hseat hacted
  | receive =>
    simp only [step?] at hs
    split at hs
    · cases hs
      exact h.withSession _ _ _
    · cases hs
  | join w =>
    obtain ⟨-, seat, hseat, -, hjoined⟩ := joined_of_step? hs
    exact h.join hseat hjoined
  | stop =>
    simp only [step?] at hs
    split at hs
    · cases hs
      exact ⟨h.workers, h.bank⟩
    · cases hs
  | conclude =>
    simp only [step?] at hs
    split at hs
    · split at hs
      · cases hs
        exact h.withSession _ _ _
      · cases hs
    · cases hs

/-- So does every run. -/
theorem Rated.run (h : s.Rated r) {choices : List Choice} (hrun : s.run? choices = some s') :
    s'.Rated r := by
  induction choices generalizing s with
  | nil =>
    cases hrun
    exact h
  | cons choice choices ih =>
    rw [run?_cons] at hrun
    obtain ⟨s₁, hstep, hrest⟩ := Option.bind_eq_some_iff.1 hrun
    exact ih (h.step hstep) hrest

/-- Every local step of a run is taken with that rate. -/
theorem Rated.updates (h : s.Rated r) {choices : List Choice} {w : WorkerId} {o : Optimizer α}
    (ho : (w, o) ∈ s.updates choices) : o.rate = r := by
  induction choices generalizing s with
  | nil => cases ho
  | cons choice choices ih =>
    rcases List.mem_append.1 ho with hhere | hlater
    · -- the optimizer is that of a worker about to step
      cases choice with
      | act v =>
        obtain ⟨seat, hseat, hlook⟩ := Option.bind_eq_some_iff.1 (Option.mem_toList.1 hhere)
        split at hlook
        · cases hlook
          exact (h.workers w seat hseat).optimizer
        · cases hlook
      | receive | join | stop | conclude => cases hhere
    · cases hstep : s.step? choice with
      | none =>
        rw [hstep] at hlater
        cases hlater
      | some s₁ =>
        rw [hstep] at hlater
        exact ih (h.step hstep) hlater

end System

namespace Epoch

variable {config : FederatedConfig} {clock : Clock} {model : Affine α} {bank : Bank α}

/-- The workers take their optimizers out of the bank, and the rate with them. -/
theorem rated_seats (h : bank.Uniform r) (next : Nat) (shards : List (List (Batch α))) :
    (∀ seat ∈ (seats config clock model bank next shards).1, seat.worker.Rated r) ∧
      (seats config clock model bank next shards).2.Uniform r := by
  induction shards generalizing bank next with
  | nil => exact ⟨by simp [seats], h⟩
  | cons shard shards ih =>
    obtain ⟨htaken, hleft⟩ := h.take ⟨next⟩
    obtain ⟨hseats, hbank⟩ := ih hleft (next + 1)
    exact ⟨List.forall_mem_cons.2 ⟨⟨htaken, h.spec⟩, hseats⟩, hbank⟩

/-- An epoch begins with the rate of its bank. -/
theorem rated_of_start {shards : List (List (Batch α))} (h : bank.Uniform r) {s : System α}
    (hstart : start config clock model shards bank = .ok s) : s.Rated r := by
  simp only [start] at hstart
  split at hstart
  · cases hstart
  · split at hstart
    · cases hstart
    · cases hstart
      obtain ⟨hseats, hbank⟩ : _ ∧ _ := rated_seats h 0 shards
      refine ⟨fun w seat hseat => hseats seat ?_, hbank⟩
      exact List.mem_toArray.1 (Array.mem_of_getElem? hseat)

end Epoch

end Federated
