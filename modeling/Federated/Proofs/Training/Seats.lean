/-
  Federated.Proofs.Training.Seats

  A worker beside what the barrier holds of it. The messages a worker has sent may still be on
  their way and an answer may lie unread, so both sides are brought up to date first: the
  worker by reading its answer, the record by absorbing what is queued.

    * `Lane.Agrees` — a worker's point and the status of its record go together.
    * `agrees_step`, `agrees_resume` — a step and a round keep that so.
    * `seat?_deliverAll` — what answers change of a seat.
    * `acted_of_step?`, `joined_of_step?` — what a worker's move and its being joined come to.
-/
import Federated.Proofs.Barrier.Session
import Federated.Proofs.Training.Worker
import Federated.Training.System

namespace Federated

variable {α : Type}

/-! ## Workers beside their records -/

/-- A worker and the barrier's record of it. -/
structure Lane (α : Type) where
  worker : Worker α
  record : Record α WorkerId

/-- What a worker's point says about its record. A worker that has died may have left a
    submission behind, but never a last message. -/
def Lane.Agrees (l : Lane α) : Prop :=
  match l.worker.point with
  | .announcing | .joining | .stepping => l.record.status = .training
  | .waiting =>
    l.record.status = .waiting l.worker.id ∧
      l.record.submitted = some l.worker.learner.model.params
  | .finished _ =>
    l.record.status = .finished ∧ l.record.submitted = some l.worker.learner.model.params
  | .failed _ =>
    l.record.status = .training ∨ l.record.status = .waiting l.worker.id

/-- A record after the message that a step sent, if it sent one. -/
def Record.absorbAny {τ : Type} (r : Record α τ) : Option (Message α τ) → Record α τ
  | none => r
  | some m => r.absorb m

namespace Lane

theorem agrees_of_waiting {l : Lane α} (h : l.Agrees) (hp : l.worker.point = .waiting) :
    l.record.status = .waiting l.worker.id ∧
      l.record.submitted = some l.worker.learner.model.params := by
  simpa only [Agrees, hp] using h

theorem agrees_of_finished {l : Lane α} (h : l.Agrees) {loss : α}
    (hp : l.worker.point = .finished loss) :
    l.record.status = .finished ∧
      l.record.submitted = some l.worker.learner.model.params := by
  simpa only [Agrees, hp] using h

/-- A ticket at the barrier is the worker's own. -/
theorem ticket_eq {l : Lane α} (h : l.Agrees) {t : WorkerId}
    (ht : l.record.status = .waiting t) : t = l.worker.id := by
  unfold Agrees at h
  -- only a worker that waits, or died of its wait, has a record that waits
  cases hp : l.worker.point with
  | announcing | joining | stepping =>
    simp only [hp] at h
    rw [ht] at h
    cases h
  | waiting =>
    simp only [hp] at h
    rw [ht] at h
    exact Status.waiting.inj h.1
  | finished loss =>
    simp only [hp] at h
    rw [ht] at h
    cases h.1
  | failed cause =>
    simp only [hp] at h
    rcases h with h | h
    · rw [ht] at h
      cases h
    · rw [ht] at h
      exact Status.waiting.inj h

/-- A worker whose record does not train waits or has ended. -/
theorem stands_of_agrees {l : Lane α} (h : l.Agrees) (ht : l.record.status.isTraining = false) :
    l.worker.point = .waiting ∨ l.worker.hasEnded = true := by
  unfold Agrees at h
  unfold Worker.hasEnded
  cases hp : l.worker.point with
  | announcing | joining | stepping =>
    simp only [hp] at h
    rw [h] at ht
    cases ht
  | waiting => exact .inl rfl
  | finished loss => exact .inr rfl
  | failed cause => exact .inr rfl

variable [Scalar α]

/-- A step that sends a message finds the worker's record in training. -/
theorem training_of_step {w w' : Worker α} {r : Record α WorkerId} {m : Message α WorkerId}
    (h : Agrees ⟨w, r⟩) (hs : Worker.Step w w' (some m)) : r.status = .training := by
  cases hs with
  | finish point rest => simpa only [Agrees, point] using h
  | announceSync point rest due | announce point rest due => simpa only [Agrees, point] using h
  | submit point => simpa only [Agrees, point] using h

/-- A step keeps a worker and its record together. -/
theorem agrees_step {w w' : Worker α} {r : Record α WorkerId}
    {m : Option (Message α WorkerId)} (h : Agrees ⟨w, r⟩) (hs : Worker.Step w w' m) :
    Agrees ⟨w', r.absorbAny m⟩ := by
  cases hs with
  | finish point rest =>
    exact ⟨rfl, rfl⟩
  | announceSync point rest due | announce point rest due =>
    have ht : r.status = .training := by simpa only [Agrees, point] using h
    exact ht
  | submit point =>
    have ht : r.status = .training := by simpa only [Agrees, point] using h
    -- its record trains, so the submission is taken and waits under the worker's own number
    have habsorb : r.absorbAny
        (some (.submit w.id w.index w.learner.model.params w.lastLoss w.id)) =
        { r with
          submitted := some w.learner.model.params
          status := .waiting w.id
          done := max w.index r.done
          losses := r.losses.insert (.batch w.index) w.lastLoss } := by
      simp [Record.absorbAny, Record.absorb, ht, Status.isFinished]
    rw [habsorb]
    unfold Worker.joined
    -- a worker whose wait cannot be timed dies, and leaves its submission behind
    cases w.policy.timed w.id w.index with
    | true => exact ⟨rfl, rfl⟩
    | false => exact .inr rfl
  | train batch rest loss learner point remaining ok =>
    have ht : r.status = .training := by simpa only [Agrees, point] using h
    exact ht
  | fail batch rest halt point remaining refused =>
    have ht : r.status = .training := by simpa only [Agrees, point] using h
    exact .inl ht

omit [Scalar α] in
/-- Where a worker has ended, its record agrees with it after a round too. -/
theorem agrees_release_of_hasEnded {w : Worker α} {r : Record α WorkerId}
    (h : Agrees ⟨w, r⟩) (he : w.hasEnded = true) : Agrees ⟨w, r.release⟩ := by
  unfold Agrees at h ⊢
  rcases Worker.hasEnded_iff.1 he with ⟨loss, hp⟩ | ⟨cause, hp⟩
  · simp only [hp] at h ⊢
    -- a finished record does not wait, and a round leaves it alone
    have hrelease : r.release = r := by simp [Record.release, h.1, Status.isWaiting]
    rw [hrelease]
    exact h
  · simp only [hp] at h ⊢
    -- a dead worker's record trains after the round, whether it did before or waited
    left
    rcases h with h | h
    · simp [Record.release, h, Status.isWaiting]
    · simp [Record.release, h, Status.isWaiting]

/-- A waiting worker that is released agrees with its record again. -/
theorem agrees_resume {w : Worker α} {r : Record α WorkerId} {model : Params α}
    (h : Agrees ⟨w, r⟩) (hp : w.point = .waiting)
    (hfits : w.learner.model.params.layout = model.layout) :
    Agrees ⟨w.resume (.merged model), r.release⟩ := by
  have hs := (agrees_of_waiting h hp).1
  rw [Worker.resume_merged hfits]
  show r.release.status = .training
  simp only at hs
  simp [Record.release, hs, Status.isWaiting]

end Lane

/-! ## Seats -/

/-- The worker of a seat, once it has read the answer that lies there. -/
def Seat.current [Scalar α] (seat : Seat α) : Worker α :=
  match seat.mail with
  | none => seat.worker
  | some answer => if seat.worker.isWaiting then seat.worker.resume answer else seat.worker

theorem Seat.current_of_not_waiting [Scalar α] {seat : Seat α}
    (h : seat.worker.isWaiting = false) : seat.current = seat.worker := by
  unfold current
  split
  · rfl
  · simp [h]

theorem Seat.current_of_mail [Scalar α] {seat : Seat α} {answer : Answer α}
    (h : seat.worker.isWaiting = true) (hm : seat.mail = some answer) :
    seat.current = seat.worker.resume answer := by
  unfold current
  simp [hm, h]

theorem Seat.current_answered [Scalar α] {seat : Seat α} (h : seat.worker.isWaiting = true)
    (answer : Answer α) :
    ({ seat with mail := some answer } : Seat α).current = seat.worker.resume answer :=
  current_of_mail h rfl

theorem Seat.current_of_no_mail [Scalar α] {seat : Seat α} (hm : seat.mail = none) :
    seat.current = seat.worker := by
  unfold current
  simp [hm]

namespace System

/-- The seat of a worker. -/
def seat? (s : System α) (w : WorkerId) : Option (Seat α) := s.seats[w.index]?

theorem seat?_modify (s : System α) (w v : WorkerId) (f : Seat α → Seat α) :
    (s.modify w f).seat? v = if w = v then (s.seat? v).map f else s.seat? v := by
  unfold seat? modify
  rw [Array.getElem?_modify]
  by_cases h : w = v
  · simp [h]
  · have h' : w.index ≠ v.index := fun hi => h (by cases w; cases v; simpa using hi)
    simp [h, h']

theorem seat?_modify_self {s : System α} {w : WorkerId} {seat : Seat α}
    (h : s.seat? w = some seat) (f : Seat α → Seat α) :
    (s.modify w f).seat? w = some (f seat) := by
  rw [seat?_modify, if_pos rfl, h]
  rfl

theorem seat?_modify_ne (s : System α) {w v : WorkerId} (h : w ≠ v) (f : Seat α → Seat α) :
    (s.modify w f).seat? v = s.seat? v := by
  rw [seat?_modify, if_neg h]

/-! ## Answers on their way to the seats -/

theorem deliverAll_cons (s : System α) (r : Reply α WorkerId) (rs : List (Reply α WorkerId)) :
    s.deliverAll (r :: rs) = (s.deliver r).deliverAll rs := rfl

/-- Answers change nothing but what lies unread at the seats. -/
theorem deliverAll_frame (s : System α) (rs : List (Reply α WorkerId)) :
    (s.deliverAll rs).queue = s.queue ∧ (s.deliverAll rs).session = s.session ∧
      (s.deliverAll rs).bank = s.bank ∧ (s.deliverAll rs).stopped = s.stopped ∧
      (s.deliverAll rs).failure = s.failure ∧
      (s.deliverAll rs).seats.size = s.seats.size := by
  induction rs generalizing s with
  | nil => exact ⟨rfl, rfl, rfl, rfl, rfl, rfl⟩
  | cons r rs ih =>
    obtain ⟨hq, hs, hb, hst, hf, hn⟩ := ih (s.deliver r)
    have hsize : (s.deliver r).seats.size = s.seats.size := by simp [deliver, modify]
    exact ⟨hq, hs, hb, hst, hf, hn.trans hsize⟩

/-- Answers of one round leave the same letter with everyone they are for. -/
theorem seat?_deliverAll {s : System α} {rs : List (Reply α WorkerId)} {answer : Answer α}
    (h : ∀ r ∈ rs, r.answer = answer) (w : WorkerId) :
    (s.deliverAll rs).seat? w = (s.seat? w).map fun seat =>
      if w ∈ rs.map (·.ticket) then { seat with mail := some answer } else seat := by
  induction rs generalizing s with
  | nil =>
    rw [deliverAll, List.foldl_nil]
    cases s.seat? w <;> simp
  | cons r rs ih =>
    have hr := h r List.mem_cons_self
    rw [deliverAll_cons, ih fun r' hr' => h r' (List.mem_cons_of_mem _ hr')]
    unfold deliver
    rw [seat?_modify]
    cases s.seat? w with
    | none => simp
    | some seat =>
      -- the answers behind this one leave the same letter, so it does not matter which came last
      by_cases ht : r.ticket = w
      · simp [ht, hr]
      · have ht' : w ≠ r.ticket := fun h => ht h.symm
        simp [ht, ht']

/-- Answers move no worker. -/
theorem worker_deliverAll {s : System α} {rs : List (Reply α WorkerId)} {w : WorkerId}
    {seat' : Seat α} (h : (s.deliverAll rs).seat? w = some seat') :
    ∃ seat, s.seat? w = some seat ∧ seat'.worker = seat.worker ∧ seat'.joined = seat.joined := by
  induction rs generalizing s with
  | nil => exact ⟨seat', h, rfl, rfl⟩
  | cons r rs ih =>
    obtain ⟨seat₁, h₁, hw, hj⟩ := ih h
    unfold deliver at h₁
    rw [seat?_modify] at h₁
    split at h₁
    · obtain ⟨seat, hs, rfl⟩ := Option.map_eq_some_iff.1 h₁
      exact ⟨seat, hs, hw, hj⟩
    · exact ⟨seat₁, h₁, hw, hj⟩

/-! ## Moves -/

variable [Scalar α]

/-- What a move of a worker comes to, whatever the state. -/
inductive Acted (s : System α) (w : WorkerId) (seat : Seat α) : System α → Prop
  /-- It reads its answer. -/
  | read (answer : Answer α) (waits : seat.worker.isWaiting = true)
      (mail : seat.mail = some answer) :
      Acted s w seat (s.modify w fun seat =>
        { seat with worker := seat.worker.resume answer, mail := none })
  /-- It takes a step in silence. -/
  | silent (moved : Worker α) (awake : seat.worker.isWaiting = false)
      (step : seat.worker.Step moved none) :
      Acted s w seat (s.modify w fun seat => { seat with worker := moved })
  /-- It takes a step and sends a message. -/
  | send (moved : Worker α) (m : Message α WorkerId) (awake : seat.worker.isWaiting = false)
      (step : seat.worker.Step moved (some m)) : Acted s w seat (s.dispatch w moved m)

theorem acted_of_step? {s s' : System α} {w : WorkerId} (h : s.step? (.act w) = some s') :
    s.failure = none ∧ ∃ seat, s.seat? w = some seat ∧ Acted s w seat s' := by
  simp only [step?] at h
  split at h
  · cases h
  · next hf =>
    obtain ⟨seat, hseat, hact⟩ := Option.bind_eq_some_iff.1 h
    refine ⟨by simpa using hf, seat, hseat, ?_⟩
    unfold actWith at hact
    -- a worker that waits can only read, and one that does not can only step
    cases hw : seat.worker.isWaiting with
    | true =>
      rw [hw, if_pos rfl] at hact
      obtain ⟨answer, mail, rfl⟩ := Option.map_eq_some_iff.1 hact
      exact .read answer hw mail
    | false =>
      rw [hw, if_neg (by simp)] at hact
      split at hact
      · cases hact
      · next moved hstep =>
        cases hact
        exact .silent moved hw (Worker.step_of_step? hstep)
      · next moved m hstep =>
        cases hact
        exact .send moved m hw (Worker.step_of_step? hstep)

/-- What joining a worker comes to, whatever the state. -/
inductive Joined (s : System α) (w : WorkerId) (seat : Seat α) : System α → Prop
  /-- It had finished. -/
  | finished (loss : α) (point : seat.worker.point = .finished loss) :
      Joined s w seat { s.modify w (fun seat => { seat with joined := true }) with
        bank := s.bank.restore w seat.worker.learner.optimizer }
  /-- It had failed. -/
  | failed (cause : FederatedError α) (point : seat.worker.point = .failed cause) :
      Joined s w seat { s.modify w (fun seat => { seat with joined := true }) with
        stopped := true
        failure := some cause }

theorem joined_of_step? {s s' : System α} {w : WorkerId} (h : s.step? (.join w) = some s') :
    s.failure = none ∧ ∃ seat, s.seat? w = some seat ∧ seat.joined = false ∧
      Joined s w seat s' := by
  simp only [step?] at h
  split at h
  · cases h
  · next hf =>
    obtain ⟨seat, hseat, hjoin⟩ := Option.bind_eq_some_iff.1 h
    split at hjoin
    · cases hjoin
    · next hj =>
      refine ⟨by simpa using hf, seat, hseat, by simpa using hj, ?_⟩
      unfold joinWith at hjoin
      split at hjoin
      · next loss point =>
        cases hjoin
        exact .finished loss point
      · next cause point =>
        cases hjoin
        exact .failed cause point
      · cases hjoin

end System

end Federated
