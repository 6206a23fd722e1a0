/-
  Federated.Proofs.Training.Steady

  What holds of an epoch at every point before its coordinator ends, however its actors have
  taken turns so far.

    * `Steady` — the invariant: workers and records agree once messages and answers on their
      way are counted in, and no round is due that has not been resolved.
    * `Steady.next` — every step of a steady state is one of nine.
    * `Steady.stands` — once a round is due, every worker waits or has ended.
-/
import Federated.Proofs.Training.Seats

namespace Federated

variable {α : Type}

/-! ## Messages on their way -/

namespace Barrier

variable {τ : Type}

/-- Each message finds its sender in training. So a worker has nothing under way behind a
    submission or its last message. -/
def Orderly (b : Barrier α τ) : List (Message α τ) → Prop
  | [] => True
  | m :: ms => (∃ r, b.record? m.worker = some r ∧ r.status = .training) ∧
      (b.take m).1.Orderly ms

theorem orderly_append {b : Barrier α τ} {ms : List (Message α τ)} {m : Message α τ}
    {r : Record α τ} (h : b.Orderly ms) (hr : (b.absorbAll ms).record? m.worker = some r)
    (ht : r.status = .training) : b.Orderly (ms ++ [m]) := by
  induction ms generalizing b with
  | nil => exact ⟨⟨r, hr, ht⟩, trivial⟩
  | cons m' ms ih => exact ⟨h.1, ih h.2 hr⟩

/-- A message that makes a round due is the last one under way. -/
theorem Orderly.eq_nil_of_due {b : Barrier α τ} {ms : List (Message α τ)} (h : b.Orderly ms)
    (due : b.roundReady = true) : ms = [] := by
  cases ms with
  | nil => rfl
  | cons m ms =>
    obtain ⟨⟨r, hr, ht⟩, -⟩ := h
    have hnot := (roundReady_iff.1 due).2 m.worker r hr
    rw [ht] at hnot
    cases hnot

/-- An orderly message answers no ticket. -/
theorem Orderly.take_snd {b : Barrier α τ} {m : Message α τ} {ms : List (Message α τ)}
    (h : b.Orderly (m :: ms)) : (b.take m).2 = [] := by
  obtain ⟨⟨r, hr, ht⟩, -⟩ := h
  exact take_snd_of_training hr (by rw [ht]; rfl)

end Barrier

/-! ## The invariant -/

namespace System

/-- The coordinator's barrier. -/
def barrier (s : System α) : Barrier α WorkerId := s.session.coordinator.barrier

/-- The barrier as it will be when all messages under way have been taken. -/
def flushed (s : System α) : Barrier α WorkerId := s.barrier.absorbAll s.queue

/-- The state after a round that the last message under way made due. -/
def met (s : System α) (c : Coordinator α WorkerId) (model : Params α) : System α :=
  ({ s with session := ⟨c, .serving⟩, queue := [] } : System α).deliverAll
    (s.flushed.answers model)

theorem flushed_of_last (s : System α) {m : Message α WorkerId} (h : s.queue = [m]) :
    s.flushed = (s.barrier.take m).1 := by
  unfold flushed
  rw [h]
  rfl

theorem flushed_of_empty {s : System α} (h : s.queue = []) : s.flushed = s.barrier := by
  unfold flushed
  rw [h]
  rfl

variable [Scalar α]

/-- What holds of an epoch as long as its coordinator serves. -/
structure Steady (s : System α) : Prop where
  serving : s.session.stage = .serving
  size : s.barrier.size = s.seats.size
  published : s.barrier.Published
  orderly : s.barrier.Orderly s.queue
  quiet : s.barrier.roundReady = false
  ids : ∀ w seat, s.seat? w = some seat → seat.worker.id = w
  agrees : ∀ w seat r, s.seat? w = some seat → s.flushed.record? w = some r →
    Lane.Agrees ⟨seat.current, r⟩
  drift : ∀ w seat, s.seat? w = some seat → seat.current.Drift s.barrier.rounds
  mail : ∀ w seat answer, s.seat? w = some seat → seat.mail = some answer →
    seat.worker.hasEnded = true ∨ seat.worker.isWaiting = true ∧
      ∃ model, answer = .merged model ∧ seat.worker.learner.model.params.layout = model.layout
  joined : ∀ w seat, s.seat? w = some seat → seat.joined = true → seat.worker.hasEnded = true
  halted : s.stopped = true → s.failure.isSome = true ∨ s.allJoined = true
  failed : s.failure.isSome = true → s.stopped = true

/-- The steps of a steady state, each with what it leaves. -/
inductive Next (s : System α) : Choice → System α → Prop
  /-- A worker reads its answer. -/
  | read (w : WorkerId) (seat : Seat α) (model : Params α) (hseat : s.seat? w = some seat)
      (active : s.failure = none) (waits : seat.worker.isWaiting = true)
      (mail : seat.mail = some (.merged model))
      (fits : seat.worker.learner.model.params.layout = model.layout) :
      Next s (.act w) (s.modify w fun seat =>
        { seat with worker := seat.worker.resume (.merged model), mail := none })
  /-- A worker takes a step of its own. -/
  | move (w : WorkerId) (seat : Seat α) (moved : Worker α) (m : Option (Message α WorkerId))
      (hseat : s.seat? w = some seat) (active : s.failure = none)
      (awake : seat.worker.isWaiting = false) (step : seat.worker.Step moved m) :
      Next s (.act w) { s.modify w (fun seat => { seat with worker := moved }) with
        queue := s.queue ++ m.toList }
  /-- A message is taken. -/
  | absorb (m : Message α WorkerId) (queue : List (Message α WorkerId))
      (c : Coordinator α WorkerId) (head : s.queue = m :: queue)
      (hb : c.barrier = (s.barrier.take m).1)
      (hw : c.weights = s.session.coordinator.weights)
      (hs : c.scope = s.session.coordinator.scope)
      (due : (s.barrier.take m).1.roundReady = false) :
      Next s .receive { s with session := ⟨c, .serving⟩, queue }
  /-- A message is taken, and the workers meet. -/
  | meet (m : Message α WorkerId) (c : Coordinator α WorkerId) (model : Params α)
      (head : s.queue = [m])
      (average : s.session.coordinator.average s.flushed = .ok (some model))
      (hb : c.barrier = s.flushed.adopt model)
      (hw : c.weights = s.session.coordinator.weights)
      (hs : c.scope = s.session.coordinator.scope)
      (due : s.flushed.roundReady = true) : Next s .receive (s.met c model)
  /-- A message is taken, and a round is refused. -/
  | refuse (m : Message α WorkerId) (c : Coordinator α WorkerId) (cause : AggregationError α)
      (replies : List (Reply α WorkerId)) (head : s.queue = [m])
      (average : s.session.coordinator.average s.flushed = .error cause)
      (due : s.flushed.roundReady = true) :
      Next s .receive
        (({ s with session := ⟨c, .failed cause⟩, queue := [] } : System α).deliverAll replies)
  /-- A worker that has finished is joined. -/
  | leave (w : WorkerId) (seat : Seat α) (loss : α) (hseat : s.seat? w = some seat)
      (active : s.failure = none) (fresh : seat.joined = false)
      (point : seat.worker.point = .finished loss) :
      Next s (.join w) { s.modify w (fun seat => { seat with joined := true }) with
        bank := s.bank.restore w seat.worker.learner.optimizer }
  /-- A worker that has failed is joined. -/
  | lose (w : WorkerId) (seat : Seat α) (cause : FederatedError α)
      (hseat : s.seat? w = some seat) (active : s.failure = none) (fresh : seat.joined = false)
      (point : seat.worker.point = .failed cause) :
      Next s (.join w) { s.modify w (fun seat => { seat with joined := true }) with
        stopped := true
        failure := some cause }
  /-- The stop signal is given. -/
  | stop (all : s.allJoined = true) (running : s.stopped = false) :
      Next s .stop { s with stopped := true }
  /-- The stop signal is taken. -/
  | conclude (session : Session α WorkerId) (replies : List (Reply α WorkerId))
      (stopped : s.stopped = true)
      (stop : Session.Stop s.session.coordinator s.queue session replies) :
      Next s .conclude
        (({ s with session, queue := [] } : System α).deliverAll replies)

section
variable {s s' : System α}

theorem Steady.session_eq (h : s.Steady) : s.session = ⟨s.session.coordinator, .serving⟩ := by
  rw [← h.serving]

theorem Steady.next_act (h : s.Steady) {w : WorkerId} (hs : s.step? (.act w) = some s') :
    Next s (.act w) s' := by
  obtain ⟨active, seat, hseat, hacted⟩ := acted_of_step? hs
  cases hacted with
  | read answer waits mail =>
    -- what lies at the seat of a waiting worker is a model that fits
    rcases h.mail w seat answer hseat mail with hend | ⟨-, model, rfl, fits⟩
    · rw [Worker.isWaiting_of_hasEnded hend] at waits
      cases waits
    · exact .read w seat model hseat active waits mail fits
  | silent moved awake step =>
    have hmove := Next.move (s := s) w seat moved none hseat active awake step
    simpa [modify] using hmove
  | send moved m awake step =>
    have hmove := Next.move (s := s) w seat moved (some m) hseat active awake step
    -- the coordinator still serves, so the message is queued
    have hserving : s.session.isServing = true := Session.isServing_iff.2 h.serving
    simpa [dispatch, hserving] using hmove

theorem Steady.next_receive (h : s.Steady) (hs : s.step? .receive = some s') :
    Next s .receive s' := by
  simp only [step?, h.serving] at hs
  split at hs
  · next m queue _ hq =>
    have horderly := h.orderly
    rw [hq] at horderly
    -- the sender trains, so the message itself is answered with nothing
    have hsilent := horderly.take_snd
    have hturn := Session.receive_turn h.published m
    rw [h.session_eq] at hs
    cases hs
    generalize (Session.receive ⟨s.session.coordinator, .serving⟩ m).1 = session at hturn ⊢
    generalize (Session.receive ⟨s.session.coordinator, .serving⟩ m).2 = replies at hturn ⊢
    cases hturn with
    | quiet c hb hw hs due =>
      have habsorb := Next.absorb m queue c hq hb hw hs due
      rw [show (s.session.coordinator.barrier.take m).2 = [] from hsilent]
      exact habsorb
    | merged c model average hb hw hs due =>
      -- nobody trains any more, so no message is behind this one
      obtain rfl := horderly.2.eq_nil_of_due due
      have hflushed := s.flushed_of_last hq
      rw [show s.session.coordinator.barrier.take m = s.barrier.take m from rfl] at *
      rw [← hflushed] at average hb due
      have hmeet := Next.meet m c model hq average hb hw hs due
      rw [hsilent, ← hflushed]
      exact hmeet
    | refused c cause average hb hw hs due =>
      obtain rfl := horderly.2.eq_nil_of_due due
      have hflushed := s.flushed_of_last hq
      rw [show s.session.coordinator.barrier.take m = s.barrier.take m from rfl] at average due
      rw [← hflushed] at average due
      exact .refuse m c cause _ hq average due
  · cases hs

theorem next_join {w : WorkerId} (hs : s.step? (.join w) = some s') : Next s (.join w) s' := by
  obtain ⟨active, seat, hseat, fresh, hjoined⟩ := joined_of_step? hs
  cases hjoined with
  | finished loss point => exact .leave w seat loss hseat active fresh point
  | failed cause point => exact .lose w seat cause hseat active fresh point

theorem Steady.next_conclude (h : s.Steady) (hs : s.step? .conclude = some s') :
    Next s .conclude s' := by
  simp only [step?, h.serving] at hs
  split at hs
  · next stopped =>
    have hstop := Session.conclude_stop h.published s.queue
    rw [h.session_eq] at hs
    cases hs
    generalize (Session.conclude ⟨s.session.coordinator, .serving⟩ s.queue).1 = session at hstop ⊢
    generalize (Session.conclude ⟨s.session.coordinator, .serving⟩ s.queue).2 = replies at hstop ⊢
    -- however it ends, the run takes no message after the stop signal
    have hserving : session.isServing = false := by
      cases hstop <;> rfl
    have hconclude := Next.conclude session replies stopped hstop
    simpa [withSession, hserving] using hconclude
  · cases hs

/-- Every step of a steady state is one of those. -/
theorem Steady.next (h : s.Steady) {choice : Choice} (hs : s.step? choice = some s') :
    Next s choice s' := by
  cases choice with
  | act w => exact h.next_act hs
  | receive => exact h.next_receive hs
  | join w => exact next_join hs
  | stop =>
    simp only [step?] at hs
    split at hs
    · next hstop =>
      cases hs
      rw [Bool.and_eq_true, Bool.not_eq_true'] at hstop
      exact .stop hstop.1 hstop.2
    · cases hs
  | conclude => exact h.next_conclude hs

end

/-! ## What a steady state says -/

omit [Scalar α] in
theorem allJoined_iff {s : System α} :
    s.allJoined = true ↔ ∀ w seat, s.seat? w = some seat → seat.joined = true := by
  unfold allJoined
  rw [Array.all_eq_true']
  constructor
  · intro h w seat hseat
    exact h seat (Array.mem_of_getElem? hseat)
  · intro h seat hmem
    obtain ⟨i, hi, rfl⟩ := Array.mem_iff_getElem.1 hmem
    exact h ⟨i⟩ _ (Array.getElem?_eq_getElem hi)

/-- A seated worker has a record. -/
theorem Steady.record_of_seat {s : System α} (h : s.Steady) {w : WorkerId} {seat : Seat α}
    (hseat : s.seat? w = some seat) : ∃ r, s.flushed.record? w = some r := by
  have hlt : w.index < s.seats.size := (Array.getElem?_eq_some_iff.1 hseat).1
  have hsize : s.flushed.records.size = s.seats.size :=
    (Barrier.size_absorbAll s.barrier s.queue).trans h.size
  exact ⟨_, Array.getElem?_eq_getElem (hsize ▸ hlt)⟩

/-- A record belongs to a seated worker. -/
theorem Steady.seat_of_record {s : System α} (h : s.Steady) {w : WorkerId}
    {r : Record α WorkerId} (hr : s.flushed.record? w = some r) :
    ∃ seat, s.seat? w = some seat := by
  have hlt : w.index < s.flushed.records.size := (Array.getElem?_eq_some_iff.1 hr).1
  have hsize : s.flushed.records.size = s.seats.size :=
    (Barrier.size_absorbAll s.barrier s.queue).trans h.size
  exact ⟨_, Array.getElem?_eq_getElem (hsize ▸ hlt)⟩

/-- A worker that has ended reads no answer. -/
theorem current_of_hasEnded {seat : Seat α} (h : seat.worker.hasEnded = true) :
    seat.current = seat.worker :=
  Seat.current_of_not_waiting (Worker.isWaiting_of_hasEnded h)

/-- A worker that still waits once it has read what lies there has nothing to read. -/
theorem Steady.mail_of_waiting {s : System α} (h : s.Steady) {w : WorkerId} {seat : Seat α}
    (hseat : s.seat? w = some seat) (hp : seat.current.point = .waiting) :
    seat.mail = none ∧ seat.worker.point = .waiting := by
  cases hm : seat.mail with
  | none => exact ⟨rfl, by rwa [Seat.current_of_no_mail hm] at hp⟩
  | some answer =>
    rcases h.mail w seat answer hseat hm with hend | ⟨hw, model, rfl, fits⟩
    · rw [current_of_hasEnded hend] at hp
      simp [Worker.hasEnded, hp] at hend
    · -- a worker that has read its answer trains
      rw [Seat.current_of_mail hw hm, Worker.resume_merged fits] at hp
      cases hp

/-- A worker has ended once it has read what lies there only if it had ended before. -/
theorem Steady.ended_of_current {s : System α} (h : s.Steady) {w : WorkerId} {seat : Seat α}
    (hseat : s.seat? w = some seat) (he : seat.current.hasEnded = true) :
    seat.worker.hasEnded = true := by
  cases hm : seat.mail with
  | none => rwa [Seat.current_of_no_mail hm] at he
  | some answer =>
    rcases h.mail w seat answer hseat hm with hend | ⟨hw, model, rfl, fits⟩
    · exact hend
    · rw [Seat.current_of_mail hw hm, Worker.resume_merged fits] at he
      cases he

/-- A worker that is awake has nothing to read, or has ended. -/
theorem Steady.mail_of_step {s : System α} (h : s.Steady) {w : WorkerId} {seat : Seat α}
    (hseat : s.seat? w = some seat) {moved : Worker α} {m : Option (Message α WorkerId)}
    (step : seat.worker.Step moved m) : seat.mail = none := by
  cases hm : seat.mail with
  | none => rfl
  | some answer =>
    obtain ⟨hwaits, hends⟩ := step.awake
    rcases h.mail w seat answer hseat hm with hend | ⟨hw, -⟩
    · rw [hends] at hend
      cases hend
    · rw [hwaits] at hw
      cases hw

/-- What lies at a seat does not change whose it is. -/
theorem Steady.current_id {s : System α} (h : s.Steady) {w : WorkerId} {seat : Seat α}
    (hseat : s.seat? w = some seat) : seat.current.id = w := by
  cases hm : seat.mail with
  | none =>
    rw [Seat.current_of_no_mail hm]
    exact h.ids w seat hseat
  | some answer =>
    rcases h.mail w seat answer hseat hm with hend | ⟨hw, model, rfl, fits⟩
    · rw [current_of_hasEnded hend]
      exact h.ids w seat hseat
    · rw [Seat.current_of_mail hw hm, Worker.resume_merged fits]
      exact h.ids w seat hseat

/-- Once a round is due, every worker waits with nothing to read, or has ended. -/
theorem Steady.stands {s : System α} (h : s.Steady) (due : s.flushed.roundReady = true)
    {w : WorkerId} {seat : Seat α} (hseat : s.seat? w = some seat) :
    (seat.mail = none ∧ seat.worker.point = .waiting) ∨ seat.worker.hasEnded = true := by
  obtain ⟨r, hr⟩ := h.record_of_seat hseat
  have hnot := (Barrier.roundReady_iff.1 due).2 w r hr
  rcases Lane.stands_of_agrees (h.agrees w seat r hseat hr) hnot with hwait | hend
  · exact .inl (h.mail_of_waiting hseat hwait)
  · exact .inr (h.ended_of_current hseat hend)

/-- A round answers exactly the workers whose record waits, each under its own number. -/
theorem Steady.mem_answered {s : System α} (h : s.Steady) {model : Params α} {w : WorkerId} :
    w ∈ (s.flushed.answers model).map (·.ticket) ↔
      ∃ r, s.flushed.record? w = some r ∧ r.status = .waiting w := by
  unfold Barrier.answers
  rw [List.map_map, List.mem_map]
  constructor
  · rintro ⟨⟨v, t⟩, hmem, rfl⟩
    obtain ⟨r, hr, hs⟩ := Barrier.mem_waiting.1 hmem
    obtain ⟨seat, hseat⟩ := h.seat_of_record hr
    -- the ticket of a worker's record is the worker's number
    have ht := Lane.ticket_eq (h.agrees v seat r hseat hr) hs
    rw [show (⟨seat.current, r⟩ : Lane α).worker.id = v from h.current_id hseat] at ht
    subst ht
    exact ⟨r, hr, hs⟩
  · rintro ⟨r, hr, hs⟩
    exact ⟨(w, w), Barrier.mem_waiting.2 ⟨r, hr, hs⟩, rfl⟩

end System

end Federated
