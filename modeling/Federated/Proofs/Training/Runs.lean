/-
  Federated.Proofs.Training.Runs

  What a run does, step by step: to one seat, and to a whole state.

    * `Next.turned` — what a step does to one seat.
    * `Steady.run_induction` — what every step keeps, a run keeps.
    * `Fresh.steady` — the invariant holds at the start.
-/
import Federated.Proofs.Training.Preserved

namespace Federated

variable {α : Type} [Scalar α]

namespace System

/-! ## One seat -/

/-- What a step of a steady state does to one seat. -/
inductive Turned (choice : Choice) (w : WorkerId) (seat : Seat α) : Seat α → Prop
  /-- The worker stays where it is, whatever is laid on its seat. -/
  | keep (mail : Option (Answer α)) : Turned choice w seat { seat with mail }
  /-- The worker reads its answer. -/
  | read (model : Params α) (hc : choice = .act w) (waits : seat.worker.isWaiting = true)
      (mail : seat.mail = some (.merged model))
      (fits : seat.worker.learner.model.params.layout = model.layout) :
      Turned choice w seat { seat with worker := seat.worker.resume (.merged model), mail := none }
  /-- The worker takes a step. -/
  | move (moved : Worker α) (m : Option (Message α WorkerId)) (hc : choice = .act w)
      (step : seat.worker.Step moved m) : Turned choice w seat { seat with worker := moved }
  /-- The worker is joined. -/
  | join (hc : choice = .join w) (ended : seat.worker.hasEnded = true) :
      Turned choice w seat { seat with joined := true }

omit [Scalar α] in
theorem seat_of_deliverAll {s : System α} {rs : List (Reply α WorkerId)} {w : WorkerId}
    {seat' : Seat α} (h : (s.deliverAll rs).seat? w = some seat') :
    ∃ seat mail, s.seat? w = some seat ∧ seat' = { seat with mail } := by
  obtain ⟨seat, hseat, hworker, hjoined⟩ := worker_deliverAll h
  refine ⟨seat, seat'.mail, hseat, ?_⟩
  rw [← hworker, ← hjoined]

/-- Every seat is turned in one of those ways. -/
theorem Next.turned {s s' : System α} {choice : Choice} (hn : Next s choice s') {w : WorkerId}
    {seat' : Seat α} (hseat' : s'.seat? w = some seat') :
    ∃ seat, s.seat? w = some seat ∧ Turned choice w seat seat' := by
  -- where one seat is changed, that of another worker stays as it is
  have hmodify : ∀ {v : WorkerId} {seat : Seat α} {f : Seat α → Seat α},
      s.seat? v = some seat → (w = v → Turned choice w seat (f seat)) →
      (s.modify v f).seat? w = some seat' →
      ∃ seat, s.seat? w = some seat ∧ Turned choice w seat seat' := by
    intro v seat f hseat hturned hlook
    by_cases hv : v = w
    · subst hv
      cases hlook.symm.trans (seat?_modify_self hseat f)
      exact ⟨seat, hseat, hturned rfl⟩
    · rw [seat?_modify_ne s hv] at hlook
      exact ⟨seat', hlook, .keep seat'.mail⟩
  -- answers are laid on seats, and move nobody
  have hdeliver : ∀ {session : Session α WorkerId} {rs : List (Reply α WorkerId)},
      (({ s with session, queue := [] } : System α).deliverAll rs).seat? w = some seat' →
      ∃ seat, s.seat? w = some seat ∧ Turned choice w seat seat' := by
    intro _ _ hlook
    obtain ⟨seat, mail, hseat, rfl⟩ := seat_of_deliverAll hlook
    exact ⟨seat, hseat, .keep mail⟩
  cases hn with
  | read v seat model hseat active waits mail fits =>
    refine hmodify hseat (fun hv => ?_) hseat'
    subst hv
    exact .read model rfl waits mail fits
  | move v seat moved m hseat active awake step =>
    refine hmodify hseat (fun hv => ?_) hseat'
    subst hv
    exact .move moved m rfl step
  | absorb m queue c head hb hw hs due => exact ⟨seat', hseat', .keep seat'.mail⟩
  | meet m c model head average hb hw hs due => exact hdeliver hseat'
  | refuse m c cause replies head average due => exact hdeliver hseat'
  | leave v seat loss hseat active fresh point =>
    refine hmodify hseat (fun hv => ?_) hseat'
    subst hv
    exact .join rfl (by simp [Worker.hasEnded, point])
  | lose v seat cause hseat active fresh point =>
    refine hmodify hseat (fun hv => ?_) hseat'
    subst hv
    exact .join rfl (by simp [Worker.hasEnded, point])
  | stop all running => exact ⟨seat', hseat', .keep seat'.mail⟩
  | conclude session replies stopped stop => exact hdeliver hseat'

/-- A turn leaves every worker its policy and its batches. -/
theorem Turned.kept {choice : Choice} {w : WorkerId} {seat seat' : Seat α}
    (h : Turned choice w seat seat') :
    seat'.worker.policy = seat.worker.policy ∧ seat'.worker.total = seat.worker.total := by
  cases h with
  | keep mail => exact ⟨rfl, rfl⟩
  | read model hc waits mail fits =>
    rw [Worker.resume_merged fits]
    exact ⟨rfl, rfl⟩
  | move moved m hc step => exact ⟨step.policy_eq, step.total_eq⟩
  | join hc ended => exact ⟨rfl, rfl⟩

theorem Next.size_eq {s s' : System α} {choice : Choice} (hn : Next s choice s') :
    s'.seats.size = s.seats.size := by
  cases hn with
  | read | move | leave | lose => simp [modify]
  | absorb | stop => rfl
  | meet m c model => exact (deliverAll_frame _ _).2.2.2.2.2
  | refuse m c cause replies => exact (deliverAll_frame _ replies).2.2.2.2.2
  | conclude session replies => exact (deliverAll_frame _ replies).2.2.2.2.2

/-- No seat is lost. -/
theorem Next.seated {s s' : System α} {choice : Choice} (hn : Next s choice s') {w : WorkerId}
    {seat : Seat α} (hseat : s.seat? w = some seat) :
    ∃ seat', s'.seat? w = some seat' ∧ Turned choice w seat seat' := by
  have hlt : w.index < s'.seats.size := by
    rw [hn.size_eq]
    exact (Array.getElem?_eq_some_iff.1 hseat).1
  have hseat' : s'.seat? w = some s'.seats[w.index] := Array.getElem?_eq_getElem hlt
  obtain ⟨seat₁, hseat₁, hturned⟩ := hn.turned hseat'
  cases hseat.symm.trans hseat₁
  exact ⟨_, hseat', hturned⟩

/-- A worker that has ended moves no more. -/
theorem Turned.worker_eq {choice : Choice} {w : WorkerId} {seat seat' : Seat α}
    (h : Turned choice w seat seat') (he : seat.worker.hasEnded = true) :
    seat'.worker = seat.worker := by
  cases h with
  | keep mail => rfl
  | read model hc waits mail fits =>
    rw [Worker.isWaiting_of_hasEnded he] at waits
    cases waits
  | move moved m hc step =>
    rw [step.awake.2] at he
    cases he
  | join hc ended => rfl

/-- Only the records and the merged model of a serving coordinator change. -/
theorem Next.merging {s s' : System α} {choice : Choice} (hn : Next s choice s')
    (hserving : s'.session.stage = .serving) :
    s'.session.coordinator.weights = s.session.coordinator.weights ∧
      s'.session.coordinator.scope = s.session.coordinator.scope := by
  cases hn with
  | read w seat model hseat active waits mail fits => exact ⟨rfl, rfl⟩
  | move w seat moved m hseat active awake step => exact ⟨rfl, rfl⟩
  | absorb m queue c head hb hw hs due => exact ⟨hw, hs⟩
  | meet m c model head average hb hw hs due =>
    rw [(s.met_frame hb).1]
    exact ⟨hw, hs⟩
  | refuse m c cause replies head average due =>
    rw [(deliverAll_frame _ replies).2.1] at hserving
    cases hserving
  | leave w seat loss hseat active fresh point => exact ⟨rfl, rfl⟩
  | lose w seat cause hseat active fresh point => exact ⟨rfl, rfl⟩
  | stop all running => exact ⟨rfl, rfl⟩
  | conclude session replies stopped stop =>
    rw [(deliverAll_frame _ replies).2.1] at hserving
    cases stop <;> cases hserving

/-! ## Runs -/

theorem run?_cons (s : System α) (choice : Choice) (choices : List Choice) :
    s.run? (choice :: choices) = (s.step? choice).bind (·.run? choices) := rfl

/-- A coordinator that serves has served before. -/
theorem serving_of_step {s s' : System α} {choice : Choice} (h : s.step? choice = some s')
    (hserving : s'.session.stage = .serving) : s.session.stage = .serving := by
  cases choice with
  | act w =>
    obtain ⟨-, seat, -, hacted⟩ := acted_of_step? h
    cases hacted with
    | read answer waits mail => exact hserving
    | silent moved awake step => exact hserving
    | send moved m awake step =>
      -- sending a message leaves the coordinator alone
      unfold dispatch at hserving
      split at hserving <;> exact hserving
  | receive =>
    simp only [step?] at h
    split at h
    · next hs _ => exact hs
    · cases h
  | join w =>
    obtain ⟨-, seat, -, -, hjoined⟩ := joined_of_step? h
    cases hjoined <;> exact hserving
  | stop =>
    simp only [step?] at h
    split at h
    · cases h
      exact hserving
    · cases h
  | conclude =>
    simp only [step?] at h
    split at h
    · next hs => exact hs
    · cases h

theorem serving_of_run {s s' : System α} {choices : List Choice}
    (h : s.run? choices = some s') (hserving : s'.session.stage = .serving) :
    s.session.stage = .serving := by
  induction choices generalizing s with
  | nil =>
    cases h
    exact hserving
  | cons choice choices ih =>
    rw [run?_cons] at h
    obtain ⟨s₁, hstep, hrest⟩ := Option.bind_eq_some_iff.1 h
    exact serving_of_step hstep (ih hrest)

/-- What every step of a steady state keeps as long as the coordinator serves holds at the end
    of every run in which it does. The invariant may speak of the choices still to come. -/
theorem Steady.run_induction {P : System α → List Choice → Prop} {s s' : System α}
    {choices : List Choice} (h : s.Steady) (hP : P s choices) (hrun : s.run? choices = some s')
    (hserving : s'.session.stage = .serving)
    (hstep : ∀ s₁ s₂ choice rest, s₁.Steady → P s₁ (choice :: rest) →
      s₁.step? choice = some s₂ → Next s₁ choice s₂ → P s₂ rest) :
    s'.Steady ∧ P s' [] := by
  induction choices generalizing s with
  | nil =>
    cases hrun
    exact ⟨h, hP⟩
  | cons choice choices ih =>
    rw [run?_cons] at hrun
    obtain ⟨s₁, hfirst, hrest⟩ := Option.bind_eq_some_iff.1 hrun
    have hnext := h.next hfirst
    -- the invariant is kept because the coordinator still serves at the end
    have h₁ := h.preserved hnext (serving_of_run hrest hserving)
    exact ih h₁ (hstep s s₁ choice choices h hP hfirst hnext) hrest

/-- Workers before their first batch, a coordinator that knows exactly them, and an empty queue.
    Their waits, one by one, can be timed or not; all else may differ from worker to worker too. -/
structure Fresh (timed : WorkerId → Nat → Bool) (s : System α) : Prop where
  serving : s.session.stage = .serving
  barrier : ∃ totals : List Nat, s.barrier = Barrier.ofTotals totals ∧
    totals.length = s.seats.size
  empty : s.queue = []
  seats : ∀ w seat, s.seat? w = some seat → ∃ learner spec policy batches,
    policy.timed = timed ∧ seat = ⟨Worker.start w learner spec policy batches, none, false⟩
  running : s.stopped = false
  active : s.failure = none

/-- The invariant holds at the start. -/
theorem Fresh.steady {timed : WorkerId → Nat → Bool} {s : System α} (h : s.Fresh timed) :
    s.Steady := by
  obtain ⟨totals, hbarrier, hlength⟩ := h.barrier
  have hrecord : ∀ w r, s.barrier.record? w = some r → r.status = .training := by
    intro w r hr
    rw [hbarrier] at hr
    obtain ⟨total, rfl⟩ := Barrier.record?_ofTotals hr
    rfl
  have hflushed := flushed_of_empty h.empty
  refine ⟨h.serving, ?size, ?published, ?orderly, ?quiet, ?ids, ?agrees, ?drift, ?mail, ?joined,
    ?halted, ?failed⟩
  case size =>
    rw [hbarrier, ← hlength]
    simp [Barrier.ofTotals, Barrier.size]
  case published =>
    rw [hbarrier]
    exact Barrier.published_ofTotals totals
  case orderly =>
    rw [h.empty]
    trivial
  case quiet =>
    rw [← Bool.not_eq_true]
    intro due
    obtain ⟨⟨w, r, hr, hw⟩, -⟩ := Barrier.roundReady_iff.1 due
    rw [hrecord w r hr] at hw
    cases hw
  case ids =>
    intro w seat hseat
    obtain ⟨learner, spec, policy, batches, -, rfl⟩ := h.seats w seat hseat
    rfl
  case agrees =>
    intro w seat r hseat hr
    obtain ⟨learner, spec, policy, batches, -, rfl⟩ := h.seats w seat hseat
    rw [hflushed] at hr
    exact hrecord w r hr
  case drift =>
    intro w seat hseat
    obtain ⟨learner, spec, policy, batches, -, rfl⟩ := h.seats w seat hseat
    rw [hbarrier]
    exact Worker.drift_start w learner spec policy batches
  case mail =>
    intro w seat answer hseat hm
    obtain ⟨learner, spec, policy, batches, -, rfl⟩ := h.seats w seat hseat
    cases hm
  case joined =>
    intro w seat hseat hj
    obtain ⟨learner, spec, policy, batches, -, rfl⟩ := h.seats w seat hseat
    cases hj
  case halted =>
    intro hst
    rw [h.running] at hst
    cases hst
  case failed =>
    intro hf
    rw [h.active] at hf
    cases hf

end System

end Federated
