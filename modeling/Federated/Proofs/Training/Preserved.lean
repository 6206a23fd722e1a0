/-
  Federated.Proofs.Training.Preserved

  The invariant of `Steady` holds on as long as the coordinator serves.

    * `Steady.of_move` — a worker's step, and the message it sends.
    * `Steady.of_absorb` — a message that is taken with no round due.
    * `Steady.of_meet` — a round: those that wait are released, and all others have ended.
    * `Steady.preserved` — all steps.
-/
import Federated.Proofs.Training.Steady

namespace Federated

variable {α : Type} [Scalar α]

namespace System

/-! ## Single steps -/

/-- Steps that leave coordinator and queue alone, and every worker where it is once it has read
    its answer. -/
theorem Steady.of_same {s s' : System α} (h : s.Steady) (hsession : s'.session = s.session)
    (hqueue : s'.queue = s.queue) (hsize : s'.seats.size = s.seats.size)
    (hseats : ∀ w seat', s'.seat? w = some seat' → ∃ seat, s.seat? w = some seat ∧
      seat'.current = seat.current ∧ seat'.worker.id = seat.worker.id ∧
      (seat'.mail = none ∨ seat'.mail = seat.mail ∧ seat'.worker = seat.worker) ∧
      (seat.joined = true → seat'.joined = true) ∧
      (seat'.joined = true → seat'.worker.hasEnded = true))
    (hstopped : s'.stopped = true → s.stopped = true ∧ s'.failure = s.failure ∨
      s'.failure.isSome = true ∨ s.allJoined = true)
    (hfailed : s'.failure.isSome = true → s'.stopped = true) : s'.Steady := by
  have hall : s.allJoined = true → s'.allJoined = true := by
    intro hall
    refine allJoined_iff.2 fun w seat' hseat' => ?_
    obtain ⟨seat, hseat, -, -, -, hj, -⟩ := hseats w seat' hseat'
    exact hj (allJoined_iff.1 hall w seat hseat)
  have halted : s'.stopped = true → s'.failure.isSome = true ∨ s'.allJoined = true := by
    intro hst
    rcases hstopped hst with ⟨hst', hfailure⟩ | hfailed | hjoined
    · rw [hfailure]
      exact (h.halted hst').imp_right hall
    · exact .inl hfailed
    · exact .inr (hall hjoined)
  -- the barrier sees none of it
  have hbarrier : s'.barrier = s.barrier := by
    unfold barrier
    rw [hsession]
  have hflushed : s'.flushed = s.flushed := by
    unfold flushed
    rw [hbarrier, hqueue]
  refine ⟨?serving, ?size, ?published, ?orderly, ?quiet, ?ids, ?agrees, ?drift, ?mail, ?joined,
    halted, hfailed⟩
  case serving =>
    rw [hsession]
    exact h.serving
  case size =>
    rw [hbarrier, hsize]
    exact h.size
  case published =>
    rw [hbarrier]
    exact h.published
  case orderly =>
    rw [hbarrier, hqueue]
    exact h.orderly
  case quiet =>
    rw [hbarrier]
    exact h.quiet
  case ids =>
    intro w seat' hseat'
    obtain ⟨seat, hseat, -, hid, -⟩ := hseats w seat' hseat'
    rw [hid]
    exact h.ids w seat hseat
  case agrees =>
    intro w seat' r hseat' hr
    obtain ⟨seat, hseat, hcurrent, -⟩ := hseats w seat' hseat'
    rw [hflushed] at hr
    rw [hcurrent]
    exact h.agrees w seat r hseat hr
  case drift =>
    intro w seat' hseat'
    obtain ⟨seat, hseat, hcurrent, -⟩ := hseats w seat' hseat'
    rw [hcurrent, hbarrier]
    exact h.drift w seat hseat
  case mail =>
    intro w seat' answer hseat' hmail
    obtain ⟨seat, hseat, -, -, hnone | ⟨hsame, hworker⟩, -, -⟩ := hseats w seat' hseat'
    · rw [hnone] at hmail
      cases hmail
    · rw [hworker]
      exact h.mail w seat answer hseat (hsame ▸ hmail)
  case joined =>
    intro w seat' hseat' hj
    obtain ⟨seat, hseat, -, -, -, -, hended⟩ := hseats w seat' hseat'
    exact hended hj

/-- Marking a worker as joined. -/
theorem Steady.of_join {s s' : System α} (h : s.Steady) {w : WorkerId} {seat : Seat α}
    (hseat : s.seat? w = some seat) (ended : seat.worker.hasEnded = true)
    (hsession : s'.session = s.session) (hqueue : s'.queue = s.queue)
    (hseats : s'.seats = (s.modify w fun seat => { seat with joined := true }).seats)
    (hstopped : s'.stopped = true → s.stopped = true ∧ s'.failure = s.failure ∨
      s'.failure.isSome = true ∨ s.allJoined = true)
    (hfailed : s'.failure.isSome = true → s'.stopped = true) : s'.Steady := by
  have hlook : ∀ v, s'.seat? v =
      (s.modify w fun seat => { seat with joined := true }).seat? v := by
    intro v
    unfold seat?
    rw [hseats]
  -- a seat's mark moves no worker
  refine h.of_same hsession hqueue (by simp [hseats, modify]) ?_ hstopped hfailed
  intro v seat' hseat'
  rw [hlook] at hseat'
  by_cases hv : w = v
  · subst hv
    rw [seat?_modify_self hseat] at hseat'
    cases hseat'
    exact ⟨seat, hseat, rfl, rfl, .inr ⟨rfl, rfl⟩, fun _ => rfl, fun _ => ended⟩
  · rw [seat?_modify_ne s hv] at hseat'
    exact ⟨seat', hseat', rfl, rfl, .inr ⟨rfl, rfl⟩, id, h.joined v seat' hseat'⟩

omit [Scalar α] in
/-- A message sent will change the record of its sender, -/
theorem record?_send_self {s : System α} {w : WorkerId} {m : Option (Message α WorkerId)}
    {r : Record α WorkerId} (hw : ∀ msg, m = some msg → msg.worker = w)
    (hr : s.flushed.record? w = some r) :
    (s.barrier.absorbAll (s.queue ++ m.toList)).record? w = some (r.absorbAny m) := by
  rw [Barrier.absorbAll_append]
  cases m with
  | none => exact hr
  | some msg => exact Barrier.record?_take_self hr (hw msg rfl)

omit [Scalar α] in
/-- and no other one. -/
theorem record?_send_ne {s : System α} {w v : WorkerId} {m : Option (Message α WorkerId)}
    (hw : ∀ msg, m = some msg → msg.worker = w) (hv : v ≠ w) :
    (s.barrier.absorbAll (s.queue ++ m.toList)).record? v = s.flushed.record? v := by
  rw [Barrier.absorbAll_append]
  cases m with
  | none => rfl
  | some msg => exact Barrier.record?_take_ne (by rw [hw msg rfl]; exact fun h => hv h.symm)

omit [Scalar α] in
/-- Where one seat is changed, a seat is that one, or what it was. -/
theorem seat_of_modify {s : System α} {w v : WorkerId} {seat seat' : Seat α}
    {f : Seat α → Seat α} (hseat : s.seat? w = some seat)
    (hseat' : (s.modify w f).seat? v = some seat') :
    (v = w ∧ seat' = f seat) ∨ (v ≠ w ∧ s.seat? v = some seat') := by
  by_cases hv : w = v
  · subst hv
    exact .inl ⟨rfl, Option.some.inj (hseat'.symm.trans (seat?_modify_self hseat f))⟩
  · exact .inr ⟨fun h => hv h.symm, (seat?_modify_ne s hv f).symm.trans hseat'⟩

/-- Who can take a step has not been joined. -/
theorem Steady.not_joined_of_step {s : System α} (h : s.Steady) {w : WorkerId} {seat : Seat α}
    (hseat : s.seat? w = some seat) {moved : Worker α} {m : Option (Message α WorkerId)}
    (step : seat.worker.Step moved m) : seat.joined = false := by
  rw [← Bool.not_eq_true]
  intro hj
  have hend := h.joined w seat hseat hj
  rw [step.awake.2] at hend
  cases hend

/-- A step of a worker, and the message it sends. -/
theorem Steady.of_move {s : System α} (h : s.Steady) {w : WorkerId} {seat : Seat α}
    {moved : Worker α} {m : Option (Message α WorkerId)} (hseat : s.seat? w = some seat)
    (active : s.failure = none) (step : seat.worker.Step moved m) :
    ({ s.modify w (fun seat => { seat with worker := moved }) with
      queue := s.queue ++ m.toList } : System α).Steady := by
  -- the worker is awake, so nothing lies unread at its seat before or after
  have hmail := h.mail_of_step hseat step
  have hcurrent : seat.current = seat.worker := Seat.current_of_no_mail hmail
  have hmoved : ({ seat with worker := moved } : Seat α).current = moved :=
    Seat.current_of_no_mail hmail
  have hrunning : seat.joined = false := h.not_joined_of_step hseat step
  obtain ⟨r, hr⟩ := h.record_of_seat hseat
  have hagrees := h.agrees w seat r hseat hr
  rw [hcurrent] at hagrees
  -- all other seats are what they were
  have hseats : ∀ v seat', ({ s.modify w (fun seat => { seat with worker := moved }) with
      queue := s.queue ++ m.toList } : System α).seat? v = some seat' →
      (v = w ∧ seat' = { seat with worker := moved }) ∨ (v ≠ w ∧ s.seat? v = some seat') :=
    fun v seat' => seat_of_modify hseat
  have hworker : ∀ msg, m = some msg → msg.worker = w := fun msg hm =>
    (step.worker_eq hm).trans (h.ids w seat hseat)
  have hself := record?_send_self hworker hr
  have hothers := fun v => record?_send_ne (s := s) (v := v) hworker
  refine ⟨h.serving, ?size, h.published, ?orderly, h.quiet, ?ids, ?agrees, ?drift, ?mail, ?joined,
    ?halted, h.failed⟩
  case size =>
    exact h.size.trans (by simp [modify])
  case orderly =>
    show s.barrier.Orderly (s.queue ++ m.toList)
    cases m with
    | none => simpa using h.orderly
    | some msg =>
      -- with all messages before it taken, the sender's record trains
      refine Barrier.orderly_append h.orderly (r := r) ?_ (Lane.training_of_step hagrees step)
      rw [hworker msg rfl]
      exact hr
  case ids =>
    intro v seat' hseat'
    rcases hseats v seat' hseat' with ⟨rfl, rfl⟩ | ⟨-, hold⟩
    · exact step.id_eq.trans (h.ids _ seat hseat)
    · exact h.ids v seat' hold
  case agrees =>
    intro v seat' r' hseat' hr'
    rcases hseats v seat' hseat' with ⟨rfl, rfl⟩ | ⟨hv, hold⟩
    · have hr'' : r' = r.absorbAny m := Option.some.inj (hr'.symm.trans hself)
      rw [hr'', hmoved]
      exact Lane.agrees_step hagrees step
    · exact h.agrees v seat' r' hold ((hothers v hv).symm.trans hr')
  case drift =>
    intro v seat' hseat'
    rcases hseats v seat' hseat' with ⟨rfl, rfl⟩ | ⟨-, hold⟩
    · have hdrift := h.drift _ seat hseat
      rw [hcurrent] at hdrift
      rw [hmoved]
      exact hdrift.step step
    · exact h.drift v seat' hold
  case mail =>
    intro v seat' answer hseat' hm
    rcases hseats v seat' hseat' with ⟨rfl, rfl⟩ | ⟨-, hold⟩
    · rw [show ({ seat with worker := moved } : Seat α).mail = none from hmail] at hm
      cases hm
    · exact h.mail v seat' answer hold hm
  case joined =>
    intro v seat' hseat' hj
    rcases hseats v seat' hseat' with ⟨rfl, rfl⟩ | ⟨-, hold⟩
    · rw [show ({ seat with worker := moved } : Seat α).joined = false from hrunning] at hj
      cases hj
    · exact h.joined v seat' hold hj
  case halted =>
    intro hstopped
    rcases h.halted hstopped with hfailed | hall
    · rw [active] at hfailed
      cases hfailed
    · -- a worker that can step has not been joined
      have hj := allJoined_iff.1 hall w seat hseat
      rw [hrunning] at hj
      cases hj

/-- A message that is taken with no round due. -/
theorem Steady.of_absorb {s : System α} (h : s.Steady) {m : Message α WorkerId}
    {queue : List (Message α WorkerId)} {c : Coordinator α WorkerId} (head : s.queue = m :: queue)
    (hb : c.barrier = (s.barrier.take m).1) (due : (s.barrier.take m).1.roundReady = false) :
    ({ s with session := ⟨c, .serving⟩, queue } : System α).Steady := by
  have horderly := h.orderly
  rw [head] at horderly
  -- what is absorbed now has been counted in before
  have hflushed : c.barrier.absorbAll queue = s.flushed := by
    unfold flushed
    rw [hb, head, Barrier.absorbAll_cons]
  have hrounds : c.barrier.rounds = s.barrier.rounds := by rw [hb, Barrier.take_rounds]
  refine ⟨rfl, ?size, ?published, ?orderly, ?quiet, h.ids, ?agrees, ?drift, h.mail, h.joined,
    h.halted, h.failed⟩
  case size =>
    show c.barrier.size = s.seats.size
    rw [hb, Barrier.size_take]
    exact h.size
  case published =>
    show c.barrier.Published
    rw [hb]
    exact h.published.take m
  case orderly =>
    show c.barrier.Orderly queue
    rw [hb]
    exact horderly.2
  case quiet =>
    show c.barrier.roundReady = false
    rw [hb]
    exact due
  case agrees =>
    intro w seat r hseat hr
    exact h.agrees w seat r hseat (hflushed ▸ hr)
  case drift =>
    intro w seat hseat
    show seat.current.Drift c.barrier.rounds
    rw [hrounds]
    exact h.drift w seat hseat

/-! ## Rounds -/

omit [Scalar α] in
/-- What a round changes outside the seats. -/
theorem met_frame (s : System α) {c : Coordinator α WorkerId} {model : Params α}
    (hb : c.barrier = s.flushed.adopt model) :
    (s.met c model).session = ⟨c, .serving⟩ ∧ (s.met c model).queue = [] ∧
      (s.met c model).barrier = s.flushed.adopt model ∧
      (s.met c model).flushed = s.flushed.adopt model := by
  obtain ⟨hqueue, hsession, -⟩ := deliverAll_frame
    ({ s with session := ⟨c, .serving⟩, queue := [] } : System α) (s.flushed.answers model)
  have hbarrier : (s.met c model).barrier = s.flushed.adopt model := by
    unfold barrier met
    rw [hsession]
    exact hb
  exact ⟨hsession, hqueue, hbarrier, (flushed_of_empty hqueue).trans hbarrier⟩

omit [Scalar α] in
/-- A round lays the merged model on the seats of those it answers. -/
theorem seat?_met (s : System α) (c : Coordinator α WorkerId) (model : Params α)
    (w : WorkerId) : (s.met c model).seat? w = (s.seat? w).map fun seat =>
      if w ∈ (s.flushed.answers model).map (·.ticket) then
        { seat with mail := some (.merged model) } else seat := by
  have hanswers : ∀ r ∈ s.flushed.answers model, r.answer = .merged model := by
    intro r hr
    obtain ⟨e, -, rfl⟩ := List.mem_map.1 hr
    rfl
  exact seat?_deliverAll (s := { s with session := ⟨c, .serving⟩, queue := [] }) hanswers w

/-- A waiting worker takes part in a round, so it can load what comes out of it. -/
theorem Steady.fits_of_meet {s : System α} (h : s.Steady) {model : Params α}
    (average : s.session.coordinator.average s.flushed = .ok (some model)) {w : WorkerId}
    {seat : Seat α} (hseat : s.seat? w = some seat) (hm : seat.mail = none)
    (hp : seat.worker.point = .waiting) :
    seat.worker.learner.model.params.layout = model.layout := by
  obtain ⟨r, hr⟩ := h.record_of_seat hseat
  have hagrees := h.agrees w seat r hseat hr
  rw [Seat.current_of_no_mail hm] at hagrees
  obtain ⟨hs, hsub⟩ := Lane.agrees_of_waiting hagrees hp
  have hcontr : (w, seat.worker.learner.model.params) ∈
      s.flushed.contributions s.session.coordinator.scope :=
    Barrier.mem_contributions.2 ⟨r, hr, Barrier.takesPart_of_isWaiting (by rw [hs]; rfl), hsub⟩
  exact Params.layout_of_average (Barrier.keySorted_contributions _ _) average _ hcontr

/-- What a round does to a seat: a worker that waits for it is answered, and all others have
    ended, so that they read nothing any more. -/
inductive Met (model : Params α) (seat : Seat α) : Seat α → Prop
  | released (unread : seat.mail = none) (point : seat.worker.point = .waiting)
      (fits : seat.worker.learner.model.params.layout = model.layout) :
      Met model seat { seat with mail := some (.merged model) }
  | ended (ended : seat.worker.hasEnded = true) (mail : Option (Answer α)) :
      Met model seat { seat with mail }

section
variable {model : Params α} {seat seat' : Seat α}

omit [Scalar α] in
theorem Met.worker_eq (h : Met model seat seat') :
    seat'.worker = seat.worker ∧ seat'.joined = seat.joined := by
  cases h <;> exact ⟨rfl, rfl⟩

/-- A round keeps workers and records together, -/
theorem Met.agrees (h : Met model seat seat') {r : Record α WorkerId}
    (hagrees : Lane.Agrees ⟨seat.current, r⟩) : Lane.Agrees ⟨seat'.current, r.release⟩ := by
  cases h with
  | released hm hp fits =>
    rw [Seat.current_of_no_mail hm] at hagrees
    rw [Seat.current_answered (Worker.isWaiting_iff.2 hp)]
    exact Lane.agrees_resume hagrees hp fits
  | ended hend mail =>
    have hcurrent : ({ seat with mail } : Seat α).current = seat.worker :=
      current_of_hasEnded hend
    rw [current_of_hasEnded hend] at hagrees
    rw [hcurrent]
    exact Lane.agrees_release_of_hasEnded hagrees hend

/-- and every worker in the window of the next one. -/
theorem Met.drift (h : Met model seat seat') {rounds : Nat}
    (hdrift : seat.current.Drift rounds) : seat'.current.Drift (rounds + 1) := by
  cases h with
  | released hm hp fits =>
    rw [Seat.current_of_no_mail hm] at hdrift
    rw [Seat.current_answered (Worker.isWaiting_iff.2 hp)]
    exact hdrift.resume hp fits
  | ended hend mail =>
    have hcurrent : ({ seat with mail } : Seat α).current = seat.worker :=
      current_of_hasEnded hend
    rw [current_of_hasEnded hend] at hdrift
    rw [hcurrent]
    exact hdrift.later hend

end

theorem Steady.seat_of_meet {s : System α} (h : s.Steady) {c : Coordinator α WorkerId}
    {model : Params α} (average : s.session.coordinator.average s.flushed = .ok (some model))
    (due : s.flushed.roundReady = true) {w : WorkerId} {seat' : Seat α}
    (hseat' : (s.met c model).seat? w = some seat') :
    ∃ seat, s.seat? w = some seat ∧ Met model seat seat' := by
  rw [seat?_met, Option.map_eq_some_iff] at hseat'
  obtain ⟨seat, hseat, rfl⟩ := hseat'
  refine ⟨seat, hseat, ?_⟩
  rcases h.stands due hseat with ⟨hm, hp⟩ | hend
  · -- its record waits under its own number, so the round answers it
    obtain ⟨r, hr⟩ := h.record_of_seat hseat
    have hagrees := h.agrees w seat r hseat hr
    rw [Seat.current_of_no_mail hm] at hagrees
    have hstatus := (Lane.agrees_of_waiting hagrees hp).1
    simp only at hstatus
    rw [h.ids w seat hseat] at hstatus
    rw [if_pos (h.mem_answered.2 ⟨r, hr, hstatus⟩)]
    exact .released hm hp (h.fits_of_meet average hseat hm hp)
  · split
    · exact .ended hend _
    · exact .ended hend seat.mail

/-- A message that makes the workers meet: those that wait find the merged model. -/
theorem Steady.of_meet {s : System α} (h : s.Steady) {c : Coordinator α WorkerId}
    {model : Params α} (average : s.session.coordinator.average s.flushed = .ok (some model))
    (hb : c.barrier = s.flushed.adopt model) (due : s.flushed.roundReady = true) :
    (s.met c model).Steady := by
  obtain ⟨hsession, hqueue, hbarrier, hflushed'⟩ := s.met_frame hb
  obtain ⟨-, -, -, hstopped, hfailure, hsize⟩ := deliverAll_frame
    ({ s with session := ⟨c, .serving⟩, queue := [] } : System α) (s.flushed.answers model)
  have hseats := fun w seat' => @Steady.seat_of_meet _ _ _ h c model average due w seat'
  rw [show ({ s with session := ⟨c, .serving⟩, queue := [] } : System α).deliverAll
    (s.flushed.answers model) = s.met c model from rfl] at hstopped hfailure hsize
  -- from here on only these facts about the state after the round matter
  generalize s.met c model = s' at *
  have hrounds : s'.barrier.rounds = s.barrier.rounds + 1 := by
    rw [hbarrier, Barrier.adopt_rounds]
    exact congrArg (· + 1) (Barrier.absorbAll_rounds s.barrier s.queue)
  refine ⟨?serving, ?size, ?published, ?orderly, ?quiet, ?ids, ?agrees, ?drift, ?mail, ?joined,
    ?halted, ?failed⟩
  case serving =>
    rw [hsession]
  case size =>
    rw [hbarrier, Barrier.size_adopt, hsize]
    exact (Barrier.size_absorbAll s.barrier s.queue).trans h.size
  case published =>
    rw [hbarrier]
    exact Barrier.published_adopt _ _
  case orderly =>
    rw [hqueue]
    trivial
  case quiet =>
    -- everyone that waited has been released, so the next round is not due yet
    rw [← Bool.not_eq_true, hbarrier]
    intro hdue
    obtain ⟨⟨w, r, hr, hwait⟩, -⟩ := Barrier.roundReady_iff.1 hdue
    rw [Barrier.isWaiting_adopt hr] at hwait
    cases hwait
  case ids =>
    intro w seat' hseat'
    obtain ⟨seat, hseat, hmet⟩ := hseats w seat' hseat'
    rw [hmet.worker_eq.1]
    exact h.ids w seat hseat
  case agrees =>
    intro w seat' r' hseat' hr'
    obtain ⟨seat, hseat, hmet⟩ := hseats w seat' hseat'
    rw [hflushed', Barrier.record?_adopt, Option.map_eq_some_iff] at hr'
    obtain ⟨r, hr, rfl⟩ := hr'
    exact hmet.agrees (h.agrees w seat r hseat hr)
  case drift =>
    intro w seat' hseat'
    obtain ⟨seat, hseat, hmet⟩ := hseats w seat' hseat'
    rw [hrounds]
    exact hmet.drift (h.drift w seat hseat)
  case mail =>
    intro w seat' answer hseat' hmail
    obtain ⟨seat, hseat, hmet⟩ := hseats w seat' hseat'
    cases hmet with
    | released hm hp fits =>
      cases hmail
      exact .inr ⟨Worker.isWaiting_iff.2 hp, model, rfl, fits⟩
    | ended hend mail => exact .inl hend
  case joined =>
    intro w seat' hseat' hj
    obtain ⟨seat, hseat, hmet⟩ := hseats w seat' hseat'
    rw [hmet.worker_eq.1]
    exact h.joined w seat hseat (hmet.worker_eq.2 ▸ hj)
  case halted =>
    intro hst
    rw [hstopped] at hst
    rcases h.halted hst with hfailed | hall
    · left
      rw [hfailure]
      exact hfailed
    · refine .inr (allJoined_iff.2 fun w seat' hseat' => ?_)
      obtain ⟨seat, hseat, hmet⟩ := hseats w seat' hseat'
      rw [hmet.worker_eq.2]
      exact allJoined_iff.1 hall w seat hseat
  case failed =>
    rw [hfailure, hstopped]
    exact h.failed

/-! ## All steps -/

/-- The invariant holds on as long as the coordinator serves. -/
theorem Steady.preserved {s s' : System α} (h : s.Steady) {choice : Choice}
    (hn : Next s choice s') (hserving : s'.session.stage = .serving) : s'.Steady := by
  cases hn with
  | read w seat model hseat active waits mail fits =>
    refine h.of_same rfl rfl (by simp [modify]) ?_ (fun hst => .inl ⟨hst, rfl⟩) h.failed
    intro v seat' hseat'
    by_cases hv : w = v
    · subst hv
      cases hseat'.symm.trans (seat?_modify_self hseat _)
      refine ⟨seat, hseat, ?_, ?_, .inl rfl, id, fun hj => ?_⟩
      · rw [Seat.current_of_no_mail rfl, Seat.current_of_mail waits mail]
      · rw [Worker.resume_merged fits]
      · -- a worker that has been joined has ended, and reads nothing
        have hend := h.joined w seat hseat hj
        rw [Worker.isWaiting_of_hasEnded hend] at waits
        cases waits
    · rw [seat?_modify_ne s hv] at hseat'
      exact ⟨seat', hseat', rfl, rfl, .inr ⟨rfl, rfl⟩, id, h.joined v seat' hseat'⟩
  | move w seat moved m hseat active awake step => exact h.of_move hseat active step
  | absorb m queue c head hb hw hs due => exact h.of_absorb head hb due
  | meet m c model head average hb hw hs due => exact h.of_meet average hb due
  | refuse m c cause replies head average due =>
    have hsession := (deliverAll_frame
      ({ s with session := ⟨c, .failed cause⟩, queue := [] } : System α) replies).2.1
    rw [hsession] at hserving
    cases hserving
  | leave w seat loss hseat active fresh point =>
    have hend : seat.worker.hasEnded = true := by simp [Worker.hasEnded, point]
    exact h.of_join hseat hend rfl rfl rfl (fun hst => .inl ⟨hst, rfl⟩) h.failed
  | lose w seat cause hseat active fresh point =>
    have hend : seat.worker.hasEnded = true := by simp [Worker.hasEnded, point]
    exact h.of_join hseat hend rfl rfl rfl (fun _ => .inr (.inl rfl)) fun _ => rfl
  | stop all running =>
    refine h.of_same rfl rfl rfl ?_ (fun _ => .inr (.inr all)) fun _ => rfl
    intro w seat hseat
    exact ⟨seat, hseat, rfl, rfl, .inr ⟨rfl, rfl⟩, id, h.joined w seat hseat⟩
  | conclude session replies stopped stop =>
    have hsession := (deliverAll_frame
      ({ s with session, queue := [] } : System α) replies).2.1
    rw [hsession] at hserving
    cases stop <;> cases hserving

end System

end Federated
