/-
  Federated.Proofs.Training.Clocks

  An epoch under two clocks. The clock is read for one thing only, whether a wait can be timed, so
  an epoch goes the same way under all clocks that can time its waits.

    * `FederatedConfig.timesAll_of_latest` — how far a clock may have come to time all waits.
    * `System.retimed` — a state with the waits of another clock.
    * `step?_retimed`, `run?_retimed` — it takes the same steps, as long as both clocks agree on
      whoever is about to wait.
    * `EndsIn.retimed` — so it comes to the same end.
    * `Epoch.initial_retimed` — an epoch begins the same way under any clock.
-/
import Federated.Proofs.Training.Start

namespace Federated

/-! ## How late a clock may be -/

/-- What can be timed can be timed earlier too. -/
theorem Period.endsOnClock_mono {p : Period} {m n : Nat} (h : p.endsOnClock n = true)
    (hle : m ≤ n) : p.endsOnClock m = true := by
  unfold endsOnClock at h ⊢
  rw [decide_eq_true_eq] at h ⊢
  exact Nat.le_trans (Nat.div_le_div_right (Nat.add_le_add_right hle _)) h

/-- A clock times all waits if it can still time one at the latest of its readings, before the last
    batch of the longest shard. -/
theorem FederatedConfig.timesAll_of_latest {config : FederatedConfig} {clock : Clock}
    {totals : List Nat} {longest latest : Nat} (hlongest : ∀ total ∈ totals, total ≤ longest)
    (hclock : ∀ w, ∀ i < longest, clock w i ≤ latest)
    (h : config.notePeriod.endsOnClock latest = true) : (config.policy clock).TimesAll totals :=
  fun w total htotal i hi _ =>
    Period.endsOnClock_mono h
      (hclock w i (Nat.lt_of_lt_of_le hi (hlongest total (List.mem_of_getElem? htotal))))

variable {α : Type} {timed : WorkerId → Nat → Bool}

/-! ## Other waits -/

/-- The worker with other waits that can be timed. -/
def Worker.retimed (w : Worker α) (timed : WorkerId → Nat → Bool) : Worker α :=
  { w with policy := { w.policy with timed } }

def Seat.retimed (seat : Seat α) (timed : WorkerId → Nat → Bool) : Seat α :=
  { seat with worker := seat.worker.retimed timed }

/-- The state with other waits that can be timed. -/
def System.retimed (s : System α) (timed : WorkerId → Nat → Bool) : System α :=
  { s with seats := s.seats.map (·.retimed timed) }

section
variable [Scalar α]

omit [Scalar α] in
theorem Worker.joined_retimed {w : Worker α}
    (h : timed w.id w.index = w.policy.timed w.id w.index) :
    (w.retimed timed).joined = w.joined := by
  show (if timed w.id w.index then _ else _) = _
  rw [h]
  rfl

/-- A worker reads the clock only when it begins to wait. -/
theorem Worker.step?_retimed {w : Worker α}
    (h : w.point = .joining → timed w.id w.index = w.policy.timed w.id w.index) :
    (w.retimed timed).step? = w.step?.map fun out => (out.1.retimed timed, out.2) := by
  have hpoint : (w.retimed timed).point = w.point := rfl
  have hremaining : (w.retimed timed).remaining = w.remaining := rfl
  have hlearner : (w.retimed timed).learner = w.learner := rfl
  unfold step?
  rw [hpoint, hremaining, hlearner]
  cases hp : w.point with
  | announcing => cases hr : w.remaining <;> rfl
  | joining =>
    rw [joined_retimed (h hp)]
    rfl
  | stepping =>
    cases hr : w.remaining with
    | nil => rfl
    | cons batch rest =>
      cases hs : w.learner.step batch <;> simp only [hs] <;> rfl
  | waiting | finished | failed => rfl

theorem Worker.resume_retimed (w : Worker α) (answer : Answer α) :
    (w.retimed timed).resume answer = (w.resume answer).retimed timed := by
  cases answer with
  | closed => rfl
  | merged model =>
    have hmodel : (w.retimed timed).learner.model = w.learner.model := rfl
    unfold resume
    simp only [hmodel]
    cases hload : w.learner.model.load model <;> rfl

end

/-! ## The same steps -/

namespace System

theorem seat?_retimed (s : System α) (w : WorkerId) :
    (s.retimed timed).seat? w = (s.seat? w).map (·.retimed timed) := Array.getElem?_map

theorem modify_retimed (s : System α) (w : WorkerId) {f g : Seat α → Seat α}
    (h : ∀ seat, (f seat).retimed timed = g (seat.retimed timed)) :
    (s.modify w f).retimed timed = (s.retimed timed).modify w g := by
  have hseats : (s.seats.modify w.index f).map (·.retimed timed) =
      (s.seats.map (·.retimed timed)).modify w.index g := map_modify h s.seats w.index
  exact congrArg (fun seats => { s with seats }) hseats

theorem deliverAll_retimed (s : System α) (rs : List (Reply α WorkerId)) :
    (s.deliverAll rs).retimed timed = (s.retimed timed).deliverAll rs := by
  induction rs generalizing s with
  | nil => rfl
  | cons r rs ih =>
    rw [deliverAll_cons, deliverAll_cons, ih]
    exact congrArg (deliverAll · rs) (modify_retimed s r.ticket fun _ => rfl)

theorem withSession_retimed (s : System α) (session : Session α WorkerId)
    (queue : List (Message α WorkerId)) (rs : List (Reply α WorkerId)) :
    (s.retimed timed).withSession session queue rs =
      (s.withSession session queue rs).retimed timed := by
  unfold withSession
  split
  · exact (deliverAll_retimed ({ s with session, queue } : System α) rs).symm
  · exact (deliverAll_retimed ({ s with session, queue := [] } : System α) _).symm

theorem joinWith_retimed (s : System α) (w : WorkerId) (seat : Seat α) :
    (s.retimed timed).joinWith w (seat.retimed timed) =
      (s.joinWith w seat).map (·.retimed timed) := by
  have hjoin : (s.modify w fun seat => { seat with joined := true }).retimed timed =
      (s.retimed timed).modify w fun seat => { seat with joined := true } :=
    modify_retimed s w fun _ => rfl
  unfold joinWith
  rw [← hjoin, show (seat.retimed timed).worker.point = seat.worker.point from rfl]
  split <;> rfl

variable [Scalar α]

omit [Scalar α] in
theorem dispatch_retimed (s : System α) (w : WorkerId) (moved : Worker α)
    (m : Message α WorkerId) :
    (s.retimed timed).dispatch w (moved.retimed timed) m =
      (s.dispatch w moved m).retimed timed := by
  unfold dispatch
  rw [show (s.retimed timed).session = s.session from rfl]
  split
  · have hmoved : (s.modify w fun seat => { seat with worker := moved }).retimed timed =
        (s.retimed timed).modify w fun seat => { seat with worker := moved.retimed timed } :=
      modify_retimed s w fun _ => rfl
    rw [← hmoved]
    rfl
  · exact (modify_retimed s w fun _ => rfl).symm

/-- Another clock agrees on the waits of all who are about to wait. -/
def Concurs (timed : WorkerId → Nat → Bool) (s : System α) : Prop :=
  ∀ w seat, s.seat? w = some seat → seat.worker.point = .joining →
    timed seat.worker.id seat.worker.index =
      seat.worker.policy.timed seat.worker.id seat.worker.index

theorem actWith_retimed (s : System α) (w : WorkerId) {seat : Seat α}
    (h : seat.worker.point = .joining → timed seat.worker.id seat.worker.index =
      seat.worker.policy.timed seat.worker.id seat.worker.index) :
    (s.retimed timed).actWith w (seat.retimed timed) =
      (s.actWith w seat).map (·.retimed timed) := by
  unfold actWith
  rw [show (seat.retimed timed).worker.isWaiting = seat.worker.isWaiting from rfl,
    show (seat.retimed timed).mail = seat.mail from rfl,
    show (seat.retimed timed).worker = seat.worker.retimed timed from rfl,
    Worker.step?_retimed h]
  split
  · -- it reads its answer, and the clock has no part in what it makes of it
    cases seat.mail with
    | none => rfl
    | some answer =>
      refine congrArg some (modify_retimed s w fun seat => ?_).symm
      show (⟨(seat.worker.resume answer).retimed timed, none, seat.joined⟩ : Seat α) =
        ⟨(seat.worker.retimed timed).resume answer, none, seat.joined⟩
      rw [Worker.resume_retimed]
  · cases seat.worker.step? with
    | none => rfl
    | some out =>
      obtain ⟨moved, m⟩ := out
      cases m with
      | none => exact congrArg some (modify_retimed s w fun _ => rfl).symm
      | some m => exact congrArg some (dispatch_retimed s w moved m)

/-- Where both clocks agree, a step under the one is a step under the other. -/
theorem step?_retimed {s : System α} (h : s.Concurs timed) (choice : Choice) :
    (s.retimed timed).step? choice = (s.step? choice).map (·.retimed timed) := by
  cases choice with
  | act w =>
    show (if s.failure.isSome then none
      else ((s.retimed timed).seat? w).bind ((s.retimed timed).actWith w)) =
        Option.map _ (if s.failure.isSome then none else (s.seat? w).bind (s.actWith w))
    rw [seat?_retimed]
    split
    · rfl
    · cases hseat : s.seat? w with
      | none => rfl
      | some seat => exact actWith_retimed s w (h w seat hseat)
  | receive =>
    simp only [step?]
    rw [show (s.retimed timed).session = s.session from rfl,
      show (s.retimed timed).queue = s.queue from rfl]
    split
    · exact congrArg some (withSession_retimed s _ _ _)
    · rfl
  | join w =>
    show (if s.failure.isSome then none
      else ((s.retimed timed).seat? w).bind fun seat =>
        if seat.joined then none else (s.retimed timed).joinWith w seat) =
      Option.map _ (if s.failure.isSome then none
        else (s.seat? w).bind fun seat => if seat.joined then none else s.joinWith w seat)
    rw [seat?_retimed]
    split
    · rfl
    · cases s.seat? w with
      | none => rfl
      | some seat =>
        show (if seat.joined then none else _) = Option.map _ (if seat.joined then none else _)
        split
        · rfl
        · exact joinWith_retimed s w seat
  | stop =>
    have hall : (s.retimed timed).allJoined = s.allJoined := by
      simp only [allJoined, retimed, Array.all_map]
      rfl
    simp only [step?, hall]
    rw [show (s.retimed timed).stopped = s.stopped from rfl]
    split <;> rfl
  | conclude =>
    simp only [step?]
    rw [show (s.retimed timed).session = s.session from rfl,
      show (s.retimed timed).stopped = s.stopped from rfl,
      show (s.retimed timed).queue = s.queue from rfl]
    split
    · split
      · exact congrArg some (withSession_retimed s _ _ _)
      · rfl
    · rfl

theorem complete_retimed {s : System α} (h : s.Concurs timed) :
    (s.retimed timed).Complete ↔ s.Complete := by
  unfold Complete
  simp only [step?_retimed h, Option.map_eq_none_iff]

theorem stepFails_retimed {s : System α} {w : WorkerId} :
    (s.retimed timed).StepFails w ↔ s.StepFails w := by
  constructor
  · rintro ⟨seat', batch, rest, halt, hseat', point, remaining, refused⟩
    rw [seat?_retimed] at hseat'
    obtain ⟨seat, hseat, rfl⟩ := Option.map_eq_some_iff.1 hseat'
    exact ⟨seat, batch, rest, halt, hseat, point, remaining, refused⟩
  · rintro ⟨seat, batch, rest, halt, hseat, point, remaining, refused⟩
    refine ⟨seat.retimed timed, batch, rest, halt, ?_, point, remaining, refused⟩
    rw [seat?_retimed, hseat]
    rfl

/-! ## The same runs -/

section
variable {s : System α}

/-- Where both clocks agree in all states that are reached, a run under the one is a run under
    the other. -/
theorem run?_retimed (h : ∀ before s', s.run? before = some s' → s'.Concurs timed)
    (choices : List Choice) :
    (s.retimed timed).run? choices = (s.run? choices).map (·.retimed timed) := by
  induction choices generalizing s with
  | nil => rfl
  | cons choice choices ih =>
    rw [run?_cons, run?_cons, step?_retimed (h [] s rfl)]
    cases hstep : s.step? choice with
    | none => rfl
    | some s₁ =>
      refine ih fun before s' hrun => h (choice :: before) s' ?_
      rw [run?_cons, hstep]
      exact hrun

theorem stepsSucceed_retimed (h : ∀ before s', s.run? before = some s' → s'.Concurs timed)
    {choices : List Choice} (hsteps : s.StepsSucceed choices) :
    (s.retimed timed).StepsSucceed choices := by
  induction choices generalizing s with
  | nil => trivial
  | cons choice choices ih =>
    refine ⟨fun w hc => mt stepFails_retimed.1 (hsteps.1 w hc), fun s' hstep => ?_⟩
    rw [step?_retimed (h [] s rfl)] at hstep
    obtain ⟨s₁, hfirst, rfl⟩ := Option.map_eq_some_iff.1 hstep
    refine ih (fun before s' hrun => h (choice :: before) s' ?_) (hsteps.2 s₁ hfirst)
    rw [run?_cons, hfirst]
    exact hrun

/-- All executions come to one end: no local step fails whatever turns are taken, and all
    complete ones leave this result and this bank. -/
structure EndsIn (s : System α) (result : Except (FederatedError α) (EpochResult α))
    (bank : Bank α) : Prop where
  steps : ∀ choices, s.StepsSucceed choices
  ends : ∀ choices s', s.run? choices = some s' → s'.Complete →
    Epoch.result? s' = some result ∧ s'.bank = bank

/-- So they come to the same end. -/
theorem EndsIn.retimed {result : Except (FederatedError α) (EpochResult α)} {bank : Bank α}
    (h : s.EndsIn result bank)
    (hconcur : ∀ before s', s.run? before = some s' → s'.Concurs timed) :
    (s.retimed timed).EndsIn result bank := by
  refine ⟨fun choices => stepsSucceed_retimed hconcur (h.steps choices), ?_⟩
  intro choices last hrun hover
  rw [run?_retimed hconcur] at hrun
  obtain ⟨s', hrun', rfl⟩ := Option.map_eq_some_iff.1 hrun
  exact h.ends choices s' hrun' ((complete_retimed (hconcur choices s' hrun')).1 hover)

variable {policy : SyncPolicy} {totals : List Nat} {layout : Dict String (List Nat)}
  {bank : Bank α}

/-- Two clocks that can time all waits agree in every state that is reached: whoever is about to
    wait has a synchronization due, and batches behind it. -/
theorem Running.concurs (h : s.Running policy totals layout bank)
    (hwaits : policy.TimesAll totals)
    (hother : ({ policy with timed } : SyncPolicy).TimesAll totals) : s.Concurs timed := by
  intro w seat hseat point
  have hdrift := h.steady.drift w seat hseat
  rw [Seat.current_of_not_waiting (by simp [Worker.isWaiting, point])] at hdrift
  obtain ⟨hindex, hrest⟩ := hdrift.joining point
  have hpos : 0 < seat.worker.remaining.length := List.length_pos_iff.2 hrest
  have more : seat.worker.index < seat.worker.total := by
    have := hdrift.counts
    omega
  have due : policy.isDue seat.worker.index = true := by
    rw [h.policy w seat hseat] at hindex
    rw [hindex]
    exact Worker.isDue_end policy _
  have htotal := h.total w seat hseat
  rw [h.policy w seat hseat, h.steady.ids w seat hseat, hwaits w _ htotal _ more due]
  exact hother w _ htotal _ more due

theorem Running.concurs_run (h : s.Running policy totals layout bank)
    (hwaits : policy.TimesAll totals)
    (hother : ({ policy with timed } : SyncPolicy).TimesAll totals) (choices : List Choice)
    (s' : System α) (hrun : s.run? choices = some s') : s'.Concurs timed := by
  rcases run_split hrun h.steady.serving with hserving |
      ⟨before, choice, after, s₁, s₂, -, hbefore, hserving, hstep, hend, hafter⟩
  · exact (h.run hrun hserving).concurs hwaits hother
  · -- behind the stop signal the workers stay where they were
    have h₁ := h.run hbefore hserving
    obtain ⟨-, stopped, session, replies, -, rfl⟩ := h₁.conclude_of_step hstep hend
    rw [(deliverAll_frame _ replies).2.1] at hend
    obtain rfl := (h₁.steady.over stopped hend replies).eq_nil_of_run hafter
    cases hafter
    intro w seat' hseat' point
    obtain ⟨seat, hseat, hworker, -⟩ := worker_deliverAll hseat'
    rw [hworker] at point ⊢
    exact h₁.concurs hwaits hother w seat hseat point

end

end System

/-! ## The same start -/

namespace Epoch

variable [Scalar α]

theorem seats_retimed (config : FederatedConfig) (clock clock' : Clock) (model : Affine α)
    (bank : Bank α) (next : Nat) (shards : List (List (Batch α))) :
    seats config clock' model bank next shards =
      ((seats config clock model bank next shards).1.map (·.retimed (config.policy clock').timed),
        (seats config clock model bank next shards).2) := by
  induction shards generalizing bank next with
  | nil => rfl
  | cons shard shards ih =>
    simp only [seats, ih]
    rfl

/-- An epoch begins the same way under any clock. -/
theorem initial_retimed (config : FederatedConfig) (clock clock' : Clock) (model : Affine Float32)
    (shards : List (List (Batch Float32))) (bank : Bank Float32) :
    initial config clock' model shards bank =
      (initial config clock model shards bank).retimed (config.policy clock').timed := by
  unfold initial
  rw [seats_retimed config clock clock']
  simp [System.retimed]

end Epoch

end Federated
