/-
  Federated.Proofs.Training.Traffic

  What a run shows: the messages that its workers send, and the rounds that they meet in. What
  a worker has sent follows from how far it has come.

    * `System.sent`, `System.gatherings` — both, read off the steps of a run.
    * `Worker.Told` — what a worker has sent, by the rounds it has come back from.
-/
import Federated.Proofs.Training.Counts
import Federated.Proofs.Training.Runs

namespace Federated

variable {α : Type}

/-! ## Messages of one worker -/

/-- The batch and the model of a submission of a worker. -/
def Message.submission? (w : WorkerId) : Message α WorkerId → Option (Nat × Params α)
  | .submit v batch model _ _ => if v = w then some (batch, model) else none
  | _ => none

/-- The model of a last message of a worker. -/
def Message.final? (w : WorkerId) : Message α WorkerId → Option (Params α)
  | .finish v model _ _ => if v = w then some model else none
  | _ => none

/-- The submissions of a worker, each with the batch that it comes before. -/
def submissions (w : WorkerId) (ms : List (Message α WorkerId)) : List (Nat × Params α) :=
  ms.filterMap (·.submission? w)

/-- The final models of a worker. -/
def finals (w : WorkerId) (ms : List (Message α WorkerId)) : List (Params α) :=
  ms.filterMap (·.final? w)

theorem submissions_append (w : WorkerId) (ms ms' : List (Message α WorkerId)) :
    submissions w (ms ++ ms') = submissions w ms ++ submissions w ms' := List.filterMap_append

theorem finals_append (w : WorkerId) (ms ms' : List (Message α WorkerId)) :
    finals w (ms ++ ms') = finals w ms ++ finals w ms' := List.filterMap_append

theorem submissions_of_others {w : WorkerId} {ms : List (Message α WorkerId)}
    (h : ∀ m ∈ ms, m.worker ≠ w) : submissions w ms = [] := by
  refine List.filterMap_eq_nil_iff.2 fun m hm => ?_
  cases m with
  | submit v batch model loss ticket => exact if_neg (h _ hm)
  | progress | finish => rfl

theorem finals_of_others {w : WorkerId} {ms : List (Message α WorkerId)}
    (h : ∀ m ∈ ms, m.worker ≠ w) : finals w ms = [] := by
  refine List.filterMap_eq_nil_iff.2 fun m hm => ?_
  cases m with
  | finish v model loss total => exact if_neg (h _ hm)
  | progress | submit => rfl

/-! ## Runs -/

/-- A round as it happened before the stop signal: the models it averaged, whose they were and
    who was released, and the answers it gave. -/
structure Gathering (α : Type) where
  models : List (WorkerId × Params α)
  round : Round
  replies : List (Reply α WorkerId)

namespace System

variable [Scalar α]

/-- The message that a worker sends with its next step. -/
def sent? (s : System α) : Choice → Option (Message α WorkerId)
  | .act w => s.seats[w.index]?.bind fun seat => seat.worker.step?.bind (·.2)
  | _ => none

/-- The round that the coordinator resolves with the first message of the queue. -/
def gathering? (s : System α) : Choice → Option (Gathering α)
  | .receive =>
    match s.session.stage, s.queue with
    | .serving, m :: _ =>
      let c := (s.session.coordinator.apply m).1
      if c.barrier.roundReady then
        match c.resolve with
        | .ok (_, round, replies) => some ⟨c.barrier.contributions c.scope, round, replies⟩
        | .error _ => none
      else none
    | _, _ => none
  | _ => none

/-- What the steps of a run show, one after another. -/
def trace {β : Type} (look : System α → Choice → Option β) (s : System α) :
    List Choice → List β
  | [] => []
  | choice :: choices =>
    (look s choice).toList ++
      match s.step? choice with
      | some next => next.trace look choices
      | none => []

/-- The messages that the workers send in a run. -/
def sent (s : System α) : List Choice → List (Message α WorkerId) := s.trace sent?

/-- The rounds that are resolved in a run before the stop signal is taken. -/
def gatherings (s : System α) : List Choice → List (Gathering α) := s.trace gathering?

theorem trace_cons {β : Type} {look : System α → Choice → Option β} {s s' : System α}
    {choice : Choice} (h : s.step? choice = some s') (choices : List Choice) :
    s.trace look (choice :: choices) = (look s choice).toList ++ s'.trace look choices := by
  rw [trace, h]

theorem trace_append {β : Type} {look : System α → Choice → Option β} {s s' : System α}
    {choices : List Choice} (hrun : s.run? choices = some s') (rest : List Choice) :
    s.trace look (choices ++ rest) = s.trace look choices ++ s'.trace look rest := by
  induction choices generalizing s with
  | nil =>
    cases hrun
    rfl
  | cons choice choices ih =>
    rw [run?_cons] at hrun
    obtain ⟨s₁, hstep, hrest⟩ := Option.bind_eq_some_iff.1 hrun
    rw [List.cons_append, trace_cons hstep, trace_cons hstep, ih hrest, List.append_assoc]

/-- A last choice that shows nothing leaves the trace as it was. -/
theorem trace_silent {β : Type} {look : System α → Choice → Option β} {s s' : System α}
    {choices : List Choice} (hrun : s.run? choices = some s') {choice : Choice}
    (h : look s' choice = none) : s.trace look (choices ++ [choice]) = s.trace look choices := by
  rw [trace_append hrun, trace, h]
  cases s'.step? choice <;> simp [trace]

end System

/-! ## What a worker has sent -/

namespace Worker

/-- The number of submissions of a worker that has come back from `r` rounds. -/
def joins (w : Worker α) (r : Nat) : Nat :=
  match w.point with
  | .waiting => r + 1
  | .finished _ => syncs (max w.policy.every 1) w.total
  | _ => r

/-- What a worker has sent that has come back from `r` rounds. -/
structure Told (r : Nat) (sent : List (Message α WorkerId)) (w : Worker α) : Prop where
  batches : (submissions w.id sent).map (·.1) = syncBatches (max w.policy.every 1) (w.joins r)
  waiting : w.point = .waiting →
    ((r + 1) * max w.policy.every 1, w.learner.model.params) ∈ submissions w.id sent
  finished : ∀ loss, w.point = .finished loss → finals w.id sent = [w.learner.model.params]
  unfinished : w.hasEnded = false → finals w.id sent = []

variable {r : Nat} {sent : List (Message α WorkerId)} {w w' : Worker α}

theorem told_start [Scalar α] (id : WorkerId) (learner : Learner α) (spec : OptimizerSpec α)
    (policy : SyncPolicy) (batches : List (Batch α)) :
    Told 0 [] (start id learner spec policy batches) := by
  refine ⟨rfl, ?_, ?_, ?_⟩ <;> simp [start, finals]

/-- Messages of others tell nothing of a worker. -/
theorem Told.others (h : w.Told r sent) {ms : List (Message α WorkerId)}
    (hms : ∀ m ∈ ms, m.worker ≠ w.id) : w.Told r (sent ++ ms) := by
  have hsubmissions : submissions w.id (sent ++ ms) = submissions w.id sent := by
    rw [submissions_append, submissions_of_others hms, List.append_nil]
  have hfinals : finals w.id (sent ++ ms) = finals w.id sent := by
    rw [finals_append, finals_of_others hms, List.append_nil]
  refine ⟨?_, ?_, ?_, ?_⟩
  · rw [hsubmissions]
    exact h.batches
  · rw [hsubmissions]
    exact h.waiting
  · rw [hfinals]
    exact h.finished
  · rw [hfinals]
    exact h.unfinished

/-- A worker that goes on without a submission or a last message has sent what it had. -/
theorem Told.on (h : w.Told r sent) {ms : List (Message α WorkerId)}
    (hsubmissions : submissions w.id ms = []) (hfinals : finals w.id ms = [])
    (hid : w'.id = w.id) (hpolicy : w'.policy = w.policy) (hjoins : w.joins r = r)
    (hjoins' : w'.joins r = r) (hends : w.hasEnded = false) (hends' : w'.hasEnded = false)
    (hwaits' : w'.point ≠ .waiting) : w'.Told r (sent ++ ms) := by
  refine ⟨?_, fun hp => absurd hp hwaits', fun loss hp => ?_, fun _ => ?_⟩
  · rw [submissions_append, hid, hsubmissions, List.append_nil, hpolicy, hjoins', h.batches, hjoins]
  · rw [hasEnded_iff.2 (.inl ⟨loss, hp⟩)] at hends'
    cases hends'
  · rw [finals_append, hid, hfinals, List.append_nil, h.unfinished hends]

/-- Behind its last batch a worker has come back from every synchronization between batches. -/
theorem Drift.syncs_eq (hdrift : w.Drift r) (point : w.point = .announcing)
    (rest : w.remaining = []) : syncs (max w.policy.every 1) w.total = r := by
  have hpos : 0 < max w.policy.every 1 := by omega
  obtain ⟨hlow, hhigh, hstart⟩ := hdrift.announcing point
  have htotal : w.total = w.index := by simpa [rest] using hdrift.counts.symm
  apply Nat.le_antisymm
  · exact syncs_le_of_le hpos (by omega)
  · -- the last of them came before the last batch, and not behind it
    rcases Nat.eq_zero_or_pos r with rfl | hr
    · exact Nat.zero_le _
    · rw [le_syncs_iff hpos hr]
      omega

theorem Told.finish (h : w.Told r sent) (hdrift : w.Drift r) (point : w.point = .announcing)
    (rest : w.remaining = []) (hends : w.hasEnded = false) (loss : α) :
    (w.goto (.finished loss)).Told r
      (sent ++ [.finish w.id w.learner.model.params loss w.total]) := by
  refine ⟨?batches, fun hp => ?waiting, fun loss' hp => ?finished, fun hp => ?unfinished⟩
  case batches =>
    have hjoins : w.joins r = r := by simp [joins, point]
    show (submissions w.id _).map (·.1) =
      syncBatches (max w.policy.every 1) (syncs (max w.policy.every 1) w.total)
    rw [submissions_append, hdrift.syncs_eq point rest, ← hjoins, ← h.batches]
    simp [submissions, Message.submission?]
  case waiting => cases hp
  case finished =>
    show finals w.id _ = [w.learner.model.params]
    rw [finals_append, h.unfinished hends]
    simp [finals, Message.final?]
  case unfinished => cases hp

theorem Told.submit (h : w.Told r sent) (hdrift : w.Drift r) (point : w.point = .joining)
    (hends : w.hasEnded = false) (ticket : WorkerId) :
    (w.goto .waiting).Told r
      (sent ++ [.submit w.id w.index w.learner.model.params w.lastLoss ticket]) := by
  obtain ⟨hindex, -⟩ := hdrift.joining point
  -- it comes at the end of its window, so it is the submission of round `r + 1`
  have hmessage : submissions w.id
      [.submit w.id w.index w.learner.model.params w.lastLoss ticket] =
      [((r + 1) * max w.policy.every 1, w.learner.model.params)] := by
    simp [submissions, Message.submission?, hindex]
  refine ⟨?batches, fun _ => ?waiting, fun loss hp => ?finished, fun _ => ?unfinished⟩
  case batches =>
    have hjoins : w.joins r = r := by simp [joins, point]
    show (submissions w.id _).map (·.1) = syncBatches (max w.policy.every 1) (r + 1)
    rw [submissions_append, hmessage, List.map_append, h.batches, hjoins, syncBatches_succ]
    rfl
  case waiting =>
    show _ ∈ submissions w.id _
    rw [submissions_append, hmessage]
    exact List.mem_append_right _ (List.mem_singleton.2 rfl)
  case finished => cases hp
  case unfinished =>
    show finals w.id _ = []
    rw [finals_append, h.unfinished hends]
    rfl

/-- What a worker has sent behind one of its steps. -/
theorem Told.step [Scalar α] (h : w.Told r sent) (hdrift : w.Drift r)
    {m : Option (Message α WorkerId)} (hs : Step w w' m)
    (hup : ∀ cause, w'.point ≠ .failed cause) : w'.Told r (sent ++ m.toList) := by
  have hends := hs.awake.2
  cases hs with
  | finish point rest => exact h.finish hdrift point rest hends _
  | announceSync point rest due =>
    exact h.on rfl rfl rfl rfl (by simp [joins, point]) rfl hends rfl (by simp [goto])
  | announce point rest due =>
    exact h.on rfl rfl rfl rfl (by simp [joins, point]) rfl hends rfl (by simp [goto])
  | submit point =>
    -- a worker that goes on behind its submission can time its wait
    have timed : w.policy.timed w.id w.index = true := by
      cases ht : w.policy.timed w.id w.index with
      | true => rfl
      | false => exact absurd (if_neg (by simp [ht])) (hup _)
    have hjoined : w.joined = .waiting := by simp [joined, timed]
    rw [hjoined]
    exact h.submit hdrift point hends w.id
  | train batch rest loss learner point remaining ok =>
    exact h.on rfl rfl rfl rfl (by simp [joins, point]) rfl hends rfl (by simp)
  | fail batch rest halt point remaining refused => exact absurd rfl (hup _)

/-- A released worker has come back from one more round, and has sent nothing since. -/
theorem Told.resume [Scalar α] (h : w.Told r sent) (hp : w.point = .waiting) {model : Params α}
    (hfits : w.learner.model.params.layout = model.layout) :
    (w.resume (.merged model)).Told (r + 1) sent := by
  have hends : w.hasEnded = false := by simp [hasEnded, hp]
  rw [resume_merged hfits]
  refine ⟨?_, fun hwaits => ?_, fun loss hend => ?_, fun _ => h.unfinished hends⟩
  · have hjoins : w.joins r = r + 1 := by simp [joins, hp]
    have hbatches := h.batches
    rw [hjoins] at hbatches
    exact hbatches
  · cases hwaits
  · cases hend

/-- Rounds behind its end are nothing to a worker. -/
theorem Told.later (h : w.Told r sent) {loss : α} (hp : w.point = .finished loss) (r' : Nat) :
    w.Told r' sent := by
  -- a worker at its end has made all its submissions, however many rounds follow
  refine ⟨?_, fun hw => ?_, h.finished, h.unfinished⟩
  · have hjoins : w.joins r' = w.joins r := by simp [joins, hp]
    rw [hjoins]
    exact h.batches
  · rw [hp] at hw
    cases hw

end Worker

end Federated
