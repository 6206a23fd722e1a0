/-
  Federated.Proofs.Training.Losses

  The losses of an epoch: those that the steps of its workers come to, and those that the barrier
  has recorded.

    * `System.scores` — the batches that the workers of a run train on, with their losses.
    * `Deed.score?`, `Deed.note?` — what a deed of a worker is to either of them.
    * `Lane.Recorded`, `System.Recorded` — the invariant: a record holds what its worker has told.
    * `Recorded.run` — runs keep it.
    * `Lane.Recorded.finished` — what the record of a worker that has finished holds.
-/
import Federated.Proofs.Training.Script
import Federated.Proofs.Training.Traffic

namespace Federated

variable {α : Type}

/-! ## What is shown, and what is recorded -/

/-- A batch that a worker has trained on, and its loss. -/
structure Score (α : Type) where
  worker : WorkerId
  batch : Batch α
  loss : α

/-- The scores of one worker. -/
def scoresOf (w : WorkerId) (scores : List (Score α)) : List (Score α) :=
  scores.filter fun e => e.worker = w

theorem scoresOf_append (w : WorkerId) (scores more : List (Score α)) :
    scoresOf w (scores ++ more) = scoresOf w scores ++ scoresOf w more := List.filter_append ..

theorem scoresOf_of_own {w : WorkerId} {scores : List (Score α)}
    (h : ∀ e ∈ scores, e.worker = w) : scoresOf w scores = scores :=
  List.filter_eq_self.2 fun e he => decide_eq_true (h e he)

theorem scoresOf_of_others {w : WorkerId} {scores : List (Score α)}
    (h : ∀ e ∈ scores, e.worker ≠ w) : scoresOf w scores = [] :=
  List.filter_eq_nil_iff.2 fun e he => by simpa using h e he

/-- The loss that a message has recorded, and under which label. -/
def Message.note? {τ : Type} : Message α τ → Option (LossLabel × α)
  | .progress _ _ _ => none
  | .submit _ batch _ loss _ => some (.batch batch, loss)
  | .finish _ _ loss _ => some (.final, loss)

/-- The loss that a deed of a worker has recorded. -/
def Deed.note? : Deed α → Option (LossLabel × α)
  | .tell m => m.note?
  | _ => none

variable [Scalar α]

/-- What a deed of a worker shows. -/
def Deed.score? (w : WorkerId) : Deed α → Option (Score α)
  | .train learner batch => (learner.step batch).toOption.map fun out => ⟨w, batch, out.1⟩
  | _ => none

/-- What the next step of a worker shows. -/
def Worker.score? (w : Worker α) : Option (Score α) :=
  match w.point, w.remaining with
  | .stepping, batch :: _ => (Deed.train w.learner batch).score? w.id
  | _, _ => none

namespace System

/-- The batch that a worker trains on with its next step. -/
def score? (s : System α) : Choice → Option (Score α)
  | .act w => s.seats[w.index]?.bind fun seat => seat.worker.score?
  | _ => none

/-- The batches that the workers train on in a run, with their losses. -/
def scores (s : System α) : List Choice → List (Score α) := s.trace score?

end System

/-! ## One worker -/

namespace Worker

variable {w w' : Worker α} {m : Option (Message α WorkerId)}

theorem score?_of_point (h : w.point ≠ .stepping) : w.score? = none := by
  unfold score?
  split
  · next hp _ => exact absurd hp h
  · rfl

theorem worker_of_score? {e : Score α} (h : w.score? = some e) : e.worker = w.id := by
  unfold score? Deed.score? at h
  split at h
  · obtain ⟨out, -, rfl⟩ := Option.map_eq_some_iff.1 h
    rfl
  · cases h

/-- A step is one deed: to send its message, or to train. -/
theorem Step.deed (h : w.Step w' m) :
    ∃ deed, w.Move [deed] w' ∧ deed.note? = m.bind (·.note?) ∧ deed.score? w.id = w.score? := by
  have hstep := step?_of_step h
  cases h with
  | finish point | announceSync point | announce point | submit point =>
    exact ⟨.tell _, .tell hstep, rfl, (score?_of_point (by simp [point])).symm⟩
  | train batch rest loss learner point remaining ok =>
    exact ⟨.train w.learner batch, .train hstep remaining, rfl, by simp [score?, point, remaining]⟩
  | fail batch rest halt point remaining refused =>
    exact ⟨.train w.learner batch, .train hstep remaining, rfl, by simp [score?, point, remaining]⟩

/-- The counts of batches on both sides stay the same. -/
theorem Step.total_absorbAny (h : w.Step w' m) {r : Record α WorkerId}
    (htotal : r.total = w.total) : (r.absorbAny m).total = w'.total := by
  cases h with
  | finish | announceSync | announce => rfl
  | submit point =>
    simp only [Record.absorbAny, Record.absorb]
    split_ifs <;> exact htotal
  | train | fail => exact htotal

end Worker

omit [Scalar α] in
/-- A record in training takes what a message has to tell. -/
theorem Record.losses_absorb {τ : Type} {r : Record α τ} (h : r.status = .training)
    (m : Message α τ) : (r.absorb m).losses = r.losses.insertAll m.note?.toList := by
  cases m with
  | progress | finish => rfl
  | submit => simp [absorb, h, Status.isFinished, Message.note?, Dict.insertAll]

omit [Scalar α] in
@[simp] theorem Record.total_release {τ : Type} (r : Record α τ) : r.release.total = r.total := by
  unfold Record.release
  split <;> rfl

namespace Lane

/-- A worker on its way through its task, whose steps have shown its scores, and whose record holds
    the losses that it has told of. -/
def Recorded (t : Task α) (scores : List (Score α)) (l : Lane α) : Prop :=
  l.record.total = l.worker.total ∧ ∃ deeds, t.worker.Does deeds l.worker ∧
    deeds.filterMap (Deed.score? t.id) = scores ∧
    l.record.losses = Dict.ofList (deeds.filterMap Deed.note?)

variable {t : Task α} {scores : List (Score α)} {w w' : Worker α} {r : Record α WorkerId}
  {m : Option (Message α WorkerId)}

theorem recorded_start (t : Task α) (r : Record α WorkerId) (htotal : r.total = t.total)
    (hlosses : r.losses = .empty) : Recorded t [] ⟨t.worker, r⟩ :=
  ⟨htotal, [], .nothing, rfl, hlosses⟩

theorem Recorded.step (h : Recorded t scores ⟨w, r⟩) (hagrees : Agrees ⟨w, r⟩) (hs : w.Step w' m) :
    Recorded t (scores ++ w.score?.toList) ⟨w', r.absorbAny m⟩ := by
  obtain ⟨htotal, deeds, hdoes, rfl, hlosses⟩ := h
  obtain ⟨deed, hmove, hnote, hscore⟩ := hs.deed
  obtain ⟨visits, l, since, hstage, -⟩ := Task.stage_does hdoes
  have hid : w.id = t.id := hstage.id_eq
  refine ⟨hs.total_absorbAny htotal, deeds ++ [deed], .more hdoes hmove, ?_, ?_⟩
  · rw [List.filterMap_append, ← hscore, hid]
    cases hd : deed.score? t.id <;> simp [hd]
  · have hnotes : [deed].filterMap Deed.note? = (m.bind (·.note?)).toList := by
      rw [← hnote]
      cases hd : deed.note? <;> simp [hd]
    have hinsert : Dict.ofList (deeds.filterMap Deed.note? ++ (m.bind (·.note?)).toList) =
        (Dict.ofList (deeds.filterMap Deed.note?)).insertAll (m.bind (·.note?)).toList :=
      List.foldl_append ..
    rw [List.filterMap_append, hnotes, hinsert, ← hlosses]
    -- whoever sends a message has a record that takes it
    cases m with
    | none => rfl
    | some msg => exact Record.losses_absorb (training_of_step hagrees hs) msg

theorem Recorded.hear (h : Recorded t scores ⟨w, r⟩) (waits : w.isWaiting = true)
    (model : Params α) (fits : w.learner.model.params.layout = model.layout) :
    Recorded t scores ⟨w.resume (.merged model), r⟩ := by
  obtain ⟨htotal, deeds, hdoes, rfl, hlosses⟩ := h
  refine ⟨?_, deeds ++ [.hear model], .more hdoes (.hear waits model), ?_, ?_⟩
  · rw [Worker.resume_merged fits]
    exact htotal
  · rw [List.filterMap_append]
    exact List.append_nil _
  · rw [List.filterMap_append]
    exact hlosses.trans (congrArg Dict.ofList (List.append_nil _).symm)

theorem Recorded.release (h : Recorded t scores ⟨w, r⟩) : Recorded t scores ⟨w, r.release⟩ := by
  obtain ⟨htotal, deeds, hdoes, hscores, hlosses⟩ := h
  exact ⟨by simpa using htotal, deeds, hdoes, hscores, by simpa using hlosses⟩

end Lane

/-! ## All workers -/

namespace System

/-- What the steps of a run have shown, and what has been or will be recorded of it. -/
structure Recorded (task : WorkerId → Task α) (scores : List (Score α)) (s : System α) : Prop where
  lanes : ∀ w seat r, s.seat? w = some seat → s.flushed.record? w = some r →
    Lane.Recorded (task w) (scoresOf w scores) ⟨seat.worker, r⟩
  seated : ∀ e ∈ scores, ∃ seat, s.seat? e.worker = some seat

variable {task : WorkerId → Task α} {scores : List (Score α)} {s s' : System α} {choice : Choice}

theorem score?_of_seat {w : WorkerId} {seat : Seat α} (hseat : s.seat? w = some seat) :
    s.score? (.act w) = seat.worker.score? := by
  show s.seats[w.index]?.bind _ = _
  rw [show s.seats[w.index]? = some seat from hseat]
  rfl

theorem Steady.seated_of_score? (hsteady : s.Steady) {e : Score α} (h : s.score? choice = some e) :
    ∃ seat, s.seat? e.worker = some seat := by
  cases choice with
  | act w =>
    obtain ⟨seat, hseat, hscore⟩ := Option.bind_eq_some_iff.1 h
    rw [Worker.worker_of_score? hscore, hsteady.ids w seat hseat]
    exact ⟨seat, hseat⟩
  | receive | join | stop | conclude => cases h

/-- A step of a worker, what it shows, and what it tells. -/
theorem Recorded.of_move (h : s.Recorded task scores) (hsteady : s.Steady) {w : WorkerId}
    {seat : Seat α} {moved : Worker α} {m : Option (Message α WorkerId)}
    (hseat : s.seat? w = some seat) (step : seat.worker.Step moved m) {v : WorkerId}
    {seat' : Seat α} {r' : Record α WorkerId}
    (hseat' : (s.modify w fun seat => { seat with worker := moved }).seat? v = some seat')
    (hr' : (s.barrier.absorbAll (s.queue ++ m.toList)).record? v = some r') :
    Lane.Recorded (task v) (scoresOf v (scores ++ seat.worker.score?.toList))
      ⟨seat'.worker, r'⟩ := by
  have hid := hsteady.ids w seat hseat
  have hworker : ∀ msg, m = some msg → msg.worker = w := fun msg hm =>
    (step.worker_eq hm).trans hid
  have hown : ∀ e ∈ seat.worker.score?.toList, e.worker = w := fun e he =>
    (Worker.worker_of_score? (Option.mem_toList.1 he)).trans hid
  rw [scoresOf_append]
  rcases seat_of_modify hseat hseat' with ⟨rfl, rfl⟩ | ⟨hne, hold⟩
  · obtain ⟨r, hr⟩ := hsteady.record_of_seat hseat
    cases (record?_send_self hworker hr).symm.trans hr'
    have hagrees := hsteady.agrees v seat r hseat hr
    rw [Seat.current_of_no_mail (hsteady.mail_of_step hseat step)] at hagrees
    rw [scoresOf_of_own hown]
    exact (h.lanes v seat r hseat hr).step hagrees step
  · have hothers : scoresOf v seat.worker.score?.toList = [] :=
      scoresOf_of_others fun e he hv => hne (hv.symm.trans (hown e he))
    rw [hothers, List.append_nil]
    exact h.lanes v seat' r' hold ((record?_send_ne hworker hne).symm.trans hr')

theorem Recorded.lanes_next (h : s.Recorded task scores) (hsteady : s.Steady)
    (hn : Next s choice s') (hserving : s'.session.stage = .serving) {v : WorkerId} {seat' : Seat α}
    {r' : Record α WorkerId} (hseat' : s'.seat? v = some seat')
    (hr' : s'.flushed.record? v = some r') :
    Lane.Recorded (task v) (scoresOf v (scores ++ (s.score? choice).toList))
      ⟨seat'.worker, r'⟩ := by
  cases hn with
  | read w seat model hseat active waits mail fits =>
    -- a worker that waits does not train
    have hsilent : seat.worker.score? = none :=
      Worker.score?_of_point (by simp [Worker.isWaiting_iff.1 waits])
    rw [score?_of_seat hseat, hsilent, Option.toList_none, List.append_nil]
    rcases seat_of_modify hseat hseat' with ⟨rfl, rfl⟩ | ⟨-, hold⟩
    · exact (h.lanes v seat r' hseat hr').hear waits model fits
    · exact h.lanes v seat' r' hold hr'
  | move w seat moved m hseat active awake step =>
    rw [score?_of_seat hseat]
    exact h.of_move hsteady hseat step hseat' hr'
  | absorb m queue c head hb =>
    have hflushed : c.barrier.absorbAll queue = s.flushed := by
      unfold flushed
      rw [hb, head, Barrier.absorbAll_cons]
    simp only [score?, Option.toList_none, List.append_nil]
    exact h.lanes v seat' r' hseat' (hflushed ▸ hr')
  | meet m c model head average hb hw hs due =>
    simp only [score?, Option.toList_none, List.append_nil]
    obtain ⟨seat, hseat, hmet⟩ := hsteady.seat_of_meet average due hseat'
    rw [(s.met_frame hb).2.2.2, Barrier.record?_adopt] at hr'
    obtain ⟨r, hr, rfl⟩ := Option.map_eq_some_iff.1 hr'
    rw [hmet.worker_eq.1]
    exact (h.lanes v seat r hseat hr).release
  | leave w seat loss hseat | lose w seat cause hseat =>
    simp only [score?, Option.toList_none, List.append_nil]
    rcases seat_of_modify hseat hseat' with ⟨rfl, rfl⟩ | ⟨-, hold⟩
    · exact h.lanes v seat r' hseat hr'
    · exact h.lanes v seat' r' hold hr'
  | stop all running =>
    simp only [score?, Option.toList_none, List.append_nil]
    exact h.lanes v seat' r' hseat' hr'
  | refuse m c cause replies =>
    rw [(deliverAll_frame _ replies).2.1] at hserving
    cases hserving
  | conclude session replies stopped stop =>
    rw [(deliverAll_frame _ replies).2.1] at hserving
    cases stop <;> cases hserving

/-- Every step adds what it shows. -/
theorem Recorded.next (h : s.Recorded task scores) (hsteady : s.Steady) (hn : Next s choice s')
    (hserving : s'.session.stage = .serving) :
    s'.Recorded task (scores ++ (s.score? choice).toList) := by
  refine ⟨fun w seat' r' hseat' hr' => h.lanes_next hsteady hn hserving hseat' hr', fun e he => ?_⟩
  have hbefore : ∃ seat, s.seat? e.worker = some seat := by
    rcases List.mem_append.1 he with he | he
    · exact h.seated e he
    · exact hsteady.seated_of_score? (Option.mem_toList.1 he)
  obtain ⟨seat, hseat⟩ := hbefore
  obtain ⟨seat', hseat', -⟩ := hn.seated hseat
  exact ⟨seat', hseat'⟩

/-- So does every run. -/
theorem Recorded.run (h : s.Recorded task scores) (hsteady : s.Steady) {choices : List Choice}
    (hrun : s.run? choices = some s') (hserving : s'.session.stage = .serving) :
    s'.Recorded task (scores ++ s.scores choices) := by
  induction choices generalizing s scores with
  | nil =>
    cases hrun
    rw [System.scores, trace, List.append_nil]
    exact h
  | cons choice choices ih =>
    rw [run?_cons] at hrun
    obtain ⟨s₁, hstep, hrest⟩ := Option.bind_eq_some_iff.1 hrun
    have hnext := hsteady.next hstep
    have hserves := serving_of_run hrest hserving
    have hlast := ih (h.next hsteady hnext hserves) (hsteady.preserved hnext hserves) hrest
    rw [System.scores, trace_cons hstep, ← List.append_assoc]
    exact hlast

end System

/-! ## The whole task -/

namespace Task

variable {t : Task α} {visits : List (Visit α)} {l : Learner α}

/-- What is recorded before batch `i`. -/
def noteAt? (t : Task α) (visits : List (Visit α)) (i : Nat) : Option (LossLabel × α) :=
  if t.policy.isDue i then some (.batch i, lossOf visits (i - 1)) else none

theorem noteAt?_append {i : Nat} (hi : i ≤ visits.length) (v : Visit α) :
    t.noteAt? (visits ++ [v]) i = t.noteAt? visits i := by
  unfold noteAt?
  split
  · next due =>
    have hpos := ((isDue_iff_meets t i).1 due).1
    rw [lossOf_append (by omega)]
  · rfl

/-- The script shows the losses of the batches in order, -/
theorem scores_script (h : t.Course visits l) :
    (t.script visits).filterMap (Deed.score? t.id) =
      visits.map fun v => ⟨t.id, v.batch, v.loss⟩ := by
  induction h with
  | start => rfl
  | @visit visits l resumed next merged batch loss course resumes step ih =>
    have happroach : (t.approach visits l visits.length merged).filterMap (Deed.score? t.id) =
        [] := by
      cases merged <;> rfl
    have htrain : Deed.score? t.id (.train resumed batch) = some ⟨t.id, batch, loss⟩ := by
      simp [Deed.score?, step, Except.toOption]
    rw [script_append course (v := ⟨l, merged, resumed, batch, loss⟩) resumes, deeds,
      List.filterMap_append, List.filterMap_append, ih, happroach]
    simp [htrain]

/-- and has those recorded that come before a meeting. -/
theorem notes_script (h : t.Course visits l) :
    (t.script visits).filterMap Deed.note? =
      (List.range visits.length).filterMap (t.noteAt? visits) := by
  induction h with
  | start => rfl
  | @visit visits l resumed next merged batch loss course resumes step ih =>
    have hbefore : (List.range visits.length).filterMap (t.noteAt?
        (visits ++ [⟨l, merged, resumed, batch, loss⟩])) =
        (List.range visits.length).filterMap (t.noteAt? visits) :=
      List.filterMap_congr fun i hi => noteAt?_append (List.mem_range.1 hi).le _
    have hlast : (t.deeds visits visits.length ⟨l, merged, resumed, batch, loss⟩).filterMap
        Deed.note? = (t.noteAt? visits visits.length).toList := by
      unfold noteAt?
      cases resumes with
      | onward alone =>
        rw [if_neg (by rwa [isDue_iff_meets])]
        rfl
      | merged meets =>
        rw [if_pos ((isDue_iff_meets t _).2 meets)]
        rfl
    rw [script_append course (v := ⟨l, merged, resumed, batch, loss⟩) resumes,
      List.filterMap_append, ih, hlast, List.length_append, List.length_singleton, List.range_succ,
      List.filterMap_append, hbefore]
    cases hnote : t.noteAt? visits visits.length <;> simp [noteAt?_append le_rfl, hnote]

/-- Each label is used once, in its place. -/
theorem keySorted_notes (t : Task α) (visits : List (Visit α)) (mean : α) :
    KeySorted ((List.range visits.length).filterMap (t.noteAt? visits) ++ [(.final, mean)]) := by
  have hlabel : ∀ {i : Nat} {e : LossLabel × α}, t.noteAt? visits i = some e → e.1 = .batch i := by
    intro i e he
    unfold noteAt? at he
    split_ifs at he
    cases he
    rfl
  refine List.pairwise_append.2 ⟨?_, List.pairwise_singleton _ _, fun e he final hfinal => ?_⟩
  · refine List.pairwise_filterMap.2 (List.pairwise_lt_range.imp fun {i j} hij e he e' he' => ?_)
    rw [hlabel he, hlabel he']
    exact (Std.compare_eq_lt.2 hij : compare i j = .lt)
  · obtain ⟨i, -, hi⟩ := List.mem_filterMap.1 he
    rw [hlabel hi, List.mem_singleton.1 hfinal]
    rfl

end Task

/-- The losses that are recorded of a worker that has trained on all of its batches. -/
structure Noted (every : Nat) (losses : List α) (d : Dict LossLabel α) : Prop where
  /-- Before every `every`th batch that of the batch before, -/
  batch : ∀ i x, d.find? (.batch i) = some x ↔
    0 < i ∧ max every 1 ∣ i ∧ i < losses.length ∧ losses[i - 1]? = some x
  /-- and their mean in the end. -/
  final : d.find? .final = some (meanLoss (losses.foldl (· + ·) Scalar.zero) losses.length)

/-- What is recorded behind the whole script. -/
theorem Task.Course.noted {t : Task α} {visits : List (Visit α)} {l : Learner α}
    (h : t.Course visits l) (all : visits.length = t.total) :
    Noted t.policy.every (visits.map (·.loss))
      (Dict.ofList ((t.script visits ++ [t.leave visits l]).filterMap Deed.note?)) := by
  have hleave : [t.leave visits l].filterMap Deed.note? = [(.final, t.mean visits)] := rfl
  have hfind : ∀ k x, (Dict.ofList ((t.script visits ++ [t.leave visits l]).filterMap
      Deed.note?)).find? k = some x ↔
      (k, x) ∈ (List.range visits.length).filterMap (t.noteAt? visits) ++
        [(.final, t.mean visits)] := by
    intro k x
    rw [List.filterMap_append, Task.notes_script h, hleave]
    rw [← Dict.mem_entries_iff, Dict.entries_ofList (Task.keySorted_notes t visits _)]
  refine ⟨fun i x => ?_, (hfind _ _).2 (List.mem_append_right _ ?_)⟩
  · rw [hfind, List.length_map, List.getElem?_map, ← and_assoc, ← and_assoc]
    simp only [List.mem_append, List.mem_filterMap, List.mem_range, List.mem_singleton,
      Prod.mk.injEq, reduceCtorEq, false_and, or_false]
    constructor
    · rintro ⟨j, hj, hnote⟩
      unfold Task.noteAt? at hnote
      split_ifs at hnote with due
      cases hnote
      obtain ⟨hpos, hdvd⟩ := (Task.isDue_iff_meets t i).1 due
      refine ⟨⟨⟨hpos, hdvd⟩, hj⟩, ?_⟩
      have hlt : i - 1 < visits.length := by omega
      simp [Task.lossOf, List.getElem?_eq_getElem hlt]
    · rintro ⟨⟨meets, hi⟩, hloss⟩
      refine ⟨i, hi, ?_⟩
      rw [Task.noteAt?, if_pos ((Task.isDue_iff_meets t i).2 meets), Task.lossOf, hloss]
      rfl
  · rw [List.length_map, all]
    exact List.mem_singleton.2 rfl

/-- The record of a worker that has finished holds the losses of all its batches. -/
theorem Lane.Recorded.finished {t : Task α} {scores : List (Score α)} {l : Lane α}
    (h : l.Recorded t scores) {loss : α} (hp : l.worker.point = .finished loss) :
    scores.map (·.batch) = t.batches ∧ l.record.total = scores.length ∧
      Noted t.policy.every (scores.map (·.loss)) l.record.losses := by
  obtain ⟨htotal, deeds, hdoes, rfl, hlosses⟩ := h
  obtain ⟨visits, left, since, hstage, rfl⟩ := Task.stage_does hdoes
  have hstand := hstage.stand
  rw [hp] at hstand
  generalize hlearner : l.worker.learner = learner at hstand
  cases hstand with
  | finished all =>
    have hscores : (t.script visits ++ [t.leave visits l.worker.learner]).filterMap
        (Deed.score? t.id) = visits.map fun v => ⟨t.id, v.batch, v.loss⟩ := by
      rw [List.filterMap_append, Task.scores_script hstage.course]
      exact List.append_nil _
    rw [hlearner] at hscores
    rw [hscores, List.map_map, List.map_map, List.length_map, hlosses, htotal, hstage.total_eq]
    refine ⟨?_, all.symm, hstage.course.noted all⟩
    have hvisited := hstage.visited
    rw [all] at hvisited
    exact hvisited.trans List.take_length

end Federated
