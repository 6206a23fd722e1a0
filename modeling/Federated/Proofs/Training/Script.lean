/-
  Federated.Proofs.Training.Script

  What one worker says and does, whatever the others do: whether its messages are taken, which
  models it is answered with, and whether it is answered at all.

    * `Worker.Move`, `Worker.Does` — the moves of a worker among others, and runs of them.
    * `Task.Course` — the batches that a worker has trained on, with the learners before, in and
      behind each of them.
    * `Task.script`, `Task.Stand` — what it has done for those batches, and since.
    * `Task.Stage.move` — every move goes on in the script.
-/
import Federated.Proofs.Training.Worker

namespace Federated

variable {α : Type}

/-- Something that a worker does. -/
inductive Deed (α : Type) where
  /-- It sends a message. -/
  | tell (message : Message α WorkerId)
  /-- It is answered with a merged model. -/
  | hear (model : Params α)
  /-- It sets out to train on a batch. -/
  | train (learner : Learner α) (batch : Batch α)

/-- Whether a message is a last one. -/
def Message.isFinish {τ : Type} : Message α τ → Bool
  | .finish _ _ _ _ => true
  | _ => false

namespace Worker

variable [Scalar α]

/-- One move of a worker, with what it does. Others decide whether its messages are taken and how
    its wait ends. -/
inductive Move (w : Worker α) : List (Deed α) → Worker α → Prop
  /-- It sends a message. -/
  | tell {moved : Worker α} {m : Message α WorkerId} (step : w.step? = some (moved, some m)) :
      Move w [.tell m] moved
  /-- Nobody takes its message. -/
  | refused {moved : Worker α} {m : Message α WorkerId} (step : w.step? = some (moved, some m)) :
      Move w [] moved.refused
  /-- It trains on a batch, or fails to. -/
  | train {moved : Worker α} {batch : Batch α} {rest : List (Batch α)}
      (step : w.step? = some (moved, none)) (remaining : w.remaining = batch :: rest) :
      Move w [.train w.learner batch] moved
  /-- It is answered with a merged model. -/
  | hear (waits : w.isWaiting = true) (model : Params α) :
      Move w [.hear model] (w.resume (.merged model))
  /-- It is told that there is no answer. -/
  | closed (waits : w.isWaiting = true) : Move w [] (w.resume .closed)
  /-- Its wait is cancelled. -/
  | cancelled (waits : w.isWaiting = true) : Move w [] w.cancelled

/-- Any number of moves. -/
inductive Does (w : Worker α) : List (Deed α) → Worker α → Prop
  | nothing : Does w [] w
  | more {deeds next : List (Deed α)} {w' w'' : Worker α} (does : Does w deeds w')
      (move : w'.Move next w'') : Does w (deeds ++ next) w''

theorem Move.does {w w' : Worker α} {deeds : List (Deed α)} (h : w.Move deeds w') :
    w.Does deeds w' := .more .nothing h

theorem Does.trans {w w' w'' : Worker α} {deeds more : List (Deed α)} (h : w.Does deeds w')
    (h' : w'.Does more w'') : w.Does (deeds ++ more) w'' := by
  induction h' with
  | nothing => rwa [List.append_nil]
  | more does move ih =>
    rw [← List.append_assoc]
    exact .more ih move

end Worker

/-! ## The script -/

/-- What a worker is given. -/
structure Task (α : Type) where
  id : WorkerId
  learner : Learner α
  spec : OptimizerSpec α
  policy : SyncPolicy
  batches : List (Batch α)

/-- A batch that a worker has trained on. -/
structure Visit (α : Type) where
  /-- The learner before the batch, -/
  learner : Learner α
  /-- the merged model that it was answered with there, if it met the others, -/
  merged : Option (Params α)
  /-- the learner that it went on with, -/
  resumed : Learner α
  batch : Batch α
  /-- and the loss of the batch. -/
  loss : α

namespace Task

variable [Scalar α]

/-- The worker before its first batch. -/
def worker (t : Task α) : Worker α := .start t.id t.learner t.spec t.policy t.batches

/-- The count of its batches. -/
def total (t : Task α) : Nat := t.batches.length

/-- Whether it meets the others before batch `i`. -/
def Meets (t : Task α) (i : Nat) : Prop := 0 < i ∧ max t.policy.every 1 ∣ i

/-- The learner that it trains on batch `i` with. Behind a meeting it is exactly the merged model,
    with a fresh optimizer unless the old one is kept. -/
inductive Resumes (t : Task α) (i : Nat) (l : Learner α) : Option (Params α) → Learner α → Prop
  | onward (alone : ¬ t.Meets i) : Resumes t i l none l
  | merged (meets : t.Meets i) {model : Params α} (fits : l.model.params.layout = model.layout) :
      Resumes t i l (some model) ⟨{ l.model with params := model },
        if t.policy.keep then l.optimizer else t.spec.build⟩

/-- Batches that it has trained on in order, and the learner behind the last of them. -/
inductive Course (t : Task α) : List (Visit α) → Learner α → Prop
  | start : Course t [] t.learner
  | visit {visits : List (Visit α)} {l resumed next : Learner α} {merged : Option (Params α)}
      {batch : Batch α} {loss : α} (course : Course t visits l)
      (resumes : t.Resumes visits.length l merged resumed)
      (step : resumed.step batch = .ok (loss, next)) :
      Course t (visits ++ [⟨l, merged, resumed, batch, loss⟩]) next

/-- The loss of batch `i`. -/
def lossOf (visits : List (Visit α)) (i : Nat) : α := ((visits[i]?).map (·.loss)).getD Scalar.zero

/-- The mean of the losses. -/
def mean (t : Task α) (visits : List (Visit α)) : α :=
  meanLoss ((visits.map (·.loss)).foldl (· + ·) Scalar.zero) t.total

/-- It announces batch `i`. -/
def announce (t : Task α) (i : Nat) : Deed α := .tell (.progress t.id i t.total)

/-- It publishes its model before batch `i`, with the loss of the batch before. -/
def publish (t : Task α) (visits : List (Visit α)) (l : Learner α) (i : Nat) : Deed α :=
  .tell (.submit t.id i l.model.params (lossOf visits (i - 1)) t.id)

/-- It publishes its final model. -/
def leave (t : Task α) (visits : List (Visit α)) (l : Learner α) : Deed α :=
  .tell (.finish t.id l.model.params (t.mean visits) t.total)

/-- It announces batch `i`, and meets the others if it is answered with a merged model there. -/
def approach (t : Task α) (visits : List (Visit α)) (l : Learner α) (i : Nat) :
    Option (Params α) → List (Deed α)
  | none => [t.announce i]
  | some model => [t.announce i, t.publish visits l i, .hear model]

/-- What it does for batch `i`. -/
def deeds (t : Task α) (visits : List (Visit α)) (i : Nat) (v : Visit α) : List (Deed α) :=
  t.approach visits v.learner i v.merged ++ [.train v.resumed v.batch]

/-- What it does for batches in order. -/
def script (t : Task α) (visits : List (Visit α)) : List (Deed α) :=
  visits.zipIdx.flatMap fun e => t.deeds visits e.2 e.1

/-- How a worker fails that has trained on some batches, and what it has done since. -/
inductive Fault (t : Task α) (visits : List (Visit α)) (l : Learner α) :
    FederatedError α → List (Deed α) → Prop
  /-- Its announcement or its final model is not taken. -/
  | gone : Fault t visits l (.coordinatorGone t.id) []
  /-- Its model is not taken. -/
  | unheard (meets : t.Meets visits.length) :
      Fault t visits l (.coordinatorGone t.id) [t.announce visits.length]
  /-- Its wait ends without an answer, or cannot be timed. -/
  | wait (meets : t.Meets visits.length) {cause : FederatedError α}
      (why : cause = .coordinatorGone t.id ∨ cause = .cancelled t.id ∨
        t.policy.timed t.id visits.length = false ∧
          cause = .workerFailed (t.id.name ++ ": the wait cannot be timed")) :
      Fault t visits l cause [t.announce visits.length, t.publish visits l visits.length]
  /-- The merged model cannot be loaded. -/
  | load (meets : t.Meets visits.length) {model : Params α} {cause : ModelError}
      (refused : l.model.load model = .error cause) :
      Fault t visits l (.model cause) (t.approach visits l visits.length (some model))
  /-- It cannot train on the batch. -/
  | step {merged : Option (Params α)} {resumed : Learner α} {batch : Batch α}
      {halt : Halt ModelError} (next : t.batches[visits.length]? = some batch)
      (resumes : t.Resumes visits.length l merged resumed)
      (refused : resumed.step batch = .error halt) :
      Fault t visits l (Worker.stepFailure t.id halt)
        (t.approach visits l visits.length merged ++ [.train resumed batch])

/-- Where a worker stands that has trained on some batches, with which learner, and what it has
    done since. -/
inductive Stand (t : Task α) (visits : List (Visit α)) (l : Learner α) :
    WorkerPoint α → Learner α → List (Deed α) → Prop
  | announcing : Stand t visits l .announcing l []
  | joining (more : visits.length < t.total) (meets : t.Meets visits.length) :
      Stand t visits l .joining l [t.announce visits.length]
  | waiting (more : visits.length < t.total) (meets : t.Meets visits.length) :
      Stand t visits l .waiting l
        [t.announce visits.length, t.publish visits l visits.length]
  | stepping {merged : Option (Params α)} {resumed : Learner α} (more : visits.length < t.total)
      (resumes : t.Resumes visits.length l merged resumed) :
      Stand t visits l .stepping resumed (t.approach visits l visits.length merged)
  | finished (all : visits.length = t.total) :
      Stand t visits l (.finished (t.mean visits)) l [t.leave visits l]
  | failed {cause : FederatedError α} {left : Learner α} {since : List (Deed α)}
      (fault : t.Fault visits l cause since) : Stand t visits l (.failed cause) left since

/-- How far a worker has come. -/
structure Stage (t : Task α) (visits : List (Visit α)) (l : Learner α) (since : List (Deed α))
    (w : Worker α) : Prop where
  id_eq : w.id = t.id
  spec_eq : w.spec = t.spec
  policy_eq : w.policy = t.policy
  total_eq : w.total = t.total
  index_eq : w.index = visits.length
  remaining_eq : w.remaining = t.batches.drop visits.length
  sum_eq : w.lossSum = (visits.map (·.loss)).foldl (· + ·) Scalar.zero
  last_eq : 0 < visits.length → w.lastLoss = lossOf visits (visits.length - 1)
  course : t.Course visits l
  visited : visits.map (·.batch) = t.batches.take visits.length
  stand : t.Stand visits l w.point w.learner since

variable {t : Task α}

theorem stage_start (t : Task α) : t.Stage [] t.learner [] t.worker :=
  { id_eq := rfl
    spec_eq := rfl
    policy_eq := rfl
    total_eq := rfl
    index_eq := rfl
    remaining_eq := rfl
    sum_eq := rfl
    last_eq := fun h => absurd h (Nat.lt_irrefl 0)
    course := .start
    visited := rfl
    stand := .announcing }

omit [Scalar α] in
theorem isDue_iff_meets (t : Task α) (i : Nat) : t.policy.isDue i = true ↔ t.Meets i := by
  unfold SyncPolicy.isDue Meets
  rw [Bool.and_eq_true, decide_eq_true_eq, beq_iff_eq, Nat.dvd_iff_mod_eq_zero]

theorem lossOf_append {visits : List (Visit α)} {i : Nat} (h : i < visits.length) (v : Visit α) :
    lossOf (visits ++ [v]) i = lossOf visits i := by
  rw [lossOf, lossOf, List.getElem?_append_left h]

theorem approach_append {visits : List (Visit α)} {i : Nat} (hi : i ≤ visits.length)
    {l : Learner α} {merged : Option (Params α)} (hmerged : merged.isSome = true → 0 < i)
    (v : Visit α) : t.approach (visits ++ [v]) l i merged = t.approach visits l i merged := by
  cases merged with
  | none => rfl
  | some model =>
    have hpos := hmerged rfl
    rw [approach, approach, publish, publish, lossOf_append (by omega)]

/-- Whoever is answered has a batch behind it. -/
theorem Resumes.pos {i : Nat} {l resumed : Learner α} {merged : Option (Params α)}
    (h : t.Resumes i l merged resumed) (hmerged : merged.isSome = true) : 0 < i := by
  cases h with
  | onward => cases hmerged
  | merged meets => exact meets.1

/-- What the batches of a course have in common. -/
theorem Course.resumes {visits : List (Visit α)} {l : Learner α} (h : t.Course visits l) {i : Nat}
    {v : Visit α} (hv : visits[i]? = some v) : t.Resumes i v.learner v.merged v.resumed := by
  induction h with
  | start => cases hv
  | @visit visits l resumed next merged batch loss course resumes step ih =>
    rcases Nat.lt_or_ge i visits.length with hlt | hge
    · rw [List.getElem?_append_left hlt] at hv
      exact ih hv
    · rw [List.getElem?_append_right hge, List.getElem?_singleton] at hv
      split_ifs at hv with hi
      cases hv
      obtain rfl : i = visits.length := by omega
      exact resumes

/-- One more batch adds to the script what is done for it. -/
theorem script_append {visits : List (Visit α)} {l : Learner α} (h : t.Course visits l)
    {v : Visit α} (hv : t.Resumes visits.length v.learner v.merged v.resumed) :
    t.script (visits ++ [v]) = t.script visits ++ t.deeds visits visits.length v := by
  have hbefore : ∀ e ∈ visits.zipIdx,
      t.deeds (visits ++ [v]) e.2 e.1 = t.deeds visits e.2 e.1 := by
    rintro ⟨u, i⟩ he
    have hu := List.mem_zipIdx_iff_getElem?.1 he
    have hi : i < visits.length := (List.getElem?_eq_some_iff.1 hu).1
    rw [deeds, deeds, approach_append hi.le (h.resumes hu).pos]
  have hlast : t.deeds (visits ++ [v]) visits.length v = t.deeds visits visits.length v := by
    rw [deeds, deeds, approach_append le_rfl hv.pos]
  rw [script, List.zipIdx_append, List.flatMap_append, List.flatMap_congr hbefore]
  simp [hlast, script]

section
variable {visits : List (Visit α)} {l : Learner α} {since : List (Deed α)} {w w' : Worker α}

/-- A worker that goes on with the same batches. -/
theorem Stage.goto (h : t.Stage visits l since w) {point : WorkerPoint α} {since' : List (Deed α)}
    (stand : t.Stand visits l point w.learner since') :
    t.Stage visits l since' (w.goto point) :=
  { h with stand }

theorem Stage.lt_total (h : t.Stage visits l since w) (rest : w.remaining ≠ []) :
    visits.length < t.total := by
  rw [h.remaining_eq] at rest
  exact Nat.lt_of_not_le fun hle => rest (List.drop_eq_nil_of_le hle)

theorem Stage.length_le (h : t.Stage visits l since w) : visits.length ≤ t.total := by
  have hlength := congrArg List.length h.visited
  rw [List.length_map, List.length_take] at hlength
  exact hlength.trans_le (Nat.min_le_right _ _)

/-- Where a message comes that a worker sends, and what it means that nobody takes it. -/
theorem Stage.tell (h : t.Stage visits l since w) {m : Message α WorkerId}
    (hs : w.Step w' (some m)) :
    t.Stage visits l (since ++ [.tell m]) w' ∧ t.Fault visits l (.coordinatorGone t.id) since := by
  have hstand := h.stand
  cases hs with
  | finish point rest =>
    rw [point] at hstand
    cases hstand
    have hall : visits.length = t.total := by
      refine Nat.le_antisymm h.length_le ?_
      rw [h.remaining_eq] at rest
      exact List.drop_eq_nil_iff.1 rest
    have hmean : meanLoss w.lossSum w.total = t.mean visits := by rw [h.sum_eq, h.total_eq]; rfl
    rw [hmean, h.id_eq, h.total_eq]
    exact ⟨h.goto (.finished hall), .gone⟩
  | announceSync point rest due =>
    rw [point] at hstand
    cases hstand
    rw [h.policy_eq, h.index_eq, isDue_iff_meets] at due
    rw [h.id_eq, h.index_eq, h.total_eq]
    exact ⟨h.goto (.joining (h.lt_total rest) due), .gone⟩
  | announce point rest due =>
    rw [point] at hstand
    cases hstand
    rw [h.policy_eq, h.index_eq, ← Bool.not_eq_true, isDue_iff_meets] at due
    rw [h.id_eq, h.index_eq, h.total_eq]
    exact ⟨h.goto (.stepping (h.lt_total rest) (.onward due)), .gone⟩
  | submit point =>
    rw [point] at hstand
    cases hstand with
    | joining more meets =>
      have hpublish : (.tell (.submit w.id w.index w.learner.model.params w.lastLoss w.id) :
          Deed α) = t.publish visits w.learner visits.length := by
        rw [h.id_eq, h.index_eq, h.last_eq meets.1]
        rfl
      rw [hpublish]
      refine ⟨h.goto ?_, .unheard meets⟩
      unfold Worker.joined
      split_ifs with timed
      · exact .waiting more meets
      · rw [h.policy_eq, h.id_eq, h.index_eq, Bool.not_eq_true] at timed
        exact .failed (.wait meets (.inr (.inr ⟨timed, by rw [h.id_eq]⟩)))

theorem Stage.next_batch (h : t.Stage visits l since w) {batch : Batch α} {rest : List (Batch α)}
    (remaining : w.remaining = batch :: rest) :
    t.batches[visits.length]? = some batch ∧ rest = t.batches.drop (visits.length + 1) := by
  rw [h.remaining_eq] at remaining
  constructor
  · rw [← List.head?_drop, remaining, List.head?_cons]
  · rw [← List.tail_drop, remaining, List.tail_cons]

/-- A batch that a worker trains on is one more of its course. -/
theorem Stage.train {merged : Option (Params α)}
    (h : t.Stage visits l (t.approach visits l visits.length merged) w)
    (resumes : t.Resumes visits.length l merged w.learner) {batch : Batch α}
    {rest : List (Batch α)} {loss : α} {learner : Learner α}
    (remaining : w.remaining = batch :: rest) (ok : w.learner.step batch = .ok (loss, learner)) :
    t.Stage (visits ++ [⟨l, merged, w.learner, batch, loss⟩]) learner []
      { w with
        learner
        remaining := rest
        index := w.index + 1
        lossSum := w.lossSum + loss
        lastLoss := loss
        point := .announcing } := by
  obtain ⟨hbatch, hrest⟩ := h.next_batch remaining
  exact
    { id_eq := h.id_eq
      spec_eq := h.spec_eq
      policy_eq := h.policy_eq
      total_eq := h.total_eq
      index_eq := by simp [h.index_eq]
      remaining_eq := by simp [hrest]
      sum_eq := by simp [h.sum_eq]
      last_eq := fun _ => by simp [lossOf]
      course := .visit h.course resumes ok
      visited := by
        rw [List.map_append, h.visited, List.length_append, List.length_singleton,
          List.take_add_one, hbatch]
        rfl
      stand := .announcing }

/-- A worker that is answered with a model that fits goes on with it. -/
theorem Stage.hear (h : t.Stage visits l since w) (waits : w.isWaiting = true) {model : Params α}
    (fits : w.learner.model.params.layout = model.layout) :
    t.Stage visits l (t.approach visits l visits.length (some model))
      (w.resume (.merged model)) := by
  have hstand := h.stand
  rw [Worker.isWaiting_iff.1 waits] at hstand
  cases hstand with
  | waiting more meets =>
    rw [Worker.resume_merged fits]
    refine { h with stand := ?_ }
    show t.Stand visits _ .stepping
      ⟨_, if w.policy.keep then w.learner.optimizer else w.spec.build⟩ _
    rw [h.policy_eq, h.spec_eq]
    exact .stepping more (.merged meets fits)

/-- Every move of a worker goes on in its script. -/
theorem Stage.move (h : t.Stage visits l since w) {next : List (Deed α)} (hm : w.Move next w') :
    ∃ visits' l' since', t.Stage visits' l' since' w' ∧
      t.script visits ++ since ++ next = t.script visits' ++ since' := by
  cases hm with
  | tell step =>
    exact ⟨visits, l, _, (h.tell (Worker.step_of_step? step)).1, List.append_assoc _ _ _⟩
  | refused step =>
    obtain ⟨hmoved, fault⟩ := h.tell (Worker.step_of_step? step)
    refine ⟨visits, l, since, hmoved.goto ?_, List.append_nil _⟩
    rw [hmoved.id_eq]
    exact .failed fault
  | @train moved batch rest step remaining =>
    cases Worker.step_of_step? step with
    | train batch' rest' loss learner point remaining' ok =>
      obtain ⟨rfl, rfl⟩ := List.cons.inj (remaining.symm.trans remaining')
      have hstand := h.stand
      rw [point] at hstand
      generalize hresumed : w.learner = resumed at hstand
      cases hstand with
      | stepping more resumes =>
        rw [← hresumed] at resumes
        have hscript := script_append h.course (v := ⟨l, _, w.learner, batch, loss⟩) resumes
        refine ⟨_, learner, [], h.train resumes remaining ok, ?_⟩
        rw [hscript, hresumed, List.append_nil, List.append_assoc]
        rfl
    | fail batch' rest' halt point remaining' refused =>
      obtain ⟨rfl, rfl⟩ := List.cons.inj (remaining.symm.trans remaining')
      refine ⟨visits, l, since ++ [.train w.learner batch], h.goto ?_, List.append_assoc _ _ _⟩
      have hstand := h.stand
      rw [point] at hstand
      generalize w.learner = resumed at hstand refused
      cases hstand with
      | stepping more resumes =>
        rw [h.id_eq]
        exact .failed (.step (h.next_batch remaining).1 resumes refused)
  | hear waits model =>
    have hstand := h.stand
    rw [Worker.isWaiting_iff.1 waits] at hstand
    cases hstand with
    | waiting more meets =>
      refine ⟨visits, w.learner, t.approach visits w.learner visits.length (some model), ?_,
        List.append_assoc _ _ _⟩
      cases hload : w.learner.model.load model with
      | error cause =>
        have hresume : w.resume (.merged model) = w.goto (.failed (.model cause)) := by
          simp only [Worker.resume, hload]
        rw [hresume]
        exact h.goto (.failed (.load meets hload))
      | ok loaded => exact h.hear waits (Affine.load_eq_ok_iff.1 hload).1
  | closed waits =>
    have hstand := h.stand
    rw [Worker.isWaiting_iff.1 waits] at hstand
    cases hstand with
    | waiting more meets =>
      refine ⟨visits, w.learner, _, h.goto (.failed (.wait meets (.inl ?_))), List.append_nil _⟩
      rw [h.id_eq]
  | cancelled waits =>
    have hstand := h.stand
    rw [Worker.isWaiting_iff.1 waits] at hstand
    cases hstand with
    | waiting more meets =>
      refine ⟨visits, w.learner, _, h.goto (.failed (.wait meets (.inr (.inl ?_)))),
        List.append_nil _⟩
      rw [h.id_eq]

end

/-- Whatever a worker has done is its script for the batches that it has trained on, and what it
    has done since. -/
theorem stage_does {deeds : List (Deed α)} {w : Worker α} (h : t.worker.Does deeds w) :
    ∃ visits l since, t.Stage visits l since w ∧ deeds = t.script visits ++ since := by
  induction h with
  | nothing => exact ⟨[], t.learner, [], t.stage_start, rfl⟩
  | more does move ih =>
    obtain ⟨visits, l, since, hstage, rfl⟩ := ih
    exact hstage.move move

end Task

end Federated
