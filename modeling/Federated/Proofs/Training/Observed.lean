/-
  Federated.Proofs.Training.Observed

  What can be seen of the workers of an epoch while it runs is true of them, whatever the order in
  which they move and their messages are taken: nobody is said to be further than it is, or not to
  have been where it was seen before.

    * `System.views` — the states that the coordinator passes through in a run.
    * `Worker.Honest`, `Worker.Honest.step` — where a worker is, and what it tells.
    * `System.Honest`, `System.Honest.run` — the invariant: what is told is true, and so is what is
      reported.
    * `Epoch.progress_observed` — every state of the coordinator, and every board, in every run.
-/
import Federated.Proofs.Barrier.Truthful
import Federated.Proofs.Numeric.Exact
import Federated.Proofs.Training.Losses
import Federated.Proofs.Training.Start
import Federated.Proofs.Training.Touched

namespace Federated

variable {α : Type} [Scalar α]

/-! ## What can be seen of a run -/

namespace System

/-- The states of the coordinator on the way through a step. -/
def viewsOf (s : System α) : Choice → List (Coordinator α WorkerId)
  | .receive =>
    match s.queue with
    | [] => []
    | m :: _ => s.session.receiveViews m
  | .conclude => if s.stopped then s.session.concludeViews s.queue else []
  | _ => []

/-- The states that the coordinator passes through in a run, from the one it starts in. -/
def views (s : System α) (choices : List Choice) : List (Coordinator α WorkerId) :=
  s.session.coordinator :: (s.trace (fun s choice => some (s.viewsOf choice)) choices).flatten

variable {s s' : System α} {choice : Choice}

omit [Scalar α] in
theorem session_withSession (s : System α) (session : Session α WorkerId)
    (queue : List (Message α WorkerId)) (replies : List (Reply α WorkerId)) :
    (s.withSession session queue replies).session = session := by
  rw [withSession]
  split <;> exact (deliverAll_frame _ _).2.1

omit [Scalar α] in
theorem queue_withSession (s : System α) (session : Session α WorkerId)
    (queue : List (Message α WorkerId)) (replies : List (Reply α WorkerId)) :
    (s.withSession session queue replies).queue ⊆ queue := by
  rw [withSession]
  split
  · rw [(deliverAll_frame _ _).1]
    exact List.Subset.refl queue
  · rw [(deliverAll_frame _ _).1]
    exact List.nil_subset queue

/-- A step takes the coordinator through its views, with messages of the queue. -/
theorem way_of_step? (h : s.step? choice = some s') :
    Way (Coordinator.Tick s.queue) s.session.coordinator (s.viewsOf choice)
      s'.session.coordinator := by
  cases choice with
  | act w =>
    obtain ⟨-, seat, -, hacted⟩ := acted_of_step? h
    cases hacted with
    | read | silent => exact .stay _
    | send moved m awake step =>
      rw [dispatch]
      split <;> exact .stay _
  | receive =>
    simp only [step?] at h
    split at h
    · next m queue hstage hqueue =>
      cases h
      rw [session_withSession]
      have hviews : s.viewsOf .receive = s.session.receiveViews m := by rw [viewsOf, hqueue]
      rw [hviews, hqueue]
      exact (s.session.way_receive m).imp fun _ _ => Coordinator.Tick.mono
        (List.cons_subset_cons m (List.nil_subset queue))
    · cases h
  | join w =>
    obtain ⟨-, seat, -, -, hjoined⟩ := joined_of_step? h
    cases hjoined <;> exact .stay _
  | stop =>
    obtain ⟨-, rfl⟩ := stopped_of_step? h
    exact .stay _
  | conclude =>
    simp only [step?] at h
    split at h
    · split at h
      · next hstopped =>
        cases h
        rw [session_withSession, viewsOf, if_pos hstopped]
        exact s.session.way_conclude s.queue
      · cases h
    · cases h

end System

/-! ## One worker -/

namespace Worker

/-- A worker that has trained on `trained` of its `total` batches and has the others left. -/
structure Honest (w : WorkerId) (total trained : Nat) (worker : Worker α) : Prop where
  id_eq : worker.id = w
  total_eq : worker.total = total
  index_eq : worker.index = trained
  rest : trained + worker.remaining.length = total

variable {w : WorkerId} {total trained : Nat} {worker moved : Worker α}
  {m : Option (Message α WorkerId)}

omit [Scalar α] in
theorem Honest.goto (h : worker.Honest w total trained) (point : WorkerPoint α) :
    (worker.goto point).Honest w total trained := ⟨h.id_eq, h.total_eq, h.index_eq, h.rest⟩

/-- An answer takes no batch away. -/
theorem Honest.resume (h : worker.Honest w total trained) (answer : Answer α) :
    (worker.resume answer).Honest w total trained := by
  cases answer with
  | closed => exact h.goto _
  | merged model =>
    rw [Worker.resume]
    split
    · exact h.goto _
    · exact ⟨h.id_eq, h.total_eq, h.index_eq, h.rest⟩

/-- A step counts the batch that it trains on, and no other. -/
theorem Honest.step (h : worker.Honest w total trained) (hs : worker.Step moved m) :
    moved.Honest w total (trained + worker.score?.toList.length) := by
  cases hs with
  | finish point | announceSync point | announce point | submit point =>
    rw [score?_of_point (by simp [point])]
    exact h.goto _
  | train batch rest loss learner point remaining ok =>
    have hscore : worker.score? = some ⟨worker.id, batch, loss⟩ := by
      simp [score?, point, remaining, Deed.score?, ok, Except.toOption]
    have hrest := h.rest
    rw [remaining, List.length_cons] at hrest
    rw [hscore]
    refine ⟨h.id_eq, h.total_eq, congrArg (· + 1) h.index_eq, ?_⟩
    show trained + 1 + rest.length = total
    omega
  | fail batch rest halt point remaining refused =>
    have hscore : worker.score? = none := by
      simp [score?, point, remaining, Deed.score?, refused, Except.toOption]
    rw [hscore]
    exact h.goto _

/-- What a worker tells is true of it. -/
theorem Honest.tell (h : worker.Honest w total trained) {msg : Message α WorkerId}
    (hs : worker.Step moved (some msg)) : msg.Truthful total trained := by
  have hrest := h.rest
  have hindex : worker.index ≤ total ∧ worker.index ≤ trained := by
    rw [h.index_eq]
    omega
  cases hs with
  | finish point rest =>
    rw [rest, List.length_nil] at hrest
    exact ⟨h.total_eq, by omega⟩
  | announceSync | announce => exact ⟨h.total_eq, hindex⟩
  | submit => exact hindex

end Worker

/-! ## All workers -/

/-- The number of batches that a worker has trained on, by what the steps of a run have shown. -/
def trainedOn (scores : List (Score α)) (w : WorkerId) : Nat := (scoresOf w scores).length

omit [Scalar α] in
theorem trainedOn_append (scores more : List (Score α)) (w : WorkerId) :
    trainedOn (scores ++ more) w = trainedOn scores w + (scoresOf w more).length := by
  rw [trainedOn, scoresOf_append, List.length_append, trainedOn]

omit [Scalar α] in
theorem trainedOn_le (scores more : List (Score α)) (w : WorkerId) :
    trainedOn scores w ≤ trainedOn (scores ++ more) w := by
  rw [trainedOn_append]
  exact Nat.le_add_right _ _

namespace System

/-- What the workers of an epoch have told is true, and so is what is reported of them. -/
structure Honest (total : WorkerId → Nat) (scores : List (Score α)) (s : System α) : Prop where
  seats : ∀ w seat, s.seat? w = some seat →
    seat.worker.Honest w (total w) (trainedOn scores w)
  queue : ∀ m ∈ s.queue, m.Truthful (total m.worker) (trainedOn scores m.worker)
  coordinator : s.session.coordinator.Truthful total (trainedOn scores)

variable {total : WorkerId → Nat} {scores : List (Score α)} {s s' : System α} {choice : Choice}

/-- A worker that moves, and trains on what its score shows, leaves all others where they were. -/
theorem Honest.seats_of_modify (h : s.Honest total scores) {v : WorkerId} {found : Seat α}
    (hfound : s.seat? v = some found) {f : Seat α → Seat α}
    (hf : (f found).worker.Honest v (total v)
      (trainedOn scores v + found.worker.score?.toList.length)) {w : WorkerId} {seat' : Seat α}
    (hseat' : (s.modify v f).seat? w = some seat') :
    seat'.worker.Honest w (total w) (trainedOn (scores ++ found.worker.score?.toList) w) := by
  have hown : ∀ e ∈ found.worker.score?.toList, e.worker = v := fun e he =>
    (Worker.worker_of_score? (Option.mem_toList.1 he)).trans (h.seats v found hfound).id_eq
  rw [trainedOn_append]
  rcases seat_of_modify hfound hseat' with ⟨rfl, rfl⟩ | ⟨hne, hold⟩
  · rw [scoresOf_of_own hown]
    exact hf
  · rw [scoresOf_of_others fun e he hw => hne (hw.symm.trans (hown e he))]
    exact h.seats w seat' hold

/-- The move of a worker keeps all that is told true. -/
theorem Honest.act (h : s.Honest total scores) {v : WorkerId} {found : Seat α}
    (hfound : s.seat? v = some found) (hacted : Acted s v found s') :
    s'.Honest total (scores ++ found.worker.score?.toList) := by
  have hseat := h.seats v found hfound
  have hcoordinator := h.coordinator.mono (trainedOn_le scores found.worker.score?.toList)
  have hqueue : ∀ m ∈ s.queue, m.Truthful (total m.worker)
      (trainedOn (scores ++ found.worker.score?.toList) m.worker) :=
    fun m hm => (h.queue m hm).mono (trainedOn_le scores _ m.worker)
  cases hacted with
  | read answer waits mail =>
    have hsilent : found.worker.score? = none :=
      Worker.score?_of_point (by simp [Worker.isWaiting_iff.1 waits])
    refine ⟨fun w seat' hseat' => h.seats_of_modify hfound ?_ hseat', hqueue, hcoordinator⟩
    rw [hsilent]
    exact hseat.resume answer
  | silent moved awake step =>
    exact ⟨fun w seat' hseat' => h.seats_of_modify hfound (hseat.step step) hseat', hqueue,
      hcoordinator⟩
  | send moved m awake step =>
    rw [dispatch]
    split
    · refine ⟨fun w seat' hseat' => h.seats_of_modify hfound (hseat.step step) hseat',
        fun msg hmsg => ?_, hcoordinator⟩
      rcases List.mem_append.1 hmsg with hold | hnew
      · exact hqueue msg hold
      · obtain rfl := List.mem_singleton.1 hnew
        have hworker : msg.worker = v := (step.worker_eq rfl).trans hseat.id_eq
        rw [hworker]
        exact (hseat.tell step).mono (trainedOn_le scores _ v)
    · -- a worker whose message is refused stays where its step has brought it
      exact ⟨fun w seat' hseat' => h.seats_of_modify hfound ((hseat.step step).goto _) hseat',
        hqueue, hcoordinator⟩

/-- A step of the coordinator takes messages of the queue, and no other. -/
theorem queue_of_answered (hc : choice = .receive ∨ choice = .conclude)
    (h : s.step? choice = some s') : s'.queue ⊆ s.queue := by
  rcases hc with rfl | rfl
  · simp only [step?] at h
    split at h
    · next m queue hstage hqueue =>
      cases h
      rw [hqueue]
      exact List.Subset.trans (queue_withSession s _ _ _) (List.subset_cons_self m queue)
    · cases h
  · simp only [step?] at h
    split at h
    · split at h
      · cases h
        exact List.Subset.trans (queue_withSession s _ _ _) (List.nil_subset _)
      · cases h
    · cases h

/-- Every step keeps what is told and what is reported true. -/
theorem Honest.step (h : s.Honest total scores) (hs : s.step? choice = some s') :
    s'.Honest total (scores ++ (s.score? choice).toList) := by
  have hway := Coordinator.advance_of_way (way_of_step? hs) h.coordinator h.queue
  cases choice with
  | act v =>
    obtain ⟨-, found, hfound, hacted⟩ := acted_of_step? hs
    rw [score?_of_seat hfound]
    exact h.act hfound hacted
  | receive | conclude =>
    simp only [score?, Option.toList_none, List.append_nil]
    refine ⟨fun w seat' hseat' => ?_, fun m hm => ?_, hway.2⟩
    · obtain ⟨seat, mail, hseat, rfl⟩ := (answered_of_step? (by simp) hs).seats w seat' hseat'
      exact h.seats w seat hseat
    · exact h.queue m (queue_of_answered (by simp) hs hm)
  | join v =>
    simp only [score?, Option.toList_none, List.append_nil]
    obtain ⟨-, found, hfound, -, hjoined⟩ := joined_of_step? hs
    cases hjoined with
    | finished | failed =>
      refine ⟨fun w seat' hseat' => ?_, h.queue, h.coordinator⟩
      rcases seat_of_modify hfound hseat' with ⟨rfl, rfl⟩ | ⟨-, hold⟩
      · exact h.seats w found hfound
      · exact h.seats w seat' hold
  | stop =>
    simp only [score?, Option.toList_none, List.append_nil]
    obtain ⟨-, rfl⟩ := stopped_of_step? hs
    exact ⟨h.seats, h.queue, h.coordinator⟩

/-- So every run goes from one truthful state of the coordinator to the next, and never back. -/
theorem Honest.run (h : s.Honest total scores) {choices : List Choice}
    (hrun : s.run? choices = some s') :
    Way (Coordinator.Advance total (trainedOn (scores ++ s.scores choices))) s.session.coordinator
      (s.trace (fun s choice => some (s.viewsOf choice)) choices).flatten
      s'.session.coordinator := by
  induction choices generalizing s scores with
  | nil =>
    cases hrun
    exact .stay _
  | cons choice choices ih =>
    rw [run?_cons] at hrun
    obtain ⟨s₁, hstep, hrest⟩ := Option.bind_eq_some_iff.1 hrun
    have hlater := ih (h.step hstep) hrest
    rw [System.scores, trace_cons hstep, trace_cons hstep, ← List.append_assoc]
    refine .append ?_ hlater
    refine (Coordinator.advance_of_way (way_of_step? hstep) h.coordinator h.queue).1.imp ?_
    intro c c' hadvance
    refine hadvance.mono fun w => ?_
    rw [List.append_assoc]
    exact trainedOn_le scores _ w

end System

/-! ## Epochs -/

namespace Epoch

/-- The batches of a worker's shard. -/
def shardSize (shards : List (List (Batch α))) (w : WorkerId) : Nat :=
  (shards[w.index]?.getD []).length

variable {config : FederatedConfig} {clock : Clock} {model : Affine α}
  {shards : List (List (Batch α))} {bank : Bank α} {s : System α}

theorem Begun.honest (h : Begun config clock model shards bank s) :
    s.Honest (shardSize shards) [] := by
  refine ⟨fun w seat hseat => ?_, fun m hm => ?_, ?_⟩
  · obtain ⟨shard, optimizer, hshard, rfl⟩ := h.seats w seat hseat
    have hsize : shardSize shards w = shard.length := by
      rw [shardSize, hshard]
      rfl
    rw [hsize]
    exact ⟨rfl, rfl, rfl, Nat.zero_add _⟩
  · rw [h.empty] at hm
    cases hm
  · rw [h.session]
    refine Coordinator.truthful_ofTotals _ _ fun w n hn => ?_
    rw [List.getElem?_map] at hn
    obtain ⟨shard, hshard, rfl⟩ := Option.map_eq_some_iff.1 hn
    rw [shardSize, hshard]
    rfl

/-- What reports say of the workers of an epoch, of whose batches `scores` have been trained on. -/
structure Observed (shards : List (List (Batch α))) (scores : List (Score α))
    (reports : List (Report α)) : Prop where
  /-- There is a report of every worker, with the count of its batches, -/
  workers : reports.map (·.worker) = (List.range shards.length).map WorkerId.mk
  totals : reports.map (·.total) = shards.map List.length
  /-- and with no more of them done than it has, and than it has trained on. -/
  bounded : ∀ r ∈ reports, r.done ≤ r.total
  trained : ∀ r ∈ reports, r.done ≤ (scoresOf r.worker scores).length
  /-- Who is reported as finished has done all, and nobody else has a final loss. -/
  finished : ∀ r ∈ reports, r.finished = true → r.done = r.total
  final : ∀ r ∈ reports, (r.losses.find? .final).isSome = true ↔ r.finished = true

omit [Scalar α] in
/-- Truthful reports in the order of the workers. -/
theorem observed_of_getElem? {scores : List (Score α)} {reports : List (Report α)}
    (hlength : reports.length = shards.length)
    (h : ∀ (i : Nat) (r : Report α), reports[i]? = some r →
      r.worker = ⟨i⟩ ∧ r.Truthful (shardSize shards ⟨i⟩) (trainedOn scores ⟨i⟩)) :
    Observed shards scores reports := by
  have hmem : ∀ r ∈ reports, r.Truthful r.total (trainedOn scores r.worker) := by
    intro r hr
    obtain ⟨i, hi⟩ := List.mem_iff_getElem?.1 hr
    obtain ⟨hworker, htruthful⟩ := h i r hi
    rwa [hworker, htruthful.total_eq]
  refine ⟨?workers, ?totals, fun r hr => (hmem r hr).le_total, fun r hr => (hmem r hr).le_trained,
    fun r hr => (hmem r hr).done_eq, fun r hr => (hmem r hr).final_iff⟩
  case workers =>
    refine List.ext_getElem (by simp [hlength]) fun i hi _ => ?_
    rw [List.length_map] at hi
    simp [(h i _ (List.getElem?_eq_getElem hi)).1]
  case totals =>
    refine List.ext_getElem (by simp [hlength]) fun i hi hi' => ?_
    rw [List.length_map] at hi hi'
    simp [(h i _ (List.getElem?_eq_getElem hi)).2.total_eq, shardSize, hi']

omit [Scalar α] in
/-- What a truthful coordinator reports, and what is on its board. -/
theorem observed_of_truthful {scores : List (Score α)} {c : Coordinator α WorkerId}
    (h : c.Truthful (shardSize shards) (trainedOn scores))
    (hsize : c.barrier.size = shards.length) :
    Observed shards scores c.barrier.reports ∧ Observed shards scores c.board.toList := by
  constructor
  · refine observed_of_getElem? (c.barrier.length_reports.trans hsize) fun i r hr => ?_
    rw [Barrier.getElem?_reports] at hr
    exact ⟨Barrier.worker_of_report? hr, h.reported ⟨i⟩ r hr⟩
  · refine observed_of_getElem? (h.size.trans hsize) fun i r hr => ?_
    rw [Board.getElem?_toList] at hr
    exact h.shown ⟨i⟩ r hr

/-- In every run of an epoch, that is in whatever order its workers move and their messages are
    taken, whatever the coordinator reports and whatever the board shows is true of all workers at
    that time, and neither of them ever shows less progress than before. A run may stop anywhere, so
    what is reported of a worker is measured by the batches that it has trained on by then. -/
theorem progress_observed (config : FederatedConfig) (clock : Clock) (model : Affine α)
    (bank : Bank α) (hne : shards ≠ []) (hfull : ∀ shard ∈ shards, shard ≠ []) :
    ∃ s₀, start config clock model shards bank = .ok s₀ ∧
      ∀ choices last, s₀.run? choices = some last →
        (s₀.views choices).getLast? = some last.session.coordinator ∧
        (∀ c ∈ s₀.views choices, Observed shards (s₀.scores choices) c.barrier.reports ∧
          Observed shards (s₀.scores choices) c.board.toList) ∧
        (s₀.views choices).Pairwise fun c later =>
          NoLess c.barrier.reports later.barrier.reports ∧
            NoLess c.board.toList later.board.toList := by
  obtain ⟨s₀, hstart, hbegun⟩ := exists_begun config clock model bank hne hfull
  refine ⟨s₀, hstart, fun choices last hrun => ?_⟩
  have hhonest := hbegun.honest
  have hway := hhonest.run hrun
  rw [List.nil_append] at hway
  have hgrows : (s₀.views choices).Pairwise Coordinator.Grows :=
    hway.pairwise (fun _ _ hadvance => hadvance.grows) fun _ _ _ => Coordinator.Grows.trans
  refine ⟨hway.getLast?_eq, fun c hc => ?observed, ?grows⟩
  case grows => exact hgrows.imp fun h => ⟨h.reports, h.board⟩
  case observed =>
    have hsize : s₀.session.coordinator.barrier.size = shards.length := by
      show s₀.barrier.size = shards.length
      rw [hbegun.barrier]
      simp [Barrier.ofTotals, Barrier.size]
    rcases List.mem_cons.1 hc with rfl | hlater
    · exact observed_of_truthful (hhonest.coordinator.mono fun w => trainedOn_le [] _ w) hsize
    · have hreports := ((List.pairwise_cons.1 hgrows).1 c hlater).reports.length_eq
      rw [Barrier.length_reports, Barrier.length_reports, hsize] at hreports
      exact observed_of_truthful
        (hway.forall_mem (fun _ _ hadvance => hadvance.truthful) c hlater) hreports.symm

/-- The second of two workers trains on a batch and goes on to the next one before its first message
    is taken. The barrier learns of that batch with its second message, and the board just behind
    the barrier. -/
theorem progress_observed_pair :
    let config : FederatedConfig := { syncEvery := 1 }
    let clock : Clock := fun _ i => Nat.pow 10 18 + i
    let model : Affine ℚ := Affine.ofWeights (Matrix.zeros 1 1)
    let batch (y : ℚ) : Batch ℚ := ⟨Matrix.ofFn 1 1 fun _ _ => 1, Matrix.ofFn 1 1 fun _ _ => y⟩
    let shards := [[batch 2], [batch 1, batch 3]]
    let bank : Bank ℚ := Bank.ofSpec (.descent (1 / 4))
    let choices : List Choice := [.act ⟨1⟩, .act ⟨1⟩, .act ⟨1⟩, .receive, .receive]
    shards ≠ [] ∧ (∀ shard ∈ shards, shard ≠ []) ∧
      ∃ s₀ last, start config clock model shards bank = .ok s₀ ∧ s₀.run? choices = some last ∧
        (s₀.views choices).map (fun c =>
          (c.barrier.reports.map (·.done), c.board.toList.map (·.done))) =
          [([0, 0], [0, 0]), ([0, 0], [0, 0]), ([0, 0], [0, 0]), ([0, 1], [0, 0]),
            ([0, 1], [0, 1])] ∧
        (s₀.views choices).getLast? = some last.session.coordinator ∧
        (∀ c ∈ s₀.views choices, Observed shards (s₀.scores choices) c.barrier.reports ∧
          Observed shards (s₀.scores choices) c.board.toList) ∧
        (s₀.views choices).Pairwise fun c later =>
          NoLess c.barrier.reports later.barrier.reports ∧
            NoLess c.board.toList later.board.toList := by
  intro config clock model batch shards bank choices
  have hne : shards ≠ [] := by simp [shards]
  have hfull : ∀ shard ∈ shards, shard ≠ [] := by simp [shards]
  obtain ⟨s₀, hstart, hall⟩ := progress_observed config clock model bank hne hfull
  have hrun : ((start config clock model shards bank).toOption.bind fun s =>
      s.run? choices).isSome = true := by
    decide +kernel
  have hviews : (start config clock model shards bank).toOption.map (fun s => (s.views choices).map
      fun c => (c.barrier.reports.map (·.done), c.board.toList.map (·.done))) =
      some [([0, 0], [0, 0]), ([0, 0], [0, 0]), ([0, 0], [0, 0]), ([0, 1], [0, 0]),
        ([0, 1], [0, 1])] := by
    decide +kernel
  rw [hstart] at hrun hviews
  obtain ⟨last, hlast⟩ := Option.isSome_iff_exists.1 hrun
  exact ⟨hne, hfull, s₀, last, hstart, hlast, Option.some.inj hviews, hall choices last hlast⟩

end Epoch

end Federated
