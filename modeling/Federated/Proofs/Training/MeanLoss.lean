/-
  Federated.Proofs.Training.MeanLoss

  In exact arithmetic the loss of an epoch is the mean of all its batch losses, however its workers
  are weighed and merged, how often they meet, and whatever turns they take.

    * `sum_map_scoresOf` — a sum over all scores, worker by worker.
    * `Epoch.loss_of_means` — the loss of reports that have the means of their workers.
    * `Begun.restricts` — no merge is refused for its weights.
    * `Recorded.accounts` — what is reported of an epoch whose workers have all finished.
    * `ByCounts.exists_ok`, `Begun.accounts` — that an epoch comes to a result, and to which.
    * `Epoch.loss_is_mean` — this for every epoch that has a result.
-/
import Federated.Proofs.Averaging.Consensus
import Federated.Proofs.Barrier.Board
import Federated.Proofs.Training.Losses
import Federated.Proofs.Training.Opening
import Federated.Proofs.Training.Rounds

namespace Federated

/-! ## Sums of scores -/

/-- What is summed worker by worker is summed over all scores. -/
theorem sum_map_scoresOf {α M : Type} [AddCommMonoid M] (f : Score α → M) {n : Nat}
    {scores : List (Score α)} (h : ∀ e ∈ scores, e.worker.index < n) :
    ((List.range n).map fun i => ((scoresOf ⟨i⟩ scores).map f).sum).sum = (scores.map f).sum := by
  induction scores with
  | nil => simp [scoresOf]
  | cons e scores ih =>
    obtain ⟨hlt, hrest⟩ := List.forall_mem_cons.1 h
    have hcons : ∀ i, ((scoresOf ⟨i⟩ (e :: scores)).map f).sum =
        (if e.worker.index = i then f e else 0) + ((scoresOf ⟨i⟩ scores).map f).sum := by
      intro i
      have hworker : e.worker = ⟨i⟩ ↔ e.worker.index = i :=
        ⟨fun h => congrArg WorkerId.index h, fun h => congrArg WorkerId.mk h⟩
      rw [scoresOf, List.filter_cons]
      simp only [decide_eq_true_eq, hworker]
      split_ifs
      · rw [List.map_cons, List.sum_cons]
        rfl
      · rw [zero_add]
        rfl
    have hone : ((List.range n).map fun i => if e.worker.index = i then f e else 0).sum = f e := by
      have hsum := Finset.sum_ite_eq (Finset.range n) e.worker.index fun _ => f e
      rwa [if_pos (Finset.mem_range.2 hlt)] at hsum
    rw [List.map_congr_left fun i _ => hcons i, List.sum_map_add, hone, ih hrest, List.map_cons,
      List.sum_cons]

-- the operations of exact arithmetic are written as those of the field
attribute [-instance] Scalar.toAdd Scalar.toSub Scalar.toMul Scalar.toDiv Scalar.toNeg

variable {K : Type} [Field K] [LinearOrder K] [Root K]

/-- The mean of losses is their sum over their count, zero without any. -/
theorem meanLoss_exact (losses : List K) :
    meanLoss (losses.foldl (· + ·) Scalar.zero) losses.length = losses.sum / losses.length := by
  rw [List.sum_eq_foldl, meanLoss]
  split_ifs with h
  · rw [h, Nat.cast_zero, div_zero]
    rfl
  · rfl

/-- The loss of reports that each have a mean is the mean of all. -/
theorem Epoch.loss_of_means [IsStrictOrderedRing K] {reports : List (Report K)}
    {losses : List (List K)} (h : reports.map (fun r => r.finalLoss?.map (·, r.total)) =
      losses.map fun l => some (l.sum / (l.length : K), l.length)) :
    Epoch.loss reports = (losses.map List.sum).sum / ((losses.map List.length).sum : Nat) := by
  have hfinal : (reports.filterMap fun r => r.finalLoss?.map (·, r.total)) =
      losses.map fun l => (l.sum / (l.length : K), l.length) := by
    calc (reports.filterMap fun r => r.finalLoss?.map (·, r.total))
        = (reports.map fun r => r.finalLoss?.map (·, r.total)).filterMap id := by
          rw [List.filterMap_map]
          rfl
      _ = losses.map fun l => (l.sum / (l.length : K), l.length) := by
          rw [h, List.filterMap_map, ← List.filterMap_eq_map]
          rfl
  have hmul : ∀ l : List K, l.sum / l.length * l.length = l.sum := by
    intro l
    rcases Nat.eq_zero_or_pos l.length with hzero | hpos
    · rw [List.length_eq_zero_iff.1 hzero]
      simp
    · exact div_mul_cancel₀ _ (Nat.cast_ne_zero.2 hpos.ne')
  have hsum : (losses.map fun l => (l.sum / (l.length : K), l.length)).foldl
      (fun sum e => sum + e.1 * Scalar.ofCount e.2) Scalar.zero = (losses.map List.sum).sum := by
    rw [List.foldl_map, List.sum_eq_foldl, List.foldl_map]
    exact congrArg (fun step => losses.foldl step 0) (funext₂ fun sum l => congrArg _ (hmul l))
  have hcount : (losses.map fun l => (l.sum / (l.length : K), l.length)).foldl
      (fun n e => n + e.2) 0 = (losses.map List.length).sum := by
    rw [List.foldl_map, List.sum_eq_foldl, List.foldl_map]
  simp only [Epoch.loss, hfinal, hsum, hcount]
  split_ifs with hzero
  · rw [hzero, Nat.cast_zero, div_zero]
    rfl
  · rfl

/-! ## The start -/

namespace Epoch

variable {config : FederatedConfig} {clock : Clock} {model : Affine K}
  {shards : List (List (Batch K))} {bank : Bank K} {s : System K}

/-- Workers that all have batches have positive weights, so that no merge is refused for them. -/
theorem Begun.restricts [IsStrictOrderedRing K] (h : Begun config clock model shards bank s)
    (hfull : ∀ shard ∈ shards, shard ≠ []) {ids : List WorkerId} (hne : ids ≠ [])
    (hs : ids.Pairwise fun v w => compare v w = .lt) (hids : ∀ w ∈ ids, w.index < shards.length) :
    ∃ restricted, s.session.coordinator.weights.restrict ids = .ok restricted := by
  have hweight : ∀ w ∈ ids, ∃ x, s.session.coordinator.weights.find? w = some x ∧ 0 < x := by
    intro w hw
    have hlt := hids w hw
    have htotal : (shards.map List.length)[w.index]? = some shards[w.index].length := by
      rw [List.getElem?_map, List.getElem?_eq_getElem hlt]
      rfl
    have hpos : 0 < shards[w.index].length :=
      List.length_pos_iff.2 (hfull _ (List.getElem_mem hlt))
    rw [h.session]
    refine ⟨_, Weights.find?_ofBatches config.weighting (keySorted_numbered _)
      (mem_numbered htotal), ?_⟩
    cases config.weighting with
    | uniform => exact zero_lt_one
    | proportional => exact Nat.cast_pos.2 hpos
  refine (Weights.restrict_isOk_iff hs).2 ⟨fun w hw => ?_, List.sum_pos _ (fun x hx => ?_) ?_⟩
  · obtain ⟨x, hfind, hpos⟩ := hweight w hw
    exact ⟨x, hfind, hpos.le⟩
  · obtain ⟨w, hw, rfl⟩ := List.mem_map.1 hx
    obtain ⟨x, hfind, hpos⟩ := hweight w hw
    rwa [Weights.shareOf_of_find? hfind]
  · simpa using hne

/-- What the worker of a shard is given. -/
def task (config : FederatedConfig) (clock : Clock) (model : Affine K)
    (shards : List (List (Batch K))) (bank : Bank K) (w : WorkerId) : Task K :=
  ⟨w, ⟨model, (bank.take w).1⟩, bank.spec, config.policy clock, shards[w.index]?.getD []⟩

/-- Nothing has been shown and nothing recorded at the start. -/
theorem Begun.recorded (h : Begun config clock model shards bank s)
    (hopened : Opened config clock model shards bank s) :
    s.Recorded (task config clock model shards bank) [] := by
  refine ⟨fun w seat r hseat hr => ?_, fun e he => nomatch he⟩
  rw [hopened.seats w] at hseat
  obtain ⟨shard, hshard, rfl⟩ := Option.map_eq_some_iff.1 hseat
  rw [System.flushed_of_empty h.empty, h.barrier, Barrier.record?_ofTotals_eq, List.getElem?_map,
    hshard] at hr
  cases hr
  have hbatches : (task config clock model shards bank w).batches = shard := by
    rw [task, hshard]
    rfl
  have hworker : Worker.start w ⟨model, (bank.take w).1⟩ bank.spec (config.policy clock) shard =
      (task config clock model shards bank w).worker := by
    rw [← hbatches]
    rfl
  rw [hworker]
  exact Lane.recorded_start _ _ (congrArg List.length hbatches.symm) rfl

end Epoch

/-! ## The end -/

/-- A last round changes nothing that is reported of workers that have finished. -/
theorem Barrier.reports_outcome {α τ : Type} {b : Barrier α τ}
    (h : ∀ w r, b.record? w = some r → r.status = .finished) (merged : Option (Params α)) :
    (b.outcome merged).reports = b.reports := by
  cases merged with
  | none => rfl
  | some model =>
    refine List.ext_getElem? fun i => ?_
    show (b.adopt model).reports[i]? = b.reports[i]?
    rw [getElem?_reports, getElem?_reports, report?, report?, record?_adopt]
    cases hr : b.record? ⟨i⟩ with
    | none => rfl
    | some r =>
      have hrelease : r.release = r := by
        rw [Record.release, h _ r hr]
        rfl
      rw [Option.map_some, hrelease]

/-- What reports have in common follows from the records, worker by worker. -/
theorem Barrier.map_reports {α β τ : Type} {b : Barrier α τ} {look : Report α → β} {shown : Nat → β}
    (h : ∀ i r, b.record? ⟨i⟩ = some r → look (reportOf ⟨i⟩ r) = shown i) :
    b.reports.map look = (List.range b.size).map shown := by
  refine List.ext_getElem? fun i => ?_
  rw [List.getElem?_map, getElem?_reports, report?, List.getElem?_map]
  rcases Nat.lt_or_ge i b.size with hlt | hge
  · have hr : b.record? ⟨i⟩ = some b.records[i] := Array.getElem?_eq_getElem hlt
    rw [hr, List.getElem?_range hlt, Option.map_some, Option.map_some, Option.map_some, h i _ hr]
  · have hr : b.record? ⟨i⟩ = none := Array.getElem?_eq_none hge
    rw [hr, List.getElem?_eq_none (by rwa [List.length_range])]
    rfl

/-- What an epoch reports of the batches that its workers have trained on, in exact arithmetic. -/
structure EpochResult.Accounts (every : Nat) (shards : List (List (Batch K)))
    (scores : List (Score K)) (e : EpochResult K) : Prop where
  /-- Every worker has trained on the batches of its shard in order, and nobody else on any. -/
  trained : ∀ w, (scoresOf w scores).map (·.batch) = shards[w.index]?.getD []
  /-- The loss is the mean of all batch losses. -/
  loss : e.loss = (scores.map (·.loss)).sum / ((shards.map List.length).sum : Nat)
  /-- There is a report of every worker, -/
  workers : e.reports.map (·.worker) = (List.range shards.length).map WorkerId.mk
  totals : e.reports.map (·.total) = shards.map List.length
  /-- which has, before every `every`th batch but the first, the loss of the batch before, -/
  batches : ∀ r ∈ e.reports, ∀ i x, r.losses.find? (.batch i) = some x ↔
    0 < i ∧ max every 1 ∣ i ∧ i < r.total ∧
      ((scoresOf r.worker scores).map (·.loss))[i - 1]? = some x
  /-- and the mean of all of them. -/
  final : ∀ r ∈ e.reports, r.losses.find? .final =
    some (((scoresOf r.worker scores).map (·.loss)).sum / r.total)

namespace System

variable {config : FederatedConfig} {clock : Clock} {model : Affine K}
  {shards : List (List (Batch K))} {bank bank' : Bank K} {scores : List (Score K)}
  {layout : Dict String (List Nat)} {s : System K}

/-- Once everyone has finished, every record holds the losses of its worker's batches. -/
theorem Recorded.settled_record (h : s.Recorded (Epoch.task config clock model shards bank) scores)
    (hr : s.Running (config.policy clock) (shards.map List.length) layout bank') (all : s.Settled)
    {w : WorkerId} {r : Record K WorkerId} (hrec : s.flushed.record? w = some r) :
    r.status = .finished ∧ (scoresOf w scores).map (·.batch) = shards[w.index]?.getD [] ∧
      r.total = (scoresOf w scores).length ∧
      Noted config.syncEvery ((scoresOf w scores).map (·.loss)) r.losses := by
  obtain ⟨seat, hseat⟩ := hr.steady.seat_of_record hrec
  obtain ⟨loss, hp⟩ := all.finished w seat hseat
  have hagrees := hr.steady.agrees w seat r hseat hrec
  rw [all.current hseat] at hagrees
  exact ⟨(Lane.agrees_of_finished hagrees hp).1, (h.lanes w seat r hseat hrec).finished hp⟩

/-- Every worker has trained on its shard, and there are no others. -/
theorem Recorded.settled_scores (h : s.Recorded (Epoch.task config clock model shards bank) scores)
    (hr : s.Running (config.policy clock) (shards.map List.length) layout bank') (all : s.Settled)
    (w : WorkerId) : (scoresOf w scores).map (·.batch) = shards[w.index]?.getD [] := by
  cases hseat : s.seat? w with
  | some seat =>
    obtain ⟨r, hrec⟩ := hr.steady.record_of_seat hseat
    exact (h.settled_record hr all hrec).2.1
  | none =>
    have hscores : scoresOf w scores = [] := scoresOf_of_others fun e he hw => by
      obtain ⟨seat, hseat'⟩ := h.seated e he
      rw [hw, hseat] at hseat'
      cases hseat'
    have hge : (shards.map List.length).length ≤ w.index := by
      rw [← hr.size]
      exact Array.getElem?_eq_none_iff.1 hseat
    rw [List.length_map] at hge
    rw [hscores, List.getElem?_eq_none hge]
    rfl

theorem Recorded.settled_lengths (h : s.Recorded (Epoch.task config clock model shards bank) scores)
    (hr : s.Running (config.policy clock) (shards.map List.length) layout bank') (all : s.Settled) :
    (List.range shards.length).map (fun i => (scoresOf ⟨i⟩ scores).length) =
      shards.map List.length := by
  refine List.ext_getElem? fun i => ?_
  rcases Nat.lt_or_ge i shards.length with hlt | hge
  · have hlength := congrArg List.length (h.settled_scores hr all ⟨i⟩)
    rw [List.length_map, List.getElem?_eq_getElem hlt] at hlength
    rw [List.getElem?_map, List.getElem?_range hlt, List.getElem?_map, List.getElem?_eq_getElem hlt]
    exact congrArg some hlength
  · rw [List.getElem?_eq_none (by simpa using hge), List.getElem?_eq_none (by simpa using hge)]

/-- The mean that a worker which has finished leaves in its record. -/
theorem Recorded.settled_final (h : s.Recorded (Epoch.task config clock model shards bank) scores)
    (hr : s.Running (config.policy clock) (shards.map List.length) layout bank') (all : s.Settled)
    {w : WorkerId} {r : Record K WorkerId} (hrec : s.flushed.record? w = some r) :
    r.losses.find? .final = some (((scoresOf w scores).map (·.loss)).sum / r.total) := by
  obtain ⟨-, -, htotal, hnoted⟩ := h.settled_record hr all hrec
  rw [hnoted.final, meanLoss_exact, List.length_map, htotal]

/-- The means of all workers, each weighing by its count of batches, are the mean of all losses. -/
theorem Recorded.settled_loss [IsStrictOrderedRing K]
    (h : s.Recorded (Epoch.task config clock model shards bank) scores)
    (hr : s.Running (config.policy clock) (shards.map List.length) layout bank') (all : s.Settled) :
    Epoch.loss s.flushed.reports =
      (scores.map (·.loss)).sum / ((shards.map List.length).sum : Nat) := by
  have hsize : s.flushed.size = shards.length := by rw [hr.size_flushed, List.length_map]
  have hmeans : s.flushed.reports.map (fun r => r.finalLoss?.map (·, r.total)) =
      ((List.range shards.length).map fun i => (scoresOf ⟨i⟩ scores).map (·.loss)).map
        fun l => some (l.sum / (l.length : K), l.length) := by
    rw [← hsize, List.map_map]
    refine Barrier.map_reports fun i r hrec => ?_
    have htotal := (h.settled_record hr all hrec).2.2.1
    show (r.losses.find? .final).map (·, r.total) = _
    rw [h.settled_final hr all hrec, htotal]
    simp
  have hworkers : ∀ e ∈ scores, e.worker.index < shards.length := by
    intro e he
    obtain ⟨seat, hseat⟩ := h.seated e he
    rw [← List.length_map (f := List.length), ← hr.size]
    exact (Array.getElem?_eq_some_iff.1 hseat).1
  rw [Epoch.loss_of_means hmeans, List.map_map, List.map_map, ← h.settled_lengths hr all,
    ← sum_map_scoresOf (·.loss) hworkers]
  simp [Function.comp_def]

/-- What is reported once everyone has finished. -/
theorem Recorded.accounts [IsStrictOrderedRing K]
    (h : s.Recorded (Epoch.task config clock model shards bank) scores)
    (hr : s.Running (config.policy clock) (shards.map List.length) layout bank') (all : s.Settled)
    {e : EpochResult K} (hreports : e.reports = s.flushed.reports)
    (hloss : e.loss = Epoch.loss s.flushed.reports) :
    e.Accounts config.syncEvery shards scores := by
  have hsize : s.flushed.size = shards.length := by rw [hr.size_flushed, List.length_map]
  -- every report is that of a record
  have hreported : ∀ r ∈ e.reports, ∃ w rec, s.flushed.record? w = some rec ∧
      r = Barrier.reportOf w rec := by
    intro r hmem
    obtain ⟨⟨w, rec⟩, hrec, rfl⟩ := List.mem_map.1 (hreports ▸ hmem)
    exact ⟨w, rec, Barrier.mem_numbered.1 hrec, rfl⟩
  refine ⟨h.settled_scores hr all, hloss.trans (h.settled_loss hr all), ?workers, ?totals,
    fun r hmem i x => ?batches, fun r hmem => ?final⟩
  case workers =>
    rw [hreports, ← hsize]
    exact Barrier.map_reports fun i r _ => rfl
  case totals =>
    rw [hreports, ← h.settled_lengths hr all, ← hsize]
    exact Barrier.map_reports fun i r hrec => (h.settled_record hr all hrec).2.2.1
  case batches =>
    obtain ⟨w, rec, hrec, rfl⟩ := hreported r hmem
    obtain ⟨-, -, htotal, hnoted⟩ := h.settled_record hr all hrec
    have hbatch := hnoted.batch i x
    rw [List.length_map, ← htotal] at hbatch
    exact hbatch
  case final =>
    obtain ⟨w, rec, hrec, rfl⟩ := hreported r hmem
    exact h.settled_final hr all hrec

end System

/-! ## The loss of an epoch -/

/-- An epoch that goes as the counts say comes to a result, unless only waiting workers take part in
    merges and nobody ever waits. -/
theorem ByCounts.exists_ok {α : Type} [Scalar α] {every : Nat} {totals : List Nat}
    {weights : Weights α} {scope : MergeScope} {sent : List (Message α WorkerId)}
    {met : List (Gathering α)} {result : Option (Except (FederatedError α) (EpochResult α))}
    (h : ByCounts every totals weights scope sent met result) (hpos : 0 < every)
    (hmerges : scope = .retained ∨ ∃ total ∈ totals, every < total) :
    ∃ e, result = some (.ok e) := by
  cases scope with
  | retained =>
    obtain ⟨e, -, he, -⟩ := h.retained rfl
    exact ⟨e, he⟩
  | waitingOnly =>
    obtain ⟨total, hmem, hlong⟩ := hmerges.resolve_left MergeScope.noConfusion
    cases hg : met.getLast? with
    | some g =>
      obtain ⟨e, he, -⟩ := h.waitingOnly rfl g hg
      exact ⟨e, he⟩
    | none =>
      have hzero := h.count
      rw [List.getLast?_eq_none_iff.1 hg] at hzero
      exact absurd hlong (Nat.not_lt.2 ((lastRound_eq_zero_iff hpos).1 hzero.symm total hmem))

namespace Epoch

/-- What comes of an epoch accounts for its losses, however it goes. -/
theorem Begun.accounts [IsStrictOrderedRing K] {config : FederatedConfig} {clock : Clock}
    {model : Affine K} {shards : List (List (Batch K))} {bank : Bank K} {s last : System K}
    (h : Begun config clock model shards bank s)
    (hopened : Opened config clock model shards bank s)
    (hfull : ∀ shard ∈ shards, shard ≠ []) {choices : List Choice}
    (hrun : s.run? choices = some last) (hover : last.Complete) {e : EpochResult K}
    (he : result? last = some (.ok e)) : e.Accounts config.syncEvery shards (s.scores choices) := by
  have hr := h.running fun ids => h.restricts hfull
  obtain ⟨before, s₁, merged, rfl, hbefore, h₁, stopped, -, -, hresult⟩ := hr.closed hrun hover
  rw [he] at hresult
  split at hresult
  · next active =>
    have all := h₁.settled stopped active
    have hrecorded := (h.recorded hopened).run hr.steady hbefore h₁.steady.serving
    have hscores : s.scores (before ++ [.conclude]) = s.scores before :=
      System.trace_silent hbefore rfl
    rw [List.nil_append, ← hscores] at hrecorded
    have hreports := Barrier.reports_outcome
      (fun w r hrec => (hrecorded.settled_record h₁ all hrec).1) merged
    have hok := Option.some.inj hresult
    unfold resultOf at hok
    split at hok
    · cases hok
    · cases hok
      exact hrecorded.accounts h₁ all hreports (congrArg Epoch.loss hreports)
  · cases hresult

/-- In exact arithmetic the loss of an epoch is the mean of all its batch losses. Whatever turns its
    workers take, however they are weighed and merged and however often they meet, an epoch that
    comes to a result accounts for the losses of all batches: its loss is their mean, and each
    report has the mean of its worker's losses, and before every synchronization the loss of the
    batch before.

    An epoch in which no step fails comes to a result, if the clock can time all waits, and unless
    only waiting workers take part in merges and nobody ever waits: there is no merged model
    then. -/
theorem loss_is_mean [IsStrictOrderedRing K] (config : FederatedConfig) (clock : Clock)
    (model : Affine K) {shards : List (List (Batch K))} (bank : Bank K) (hne : shards ≠ [])
    (hfull : ∀ shard ∈ shards, shard ≠ []) :
    ∃ s₀, start config clock model shards bank = .ok s₀ ∧
      ∀ choices last, s₀.run? choices = some last → last.Complete →
        (s₀.StepsSucceed choices →
          (config.policy clock).TimesAll (shards.map List.length) →
          (config.scope = .retained ∨ ∃ shard ∈ shards, max config.syncEvery 1 < shard.length) →
          ∃ e, result? last = some (.ok e)) ∧
        ∀ e, result? last = some (.ok e) →
          e.Accounts config.syncEvery shards (s₀.scores choices) := by
  obtain ⟨s₀, hstart, hbegun⟩ := exists_begun config clock model bank hne hfull
  have hopened := (opened_of_start hstart).2.2
  refine ⟨s₀, hstart, fun choices last hrun hover =>
    ⟨fun hsteps hwaits hmerges => ?_, fun e he => hbegun.accounts hopened hfull hrun hover he⟩⟩
  -- the counts of batches decide which rounds there are, and so whether there is a model
  have hr := hbegun.running fun ids => hbegun.restricts hfull
  have htotals : shards.map List.length ≠ [] := fun hnil => hne (List.map_eq_nil_iff.1 hnil)
  have hcounts :=
    (hr.byCounts_iff hbegun.sound hbegun.trail htotals hrun hover hsteps).2 hwaits
  refine hcounts.exists_ok (by omega) (hmerges.imp_right ?_)
  rintro ⟨shard, hmem, hlong⟩
  exact ⟨_, List.mem_map_of_mem hmem, hlong⟩

/-- Two workers, of one batch and of two, that meet before every batch but the first. The losses of
    the batches are 1 and 9/4 for the one and 4 for the other, and the loss of the epoch is the mean
    of the three. The clock has run for thirty years. -/
theorem loss_is_mean_pair :
    let config : FederatedConfig := { syncEvery := 1 }
    let clock : Clock := fun _ i => Nat.pow 10 18 + i
    let model : Affine ℚ := Affine.ofWeights (Matrix.zeros 1 1)
    let batch (y : ℚ) : Batch ℚ := ⟨Matrix.ofFn 1 1 fun _ _ => 1, Matrix.ofFn 1 1 fun _ _ => y⟩
    let shards := [[batch 2], [batch 1, batch 3]]
    let bank : Bank ℚ := Bank.ofSpec (.descent (1 / 4))
    let choices : List Choice :=
      [.act ⟨0⟩, .receive, .act ⟨1⟩, .act ⟨1⟩, .act ⟨1⟩, .receive, .act ⟨1⟩, .act ⟨0⟩, .receive,
        .receive, .act ⟨0⟩, .receive, .act ⟨1⟩, .join ⟨0⟩, .act ⟨1⟩, .act ⟨1⟩, .join ⟨1⟩, .stop,
        .conclude]
    shards ≠ [] ∧ (∀ shard ∈ shards, shard ≠ []) ∧
      ∃ s₀ last e, start config clock model shards bank = .ok s₀ ∧ s₀.run? choices = some last ∧
        last.Complete ∧ s₀.StepsSucceed choices ∧ result? last = some (.ok e) ∧
        (s₀.scores choices).map (fun e => (e.worker, e.loss)) =
          [(⟨1⟩, 1), (⟨0⟩, 4), (⟨1⟩, 9 / 4)] ∧
        e.Accounts 1 shards (s₀.scores choices) ∧ e.loss = 29 / 12 := by
  intro config clock model batch shards bank choices
  have hne : shards ≠ [] := by simp [shards]
  have hfull : ∀ shard ∈ shards, shard ≠ [] := by simp [shards]
  obtain ⟨s₀, hstart, hall⟩ := loss_is_mean config clock model bank hne hfull
  have hsteps : (start config clock model shards bank).toOption.all
      (fun s => decide (s.StepsSucceed choices)) = true := by
    decide +kernel
  have hrun : ((start config clock model shards bank).toOption.bind fun s => s.run? choices).map
      (fun s => (s.session.isServing, s.stopped, s.seats.all fun seat =>
        seat.joined && seat.worker.hasEnded)) = some (false, true, true) := by
    decide +kernel
  have hscores : (start config clock model shards bank).toOption.map
      (fun s => (s.scores choices).map fun e => (e.worker, e.loss)) =
      some [(⟨1⟩, 1), (⟨0⟩, 4), (⟨1⟩, 9 / 4)] := by
    decide +kernel
  rw [hstart] at hsteps hrun hscores
  have hsucceed : s₀.StepsSucceed choices := of_decide_eq_true hsteps
  obtain ⟨last, hlast, hfacts⟩ := Option.map_eq_some_iff.1 hrun
  have hover := System.complete_of_facts hfacts
  have hshown := Option.some.inj hscores
  obtain ⟨hresult, haccounts⟩ := hall choices last hlast hover
  have hlongest : ∀ total ∈ shards.map List.length, total ≤ 2 := by simp [shards]
  have hlatest : config.notePeriod.endsOnClock (Nat.pow 10 18 + 1) = true := by decide +kernel
  have hwaits : (config.policy clock).TimesAll (shards.map List.length) :=
    FederatedConfig.timesAll_of_latest hlongest
      (fun _ _ hi => Nat.add_le_add_left (Nat.le_of_lt_succ hi) _) hlatest
  obtain ⟨e, he⟩ := hresult hsucceed hwaits (.inl rfl)
  refine ⟨hne, hfull, s₀, last, e, hstart, hlast, hover, hsucceed, he, hshown, haccounts e he, ?_⟩
  have hlosses : (s₀.scores choices).map (·.loss) = [1, 4, 9 / 4] := by
    have hsnd := congrArg (List.map Prod.snd) hshown
    rwa [List.map_map] at hsnd
  rw [(haccounts e he).loss, hlosses]
  norm_num [shards]

end Epoch

end Federated
