/-
  Federated.Proofs.Training.Rounds

  Who meets whom at the barrier is decided by the counts of batches alone.

    * `ByCounts` — what the counts say about an epoch.
    * `Trail.byCounts` — an epoch that ends with everyone finished is as they say.
    * `Epoch.rounds_by_counts` — this for every epoch, and where it fails.
-/
import Federated.Proofs.Training.Confluence
import Federated.Proofs.Training.Halting
import Federated.Proofs.Training.Trail

namespace Federated

variable {α : Type} [Scalar α]

/-- What the counts say about an epoch: its messages, its rounds before the stop signal, and
    its result. -/
structure ByCounts (every : Nat) (totals : List Nat) (weights : Weights α) (scope : MergeScope)
    (sent : List (Message α WorkerId)) (met : List (Gathering α))
    (result : Option (Except (FederatedError α) (EpochResult α))) : Prop where
  /-- Every worker submits its model before each `every`th batch, -/
  submits : ∀ w total, totals[w.index]? = some total →
    (submissions w sent).map (·.1) = syncBatches every (syncs every total)
  /-- and publishes one final model. -/
  publishes : ∀ w total, totals[w.index]? = some total → ∃ p, finals w sent = [p]
  count : met.length = lastRound every totals
  rounds : ∀ (r : Nat) (g : Gathering α), met[r]? = some g →
    g.ByCounts every totals weights scope sent (r + 1)
  /-- If submissions are retained, the epoch ends with the average of all final models. -/
  retained : scope = .retained → ∃ e models, result = some (.ok e) ∧
    e.rounds = lastRound every totals + 1 ∧ models.map (·.1) = workersOf totals ∧
    (∀ w p, (w, p) ∈ models → p ∈ finals w sent) ∧
    Params.average models (some weights) = .ok (some e.model)
  /-- If only waiting workers take part, it ends with the model of the last round, -/
  waitingOnly : scope = .waitingOnly → ∀ g, met.getLast? = some g → ∃ e,
    result = some (.ok e) ∧ e.rounds = lastRound every totals ∧
    Params.average g.models (some weights) = .ok (some e.model)
  /-- and without a model exactly if no worker has a synchronization. -/
  nothing : scope = .waitingOnly →
    (result = some (.error .nothingMerged) ↔ ∀ total ∈ totals, total ≤ every)

namespace System

variable {policy : SyncPolicy} {totals : List Nat} {layout : Dict String (List Nat)}
  {bank : Bank α} {weights : Weights α} {scope : MergeScope} {s s' : System α}
  {sent : List (Message α WorkerId)} {met : List (Gathering α)}

/-! ## The end -/

/-- Once everyone has finished, the barrier holds the final models. -/
theorem Trail.settled_record (h : s.Trail policy totals weights scope sent met) (all : s.Settled)
    (hsteady : s.Steady) {w : WorkerId} {r : Record α WorkerId}
    (hrec : s.flushed.record? w = some r) :
    r.status = .finished ∧ ∃ p, r.submitted = some p ∧ p ∈ finals w sent := by
  -- the record agrees with a worker that has finished, and so told its final model
  obtain ⟨seat, hseat⟩ := hsteady.seat_of_record hrec
  obtain ⟨loss, hp⟩ := all.finished w seat hseat
  have hagrees := hsteady.agrees w seat r hseat hrec
  have htold := h.told w seat hseat
  rw [all.current hseat] at hagrees htold
  obtain ⟨hstatus, hsub⟩ := Lane.agrees_of_finished hagrees hp
  have hfinal := htold.finished loss hp
  rw [hsteady.ids w seat hseat] at hfinal
  exact ⟨hstatus, _, hsub, by rw [hfinal]; exact List.mem_singleton.2 rfl⟩

/-- Once everyone has finished, there have been as many rounds as the counts say. -/
theorem Trail.settled_count (h : s.Trail policy totals weights scope sent met) (all : s.Settled)
    (hr : s.Running policy totals layout bank) :
    met.length = lastRound (max policy.every 1) totals := by
  have hpos : 0 < max policy.every 1 := by omega
  -- nobody had a round more than there were, and whoever has the most synchronizations met at each
  refine Nat.le_antisymm h.bounded (lastRound_le fun total hmem => ?_)
  obtain ⟨i, hi, rfl⟩ := List.mem_iff_getElem.1 hmem
  have hlt : i < s.seats.size := hr.size ▸ hi
  have hseat : s.seat? ⟨i⟩ = some s.seats[i] := Array.getElem?_eq_getElem hlt
  obtain ⟨loss, hp⟩ := all.finished ⟨i⟩ _ hseat
  have hdrift := hr.steady.drift ⟨i⟩ _ hseat
  rw [all.current hseat] at hdrift
  have hend := hdrift.finished loss hp
  have htotal := hr.total ⟨i⟩ _ hseat
  rw [show totals[(⟨i⟩ : WorkerId).index]? = some totals[i] from List.getElem?_eq_getElem hi]
    at htotal
  rw [hr.policy ⟨i⟩ _ hseat, ← Option.some.inj htotal] at hend
  rw [← h.count]
  exact syncs_le_of_le hpos hend

theorem Trail.settled_worker (h : s.Trail policy totals weights scope sent met) (all : s.Settled)
    (hr : s.Running policy totals layout bank) {w : WorkerId} {total : Nat}
    (htotal : totals[w.index]? = some total) :
    ∃ seat loss, s.seat? w = some seat ∧ seat.worker.id = w ∧ seat.worker.total = total ∧
      seat.worker.policy = policy ∧ seat.worker.point = .finished loss ∧
      seat.worker.Told s.barrier.rounds sent := by
  have hlt : w.index < s.seats.size := by
    rw [hr.size]
    exact (List.getElem?_eq_some_iff.1 htotal).1
  have hseat : s.seat? w = some s.seats[w.index] := Array.getElem?_eq_getElem hlt
  obtain ⟨loss, hp⟩ := all.finished w _ hseat
  have htold := h.told w _ hseat
  rw [all.current hseat] at htold
  have hown : (s.seats[w.index]).worker.total = total :=
    Option.some.inj ((hr.total w _ hseat).symm.trans htotal)
  exact ⟨_, loss, hseat, hr.steady.ids w _ hseat, hown, hr.policy w _ hseat, hp, htold⟩

/-- If submissions are retained, the last round merges the final models. -/
theorem Trail.settled_retained (h : s.Trail policy totals weights .retained sent met)
    (all : s.Settled) (hr : s.Running policy totals layout bank) (hne : totals ≠ [])
    {merged : Option (Params α)}
    (average : s.session.coordinator.average s.flushed = .ok merged) :
    (s.flushed.contributions .retained).map (·.1) = workersOf totals ∧
      (∀ w p, (w, p) ∈ s.flushed.contributions .retained → p ∈ finals w sent) ∧
      ∃ model, merged = some model ∧
        Params.average (s.flushed.contributions .retained) (some weights) = .ok (some model) := by
  have hrecord := fun w r hrec => @Trail.settled_record _ _ _ _ _ _ _ _ _ h all hr.steady w r hrec
  have haverage : Params.average (s.flushed.contributions .retained) (some weights) =
      .ok merged := by
    rw [← h.weighs, ← h.scopes]
    exact average
  refine ⟨?_, ?_, ?_⟩
  · unfold workersOf
    rw [← hr.size_flushed, ← List.filter_true ((List.range s.flushed.size).map WorkerId.mk)]
    refine Barrier.map_fst_numbered_filterMap fun w r hrec => ?_
    obtain ⟨-, p, hsub, -⟩ := hrecord w r hrec
    simp [hsub, Barrier.takesPart]
  · intro w p hmem
    obtain ⟨r, hrec, -, hsub⟩ := Barrier.mem_contributions.1 hmem
    obtain ⟨-, q, hq, hfinal⟩ := hrecord w r hrec
    rw [← Option.some.inj (hq.symm.trans hsub)]
    exact hfinal
  · cases merged with
    | some model => exact ⟨model, rfl, haverage⟩
    | none =>
      -- the first worker has a final model, so there is something to average
      have hnil := (Params.average_eq_none_iff (Barrier.keySorted_contributions _ _)).1 haverage
      obtain ⟨total, rest, rfl⟩ := List.exists_cons_of_ne_nil hne
      obtain ⟨seat, -, hseat, -⟩ := h.settled_worker all hr (w := ⟨0⟩) rfl
      obtain ⟨r, hrec⟩ := hr.steady.record_of_seat hseat
      obtain ⟨-, p, hsub, -⟩ := hrecord _ r hrec
      have hmem : ((⟨0⟩ : WorkerId), p) ∈ s.flushed.contributions .retained :=
        Barrier.mem_contributions.2 ⟨r, hrec, rfl, hsub⟩
      rw [hnil] at hmem
      cases hmem

/-- If only waiting workers take part, nobody does in the last round. -/
theorem Trail.settled_waitingOnly (h : s.Trail policy totals weights .waitingOnly sent met)
    (all : s.Settled) (hsteady : s.Steady) {merged : Option (Params α)}
    (average : s.session.coordinator.average s.flushed = .ok merged) : merged = none := by
  have hnil : s.flushed.contributions s.session.coordinator.scope = [] := by
    rw [h.scopes, List.eq_nil_iff_forall_not_mem]
    rintro ⟨w, p⟩ hmem
    obtain ⟨r, hrec, htakes, -⟩ := Barrier.mem_contributions.1 hmem
    rw [Barrier.takesPart, (h.settled_record all hsteady hrec).1] at htakes
    cases htakes
  have hnone : s.session.coordinator.average s.flushed = .ok none :=
    (Params.average_eq_none_iff (Barrier.keySorted_contributions _ _)).2 hnil
  exact Except.ok.inj (average.symm.trans hnone)

/-- An epoch that ends with everyone finished is as the counts say. -/
theorem Trail.byCounts (h : s.Trail policy totals weights scope sent met) (all : s.Settled)
    (hr : s.Running policy totals layout bank) (hne : totals ≠ []) {merged : Option (Params α)}
    (average : s.session.coordinator.average s.flushed = .ok merged) :
    ByCounts (max policy.every 1) totals weights scope sent met
      (some (Epoch.resultOf (s.flushed.outcome merged))) := by
  have hpos : 0 < max policy.every 1 := by omega
  have hcount := h.settled_count all hr
  have hrounds : s.flushed.rounds = met.length :=
    (Barrier.absorbAll_rounds _ _).trans h.count
  have hmerged : s.flushed.merged = s.barrier.merged := Barrier.absorbAll_merged _ _
  refine ⟨?submits, ?publishes, hcount, h.rounds, ?retained, ?waitingOnly, ?nothing⟩
  case submits =>
    intro w total htotal
    obtain ⟨seat, loss, -, hid, rfl, hpolicy, hp, htold⟩ := h.settled_worker all hr htotal
    have hbatches := htold.batches
    rw [hid, Worker.joins, hp, hpolicy] at hbatches
    exact hbatches
  case publishes =>
    intro w total htotal
    obtain ⟨seat, loss, -, hid, -, -, hp, htold⟩ := h.settled_worker all hr htotal
    have hfinal := htold.finished loss hp
    rw [hid] at hfinal
    exact ⟨_, hfinal⟩
  case retained =>
    rintro rfl
    obtain ⟨hworkers, hfinals, model, rfl, haverage⟩ := h.settled_retained all hr hne average
    refine ⟨_, s.flushed.contributions .retained, rfl, ?_, hworkers, hfinals, haverage⟩
    show s.flushed.rounds + 1 = _
    rw [hrounds, hcount]
  case waitingOnly =>
    -- the last round merges nothing, so the model of the round before it stands
    rintro rfl g hg
    obtain ⟨model, hmodel, haverage⟩ := h.merged g hg
    rw [h.settled_waitingOnly all hr.steady average, Barrier.outcome, hmerged, hmodel]
    exact ⟨_, rfl, hrounds.trans hcount, haverage⟩
  case nothing =>
    rintro rfl
    rw [← lastRound_eq_zero_iff hpos, ← hcount, List.length_eq_zero_iff,
      h.settled_waitingOnly all hr.steady average, Barrier.outcome, hmerged]
    constructor
    · intro hnothing
      rw [← List.getLast?_eq_none_iff]
      cases hg : met.getLast? with
      | none => rfl
      | some g =>
        obtain ⟨model, hmodel, -⟩ := h.merged g hg
        rw [hmodel] at hnothing
        cases hnothing
    · intro hnil
      rw [h.unmerged hnil]
      rfl

/-- A complete execution in which no local step fails goes as the counts say, exactly if all waits
    can be timed. -/
theorem Running.byCounts_iff (hr : s.Running policy totals layout bank) (hsound : s.Sound)
    (htrail : s.Trail policy totals weights scope [] []) (hne : totals ≠ [])
    {choices : List Choice} (hrun : s.run? choices = some s') (hover : s'.Complete)
    (hsteps : s.StepsSucceed choices) :
    ByCounts (max policy.every 1) totals weights scope (s.sent choices) (s.gatherings choices)
      (Epoch.result? s') ↔ policy.TimesAll totals := by
  obtain ⟨before, s₁, rfl, hbefore, h₁, hended⟩ := hr.ended hsound hrun hover hsteps
  cases hended with
  | settled all merged average result bank =>
    have hwaits := all.timesAll h₁
    refine ⟨fun _ => hwaits, fun _ => ?_⟩
    have hlast := htrail.run hr hsound hwaits hbefore hsteps.start h₁.steady.serving
    rw [List.nil_append, List.nil_append] at hlast
    -- taking the stop signal sends nothing, and its round is not one of those before it
    have hsent : s.sent (before ++ [.conclude]) = s.sent before := trace_silent hbefore rfl
    have hmet : s.gatherings (before ++ [.conclude]) = s.gatherings before :=
      trace_silent hbefore rfl
    rw [hsent, hmet, result]
    exact hlast.byCounts all h₁ hne average
  | died note untimely result =>
    refine ⟨fun hcounts => ?_, fun hwaits => absurd hwaits untimely⟩
    rw [result] at hcounts
    cases scope with
    | retained =>
      obtain ⟨e, models, he, -⟩ := hcounts.retained rfl
      cases he
    | waitingOnly =>
      -- a worker with a synchronization makes a last round, whose model would be the result
      cases hg : (s.gatherings (before ++ [.conclude])).getLast? with
      | none =>
        have hzero := hcounts.count
        rw [List.getLast?_eq_none_iff.1 hg] at hzero
        have hpos : 0 < max policy.every 1 := by omega
        exact SyncPolicy.timesAll_of_short ((lastRound_eq_zero_iff hpos).1 hzero.symm)
      | some g =>
        obtain ⟨e, he, -⟩ := hcounts.waitingOnly rfl g hg
        cases he

end System

namespace Epoch

/-- At its start an epoch has sent and merged nothing. -/
theorem Begun.trail {config : FederatedConfig} {clock : Clock} {model : Affine α}
    {shards : List (List (Batch α))} {bank : Bank α} {s : System α}
    (h : Begun config clock model shards bank s) :
    s.Trail (config.policy clock) (shards.map List.length) s.session.coordinator.weights
      config.scope [] [] := by
  have hrounds : s.barrier.rounds = 0 := by
    rw [h.barrier]
    rfl
  refine ⟨rfl, ?scopes, hrounds, Nat.zero_le _, fun w seat hseat => ?told,
    fun r g hg => absurd hg (by simp), fun _ => ?unmerged, fun g hg => absurd hg (by simp)⟩
  case scopes =>
    rw [h.session]
    rfl
  case told =>
    obtain ⟨shard, optimizer, -, rfl⟩ := h.seats w seat hseat
    rw [hrounds]
    exact Worker.told_start w ⟨model, optimizer⟩ bank.spec (config.policy clock) shard
  case unmerged =>
    rw [h.barrier]
    rfl

theorem trail_initial {config : FederatedConfig} {clock : Clock} {model : Affine Float32}
    {shards : List (List (Batch Float32))} {bank : Bank Float32} :
    (initial config clock model shards bank).Trail (config.policy clock) (shards.map List.length)
      (weights config (shards.map List.length)) config.scope [] [] := begun_initial.trail

/-- Who meets whom at the barrier is decided by the counts of batches alone, in single
    precision: no execution goes on for ever, and every complete one in which no local step fails
    goes as `ByCounts` says.

    This holds exactly where the clock, which goes on from wait to wait, can time the waits of the
    workers. Else a worker dies of the first wait that it cannot time, and the epoch fails. -/
theorem rounds_by_counts {config : FederatedConfig} {clock : Clock} {model : Affine Float32}
    {shards : List (List (Batch Float32))} {bank : Bank Float32} (hevery : 0 < config.syncEvery)
    (hne : shards ≠ []) (hfull : ∀ shard ∈ shards, shard ≠ [])
    (hcount : ∀ shard ∈ shards, shard.length ≤ countLimit) :
    ∃ s₀, start config clock model shards bank = .ok s₀ ∧
      (∀ choices s, s₀.run? choices = some s → choices.length ≤ s₀.movesLeft) ∧
      ∀ choices last, s₀.run? choices = some last → last.Complete → s₀.StepsSucceed choices →
        (ByCounts config.syncEvery (shards.map List.length)
            (weights config (shards.map List.length)) config.scope (s₀.sent choices)
            (s₀.gatherings choices) (result? last) ↔
          (config.policy clock).TimesAll (shards.map List.length)) := by
  refine ⟨_, start_eq hne hfull, fun choices s hrun =>
    Nat.le_trans (Nat.le_add_right _ _) (System.length_run_le hrun), ?_⟩
  intro choices last hrun hover hsteps
  have hmax : max (config.policy clock).every 1 = config.syncEvery := Nat.max_eq_left hevery
  have htotals : shards.map List.length ≠ [] := fun hnil => hne (List.map_eq_nil_iff.1 hnil)
  have hiff := (running_initial hfull hcount).byCounts_iff sound_initial trail_initial htotals hrun
    hover hsteps
  rwa [hmax] at hiff

/-- Two workers, of one batch and of two, that synchronize before every batch but the first, with
    only waiting workers taking part: the second one meets nobody. The clock has run for thirty
    years. -/
theorem rounds_by_counts_pair :
    let config : FederatedConfig := { syncEvery := 1, scope := .waitingOnly }
    let clock : Clock := fun _ i => Nat.pow 10 18 + i
    let model : Affine Float32 := Affine.ofWeights (Matrix.zeros 1 1)
    let batch : Batch Float32 := ⟨Matrix.ofFn 2 1 fun i _ => Scalar.ofCount i,
      Matrix.ofFn 2 1 fun i _ => Scalar.ofCount (i + 1)⟩
    let shards := [[batch], [batch, batch]]
    let bank : Bank Float32 := Bank.ofSpec (.descent Scalar.one)
    let choices : List Choice :=
      [.act ⟨0⟩, .receive, .act ⟨1⟩, .act ⟨1⟩, .act ⟨1⟩, .receive, .act ⟨1⟩, .act ⟨0⟩, .receive,
        .receive, .act ⟨0⟩, .receive, .act ⟨1⟩, .join ⟨0⟩, .act ⟨1⟩, .act ⟨1⟩, .join ⟨1⟩, .stop,
        .conclude]
    0 < config.syncEvery ∧ shards ≠ [] ∧ (∀ shard ∈ shards, shard ≠ []) ∧
      (∀ shard ∈ shards, shard.length ≤ countLimit) ∧
      ∃ s₀ last, start config clock model shards bank = .ok s₀ ∧ s₀.run? choices = some last ∧
        last.Complete ∧ s₀.StepsSucceed choices ∧
        ByCounts 1 [1, 2] (weights config [1, 2]) .waitingOnly (s₀.sent choices)
          (s₀.gatherings choices) (result? last) := by
  intro config clock model batch shards bank choices
  have hevery : 0 < config.syncEvery := Nat.one_pos
  have hne : shards ≠ [] := by simp [shards]
  have hfull : ∀ shard ∈ shards, shard ≠ [] := by simp [shards]
  have hcount : ∀ shard ∈ shards, shard.length ≤ countLimit := by simp [shards, countLimit]
  have hlongest : ∀ total ∈ shards.map List.length, total ≤ 2 := by simp [shards]
  have hlatest : config.notePeriod.endsOnClock (Nat.pow 10 18 + 1) = true := by decide +kernel
  have hwaits : (config.policy clock).TimesAll (shards.map List.length) :=
    FederatedConfig.timesAll_of_latest hlongest
      (fun _ _ hi => Nat.add_le_add_left (Nat.le_of_lt_succ hi) _) hlatest
  obtain ⟨s₀, hstart, -, hall⟩ :=
    @rounds_by_counts config clock model shards bank hevery hne hfull hcount
  obtain rfl := Except.ok.inj ((start_eq hne hfull).symm.trans hstart)
  have hrun : ((initial config clock model shards bank).run? choices).map
      (fun s => (s.session.isServing, s.stopped, s.seats.all fun seat =>
        seat.joined && seat.worker.hasEnded)) = some (false, true, true) := by
    decide +kernel
  have hsteps : (initial config clock model shards bank).StepsSucceed choices := by decide +kernel
  obtain ⟨last, hlast, hfacts⟩ := Option.map_eq_some_iff.1 hrun
  have hover := System.complete_of_facts hfacts
  exact ⟨hevery, hne, hfull, hcount, _, last, hstart, hlast, hover, hsteps,
    (hall choices last hlast hover hsteps).2 hwaits⟩

/-- Two workers, of which one has a wait that no clock can time although the configuration passes
    its check: no local step fails, and yet the epoch does not go as the counts say. -/
theorem untimed_wait_breaks_counts :
    let config : FederatedConfig :=
      { syncEvery := 1, waitInterval := Float.ofBits 0x43E158E460913D00 }
    let model : Affine Float32 := Affine.ofWeights (Matrix.zeros 1 1)
    let batch : Batch Float32 := ⟨Matrix.zeros 0 1, Matrix.zeros 0 1⟩
    let shards := [[batch], [batch, batch]]
    let bank : Bank Float32 := Bank.ofSpec (.descent Scalar.one)
    let choices : List Choice :=
      [.act ⟨0⟩, .receive, .act ⟨0⟩, .act ⟨0⟩, .receive, .act ⟨1⟩, .receive, .act ⟨1⟩, .act ⟨1⟩,
        .receive, .act ⟨1⟩, .receive, .join ⟨0⟩, .join ⟨1⟩, .conclude]
    (config.validate : Except (ConfigError Float32) Unit) = .ok () ∧
      ∃ s₀ last, start config .started model shards bank = .ok s₀ ∧ s₀.run? choices = some last ∧
        last.Complete ∧ s₀.StepsSucceed choices ∧
        ¬ ByCounts 1 [1, 2] (weights config [1, 2]) .retained (s₀.sent choices)
          (s₀.gatherings choices) (result? last) := by
  intro config model batch shards bank choices
  have valid : (config.validate : Except (ConfigError Float32) Unit) = .ok () := by
    unfold config
    rfl
  have hfull : ∀ shard ∈ shards, shard ≠ [] := by simp [shards]
  have hcount : ∀ shard ∈ shards, shard.length ≤ countLimit := by simp [shards, countLimit]
  have hstart : start config .started model shards bank =
      .ok (initial config .started model shards bank) := start_eq (by simp [shards]) hfull
  have hrun : ((initial config .started model shards bank).run? choices).map
      (fun s => (s.session.isServing, s.stopped, s.seats.all fun seat =>
        seat.joined && seat.worker.hasEnded)) = some (false, true, true) := by
    decide +kernel
  have hsteps : (initial config .started model shards bank).StepsSucceed choices := by
    decide +kernel
  obtain ⟨last, hlast, hfacts⟩ := Option.map_eq_some_iff.1 hrun
  have hover := System.complete_of_facts hfacts
  refine ⟨valid, _, last, hstart, hlast, hover, hsteps, fun hcounts => ?_⟩
  have hiff := (running_initial hfull hcount).byCounts_iff sound_initial trail_initial
    (by simp [shards]) hlast hover hsteps
  -- the wait of the second worker before its second batch would have to be timed
  have htimed := hiff.1 hcounts ⟨1⟩ 2 rfl 1 (by omega) (by decide +kernel)
  have huntimed : (config.policy .started).timed ⟨1⟩ 1 = false := by decide +kernel
  cases huntimed.symm.trans htimed

end Epoch

end Federated
