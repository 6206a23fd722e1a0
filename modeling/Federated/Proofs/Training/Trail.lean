/-
  Federated.Proofs.Training.Trail

  What a run has shown so far is what the counts of batches say.

    * `Gathering.ByCounts` — what they say about one round.
    * `Trail` — the invariant: it holds of all messages and rounds up to a point.
    * `Trail.gathering` — a round that is due now is the one that they say comes next.
    * `Trail.next`, `Trail.run` — steps and runs keep the invariant.
-/
import Federated.Proofs.Training.Cohort
import Federated.Proofs.Training.Ending
import Federated.Proofs.Training.Traffic

namespace Federated

variable {α : Type}

/-! ## What the counts say -/

/-- A view of some of the records shows their workers in order. -/
theorem Barrier.map_fst_numbered_filterMap {τ γ : Type} {b : Barrier α τ}
    {look : WorkerId × Record α τ → Option (WorkerId × γ)} {shown : WorkerId → Bool}
    (h : ∀ w r, b.record? w = some r →
      (look (w, r)).map (·.1) = if shown w then some w else none) :
    (b.numbered.filterMap look).map (·.1) =
      ((List.range b.size).map WorkerId.mk).filter shown := by
  calc (b.numbered.filterMap look).map (·.1)
      = b.numbered.filterMap fun e => (look e).map (·.1) := List.map_filterMap
    _ = b.numbered.filterMap (Option.guard shown ∘ (·.1)) := by
        refine List.filterMap_congr fun e he => ?_
        rw [h e.1 e.2 (Barrier.mem_numbered.1 he)]
        simp [Option.guard]
    _ = (b.numbered.map (·.1)).filterMap (Option.guard shown) := List.filterMap_map.symm
    _ = (b.numbered.map (·.1)).filter shown := congrFun List.filterMap_eq_filter _
    _ = ((List.range b.size).map WorkerId.mk).filter shown := by rw [Barrier.numbered_map_fst]

/-- A round that is resolved at a barrier and merges a model. -/
def Barrier.gathering (b : Barrier α WorkerId) (scope : MergeScope) (model : Params α) :
    Gathering α :=
  ⟨b.contributions scope, ⟨b.participants scope, b.waiting.map (·.1)⟩, b.answers model⟩

variable [Scalar α]

/-- What the counts say about round `r`. -/
structure Gathering.ByCounts (every : Nat) (totals : List Nat) (weights : Weights α)
    (scope : MergeScope) (sent : List (Message α WorkerId)) (r : Nat) (g : Gathering α) :
    Prop where
  released : g.round.released = meeting every totals r
  merged : g.round.merged = merging scope every totals r
  models : g.models.map (·.1) = merging scope every totals r
  /-- Those that meet bring the model that they submitted before batch `r * every`. -/
  submitted : ∀ w p, (w, p) ∈ g.models → w ∈ meeting every totals r →
    (r * every, p) ∈ submissions w sent
  /-- The others have finished, and their final model stands for them. -/
  final : ∀ w p, (w, p) ∈ g.models → w ∉ meeting every totals r → p ∈ finals w sent
  /-- All that meet get the average of the models. -/
  replies : ∃ model, Params.average g.models (some weights) = .ok (some model) ∧
    g.replies = (meeting every totals r).map fun w => ⟨w, .merged model⟩

theorem Gathering.ByCounts.mono {every : Nat} {totals : List Nat} {weights : Weights α}
    {scope : MergeScope} {sent : List (Message α WorkerId)} {r : Nat} {g : Gathering α}
    (h : g.ByCounts every totals weights scope sent r) (later : List (Message α WorkerId)) :
    g.ByCounts every totals weights scope (sent ++ later) r := by
  refine ⟨h.released, h.merged, h.models, fun w p hmem hw => ?_, fun w p hmem hw => ?_, h.replies⟩
  · rw [submissions_append]
    exact List.mem_append_left _ (h.submitted w p hmem hw)
  · rw [finals_append]
    exact List.mem_append_left _ (h.final w p hmem hw)

namespace System

/-! ## The invariant -/

/-- What has been sent and merged up to a point. -/
structure Trail (policy : SyncPolicy) (totals : List Nat) (weights : Weights α)
    (scope : MergeScope) (sent : List (Message α WorkerId)) (met : List (Gathering α))
    (s : System α) : Prop where
  weighs : s.session.coordinator.weights = weights
  scopes : s.session.coordinator.scope = scope
  count : s.barrier.rounds = met.length
  bounded : met.length ≤ lastRound (max policy.every 1) totals
  told : ∀ w seat, s.seat? w = some seat →
    seat.current.Told s.barrier.rounds sent
  rounds : ∀ (r : Nat) (g : Gathering α), met[r]? = some g →
    g.ByCounts (max policy.every 1) totals weights scope sent (r + 1)
  unmerged : met = [] → s.barrier.merged = none
  merged : ∀ g, met.getLast? = some g → ∃ model, s.barrier.merged = some model ∧
    Params.average g.models (some weights) = .ok (some model)

variable {policy : SyncPolicy} {totals : List Nat} {layout : Dict String (List Nat)}
  {bank : Bank α} {weights : Weights α} {scope : MergeScope} {s s' : System α}
  {sent : List (Message α WorkerId)} {met : List (Gathering α)}

/-- Where a worker stands at a round that is due, and what its record holds then: it waits, and
    the model is the one that it submitted for this round, or it has finished without being due
    for it. -/
theorem Trail.standing (h : s.Trail policy totals weights scope sent met)
    (hr : s.Running policy totals layout bank) (hup : s.Unfailed)
    (due : s.flushed.roundReady = true) {w : WorkerId} {r : Record α WorkerId}
    (hrec : s.flushed.record? w = some r) :
    ∃ p, r.submitted = some p ∧
      (r.status = .waiting w ∧ w ∈ meeting (max policy.every 1) totals (met.length + 1) ∧
          ((met.length + 1) * max policy.every 1, p) ∈ submissions w sent ∨
        r.status = .finished ∧ w ∉ meeting (max policy.every 1) totals (met.length + 1) ∧
          p ∈ finals w sent) := by
  have hpos : 0 < max policy.every 1 := by omega
  obtain ⟨seat, hseat⟩ := hr.steady.seat_of_record hrec
  have hagrees := hr.steady.agrees w seat r hseat hrec
  have hdrift := hr.steady.drift w seat hseat
  have htold := h.told w seat hseat
  have hpolicy := hr.policy w seat hseat
  have htotal := hr.total w seat hseat
  have hlt : w.index < totals.length := (List.getElem?_eq_some_iff.1 htotal).1
  -- every worker has come back from all rounds so far
  rw [h.count] at hdrift htold
  have hnext : 0 < met.length + 1 := by omega
  rw [mem_meeting, List.getD_eq_getElem?_getD, htotal, Option.getD_some, le_syncs_iff hpos hnext]
  rcases hr.steady.stands due hseat with ⟨hm, hp⟩ | hend
  · -- it stands before batch `(met.length + 1) * every`, with batches left
    rw [Seat.current_of_no_mail hm] at hagrees hdrift htold
    obtain ⟨hindex, hrest, -⟩ := hdrift.waiting hp
    have hleft : 0 < seat.worker.remaining.length := List.length_pos_iff.2 hrest
    have hcounts := hdrift.counts
    obtain ⟨hstatus, hsub⟩ := Lane.agrees_of_waiting hagrees hp
    have hsubmitted := htold.waiting hp
    simp only at hstatus
    rw [hr.steady.ids w seat hseat] at hstatus hsubmitted
    rw [hpolicy] at hindex hsubmitted
    exact ⟨_, hsub, .inl ⟨hstatus, ⟨hlt, by omega⟩, hsubmitted⟩⟩
  · rw [current_of_hasEnded hend] at hagrees hdrift htold
    rcases Worker.hasEnded_iff.1 hend with ⟨loss, hp⟩ | ⟨cause, hp⟩
    · obtain ⟨hstatus, hsub⟩ := Lane.agrees_of_finished hagrees hp
      -- it had no batch left at the end of its window
      have hend := hdrift.finished loss hp
      have hfinal := htold.finished loss hp
      rw [hr.steady.ids w seat hseat] at hfinal
      rw [hpolicy] at hend
      exact ⟨_, hsub, .inr ⟨hstatus, fun hw => absurd hw.2 (by omega),
        by rw [hfinal]; exact List.mem_singleton.2 rfl⟩⟩
    · exact absurd hp (hup w seat cause hseat)

/-- Those that wait for a round that is due are those that meet in it. -/
theorem Trail.map_waiting (h : s.Trail policy totals weights scope sent met)
    (hr : s.Running policy totals layout bank) (hup : s.Unfailed)
    (due : s.flushed.roundReady = true) :
    s.flushed.waiting.map (·.1) = meeting (max policy.every 1) totals (met.length + 1) := by
  have hsize := hr.size_flushed
  unfold meeting workersOf
  rw [← hsize]
  refine Barrier.map_fst_numbered_filterMap fun w r hrec => ?_
  obtain ⟨p, -, ⟨hstatus, hmeets, -⟩ | ⟨hstatus, hmeets, -⟩⟩ := h.standing hr hup due hrec
  · rw [if_pos (by simpa using (mem_meeting.1 hmeets).2)]
    simp [hstatus, Status.ticket?]
  · have hlt : w.index < totals.length := by
      rw [← hsize]
      exact (Array.getElem?_eq_some_iff.1 hrec).1
    have hnot : ¬ met.length + 1 ≤ syncs (max policy.every 1) (totals.getD w.index 0) :=
      fun hle => hmeets (mem_meeting.2 ⟨hlt, hle⟩)
    rw [if_neg (by simpa using hnot)]
    simp [hstatus, Status.ticket?]

/-- The models of a round that is due are those of all workers, or of those that meet in it. -/
theorem Trail.map_contributions (h : s.Trail policy totals weights scope sent met)
    (hr : s.Running policy totals layout bank) (hup : s.Unfailed)
    (due : s.flushed.roundReady = true) : (s.flushed.contributions scope).map (·.1) =
      merging scope (max policy.every 1) totals (met.length + 1) := by
  cases scope with
  | retained =>
    -- every record holds a model by now
    show (s.flushed.contributions .retained).map (·.1) = workersOf totals
    unfold workersOf
    rw [← hr.size_flushed, ← List.filter_true ((List.range s.flushed.size).map WorkerId.mk)]
    refine Barrier.map_fst_numbered_filterMap fun w r hrec => ?_
    obtain ⟨p, hsub, -⟩ := h.standing hr hup due hrec
    simp [hsub, Barrier.takesPart]
  | waitingOnly =>
    -- who waits has submitted, so exactly those who wait take part
    refine Eq.trans ?_ (h.map_waiting hr hup due)
    unfold Barrier.contributions Barrier.waiting
    rw [List.map_filterMap, List.map_filterMap]
    refine List.filterMap_congr fun e he => ?_
    obtain ⟨p, hsub, ⟨hstatus, -⟩ | ⟨hstatus, -⟩⟩ :=
      h.standing hr hup due (Barrier.mem_numbered.1 he)
    · simp [hsub, hstatus, Barrier.takesPart, Status.isWaiting, Status.ticket?]
    · simp [hstatus, Barrier.takesPart, Status.isWaiting, Status.ticket?]

/-- A round that is due now is the one that the counts say comes next. -/
theorem Trail.gathering (h : s.Trail policy totals weights scope sent met)
    (hr : s.Running policy totals layout bank) (hup : s.Unfailed)
    (due : s.flushed.roundReady = true) {model : Params α}
    (average : s.session.coordinator.average s.flushed = .ok (some model)) :
    (s.flushed.gathering scope model).ByCounts (max policy.every 1) totals weights scope sent
      (met.length + 1) := by
  have hwaiting := h.map_waiting hr hup due
  have hmodels := h.map_contributions hr hup due
  refine ⟨hwaiting, hmodels, hmodels, ?submitted, ?final, model, ?average, ?replies⟩
  case submitted =>
    intro w p hmem hw
    obtain ⟨r, hrec, -, hsub⟩ := Barrier.mem_contributions.1 hmem
    obtain ⟨q, hq, ⟨-, -, hsubmitted⟩ | ⟨-, hmeets, -⟩⟩ := h.standing hr hup due hrec
    · rw [← Option.some.inj (hq.symm.trans hsub)]
      exact hsubmitted
    · exact absurd hw hmeets
  case final =>
    intro w p hmem hw
    obtain ⟨r, hrec, -, hsub⟩ := Barrier.mem_contributions.1 hmem
    obtain ⟨q, hq, ⟨-, hmeets, -⟩ | ⟨-, -, hfinal⟩⟩ := h.standing hr hup due hrec
    · exact absurd hmeets hw
    · rw [← Option.some.inj (hq.symm.trans hsub)]
      exact hfinal
  case average =>
    rw [← h.weighs, ← h.scopes]
    exact average
  case replies =>
    -- each answer goes out under the number of the worker that waits for it
    rw [← hwaiting, List.map_map]
    refine List.map_congr_left fun e he => ?_
    obtain ⟨r, hrec, hstatus⟩ := Barrier.mem_waiting.1 (show (e.1, e.2) ∈ _ from he)
    obtain ⟨p, -, ⟨hown, -⟩ | ⟨hfinished, -⟩⟩ := h.standing hr hup due hrec
    · show (⟨e.2, .merged model⟩ : Reply α WorkerId) = ⟨e.1, .merged model⟩
      rw [Status.waiting.inj (hstatus.symm.trans hown)]
    · cases hstatus.symm.trans hfinished

/-! ## Steps -/

theorem sent?_of_seat {w : WorkerId} {seat : Seat α} (hseat : s.seat? w = some seat) :
    s.sent? (.act w) = seat.worker.step?.bind (·.2) := by
  show s.seats[w.index]?.bind _ = _
  rw [show s.seats[w.index]? = some seat from hseat]
  rfl

/-- A message after which no round is due resolves none. -/
theorem Steady.gathering?_of_absorb (h : s.Steady) {m : Message α WorkerId}
    {queue : List (Message α WorkerId)} (head : s.queue = m :: queue)
    (due : (s.barrier.take m).1.roundReady = false) : s.gathering? .receive = none := by
  simp only [gathering?, h.serving, head, Coordinator.apply_barrier]
  rw [show s.session.coordinator.barrier = s.barrier from rfl, due]
  rfl

/-- The last message under way resolves the round that it makes due. -/
theorem Steady.gathering?_of_meet (h : s.Steady) {m : Message α WorkerId} (head : s.queue = [m])
    {model : Params α} (average : s.session.coordinator.average s.flushed = .ok (some model))
    (due : s.flushed.roundReady = true) :
    s.gathering? .receive = some (s.flushed.gathering s.session.coordinator.scope model) := by
  have hbarrier : (s.session.coordinator.apply m).1.barrier = s.flushed :=
    (Coordinator.apply_barrier _ m).trans (s.flushed_of_last head).symm
  have hresolve : (s.session.coordinator.apply m).1.barrier.resolve
      (s.session.coordinator.apply m).1.weights (s.session.coordinator.apply m).1.scope =
      .ok (s.flushed.adopt model,
        ⟨s.flushed.participants s.session.coordinator.scope, s.flushed.waiting.map (·.1)⟩,
        s.flushed.answers model) := by
    rw [hbarrier, Coordinator.apply_weights, Coordinator.apply_scope]
    exact Barrier.resolve_of_merged average
  obtain ⟨c, hc, -⟩ := Coordinator.resolve_of_ok hresolve
  simp only [gathering?, h.serving, head, hbarrier, due, if_true, hc, Coordinator.apply_scope]
  rfl

/-- Steps that send nothing and resolve nothing, and leave every worker where it is once it has
    read its answer. -/
theorem Trail.of_same (h : s.Trail policy totals weights scope sent met)
    (hweights : s'.session.coordinator.weights = s.session.coordinator.weights)
    (hscope : s'.session.coordinator.scope = s.session.coordinator.scope)
    (hrounds : s'.barrier.rounds = s.barrier.rounds)
    (hmerged : s'.barrier.merged = s.barrier.merged)
    (hseats : ∀ w seat', s'.seat? w = some seat' →
      ∃ seat, s.seat? w = some seat ∧ seat'.current = seat.current) :
    s'.Trail policy totals weights scope sent met := by
  refine ⟨hweights.trans h.weighs, hscope.trans h.scopes, hrounds.trans h.count, h.bounded, ?_,
    h.rounds, fun hnil => hmerged.trans (h.unmerged hnil), fun g hg => ?_⟩
  · intro w seat' hseat'
    obtain ⟨seat, hseat, hcurrent⟩ := hseats w seat' hseat'
    rw [hcurrent, hrounds]
    exact h.told w seat hseat
  · rw [hmerged]
    exact h.merged g hg

/-- A step of a worker, and the message it sends. -/
theorem Trail.of_move (h : s.Trail policy totals weights scope sent met)
    (hr : s.Running policy totals layout bank) {w : WorkerId} {seat : Seat α} {moved : Worker α}
    {m : Option (Message α WorkerId)} (hseat : s.seat? w = some seat)
    (step : seat.worker.Step moved m) (hup : ∀ cause, moved.point ≠ .failed cause) :
    ({ s.modify w (fun seat => { seat with worker := moved }) with
      queue := s.queue ++ m.toList } : System α).Trail policy totals weights scope
        (sent ++ m.toList) met := by
  have hmail := hr.steady.mail_of_step hseat step
  refine ⟨h.weighs, h.scopes, h.count, h.bounded, fun v seat' hseat' => ?_,
    fun r g hg => (h.rounds r g hg).mono _, h.unmerged, h.merged⟩
  by_cases hv : w = v
  · subst hv
    cases hseat'.symm.trans (seat?_modify_self hseat _)
    have hcurrent : ({ seat with worker := moved } : Seat α).current = moved :=
      Seat.current_of_no_mail hmail
    have hdrift := hr.steady.drift w seat hseat
    have htold := h.told w seat hseat
    -- the worker tells what it has sent, and all others have sent nothing
    rw [Seat.current_of_no_mail hmail] at hdrift htold
    rw [hcurrent]
    exact htold.step hdrift step hup
  · have hold : s.seat? v = some seat' := (seat?_modify_ne s hv _).symm.trans hseat'
    refine (h.told v seat' hold).others fun msg hmsg => ?_
    rw [hr.steady.current_id hold,
      step.worker_eq (Option.mem_toList.1 hmsg), hr.steady.ids w seat hseat]
    exact hv

/-- A round: those that wait come back from it, and the others are behind their end. -/
theorem Met.told {model : Params α} {seat seat' : Seat α} (h : Met model seat seat') {rounds : Nat}
    (hup : ∀ cause, seat.worker.point ≠ .failed cause) (htold : seat.current.Told rounds sent) :
    seat'.current.Told (rounds + 1) sent := by
  cases h with
  | released hm hp fits =>
    rw [Seat.current_of_no_mail hm] at htold
    rw [Seat.current_answered (Worker.isWaiting_iff.2 hp)]
    exact htold.resume hp fits
  | ended hend mail =>
    have hcurrent : ({ seat with mail } : Seat α).current = seat.worker :=
      current_of_hasEnded hend
    rw [current_of_hasEnded hend] at htold
    rw [hcurrent]
    rcases Worker.hasEnded_iff.1 hend with ⟨loss, hp⟩ | ⟨cause, hp⟩
    · exact htold.later hp _
    · exact absurd hp (hup cause)

/-- With it the rounds so far are one more. -/
theorem Trail.of_meet (h : s.Trail policy totals weights scope sent met)
    (hr : s.Running policy totals layout bank) (hup : s.Unfailed)
    {c : Coordinator α WorkerId} {model : Params α}
    (average : s.session.coordinator.average s.flushed = .ok (some model))
    (hb : c.barrier = s.flushed.adopt model)
    (hw : c.weights = s.session.coordinator.weights) (hs : c.scope = s.session.coordinator.scope)
    (due : s.flushed.roundReady = true) :
    (s.met c model).Trail policy totals weights scope sent
      (met ++ [s.flushed.gathering scope model]) := by
  obtain ⟨hsession, -, hbarrier, -⟩ := s.met_frame hb
  have hgathering := h.gathering hr hup due average
  have hrounds : (s.met c model).barrier.rounds = s.barrier.rounds + 1 := by
    rw [hbarrier, Barrier.adopt_rounds]
    exact congrArg (· + 1) (Barrier.absorbAll_rounds s.barrier s.queue)
  refine ⟨?weighs, ?scopes, ?count, ?bounded, ?told, ?rounds, ?unmerged, ?merged⟩
  case weighs =>
    rw [hsession]
    exact hw.trans h.weighs
  case scopes =>
    rw [hsession]
    exact hs.trans h.scopes
  case count =>
    rw [hrounds, h.count, List.length_append, List.length_singleton]
  case bounded =>
    -- somebody waits for this round, so it is not behind the last one
    obtain ⟨⟨w, r, hrec, hwaits⟩, -⟩ := Barrier.roundReady_iff.1 due
    obtain ⟨p, -, ⟨-, hmeets, -⟩ | ⟨hfinished, -⟩⟩ := h.standing hr hup due hrec
    · obtain ⟨hlt, hle⟩ := mem_meeting.1 hmeets
      rw [List.length_append, List.length_singleton]
      refine Nat.le_trans hle (syncs_le_lastRound ?_)
      rw [List.getD_eq_getElem?_getD, List.getElem?_eq_getElem hlt]
      exact List.getElem_mem hlt
    · rw [hfinished] at hwaits
      cases hwaits
  case told =>
    intro w seat' hseat'
    obtain ⟨seat, hseat, hmet⟩ := hr.steady.seat_of_meet average due hseat'
    rw [hrounds]
    exact hmet.told (hup w seat · hseat) (h.told w seat hseat)
  case rounds =>
    intro r g hg
    rcases Nat.lt_or_ge r met.length with hlt | hge
    · rw [List.getElem?_append_left hlt] at hg
      exact h.rounds r g hg
    · have hlt := (List.getElem?_eq_some_iff.1 hg).1
      rw [List.length_append, List.length_singleton] at hlt
      obtain rfl : r = met.length := by omega
      rw [List.getElem?_concat_length] at hg
      rw [← Option.some.inj hg]
      exact hgathering
  case unmerged =>
    simp
  case merged =>
    intro g hg
    rw [List.getLast?_concat] at hg
    refine ⟨model, by rw [hbarrier, Barrier.adopt_merged], ?_⟩
    rw [← Option.some.inj hg, ← h.weighs, ← h.scopes]
    exact average

/-- Every step adds to what has been sent and merged what it shows. -/
theorem Trail.next (h : s.Trail policy totals weights scope sent met)
    (hr : s.Running policy totals layout bank)
    (hup : s.Unfailed) (hup' : s'.Unfailed)
    {choice : Choice} (hn : Next s choice s') (hserving : s'.session.stage = .serving) :
    s'.Trail policy totals weights scope (sent ++ (s.sent? choice).toList)
      (met ++ (s.gathering? choice).toList) := by
  -- where one seat is changed, and its worker stays where it is, so does every worker
  have hmodify : ∀ {v : WorkerId} {seat : Seat α} {f : Seat α → Seat α},
      s.seat? v = some seat → (f seat).current = seat.current → ∀ w seat',
      (s.modify v f).seat? w = some seat' →
      ∃ seat, s.seat? w = some seat ∧ seat'.current = seat.current := by
    intro v seat f hseat hcurrent w seat' hseat'
    have hsame := current_modify hseat hcurrent w
    rw [hseat', Option.map_some, eq_comm, Option.map_eq_some_iff] at hsame
    obtain ⟨seat₁, hseat₁, heq⟩ := hsame
    exact ⟨seat₁, hseat₁, heq.symm⟩
  cases hn with
  | read w seat model hseat active waits mail fits =>
    rw [sent?_of_seat hseat, Worker.step?_of_isWaiting waits]
    simp only [gathering?, Option.bind_none, Option.toList_none, List.append_nil]
    refine h.of_same rfl rfl rfl rfl (hmodify hseat ?_)
    rw [Seat.current_of_no_mail rfl, Seat.current_of_mail waits mail]
  | move w seat moved m hseat active awake step =>
    rw [sent?_of_seat hseat, Worker.step?_of_step step]
    simp only [gathering?, Option.bind_some, Option.toList_none, List.append_nil]
    exact h.of_move hr hseat step fun cause =>
      hup' w { seat with worker := moved } cause (seat?_modify_self hseat _)
  | absorb m queue c head hb hw hs due =>
    rw [hr.steady.gathering?_of_absorb head due]
    simp only [sent?, Option.toList_none, List.append_nil]
    have hrounds : c.barrier.rounds = s.barrier.rounds := by rw [hb, Barrier.take_rounds]
    have hmerged : c.barrier.merged = s.barrier.merged := by rw [hb, Barrier.take_merged]
    exact h.of_same hw hs hrounds hmerged fun v seat' hseat' => ⟨seat', hseat', rfl⟩
  | meet m c model head average hb hw hs due =>
    rw [hr.steady.gathering?_of_meet head average due]
    simp only [sent?, Option.toList_none, Option.toList_some, List.append_nil, h.scopes]
    exact h.of_meet hr hup average hb hw hs due
  | refuse m c cause replies head average due =>
    rw [(deliverAll_frame _ replies).2.1] at hserving
    cases hserving
  | leave w seat loss hseat active fresh point =>
    simp only [sent?, gathering?, Option.toList_none, List.append_nil]
    exact h.of_same rfl rfl rfl rfl (hmodify hseat rfl)
  | lose w seat cause hseat active fresh point =>
    simp only [sent?, gathering?, Option.toList_none, List.append_nil]
    exact h.of_same rfl rfl rfl rfl (hmodify hseat rfl)
  | stop all running =>
    simp only [sent?, gathering?, Option.toList_none, List.append_nil]
    exact h.of_same rfl rfl rfl rfl fun v seat' hseat' => ⟨seat', hseat', rfl⟩
  | conclude session replies stopped stop =>
    rw [(deliverAll_frame _ replies).2.1] at hserving
    cases stop <;> cases hserving

/-- So does a run, if no local step fails in it and all waits can be timed. -/
theorem Trail.run (h : s.Trail policy totals weights scope sent met)
    (hr : s.Running policy totals layout bank) (hsound : s.Sound)
    (hwaits : policy.TimesAll totals)
    {choices : List Choice} (hrun : s.run? choices = some s') (hsteps : s.StepsSucceed choices)
    (hserving : s'.session.stage = .serving) :
    s'.Trail policy totals weights scope (sent ++ s.sent choices)
      (met ++ s.gatherings choices) := by
  induction choices generalizing s sent met with
  | nil =>
    cases hrun
    unfold System.sent gatherings
    rw [trace, trace, List.append_nil, List.append_nil]
    exact h
  | cons choice choices ih =>
    rw [run?_cons] at hrun
    obtain ⟨s₁, hstep, hrest⟩ := Option.bind_eq_some_iff.1 hrun
    have hnext := hr.steady.next hstep
    have hserves := serving_of_run hrest hserving
    have hr₁ := hr.next hnext hserves
    have hsound₁ := hsound.next hr.steady hnext hsteps.1
    have h₁ := h.next hr (hr.unfailed hsound hwaits) (hr₁.unfailed hsound₁ hwaits) hnext hserves
    have hlast := ih h₁ hr₁ hsound₁ hrest (hsteps.2 s₁ hstep)
    rw [List.append_assoc, List.append_assoc] at hlast
    unfold System.sent gatherings
    rw [trace_cons hstep, trace_cons hstep]
    exact hlast

end System

end Federated
