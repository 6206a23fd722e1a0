/-
  Federated.Proofs.Training.Cohort

  The workers of an epoch as one sequential program: every worker goes as far as it can on its
  own, all meet, and so on. Whatever turns the actors of an epoch take, they only follow it.

    * `Lane.rest` — a worker, with its record, where it can go no further on its own.
    * `Cohort.advance?` — one round: all meet, and all go on until they rest.
    * `Steady.cohort_step` — a step leaves the resting cohort as it is, or is its next round.
    * `Cohort.Finished.last` — the finished cohort that a cohort comes to is the only one.
-/
import Federated.Proofs.Training.Progress

namespace Federated

variable {α : Type} [Scalar α]

/-! ## One worker and its record -/

namespace Lane

/-- A worker's step, with its message taken at once. -/
def step? (l : Lane α) : Option (Lane α) :=
  l.worker.step?.map fun out => ⟨out.1, l.record.absorbAny out.2⟩

theorem step?_of_step {w w' : Worker α} {m : Option (Message α WorkerId)}
    (h : Worker.Step w w' m) (r : Record α WorkerId) :
    step? ⟨w, r⟩ = some ⟨w', r.absorbAny m⟩ := by
  unfold step?
  rw [Worker.step?_of_step h]
  rfl

theorem budget_lt {l next : Lane α} (h : l.step? = some next) :
    next.worker.budget < l.worker.budget := by
  obtain ⟨⟨w', m⟩, hstep, rfl⟩ := Option.map_eq_some_iff.1 h
  have := Worker.budget_step (Worker.step_of_step? hstep)
  show w'.budget < l.worker.budget
  omega

/-- A lane once its worker has gone as far as it can on its own. -/
def rest (l : Lane α) : Lane α :=
  match _hstep : l.step? with
  | none => l
  | some next => next.rest
termination_by l.worker.budget
decreasing_by exact budget_lt _hstep

theorem rest_of_step {l next : Lane α} (h : l.step? = some next) : l.rest = next.rest := by
  rw [rest]
  split
  · next hnone =>
    rw [h] at hnone
    cases hnone
  · next hsome =>
    rw [h] at hsome
    cases hsome
    rfl

theorem rest_of_stuck {l : Lane α} (h : l.worker.step? = none) : l.rest = l := by
  have hstuck : l.step? = none := by
    unfold step?
    rw [h]
    rfl
  rw [rest]
  split
  · rfl
  · next hsome =>
    rw [hstuck] at hsome
    cases hsome

theorem rest_of_waiting {l : Lane α} (h : l.worker.point = .waiting) : l.rest = l :=
  rest_of_stuck (Worker.step?_of_isWaiting (Worker.isWaiting_iff.2 h))

theorem rest_of_hasEnded {l : Lane α} (h : l.worker.hasEnded = true) : l.rest = l :=
  rest_of_stuck (Worker.step?_of_hasEnded h)

/-- What a round leaves of a worker and its record. -/
def meet (l : Lane α) (model : Params α) : Lane α :=
  ⟨if l.worker.isWaiting then l.worker.resume (.merged model) else l.worker, l.record.release⟩

/-- A worker that has ended is where it was behind every round. -/
theorem worker_rest_meet {l : Lane α} (h : l.worker.hasEnded = true) (model : Params α) :
    (l.meet model).rest.worker = l.worker := by
  have hwaits := Worker.isWaiting_of_hasEnded h
  have hworker : (l.meet model).worker = l.worker := by
    unfold meet
    simp [hwaits]
  rw [rest_of_hasEnded (by rw [hworker]; exact h), hworker]

end Lane

/-! ## All workers -/

/-- The workers of an epoch with their records, the latest merged model, and the number of
    merges. -/
structure Cohort (α : Type) where
  lanes : List (Lane α)
  merged : Option (Params α)
  rounds : Nat

namespace Cohort

/-- The barrier of a cohort. -/
def barrier (c : Cohort α) : Barrier α WorkerId :=
  ⟨(c.lanes.map (·.record)).toArray, c.merged, c.rounds⟩

/-- Every worker goes as far as it can on its own. -/
def rest (c : Cohort α) : Cohort α := { c with lanes := c.lanes.map Lane.rest }

/-- All meet, and the merged model is handed out. -/
def meet (c : Cohort α) (model : Params α) : Cohort α :=
  ⟨c.lanes.map (·.meet model), some model, c.rounds + 1⟩

/-- One round: if it is due and merges a model, all meet and go on until they rest. -/
def advance? (weights : Weights α) (scope : MergeScope) (c : Cohort α) : Option (Cohort α) :=
  if c.barrier.roundReady then
    match Params.average (c.barrier.contributions scope) (some weights) with
    | .ok (some model) => some (c.meet model).rest
    | _ => none
  else none

/-- The cohorts that a cohort goes through. -/
def Leads (weights : Weights α) (scope : MergeScope) : Cohort α → Cohort α → Prop :=
  Relation.ReflTransGen fun c c' => c.advance? weights scope = some c'

omit [Scalar α] in
/-- Cohorts are equal if they are so worker by worker. -/
theorem ext_lanes {c c' : Cohort α} (hl : ∀ i : Nat, c.lanes[i]? = c'.lanes[i]?)
    (hm : c.merged = c'.merged) (hr : c.rounds = c'.rounds) : c = c' := by
  obtain ⟨lanes, merged, rounds⟩ := c
  obtain ⟨lanes', merged', rounds'⟩ := c'
  obtain rfl : lanes = lanes' := List.ext_getElem? hl
  cases hm
  cases hr
  rfl

/-- A worker that has ended stays as it is along the way. -/
theorem Leads.worker_eq {weights : Weights α} {scope : MergeScope} {c c' : Cohort α}
    (h : Leads weights scope c c') {i : Nat} {l : Lane α} (hl : c.lanes[i]? = some l)
    (he : l.worker.hasEnded = true) : ∃ l', c'.lanes[i]? = some l' ∧ l'.worker = l.worker := by
  induction h with
  | refl => exact ⟨l, hl, rfl⟩
  | tail _ hstep ih =>
    obtain ⟨l₁, hl₁, hworker⟩ := ih
    unfold advance? at hstep
    split at hstep
    · split at hstep
      · next model _ =>
        cases hstep
        -- the worker neither waits for the round nor goes on after it
        refine ⟨(l₁.meet model).rest, ?_, ?_⟩
        · simp [rest, meet, hl₁]
        · rw [Lane.worker_rest_meet (by rw [hworker]; exact he), hworker]
      · cases hstep
    · cases hstep

/-- A cohort of which everyone has finished. -/
def Finished (c : Cohort α) : Prop :=
  ∀ (i : Nat) (l : Lane α), c.lanes[i]? = some l →
    l.worker.Finished ∧ l.record.status = .finished

omit [Scalar α] in
/-- No round is due any more for a finished cohort. -/
theorem Finished.roundReady {c : Cohort α} (h : c.Finished) : c.barrier.roundReady = false := by
  rw [← Bool.not_eq_true]
  intro due
  obtain ⟨⟨w, r, hr, hw⟩, -⟩ := Barrier.roundReady_iff.1 due
  have hlook : (c.lanes.map (·.record))[w.index]? = some r := by
    rw [← List.getElem?_toArray]
    exact hr
  rw [List.getElem?_map, Option.map_eq_some_iff] at hlook
  obtain ⟨l, hl, rfl⟩ := hlook
  rw [(h w.index l hl).2] at hw
  cases hw

theorem Finished.stays {weights : Weights α} {scope : MergeScope} {c c' : Cohort α}
    (h : c.Finished) (hl : Leads weights scope c c') : c' = c := by
  -- a first round would have to be due
  rcases Relation.ReflTransGen.cases_head hl with rfl | ⟨next, hnext, -⟩
  · rfl
  · unfold advance? at hnext
    rw [h.roundReady] at hnext
    cases hnext

/-- The finished cohort that a cohort comes to is the only one, and whatever else it comes to
    is on the way there. -/
theorem Finished.last {weights : Weights α} {scope : MergeScope} {c c' final : Cohort α}
    (h : final.Finished) (hfinal : Leads weights scope c final) (hl : Leads weights scope c c') :
    Leads weights scope c' final := by
  -- rounds are decided by the cohort, so the two ways follow one another
  have hunique : Relator.RightUnique fun c c' : Cohort α => c.advance? weights scope = some c' :=
    fun _ _ _ h₁ h₂ => Option.some.inj (h₁.symm.trans h₂)
  rcases Relation.ReflTransGen.total_of_right_unique hunique hl hfinal with h' | h'
  · exact h'
  · rw [h.stays h']
    exact Relation.ReflTransGen.refl

end Cohort

/-! ## The cohort of a state -/

namespace System

/-- The workers once they have read their answers, with their records once the messages under
    way have been taken. -/
def cohort (s : System α) : Cohort α :=
  ⟨List.zipWith Lane.mk (s.seats.toList.map Seat.current) s.flushed.records.toList,
    s.flushed.merged, s.flushed.rounds⟩

theorem getElem?_cohort (s : System α) (i : Nat) :
    s.cohort.lanes[i]? = ((s.seat? ⟨i⟩).bind fun seat =>
      (s.flushed.record? ⟨i⟩).map fun r => ⟨seat.current, r⟩) := by
  show (List.zipWith Lane.mk (s.seats.toList.map Seat.current) s.flushed.records.toList)[i]? = _
  rw [List.getElem?_zipWith, List.getElem?_map, Array.getElem?_toList, Array.getElem?_toList]
  unfold seat? Barrier.record?
  cases s.seats[i]? <;> cases s.flushed.records[i]? <;> rfl

theorem lane_of_cohort {s : System α} {i : Nat} {l : Lane α} (h : s.cohort.lanes[i]? = some l) :
    ∃ seat r, s.seat? ⟨i⟩ = some seat ∧ s.flushed.record? ⟨i⟩ = some r ∧ l = ⟨seat.current, r⟩ := by
  rw [getElem?_cohort] at h
  obtain ⟨seat, hseat, h⟩ := Option.bind_eq_some_iff.1 h
  obtain ⟨r, hr, rfl⟩ := Option.map_eq_some_iff.1 h
  exact ⟨seat, r, hseat, hr, rfl⟩

theorem cohort_of_lane {s : System α} {w : WorkerId} {seat : Seat α} {r : Record α WorkerId}
    (hseat : s.seat? w = some seat) (hr : s.flushed.record? w = some r) :
    s.cohort.lanes[w.index]? = some ⟨seat.current, r⟩ := by
  rw [getElem?_cohort]
  show (s.seat? w).bind _ = _
  rw [hseat]
  show (s.flushed.record? w).map _ = _
  rw [hr]
  rfl

/-- The records of a steady state's cohort are those of its barrier. -/
theorem Steady.barrier_cohort {s : System α} (h : s.Steady) : s.cohort.barrier = s.flushed := by
  refine Barrier.ext_record? (fun w => ?_) rfl rfl
  show (s.cohort.lanes.map (·.record)).toArray[w.index]? = _
  rw [List.getElem?_toArray, List.getElem?_map]
  cases hr : s.flushed.record? w with
  | none =>
    cases hl : s.cohort.lanes[w.index]? with
    | none => rfl
    | some l =>
      obtain ⟨seat, r, -, hr', -⟩ := lane_of_cohort hl
      cases hr.symm.trans hr'
  | some r =>
    obtain ⟨seat, hseat⟩ := h.seat_of_record hr
    rw [cohort_of_lane hseat hr]
    rfl

/-- A state in which all workers and records are as before has the same cohort. -/
theorem cohort_congr {s s' : System α} (hflushed : s'.flushed = s.flushed)
    (hseats : ∀ w, (s'.seat? w).map Seat.current = (s.seat? w).map Seat.current) :
    s'.cohort = s.cohort := by
  refine Cohort.ext_lanes (fun i => ?_) ?_ ?_
  · rw [getElem?_cohort, getElem?_cohort, hflushed]
    have := hseats ⟨i⟩
    cases h' : s'.seat? ⟨i⟩ <;> cases h : s.seat? ⟨i⟩ <;> simp_all
  · exact congrArg (·.merged) hflushed
  · exact congrArg (·.rounds) hflushed

theorem current_modify {s : System α} {v : WorkerId} {seat : Seat α} {f : Seat α → Seat α}
    (hseat : s.seat? v = some seat) (hf : (f seat).current = seat.current) (w : WorkerId) :
    ((s.modify v f).seat? w).map Seat.current = (s.seat? w).map Seat.current := by
  rw [seat?_modify]
  split
  · next hv =>
    subst hv
    rw [hseat]
    exact congrArg some hf
  · rfl

/-- Where a round is due, nobody can go further on its own. -/
theorem Steady.cohort_rest {s : System α} (h : s.Steady) (due : s.flushed.roundReady = true) :
    s.cohort.rest = s.cohort := by
  refine Cohort.ext_lanes (fun i => ?_) rfl rfl
  show (s.cohort.lanes.map Lane.rest)[i]? = _
  rw [List.getElem?_map]
  cases hl : s.cohort.lanes[i]? with
  | none => rfl
  | some l =>
    obtain ⟨seat, r, hseat, hr, rfl⟩ := lane_of_cohort hl
    refine congrArg some ?_
    rcases h.stands due hseat with ⟨hm, hp⟩ | hend
    · apply Lane.rest_of_waiting
      rw [Seat.current_of_no_mail hm]
      exact hp
    · apply Lane.rest_of_hasEnded
      rw [current_of_hasEnded hend]
      exact hend

/-- A round lets the whole cohort meet. -/
theorem Steady.cohort_met {s : System α} (h : s.Steady) {c : Coordinator α WorkerId}
    {model : Params α} (hb : c.barrier = s.flushed.adopt model)
    (due : s.flushed.roundReady = true) : (s.met c model).cohort = s.cohort.meet model := by
  have hflushed := (s.met_frame hb).2.2.2
  refine Cohort.ext_lanes (fun i => ?_) ?_ ?_
  · show _ = (s.cohort.lanes.map (·.meet model))[i]?
    rw [List.getElem?_map, getElem?_cohort, getElem?_cohort, seat?_met, hflushed,
      Barrier.record?_adopt]
    cases hseat : s.seat? ⟨i⟩ with
    | none => rfl
    | some seat =>
      obtain ⟨r, hr⟩ := h.record_of_seat hseat
      simp only [hr, Option.map_some, Option.bind_some, Option.some.injEq, Lane.meet,
        Lane.mk.injEq, and_true]
      have hagrees := h.agrees _ seat r hseat hr
      rcases h.stands due hseat with ⟨hm, hp⟩ | hend
      · -- a worker that stands at the barrier is answered
        have hwaits := Worker.isWaiting_iff.2 hp
        rw [Seat.current_of_no_mail hm] at hagrees ⊢
        have hstatus := (Lane.agrees_of_waiting hagrees hp).1
        simp only at hstatus
        rw [h.ids _ seat hseat] at hstatus
        rw [if_pos (h.mem_answered.2 ⟨r, hr, hstatus⟩), if_pos hwaits]
        exact Seat.current_of_mail hwaits rfl
      · -- whatever is laid on the seat of a worker that has ended is not read
        have hwaits := Worker.isWaiting_of_hasEnded hend
        simp only [Seat.current_of_not_waiting hwaits, hwaits, Bool.false_eq_true, if_false]
        split
        · exact Seat.current_of_not_waiting hwaits
        · exact Seat.current_of_not_waiting hwaits
  · exact congrArg (·.merged) hflushed
  · exact congrArg (·.rounds) hflushed

/-- A worker's step takes its lane a step further. -/
theorem Steady.cohort_moved {s : System α} (h : s.Steady) {w : WorkerId} {seat : Seat α}
    {moved : Worker α} {m : Option (Message α WorkerId)} (hseat : s.seat? w = some seat)
    (step : seat.worker.Step moved m) :
    ({ s.modify w (fun seat => { seat with worker := moved }) with
      queue := s.queue ++ m.toList } : System α).cohort.rest = s.cohort.rest := by
  have hworker : ∀ msg, m = some msg → msg.worker = w := fun msg hm =>
    (step.worker_eq hm).trans (h.ids w seat hseat)
  have hmail := h.mail_of_step hseat step
  obtain ⟨r, hr⟩ := h.record_of_seat hseat
  refine Cohort.ext_lanes (fun i => ?_) ?_ ?_
  · show (List.map Lane.rest _)[i]? = (List.map Lane.rest _)[i]?
    rw [List.getElem?_map, List.getElem?_map]
    by_cases hi : w = ⟨i⟩
    · subst hi
      -- the step is the first on the lane's way to its rest
      have hself := cohort_of_lane (s := { s.modify _ _ with queue := s.queue ++ m.toList })
        (seat?_modify_self hseat fun seat => { seat with worker := moved })
        (record?_send_self hworker hr)
      rw [cohort_of_lane hseat hr, hself]
      refine congrArg some ?_
      have hmoved : Seat.current { seat with worker := moved } = moved :=
        Seat.current_of_no_mail hmail
      rw [Seat.current_of_no_mail hmail, hmoved]
      exact (Lane.rest_of_step (Lane.step?_of_step step r)).symm
    · -- the other lanes are what they were
      have hother := record?_send_ne (s := s) hworker (fun hv : ⟨i⟩ = w => hi hv.symm)
      rw [getElem?_cohort, getElem?_cohort]
      congr 1
      refine congrArg₂ Option.bind (seat?_modify_ne s hi _) ?_
      funext seat
      exact congrArg (Option.map _) hother
  · exact (Barrier.absorbAll_merged _ _).trans (Barrier.absorbAll_merged _ _).symm
  · exact (Barrier.absorbAll_rounds _ _).trans (Barrier.absorbAll_rounds _ _).symm

/-- A step leaves the resting cohort as it is, or is its next round. -/
theorem Steady.cohort_step {s s' : System α} (h : s.Steady) {choice : Choice}
    (hn : Next s choice s') (hserving : s'.session.stage = .serving) :
    s'.cohort.rest = s.cohort.rest ∨
      s.cohort.rest.advance? s.session.coordinator.weights s.session.coordinator.scope =
        some s'.cohort.rest := by
  cases hn with
  | read w seat model hseat active waits mail fits =>
    left
    -- the answer has been counted as read before
    refine congrArg Cohort.rest (cohort_congr rfl (current_modify hseat ?_))
    rw [Seat.current_of_no_mail rfl, Seat.current_of_mail waits mail]
  | move w seat moved m hseat active awake step => exact .inl (h.cohort_moved hseat step)
  | absorb m queue c head hb hw hs due =>
    left
    have hflushed : c.barrier.absorbAll queue = s.flushed := by
      unfold flushed
      rw [hb, head, Barrier.absorbAll_cons]
    exact congrArg Cohort.rest (cohort_congr hflushed fun _ => rfl)
  | meet m c model head average hb hw hs due =>
    right
    rw [h.cohort_rest due, h.cohort_met hb due]
    unfold Cohort.advance?
    rw [h.barrier_cohort, if_pos due]
    unfold Coordinator.average at average
    rw [average]
  | refuse m c cause replies head average due =>
    rw [(deliverAll_frame _ replies).2.1] at hserving
    cases hserving
  | leave w seat loss hseat active fresh point =>
    exact .inl (congrArg Cohort.rest (cohort_congr rfl (current_modify hseat rfl)))
  | lose w seat cause hseat active fresh point =>
    exact .inl (congrArg Cohort.rest (cohort_congr rfl (current_modify hseat rfl)))
  | stop all running => exact .inl (congrArg Cohort.rest (cohort_congr rfl fun _ => rfl))
  | conclude session replies stopped stop =>
    rw [(deliverAll_frame _ replies).2.1] at hserving
    cases stop <;> cases hserving

end System

end Federated
