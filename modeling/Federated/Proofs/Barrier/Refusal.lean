/-
  Federated.Proofs.Barrier.Refusal

  A round that cannot be merged ends the run of its coordinator, and nothing else comes of it.

    * `FirstRefusal` — the first round of a run that is refused, wherever in the run it is.
    * `run_failed` — a run fails only by one.
    * `run_refused` — what it leaves: the barrier and the board as they were, and closed
      tickets for all who waited.
-/
import Federated.Proofs.Barrier.Board
import Federated.Proofs.Barrier.Merges

namespace Federated

variable {α τ : Type}

namespace Barrier

/-- Every waiting worker's ticket is among those that are given up. -/
theorem closed_mem_abandon {b : Barrier α τ} {w : WorkerId} {t : τ} (h : (w, t) ∈ b.waiting) :
    (⟨t, .closed⟩ : Reply α τ) ∈ b.abandon :=
  List.mem_map.2 ⟨(w, t), h, rfl⟩

variable [Scalar α]

end Barrier

namespace Session

/-- What a coordinator brings to a round: its rules, and a board that is right. -/
structure Ready (weights : Weights α) (scope : MergeScope) (c : Coordinator α τ) : Prop where
  weights_eq : c.weights = weights
  scope_eq : c.scope = scope
  published : c.barrier.Published
  shown : c.Shown

variable [Scalar α]

/-! ## The first refusal of a run -/

/-- The `k`-th event of a run is its first round that is refused. The run takes `n` messages
    before the stop signal, at which it always resolves a round. -/
structure FirstRefusal (weights : Weights α) (scope : MergeScope) (n : Nat)
    (events : List (Event α τ)) (k : Nat) (e : Event α τ) (cause : AggregationError α) :
    Prop where
  place : events[k]? = some e
  due : k = n ∨ e.barrier.roundReady = true
  refused : e.barrier.resolve weights scope = .error cause
  first : ∀ j e', j < k → events[j]? = some e' → e'.barrier.roundReady = true →
    ∃ result, e'.barrier.resolve weights scope = .ok result

/-- What a refused round leaves behind. -/
structure Halted (final : Session α τ) (events : List (Event α τ)) (k : Nat) (e : Event α τ)
    (cause : AggregationError α) : Prop where
  /-- The run ends with the error of the round. -/
  stage : final.stage = .failed cause
  /-- The barrier is what it was before the round. -/
  barrier : final.coordinator.barrier = e.barrier
  /-- The board shows it. -/
  board : final.coordinator.board.toList = e.barrier.reports
  /-- From this round on no ticket is answered with a model. -/
  withheld : ∀ e' ∈ events.drop k, ∀ t model, (⟨t, .merged model⟩ : Reply α τ) ∉ e'.replies
  /-- Whoever waits at this round is told that there is no answer. -/
  closed : ∀ w t, (w, t) ∈ e.barrier.waiting → (⟨t, .closed⟩ : Reply α τ) ∈ e.replies

variable {weights : Weights α} {scope : MergeScope} {events : List (Event α τ)}
  {e : Event α τ} {cause : AggregationError α}

/-- A refusal behind a first event that is none. -/
theorem FirstRefusal.cons {n k : Nat} (h : FirstRefusal weights scope n events k e cause)
    (head : Event α τ) (hhead : head.barrier.roundReady = true →
      ∃ result, head.barrier.resolve weights scope = .ok result) :
    FirstRefusal weights scope (n + 1) (head :: events) (k + 1) e cause where
  place := h.place
  due := h.due.imp_left fun hk => by rw [hk]
  refused := h.refused
  first := by
    rintro (_ | j) e' hj he' hready
    · cases he'
      exact hhead hready
    · exact h.first j e' (by omega) he' hready

theorem FirstRefusal.tail {n k : Nat} {head : Event α τ}
    (h : FirstRefusal weights scope (n + 1) (head :: events) (k + 1) e cause) :
    FirstRefusal weights scope n events k e cause where
  place := h.place
  due := h.due.imp_left fun hk => by omega
  refused := h.refused
  first := fun j e' hj he' hready => h.first (j + 1) e' (by omega) he' hready

/-- A run that has ended answers no ticket with a model. -/
theorem not_merged_of_not_serving {s : Session α τ} (hs : s.stage ≠ .serving)
    (received queued : List (Message α τ)) :
    ∀ e ∈ (s.run received queued).2, ∀ t model,
      (⟨t, .merged model⟩ : Reply α τ) ∉ e.replies := by
  induction received with
  | nil =>
    intro e he t model hmem
    obtain rfl := List.mem_singleton.1 he
    rw [show (s.receiveAll []).1 = s from rfl, conclude_of_not_serving hs] at hmem
    obtain ⟨m, -, hmem⟩ := List.mem_flatMap.1 hmem
    exact Message.not_merged_mem_abandon hmem
  | cons m received ih =>
    rw [run_cons, receive_of_not_serving hs]
    intro e he t model
    rcases List.mem_cons.1 he with rfl | he
    · exact Message.not_merged_mem_abandon
    · exact ih e he t model

/-! ## One step of a run -/

/-- What the refusal of a round at the barrier `b` leaves, with the answers given. -/
structure Refused (weights : Weights α) (scope : MergeScope) (b : Barrier α τ)
    (s : Session α τ) (replies : List (Reply α τ)) (cause : AggregationError α) : Prop where
  refused : b.resolve weights scope = .error cause
  stage : s.stage = .failed cause
  barrier : s.coordinator.barrier = b
  shown : s.coordinator.Shown
  withheld : ∀ t model, (⟨t, .merged model⟩ : Reply α τ) ∉ replies
  closed : ∀ w t, (w, t) ∈ b.waiting → (⟨t, .closed⟩ : Reply α τ) ∈ replies

theorem Refused.halted {b : Barrier α τ} {s : Session α τ} {replies : List (Reply α τ)}
    {later : List (Event α τ)} (h : Refused weights scope b s replies cause)
    (hlater : ∀ e ∈ later, ∀ t model, (⟨t, .merged model⟩ : Reply α τ) ∉ e.replies) :
    Halted s (⟨b, replies⟩ :: later) 0 ⟨b, replies⟩ cause where
  stage := h.stage
  barrier := h.barrier
  board := by rw [h.shown.toList, h.barrier]
  withheld := by
    intro e he
    rcases List.mem_cons.1 he with rfl | he
    · exact h.withheld
    · exact hlater e he
  closed := h.closed

/-- A message leaves a run that serves, or the round that it makes due is refused. -/
theorem Ready.receive {c : Coordinator α τ} (h : Ready weights scope c) (m : Message α τ) :
    (∃ c', (receive ⟨c, .serving⟩ m).1 = ⟨c', .serving⟩ ∧ Ready weights scope c' ∧
      ((c.barrier.take m).1.roundReady = true →
        ∃ result, (c.barrier.take m).1.resolve weights scope = .ok result)) ∨
    (c.barrier.take m).1.roundReady = true ∧
      ∃ cause, Refused weights scope (c.barrier.take m).1 (receive ⟨c, .serving⟩ m).1
        (receive ⟨c, .serving⟩ m).2 cause := by
  have hshown := shown_receive (s := ⟨c, .serving⟩) h.shown m
  have hturn := receive_turn h.published m
  generalize (Session.receive ⟨c, .serving⟩ m).1 = s at hshown hturn ⊢
  generalize (Session.receive ⟨c, .serving⟩ m).2 = replies at hturn ⊢
  cases hturn with
  | quiet c' hb hw hs due =>
    refine .inl ⟨c', rfl, ⟨hw.trans h.weights_eq, hs.trans h.scope_eq, ?_, hshown⟩, ?_⟩
    · rw [hb]
      exact h.published.take m
    · rw [due]
      exact fun hdue => by cases hdue
  | merged c' model average hb hw hs due =>
    rw [Coordinator.average, h.weights_eq, h.scope_eq] at average
    refine .inl ⟨c', rfl, ⟨hw.trans h.weights_eq, hs.trans h.scope_eq, ?_, hshown⟩, ?_⟩
    · rw [hb]
      exact Barrier.published_adopt _ model
    · exact fun _ => ⟨_, Barrier.resolve_of_merged average⟩
  | refused c' cause average hb hw hs due =>
    rw [Coordinator.average, h.weights_eq, h.scope_eq] at average
    refine .inr ⟨due, cause, Barrier.resolve_of_error average, rfl, hb, hshown, ?_, ?_⟩
    · intro t model hmem
      rcases List.mem_append.1 hmem with hmem | hmem
      · exact Barrier.not_merged_mem_take hmem
      · exact Barrier.not_merged_mem_abandon hmem
    · exact fun w t hw => List.mem_append_right _ (Barrier.closed_mem_abandon hw)

/-- The stop signal completes a run, or the last round is refused. -/
theorem Ready.conclude {c : Coordinator α τ} (h : Ready weights scope c)
    (queued : List (Message α τ)) :
    ((∃ outcome, (conclude ⟨c, .serving⟩ queued).1.stage = .completed outcome) ∧
      ∃ result, (c.barrier.absorbAll queued).resolve weights scope = .ok result) ∨
    ∃ cause, Refused weights scope (c.barrier.absorbAll queued) (conclude ⟨c, .serving⟩ queued).1
      (conclude ⟨c, .serving⟩ queued).2 cause := by
  have hshown := shown_conclude (s := ⟨c, .serving⟩) h.shown queued
  have hstop := conclude_stop h.published queued
  generalize (Session.conclude ⟨c, .serving⟩ queued).1 = s at hshown hstop ⊢
  generalize (Session.conclude ⟨c, .serving⟩ queued).2 = replies at hstop ⊢
  cases hstop with
  | merged c' model average hb =>
    rw [Coordinator.average, h.weights_eq, h.scope_eq] at average
    exact .inl ⟨⟨_, rfl⟩, _, Barrier.resolve_of_merged average⟩
  | empty c' average hb hn =>
    rw [Coordinator.average, h.weights_eq, h.scope_eq] at average
    exact .inl ⟨⟨_, rfl⟩, _, Barrier.resolve_of_empty average hn⟩
  | refused c' cause average hb =>
    rw [Coordinator.average, h.weights_eq, h.scope_eq] at average
    refine .inr ⟨cause, Barrier.resolve_of_error average, rfl, hb, hshown, ?_, ?_⟩
    · intro t model hmem
      rcases List.mem_append.1 hmem with hmem | hmem
      · exact Coordinator.not_merged_mem_applyAll hmem
      · exact Barrier.not_merged_mem_abandon hmem
    · exact fun w t hw => List.mem_append_right _ (Barrier.closed_mem_abandon hw)

/-! ## Whole runs -/

/-- The first round that is refused ends the run, and leaves all as it was before it. -/
theorem run_refused {c : Coordinator α τ} (h : Ready weights scope c)
    {received queued : List (Message α τ)} {k : Nat}
    (hfirst : FirstRefusal weights scope received.length (run ⟨c, .serving⟩ received queued).2 k
      e cause) :
    Halted (run ⟨c, .serving⟩ received queued).1 (run ⟨c, .serving⟩ received queued).2 k e
      cause := by
  induction received generalizing c k with
  | nil =>
    -- the only event is that of the stop signal
    cases k with
    | succ k => cases hfirst.place
    | zero =>
      cases hfirst.place
      rcases h.conclude queued with ⟨-, result, hround⟩ | ⟨cause', hrefused⟩
      · cases hround.symm.trans hfirst.refused
      · cases hrefused.refused.symm.trans hfirst.refused
        exact hrefused.halted fun e he => absurd he List.not_mem_nil
  | cons m received ih =>
    rw [run_cons] at hfirst ⊢
    rcases h.receive m with ⟨c', hc', hready, hround⟩ | ⟨due, cause', hrefused⟩
    · -- no refusal at this message: the first one is further on
      rw [hc'] at hfirst ⊢
      cases k with
      | zero =>
        cases hfirst.place
        obtain ⟨result, hok⟩ := hround (hfirst.due.resolve_left (by simp))
        cases hok.symm.trans hfirst.refused
      | succ k =>
        have hlater := ih hready hfirst.tail
        exact ⟨hlater.stage, hlater.barrier, hlater.board, hlater.withheld, hlater.closed⟩
    · have hended : (Session.receive ⟨c, .serving⟩ m).1.stage ≠ .serving := by
        rw [hrefused.stage]
        simp
      cases k with
      | zero =>
        cases hfirst.place
        cases hrefused.refused.symm.trans hfirst.refused
        rw [run_of_not_serving hended]
        exact hrefused.halted (not_merged_of_not_serving hended received queued)
      | succ k =>
        obtain ⟨result, hok⟩ := hfirst.first 0 _ (Nat.succ_pos k) rfl due
        cases hok.symm.trans hrefused.refused

end Session

end Federated
