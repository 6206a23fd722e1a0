/-
  Federated.Proofs.Barrier.Merges

  What a run answers with a model went into that model.

    * `Barrier.Sourced` — a waiting worker's ticket came with the model the barrier holds of it.
    * `Live.receive`, `Live.conclude` — this is kept, and only what went into a merge is answered.
    * `Live.run`, `Live.run_tickets` — whole runs, by their events and by their tickets.
-/
import Federated.Proofs.Barrier.Tickets

namespace Federated

variable {α τ : Type}

theorem Message.not_merged_mem_abandon {m : Message α τ} {t : τ} {model : Params α} :
    (⟨t, .merged model⟩ : Reply α τ) ∉ m.abandon := by
  cases m <;> simp [Message.abandon]

namespace Barrier

/-- What a message answers by itself is given up, and not merged. -/
theorem not_merged_mem_take {b : Barrier α τ} {m : Message α τ} {t : τ} {model : Params α} :
    (⟨t, .merged model⟩ : Reply α τ) ∉ (b.take m).2 := by
  have hclosing : ∀ r : Record α τ, (⟨t, .merged model⟩ : Reply α τ) ∉ closing r := by
    intro r
    unfold closing
    cases r.status.ticket? <;> simp
  cases m with
  | progress w batch total => simp [take]
  | submit w batch p loss ticket =>
    simp only [take, submit]
    split
    · simp
    · next r hr =>
      split
      · simp
      · exact hclosing r
  | finish w p loss total =>
    simp only [take, finish]
    split
    · simp
    · next r hr => exact hclosing r

theorem mem_answers {b : Barrier α τ} {merged model : Params α} {t : τ} :
    (⟨t, .merged model⟩ : Reply α τ) ∈ b.answers merged ↔
      model = merged ∧ ∃ w r, b.record? w = some r ∧ r.status = .waiting t := by
  unfold answers
  rw [List.mem_map]
  constructor
  · rintro ⟨⟨w, t'⟩, hmem, heq⟩
    simp only [Reply.mk.injEq, Answer.merged.injEq] at heq
    obtain ⟨rfl, rfl⟩ := heq
    obtain ⟨r, hr, hs⟩ := mem_waiting.1 hmem
    exact ⟨rfl, w, r, hr, hs⟩
  · rintro ⟨rfl, w, r, hr, hs⟩
    exact ⟨(w, t), mem_waiting.2 ⟨r, hr, hs⟩, rfl⟩

theorem not_merged_mem_abandon {b : Barrier α τ} {t : τ} {model : Params α} :
    (⟨t, .merged model⟩ : Reply α τ) ∉ b.abandon := by
  unfold abandon
  simp

/-- The ticket of every waiting worker came with the model that the barrier holds of it. -/
def Sourced (b : Barrier α τ) (seen : List (Message α τ)) : Prop :=
  ∀ w r t, b.record? w = some r → r.status = .waiting t →
    ∃ batch p loss, Message.submit w batch p loss t ∈ seen ∧ r.submitted = some p

theorem Sourced.published {b : Barrier α τ} {seen : List (Message α τ)} (h : b.Sourced seen) :
    b.Published := by
  intro w r hr hw
  cases hs : r.status with
  | waiting t =>
    obtain ⟨batch, p, loss, -, hp⟩ := h w r t hr hs
    rw [hp]
    rfl
  | training => rw [hs] at hw; cases hw
  | finished => rw [hs] at hw; cases hw

theorem Sourced.take {b : Barrier α τ} {seen : List (Message α τ)} (h : b.Sourced seen)
    (m : Message α τ) : (b.take m).1.Sourced (seen ++ [m]) := by
  -- whoever waited before the message still has what it came with
  have hkeep : ∀ w r t, b.record? w = some r → r.status = .waiting t →
      ∃ batch p loss, Message.submit w batch p loss t ∈ seen ++ [m] ∧ r.submitted = some p := by
    intro w r t hr hs
    obtain ⟨batch, p, loss, hmem, hp⟩ := h w r t hr hs
    exact ⟨batch, p, loss, List.mem_append_left _ hmem, hp⟩
  intro w r t hr hs
  rw [record?_take] at hr
  split at hr
  · next hw =>
    obtain ⟨r', hr', rfl⟩ := Option.map_eq_some_iff.1 hr
    cases m with
    | progress v batch total => exact hkeep w r' t hr' hs
    | submit v batch p loss ticket =>
      by_cases hf : r'.status.isFinished
      · -- the submission of a finished worker is not looked at
        simp only [Record.absorb, hf, if_true] at hs ⊢
        exact hkeep w r' t hr' hs
      · simp only [Record.absorb, hf, Bool.false_eq_true, if_false, Status.waiting.injEq] at hs ⊢
        -- else ticket and model are replaced together, both by those of this message
        obtain rfl : v = w := hw
        subst hs
        exact ⟨batch, p, loss, by simp, rfl⟩
    -- a finished worker waits no more
    | finish v p loss total => cases hs
  · exact hkeep w r t hr hs

theorem Sourced.absorbAll {b : Barrier α τ} {seen : List (Message α τ)} (h : b.Sourced seen)
    (ms : List (Message α τ)) : (b.absorbAll ms).Sourced (seen ++ ms) := by
  induction ms generalizing b seen with
  | nil => simpa using h
  | cons m ms ih => simpa using ih (h.take m)

/-- What a round that merges a model answers went into that model. -/
theorem Sourced.answers {b : Barrier α τ} {seen : List (Message α τ)} (h : b.Sourced seen)
    {merged model : Params α} {t : τ} (scope : MergeScope)
    (hmem : (⟨t, .merged model⟩ : Reply α τ) ∈ b.answers merged) :
    model = merged ∧ ∃ w batch p loss, Message.submit w batch p loss t ∈ seen ∧
      (w, p) ∈ b.contributions scope := by
  obtain ⟨rfl, w, r, hr, hs⟩ := mem_answers.1 hmem
  obtain ⟨batch, p, loss, hseen, hp⟩ := h w r t hr hs
  have htakes : takesPart scope r = true :=
    takesPart_of_isWaiting (by rw [hs]; rfl)
  exact ⟨rfl, w, batch, p, loss, hseen, mem_contributions.2 ⟨r, hr, htakes, hp⟩⟩

end Barrier

theorem Coordinator.not_merged_mem_applyAll {c : Coordinator α τ} {queue : List (Message α τ)}
    {t : τ} {model : Params α} : (⟨t, .merged model⟩ : Reply α τ) ∉ (c.applyAll queue).2 := by
  induction queue generalizing c with
  | nil => simp [applyAll]
  | cons m queue ih =>
    rw [applyAll_cons, List.mem_append]
    exact not_or.2 ⟨Barrier.not_merged_mem_take, ih⟩

namespace Session

variable [Scalar α]

/-- A run that merges by the given rules and has seen the given messages. -/
structure Live (weights : Weights α) (scope : MergeScope) (seen : List (Message α τ))
    (s : Session α τ) : Prop where
  weights : s.coordinator.weights = weights
  scope : s.coordinator.scope = scope
  sourced : s.coordinator.barrier.Sourced seen

/-- Each ticket that an event answers with a model came with a model that went into it. -/
def Event.Merges (weights : Weights α) (scope : MergeScope) (seen : List (Message α τ))
    (e : Event α τ) : Prop :=
  ∀ t model, (⟨t, .merged model⟩ : Reply α τ) ∈ e.replies →
    Params.average (e.barrier.contributions scope) (some weights) = .ok (some model) ∧
      ∃ w batch p loss, Message.submit w batch p loss t ∈ seen ∧
        (w, p) ∈ e.barrier.contributions scope

variable {weights : Weights α} {scope : MergeScope} {seen : List (Message α τ)}

theorem Event.Merges.mono {e : Event α τ} {later : List (Message α τ)}
    (h : e.Merges weights scope seen) (hsub : ∀ m ∈ seen, m ∈ later) :
    e.Merges weights scope later := by
  intro t model hmem
  obtain ⟨average, w, batch, p, loss, hseen, hcontr⟩ := h t model hmem
  exact ⟨average, w, batch, p, loss, hsub _ hseen, hcontr⟩

/-- Taking a message keeps a run live, and answers only what went into a merge. -/
theorem Live.receive {s : Session α τ} (h : s.Live weights scope seen) (m : Message α τ) :
    (s.receive m).1.Live weights scope (seen ++ [m]) ∧
      Event.Merges weights scope (seen ++ [m])
        ⟨(s.coordinator.barrier.take m).1, (s.receive m).2⟩ := by
  obtain ⟨rfl, rfl, hsourced⟩ := h
  by_cases hs : s.stage = .serving
  · obtain ⟨c, stage⟩ := s
    cases hs
    have htaken := hsourced.take m
    have hturn := receive_turn hsourced.published m
    generalize (Session.receive ⟨c, .serving⟩ m).1 = s' at hturn ⊢
    generalize (Session.receive ⟨c, .serving⟩ m).2 = replies at hturn ⊢
    cases hturn with
    | quiet c' hb hw hs due =>
      refine ⟨⟨hw, hs, hb ▸ htaken⟩, fun t model hmem => ?_⟩
      exact absurd hmem Barrier.not_merged_mem_take
    | merged c' merged average hb hw hs due =>
      -- after a merge nobody waits, so there is no ticket to account for
      refine ⟨⟨hw, hs, ?_⟩, fun t model hmem => ?_⟩
      · intro w r t hr hwait
        rw [hb] at hr
        have hnot := Barrier.isWaiting_adopt hr
        rw [hwait] at hnot
        cases hnot
      · -- the message itself answers no merge, so the answer is the round's
        rcases List.mem_append.1 hmem with htake | hanswers
        · exact absurd htake Barrier.not_merged_mem_take
        · obtain ⟨rfl, hsource⟩ := htaken.answers c.scope hanswers
          exact ⟨average, hsource⟩
    | refused c' cause average hb hw hs due =>
      refine ⟨⟨hw, hs, hb ▸ htaken⟩, fun t model hmem => ?_⟩
      rcases List.mem_append.1 hmem with htake | habandon
      · exact absurd htake Barrier.not_merged_mem_take
      · exact absurd habandon Barrier.not_merged_mem_abandon
  · rw [receive_of_not_serving hs]
    refine ⟨⟨rfl, rfl, ?_⟩, fun t model hmem => absurd hmem Message.not_merged_mem_abandon⟩
    intro w r t hr hwait
    obtain ⟨batch, p, loss, hmem, hp⟩ := hsourced w r t hr hwait
    exact ⟨batch, p, loss, List.mem_append_left _ hmem, hp⟩

/-- The stop signal answers only what went into the last merge. -/
theorem Live.conclude {s : Session α τ} (h : s.Live weights scope seen)
    (queue : List (Message α τ)) :
    Event.Merges weights scope (seen ++ queue)
      ⟨s.coordinator.barrier.absorbAll queue, (s.conclude queue).2⟩ := by
  obtain ⟨rfl, rfl, hsourced⟩ := h
  intro t model hmem
  by_cases hs : s.stage = .serving
  · obtain ⟨c, stage⟩ := s
    cases hs
    have hstop := conclude_stop hsourced.published queue
    simp only at hmem
    generalize (Session.conclude ⟨c, .serving⟩ queue).1 = s' at hstop
    generalize (Session.conclude ⟨c, .serving⟩ queue).2 = replies at hstop hmem
    cases hstop with
    | merged c' merged average hb =>
      rcases List.mem_append.1 hmem with happly | hanswers
      · exact absurd happly Coordinator.not_merged_mem_applyAll
      · obtain ⟨rfl, hsource⟩ := (hsourced.absorbAll queue).answers c.scope hanswers
        exact ⟨average, hsource⟩
    | empty c' average hb hn => exact absurd hmem Coordinator.not_merged_mem_applyAll
    | refused c' cause average hb =>
      rcases List.mem_append.1 hmem with happly | habandon
      · exact absurd happly Coordinator.not_merged_mem_applyAll
      · exact absurd habandon Barrier.not_merged_mem_abandon
  · -- a run that has ended gives up all that is queued
    simp only [conclude_of_not_serving hs, List.mem_flatMap] at hmem
    obtain ⟨m, -, hm⟩ := hmem
    exact absurd hm Message.not_merged_mem_abandon

/-- A run answers only what went into the merges of its events. -/
theorem Live.run {s : Session α τ} (h : s.Live weights scope seen)
    (received queued : List (Message α τ)) :
    ∀ e ∈ (s.run received queued).2, e.Merges weights scope (seen ++ received ++ queued) := by
  induction received generalizing s seen with
  | nil =>
    intro e he
    simp only [Session.run, receiveAll, List.nil_append, List.mem_singleton] at he
    subst he
    simpa using h.conclude queued
  | cons m received ih =>
    intro e he
    obtain ⟨hnext, hevent⟩ := h.receive m
    rw [run_cons] at he
    rcases List.mem_cons.1 he with rfl | hlater
    · -- the first event has seen less than the whole run
      refine hevent.mono fun m' hm' => ?_
      rw [List.append_assoc, List.mem_append]
      rcases List.mem_append.1 hm' with hseen | hnew
      · exact .inl hseen
      · exact .inr (List.mem_append_left _ (by simpa using .inl (List.mem_singleton.1 hnew)))
    · simpa using ih hnext e hlater

/-- The tickets that a run answers are those that were open at its start and those that came
    in, each of them once. -/
theorem Live.run_tickets {s : Session α τ} (h : s.Live weights scope seen)
    (received queued : List (Message α τ)) :
    (((s.run received queued).2.flatMap (·.replies)).map (·.ticket)).Perm
      (s.openTickets ++ (received ++ queued).filterMap Message.ticket?) := by
  classical
  induction received generalizing s seen with
  | nil => simpa [Session.run, receiveAll] using conclude_tickets h.sourced.published queued
  | cons m received ih =>
    have hfirst := receive_tickets h.sourced.published m
    have hrest := ih (h.receive m).1
    have hbring : (m :: received ++ queued).filterMap Message.ticket? =
        m.ticket?.toList ++ (received ++ queued).filterMap Message.ticket? := by
      rw [List.cons_append, List.filterMap_cons]
      cases m.ticket? <;> rfl
    -- the tickets left open by the first message are those the rest begins with
    rw [run_cons, hbring, List.perm_iff_count]
    intro t
    have hfirst' := List.perm_iff_count.1 hfirst t
    have hrest' := List.perm_iff_count.1 hrest t
    simp only [List.flatMap_cons, List.map_append, List.count_append] at hfirst' hrest' ⊢
    omega

end Session

end Federated
