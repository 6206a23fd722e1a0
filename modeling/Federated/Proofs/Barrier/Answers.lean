/-
  Federated.Proofs.Barrier.Answers

  Every wait at the barrier is answered once, with the merge it took part in, whatever messages
  a coordinator is sent and whenever it is stopped.

    * `Live.answered_of_taken` — a worker that waits and sends nothing more is answered before
      the run ends.
    * `run_settled` — what a run owes to those who submit, in one statement.
-/
import Federated.Proofs.Barrier.Merges
import Federated.Proofs.Basic

namespace Federated

variable {α τ : Type}

namespace Message

/-- Whether a message takes the place of what a worker has submitted before. -/
def Renews (m : Message α τ) (w : WorkerId) : Prop :=
  match m with
  | .progress _ _ _ => False
  | .submit v _ _ _ _ => v = w
  | .finish v _ _ _ => v = w

/-- Whether a message is a worker's last. -/
def Finishes (m : Message α τ) (w : WorkerId) : Prop :=
  match m with
  | .finish v _ _ _ => v = w
  | _ => False

end Message

/-! ## Waits end -/

namespace Barrier

/-- A worker waits under a ticket. -/
def Waits (b : Barrier α τ) (w : WorkerId) (t : τ) : Prop :=
  ∃ r, b.record? w = some r ∧ r.status = .waiting t

/-- A worker waits on until it submits again or finishes. -/
theorem Waits.take {b : Barrier α τ} {w : WorkerId} {t : τ} {m : Message α τ} (h : b.Waits w t)
    (hm : ¬ m.Renews w) : (b.take m).1.Waits w t := by
  obtain ⟨r, hr, hs⟩ := h
  -- only its own messages touch a worker's record, and only these two end a wait
  by_cases hw : m.worker = w
  · refine ⟨r.absorb m, record?_take_self hr hw, ?_⟩
    cases m with
    | progress v batch total => exact hs
    | submit v batch p loss ticket => exact absurd hw hm
    | finish v p loss total => exact absurd hw hm
  · exact ⟨r, (record?_take_ne hw).trans hr, hs⟩

theorem Waits.absorbAll {b : Barrier α τ} {w : WorkerId} {t : τ} {ms : List (Message α τ)}
    (h : b.Waits w t) (hms : ∀ m ∈ ms, ¬ m.Renews w) : (b.absorbAll ms).Waits w t := by
  induction ms generalizing b with
  | nil => exact h
  | cons m ms ih =>
    exact ih (h.take (hms m List.mem_cons_self)) fun m' hm' => hms m' (List.mem_cons_of_mem _ hm')

/-- A known worker that has not finished yet. -/
def Unfinished (b : Barrier α τ) (w : WorkerId) : Prop :=
  ∃ r, b.record? w = some r ∧ r.status.isFinished = false

/-- A worker can only finish by its own last message. -/
theorem Unfinished.take {b : Barrier α τ} {w : WorkerId} {m : Message α τ}
    (h : b.Unfinished w) (hm : ¬ m.Finishes w) : (b.take m).1.Unfinished w := by
  obtain ⟨r, hr, hs⟩ := h
  by_cases hw : m.worker = w
  · refine ⟨r.absorb m, record?_take_self hr hw, ?_⟩
    cases m with
    | progress v batch total => exact hs
    | submit v batch p loss ticket => simp only [Record.absorb, hs]; rfl
    | finish v p loss total => exact absurd hw hm
  · exact ⟨r, (record?_take_ne hw).trans hr, hs⟩

theorem Unfinished.absorbAll {b : Barrier α τ} {w : WorkerId} {ms : List (Message α τ)}
    (h : b.Unfinished w) (hms : ∀ m ∈ ms, ¬ m.Finishes w) : (b.absorbAll ms).Unfinished w := by
  induction ms generalizing b with
  | nil => exact h
  | cons m ms ih =>
    exact ih (h.take (hms m List.mem_cons_self)) fun m' hm' => hms m' (List.mem_cons_of_mem _ hm')

theorem Unfinished.adopt {b : Barrier α τ} {w : WorkerId} (h : b.Unfinished w)
    (model : Params α) : (b.adopt model).Unfinished w := by
  obtain ⟨r, hr, hs⟩ := h
  refine ⟨r.release, by rw [record?_adopt, hr]; rfl, ?_⟩
  -- a worker that is released trains again, and all others stay what they were
  unfold Record.release
  split
  · rfl
  · exact hs

/-- A worker that has not finished waits once its submission is taken. -/
theorem Unfinished.waits {b : Barrier α τ} {w : WorkerId} (h : b.Unfinished w) (batch : Nat)
    (p : Params α) (loss : α) (t : τ) : (b.take (.submit w batch p loss t)).1.Waits w t := by
  obtain ⟨r, hr, hs⟩ := h
  exact ⟨r.absorb (.submit w batch p loss t), record?_take_self hr rfl,
    by simp [Record.absorb, hs]⟩

/-- A round that merges a model answers whoever waits with it. -/
theorem Waits.answered {b : Barrier α τ} {w : WorkerId} {t : τ} (h : b.Waits w t)
    (model : Params α) : (⟨t, .merged model⟩ : Reply α τ) ∈ b.answers model := by
  obtain ⟨r, hr, hs⟩ := h
  exact mem_answers.2 ⟨rfl, w, r, hr, hs⟩

end Barrier

namespace Session

variable [Scalar α] {weights : Weights α} {scope : MergeScope} {seen : List (Message α τ)}

/-- A known worker that has not finished is unfinished still after a message that is not its
    last. -/
theorem Live.unfinished_receive {s : Session α τ} (h : s.Live weights scope seen)
    {w : WorkerId} {m : Message α τ} (hw : s.coordinator.barrier.Unfinished w)
    (hm : ¬ m.Finishes w) : (s.receive m).1.coordinator.barrier.Unfinished w := by
  by_cases hs : s.stage = .serving
  · obtain ⟨c, stage⟩ := s
    cases hs
    have htaken := hw.take hm
    have hturn := receive_turn h.sourced.published m
    generalize (Session.receive ⟨c, .serving⟩ m).1 = s' at hturn ⊢
    generalize (Session.receive ⟨c, .serving⟩ m).2 = replies at hturn
    cases hturn with
    | quiet c' hb _ _ _ => exact hb ▸ htaken
    | merged c' model _ hb _ _ _ => exact hb ▸ htaken.adopt model
    | refused c' cause _ hb _ _ _ => exact hb ▸ htaken
  · rw [receive_of_not_serving hs]
    exact hw

/-- A run that completes a round later on serves until then. -/
theorem stage_receive {s : Session α τ} (h : s.Live weights scope seen) (m : Message α τ)
    (hne : ∀ o, s.stage ≠ .completed o) : ∀ o, (s.receive m).1.stage ≠ .completed o := by
  by_cases hs : s.stage = .serving
  · obtain ⟨c, stage⟩ := s
    cases hs
    have hturn := receive_turn h.sourced.published m
    generalize (Session.receive ⟨c, .serving⟩ m).1 = s' at hturn ⊢
    generalize (Session.receive ⟨c, .serving⟩ m).2 = replies at hturn
    cases hturn <;> simp
  · rw [receive_of_not_serving hs]
    exact hne

/-- A worker that waits when the stop signal has been taken in is answered by it. -/
theorem conclude_answers {s : Session α τ} (h : s.Live weights scope seen)
    (hne : ∀ o, s.stage ≠ .completed o) {queued : List (Message α τ)} {w : WorkerId} {t : τ}
    (hwaits : (s.coordinator.barrier.absorbAll queued).Waits w t) {outcome : Outcome α}
    (hdone : (s.conclude queued).1.stage = .completed outcome) :
    ∃ model, (⟨t, .merged model⟩ : Reply α τ) ∈ (s.conclude queued).2 := by
  have hrun : (s.run [] queued).1.stage = .completed outcome := hdone
  obtain ⟨c, rfl⟩ := serving_of_completed hne hrun
  have hstop := conclude_stop h.sourced.published queued
  generalize (Session.conclude ⟨c, .serving⟩ queued).1 = s' at hstop hdone
  generalize (Session.conclude ⟨c, .serving⟩ queued).2 = replies at hstop ⊢
  cases hstop with
  | merged c' model average hb =>
    exact ⟨model, List.mem_append_right _ (hwaits.answered model)⟩
  -- nothing is merged only if nobody waits
  | empty c' average hb hn =>
    obtain ⟨r, hr, hs⟩ := hwaits
    have hnot := hn w r hr
    rw [hs] at hnot
    cases hnot
  | refused c' cause average hb => cases hdone

/-- A message that leaves a worker waiting makes a round, and with it the answer, or is taken in
    silence, and the run goes on. -/
theorem Live.answered_or_quiet {c : Coordinator α τ} (h : Live weights scope seen ⟨c, .serving⟩)
    {m : Message α τ} {w : WorkerId} {t : τ} (hwaits : (c.barrier.take m).1.Waits w t)
    {received queued : List (Message α τ)} {outcome : Outcome α}
    (hdone : (Session.run ⟨c, .serving⟩ (m :: received) queued).1.stage = .completed outcome) :
    (∃ e ∈ (Session.run ⟨c, .serving⟩ (m :: received) queued).2, e.Answers t) ∨
      ∃ c' : Coordinator α τ, Live weights scope (seen ++ [m]) ⟨c', .serving⟩ ∧
        c'.barrier = (c.barrier.take m).1 ∧
        Session.run ⟨c, .serving⟩ (m :: received) queued =
          ((Session.run ⟨c', .serving⟩ received queued).1,
            ⟨(c.barrier.take m).1, (c.barrier.take m).2⟩ ::
              (Session.run ⟨c', .serving⟩ received queued).2) := by
  have hnext := (h.receive m).1
  have hturn := receive_turn h.sourced.published m
  rw [run_cons] at hdone ⊢
  generalize (Session.receive ⟨c, .serving⟩ m).1 = s' at *
  generalize (Session.receive ⟨c, .serving⟩ m).2 = replies at *
  cases hturn with
  | quiet c' hb hw hs due => exact .inr ⟨c', hnext, hb, rfl⟩
  | merged c' model average hb hw hs due =>
    exact .inl ⟨_, List.mem_cons_self, model, List.mem_append_right _ (hwaits.answered model)⟩
  | refused c' cause average hb hw hs due =>
    rw [run_of_not_serving (by simp)] at hdone
    cases hdone

/-- A message that leaves a worker waiting is followed by its answer, unless the worker submits
    again or finishes while it still waits. -/
theorem Live.answered_of_taken {c : Coordinator α τ}
    (h : Live weights scope seen ⟨c, .serving⟩) {m : Message α τ} {w : WorkerId} {t : τ}
    (hwaits : (c.barrier.take m).1.Waits w t) {received queued : List (Message α τ)}
    (hrenews : ∀ i m', (received ++ queued)[i]? = some m' → m'.Renews w →
      ∃ e ∈ (Session.run ⟨c, .serving⟩ (m :: received) queued).2.take
        (min (i + 1) (received.length + 1)), e.Answers t)
    {outcome : Outcome α}
    (hdone : (Session.run ⟨c, .serving⟩ (m :: received) queued).1.stage = .completed outcome) :
    ∃ e ∈ (Session.run ⟨c, .serving⟩ (m :: received) queued).2, e.Answers t := by
  -- the ticket waits on from message to message, until a round is resolved or the stop signal comes
  induction received generalizing seen c m with
  | nil =>
    obtain hanswered | ⟨c', hnext, hb, hrun⟩ := h.answered_or_quiet hwaits hdone
    · exact hanswered
    · rw [hrun] at hrenews hdone ⊢
      -- nothing is answered before the stop signal, so nothing renews the submission
      have hquiet : ∀ m' ∈ queued, ¬ m'.Renews w := by
        intro m' hm' hrenew
        obtain ⟨i, hi⟩ := List.mem_iff_getElem?.1 hm'
        obtain ⟨e, he, model, hmodel⟩ := hrenews i m' hi hrenew
        rw [List.length_nil, Nat.add_min_add_right, Nat.min_zero] at he
        obtain rfl := List.mem_singleton.1 he
        exact absurd hmodel Barrier.not_merged_mem_take
      have hlast : (c'.barrier.absorbAll queued).Waits w t :=
        Barrier.Waits.absorbAll (hb ▸ hwaits) hquiet
      exact ⟨_, List.mem_cons_of_mem _ (List.mem_singleton.2 rfl),
        conclude_answers hnext (by simp) hlast hdone⟩
  | cons m' received ih =>
    obtain hanswered | ⟨c', hnext, hb, hrun⟩ := h.answered_or_quiet hwaits hdone
    · exact hanswered
    · rw [hrun] at hrenews hdone ⊢
      -- this message has answered nothing, so what is known of the rest is known without it
      have hlater : ∀ i m'', (m' :: received ++ queued)[i]? = some m'' → m''.Renews w →
          ∃ e ∈ (Session.run ⟨c', .serving⟩ (m' :: received) queued).2.take
            (min i (received.length + 1)), e.Answers t := by
        intro i m'' hi hrenew
        obtain ⟨e, he, model, hmodel⟩ := hrenews i m'' hi hrenew
        rw [Nat.add_min_add_right, List.take_succ_cons] at he
        rcases List.mem_cons.1 he with rfl | hin
        · exact absurd hmodel Barrier.not_merged_mem_take
        · exact ⟨e, hin, model, hmodel⟩
      -- the next message would renew a submission that nothing has answered yet
      have hquiet : ¬ m'.Renews w := by
        intro hrenew
        obtain ⟨e, he, -⟩ := hlater 0 m' rfl hrenew
        simp at he
      have hwaits' : (c'.barrier.take m').1.Waits w t := Barrier.Waits.take (hb ▸ hwaits) hquiet
      obtain ⟨e, he, hanswer⟩ :=
        ih hnext hwaits' (fun i m'' hi => hlater (i + 1) m'' hi) hdone
      exact ⟨e, List.mem_cons_of_mem _ he, hanswer⟩

end Session

/-! ## Whole runs -/

namespace Session

variable [Scalar α]

omit [Scalar α] in
theorem live_ofTotals (totals : List Nat) (weights : Weights α) (scope : MergeScope) :
    (ofTotals totals weights scope : Session α τ).Live weights scope [] := by
  refine ⟨rfl, rfl, ?_⟩
  intro w r t hr hs
  obtain ⟨total, rfl⟩ := Barrier.record?_ofTotals hr
  cases hs

omit [Scalar α] in
theorem openTickets_ofTotals (totals : List Nat) (weights : Weights α) (scope : MergeScope) :
    (ofTotals totals weights scope : Session α τ).openTickets = [] := by
  show ((Barrier.ofTotals totals : Barrier α τ).waiting).map (·.2) = []
  rw [Barrier.waiting_eq_nil, List.map_nil]
  intro w r hr
  obtain ⟨total, rfl⟩ := Barrier.record?_ofTotals hr
  rfl

variable {weights : Weights α} {scope : MergeScope} {seen : List (Message α τ)}

theorem Live.receiveAll {s : Session α τ} (h : s.Live weights scope seen)
    (ms : List (Message α τ)) : (s.receiveAll ms).1.Live weights scope (seen ++ ms) := by
  induction ms generalizing s seen with
  | nil => simpa [Session.receiveAll] using h
  | cons m ms ih => simpa [receiveAll_cons] using ih (h.receive m).1

theorem Live.stage_receiveAll {s : Session α τ} (h : s.Live weights scope seen)
    (ms : List (Message α τ)) (hne : ∀ o, s.stage ≠ .completed o) :
    ∀ o, (s.receiveAll ms).1.stage ≠ .completed o := by
  induction ms generalizing s seen with
  | nil => exact hne
  | cons m ms ih => exact ih (h.receive m).1 (stage_receive h m hne)

theorem Live.unfinished_receiveAll {s : Session α τ} (h : s.Live weights scope seen)
    {w : WorkerId} {ms : List (Message α τ)} (hw : s.coordinator.barrier.Unfinished w)
    (hms : ∀ m ∈ ms, ¬ m.Finishes w) :
    (s.receiveAll ms).1.coordinator.barrier.Unfinished w := by
  induction ms generalizing s seen with
  | nil => exact hw
  | cons m ms ih =>
    exact ih (h.receive m).1 (h.unfinished_receive hw (hms m List.mem_cons_self)) fun m' hm' =>
      hms m' (List.mem_cons_of_mem _ hm')

/-- A submission taken while the run serves is answered before the run ends, unless its worker
    submits again or finishes while it still waits. -/
theorem Live.answered_of_received {s : Session α τ} (h : s.Live weights scope seen)
    (hne : ∀ o, s.stage ≠ .completed o) {w : WorkerId}
    (hw : s.coordinator.barrier.Unfinished w) {batch : Nat} {p : Params α} {loss : α} {t : τ}
    {before after queued : List (Message α τ)} (hquiet : ∀ m ∈ before, ¬ m.Finishes w)
    (hrenews : ∀ i m, before.length < i →
      (before ++ .submit w batch p loss t :: after ++ queued)[i]? = some m → m.Renews w →
      ∃ e ∈ (s.run (before ++ .submit w batch p loss t :: after) queued).2.take
        (min i (before ++ .submit w batch p loss t :: after).length), e.Answers t)
    {outcome : Outcome α}
    (hdone : (s.run (before ++ .submit w batch p loss t :: after) queued).1.stage =
      .completed outcome) :
    ∃ e ∈ (s.run (before ++ .submit w batch p loss t :: after) queued).2, e.Answers t := by
  have hbefore := h.receiveAll before
  have hstage := h.stage_receiveAll before hne
  have hunfinished := h.unfinished_receiveAll hw hquiet
  have hlength := length_receiveAll s before
  rw [run_append] at hdone hrenews ⊢
  generalize (s.receiveAll before).1 = s' at *
  generalize (s.receiveAll before).2 = served at *
  obtain ⟨c, rfl⟩ := serving_of_completed hstage hdone
  -- an answer that came before the submission is an answer all the same
  by_cases hearly : ∃ e ∈ served, e.Answers t
  · obtain ⟨e, he, hanswer⟩ := hearly
    exact ⟨e, List.mem_append_left _ he, hanswer⟩
  · have hlater : ∀ i m, (after ++ queued)[i]? = some m → m.Renews w →
        ∃ e ∈ (Session.run ⟨c, .serving⟩ (.submit w batch p loss t :: after) queued).2.take
          (min (i + 1) (after.length + 1)), e.Answers t := by
      intro i m hi hrenew
      have hplace : (before ++ .submit w batch p loss t :: after ++ queued)[
          before.length + (i + 1)]? = some m := by
        rw [List.append_assoc, List.getElem?_append_right (by omega)]
        simpa using hi
      obtain ⟨e, he, hanswer⟩ := hrenews _ m (by omega) hplace hrenew
      -- the events up to place `before.length + (i + 1)` are those served before, and `i + 1` more
      have hcut : min (before.length + (i + 1))
          (before ++ .submit w batch p loss t :: after).length =
          served.length + min (i + 1) (after.length + 1) := by
        rw [hlength, List.length_append, List.length_cons]
        omega
      rw [hcut, List.take_length_add_append] at he
      rcases List.mem_append.1 he with hin | hin
      · exact absurd ⟨e, hin, hanswer⟩ hearly
      · exact ⟨e, hin, hanswer⟩
    obtain ⟨e, he, hanswer⟩ :=
      hbefore.answered_of_taken (hunfinished.waits batch p loss t) hlater hdone
    exact ⟨e, List.mem_append_right _ he, hanswer⟩

/-- A submission that the stop signal finds in the queue is answered by it, unless its worker
    submits again or finishes behind it. -/
theorem Live.answered_of_queued {s : Session α τ} (h : s.Live weights scope seen)
    (hne : ∀ o, s.stage ≠ .completed o) {w : WorkerId}
    (hw : s.coordinator.barrier.Unfinished w) {batch : Nat} {p : Params α} {loss : α} {t : τ}
    {received before after : List (Message α τ)}
    (hquiet : ∀ m ∈ received ++ before, ¬ m.Finishes w)
    (hrenews : ∀ i m, received.length + before.length < i →
      (received ++ (before ++ .submit w batch p loss t :: after))[i]? = some m → m.Renews w →
      ∃ e ∈ (s.run received (before ++ .submit w batch p loss t :: after)).2.take
        (min i received.length), e.Answers t)
    {outcome : Outcome α}
    (hdone : (s.run received (before ++ .submit w batch p loss t :: after)).1.stage =
      .completed outcome) :
    ∃ e ∈ (s.run received (before ++ .submit w batch p loss t :: after)).2, e.Answers t := by
  have hserved := h.receiveAll received
  have hstage := h.stage_receiveAll received hne
  have hlength := length_receiveAll s received
  have hreceived := h.unfinished_receiveAll hw fun m hm => hquiet m (List.mem_append_left _ hm)
  have hunfinished := hreceived.absorbAll fun m hm => hquiet m (List.mem_append_right _ hm)
  simp only [Session.run] at hdone hrenews ⊢
  generalize (s.receiveAll received).1 = s' at *
  generalize (s.receiveAll received).2 = served at *
  by_cases hearly : ∃ e ∈ served, e.Answers t
  · obtain ⟨e, he, hanswer⟩ := hearly
    exact ⟨e, List.mem_append_left _ he, hanswer⟩
  · -- nothing behind the submission renews it: no event but the last is left to answer it
    have hlater : ∀ m ∈ after, ¬ m.Renews w := by
      intro m hm hrenew
      obtain ⟨i, hi⟩ := List.mem_iff_getElem?.1 hm
      have hplace : (received ++ (before ++ .submit w batch p loss t :: after))[
          received.length + (before.length + (i + 1))]? = some m := by
        rw [List.getElem?_append_right (by omega), Nat.add_sub_cancel_left,
          List.getElem?_append_right (by omega), Nat.add_sub_cancel_left,
          List.getElem?_cons_succ, hi]
      obtain ⟨e, he, hanswer⟩ := hrenews _ m (by omega) hplace hrenew
      rw [Nat.min_eq_right (by omega), List.take_left' hlength] at he
      exact hearly ⟨e, he, hanswer⟩
    have hlast := (hunfinished.waits batch p loss t).absorbAll hlater
    rw [← Barrier.absorbAll_cons, ← Barrier.absorbAll_append] at hlast
    exact ⟨_, List.mem_append_right _ (List.mem_singleton.2 rfl),
      conclude_answers hserved hstage hlast hdone⟩

/-- A submission is answered before the run ends, wherever the stop signal finds it. -/
theorem Live.answered {s : Session α τ} (h : s.Live weights scope seen)
    (hne : ∀ o, s.stage ≠ .completed o) {w : WorkerId}
    (hw : s.coordinator.barrier.Unfinished w) {received queued : List (Message α τ)} {j : Nat}
    {batch : Nat} {p : Params α} {loss : α} {t : τ}
    (hj : (received ++ queued)[j]? = some (.submit w batch p loss t))
    (hfinishes : ∀ i m, i < j → (received ++ queued)[i]? = some m → ¬ m.Finishes w)
    (hrenews : ∀ i m, j < i → (received ++ queued)[i]? = some m → m.Renews w →
      ∃ e ∈ (s.run received queued).2.take (min i received.length), e.Answers t)
    {outcome : Outcome α} (hdone : (s.run received queued).1.stage = .completed outcome) :
    ∃ e ∈ (s.run received queued).2, e.Answers t := by
  by_cases hlt : j < received.length
  · rw [List.getElem?_append_left hlt] at hj
    -- taken while the run serves
    obtain ⟨before, after, rfl, rfl⟩ := split_of_getElem? hj
    have hquiet : ∀ m ∈ before, ¬ m.Finishes w := by
      intro m hm
      obtain ⟨i, hi⟩ := List.mem_iff_getElem?.1 hm
      have hlt' := (List.getElem?_eq_some_iff.1 hi).1
      refine hfinishes i m hlt' ?_
      rw [List.append_assoc, List.getElem?_append_left hlt', hi]
    exact h.answered_of_received hne hw hquiet hrenews hdone
  · -- found in the queue by the stop signal
    rw [List.getElem?_append_right (by omega)] at hj
    obtain ⟨before, after, rfl, hlength⟩ := split_of_getElem? hj
    obtain rfl : j = received.length + before.length := by omega
    have hquiet : ∀ m ∈ received ++ before, ¬ m.Finishes w := by
      intro m hm
      obtain ⟨i, hi⟩ := List.mem_iff_getElem?.1 hm
      have hlt' := (List.getElem?_eq_some_iff.1 hi).1
      rw [List.length_append] at hlt'
      refine hfinishes i m hlt' ?_
      rw [← List.append_assoc, List.getElem?_append_left (by simpa using hlt'), hi]
    exact h.answered_of_queued hne hw hquiet hrenews hdone

/-- A completed run reports no worker as waiting. -/
theorem Live.reports {s : Session α τ} (h : s.Live weights scope seen)
    (hne : ∀ o, s.stage ≠ .completed o) {queued : List (Message α τ)} {outcome : Outcome α}
    (hdone : (s.conclude queued).1.stage = .completed outcome) :
    ∀ r ∈ outcome.reports, r.waiting = false := by
  have hreports : ∀ b : Barrier α τ,
      (∀ w r, b.record? w = some r → r.status.isWaiting = false) →
      ∀ r ∈ b.reports, r.waiting = false := by
    intro b hb r hr
    obtain ⟨⟨w, r'⟩, hmem, rfl⟩ := List.mem_map.1 hr
    exact hb w r' (Barrier.mem_numbered.1 hmem)
  -- only a run that served up to the stop signal completes
  have hrun : (s.run [] queued).1.stage = .completed outcome := hdone
  obtain ⟨c, rfl⟩ := serving_of_completed hne hrun
  have hstop := conclude_stop h.sourced.published queued
  generalize (Session.conclude ⟨c, .serving⟩ queued).1 = s' at hstop hdone
  generalize (Session.conclude ⟨c, .serving⟩ queued).2 = replies at hstop
  cases hstop with
  | merged c' model average hb =>
    cases hdone
    exact hreports _ fun w r hr => Barrier.isWaiting_adopt hr
  | empty c' average hb hn =>
    cases hdone
    exact hreports _ hn
  | refused c' cause average hb => cases hdone

/-- What a run owes to those who submit. The coordinator knows the workers below `workers`; the
    run ends in `final` and does `events` on its way. -/
structure Settled (workers : Nat) (weights : Weights α) (scope : MergeScope)
    (received queued : List (Message α τ)) (final : Session α τ) (events : List (Event α τ)) :
    Prop where
  /-- No ticket is answered twice. -/
  once : ((events.flatMap (·.replies)).map (·.ticket)).Nodup
  /-- A submission that is answered with a model took part in the average that made it, as the
      only model of its worker. -/
  merges : ∀ e ∈ events, ∀ w batch p loss t model,
    Message.submit w batch p loss t ∈ received ++ queued →
    (⟨t, .merged model⟩ : Reply α τ) ∈ e.replies →
    Params.average (e.barrier.contributions scope) (some weights) = .ok (some model) ∧
      ∀ q, (w, q) ∈ e.barrier.contributions scope ↔ q = p
  /-- All that one round answers gets the same model. -/
  shared : ∀ e ∈ events, ∀ t t' model model',
    (⟨t, .merged model⟩ : Reply α τ) ∈ e.replies →
    (⟨t', .merged model'⟩ : Reply α τ) ∈ e.replies → model = model'
  /-- In a run that completes, a known worker that has not finished is answered, unless it
      submits again or finishes before it is. -/
  complete : ∀ outcome, final.stage = .completed outcome →
    ∀ j w batch p loss t, (received ++ queued)[j]? = some (.submit w batch p loss t) →
    w.index < workers →
    (∀ i m, i < j → (received ++ queued)[i]? = some m → ¬ m.Finishes w) →
    (∀ i m, j < i → (received ++ queued)[i]? = some m → m.Renews w →
      ∃ e ∈ events.take (min i received.length), e.Answers t) →
    ∃ e ∈ events, e.Answers t
  /-- A run that completes reports nobody as waiting. -/
  reports : ∀ outcome, final.stage = .completed outcome →
    ∀ r ∈ outcome.reports, r.waiting = false

/-- Whatever messages a coordinator is sent, from known or unknown workers and in any order, and
    whenever it takes the stop signal: no wait is answered twice, each is answered with the
    merge it took part in, and none is left open by a run that completes. -/
theorem run_settled (totals : List Nat) (weights : Weights α) (scope : MergeScope)
    (received queued : List (Message α τ))
    (hown : ((received ++ queued).filterMap Message.ticket?).Nodup) :
    Settled totals.length weights scope received queued
      ((ofTotals totals weights scope).run received queued).1
      ((ofTotals totals weights scope).run received queued).2 := by
  have hlive := live_ofTotals (τ := τ) totals weights scope
  have hfresh : ∀ o, (ofTotals totals weights scope : Session α τ).stage ≠ .completed o := by
    intro o h
    cases h
  have hmerges := hlive.run received queued
  rw [List.nil_append] at hmerges
  refine ⟨?once, ?merges, ?shared, ?complete, ?reports⟩
  case once =>
    -- every ticket answered came in, and no ticket came in twice
    have hperm := hlive.run_tickets received queued
    rw [openTickets_ofTotals, List.nil_append] at hperm
    exact hperm.nodup_iff.2 hown
  case merges =>
    intro e he w batch p loss t model hsubmit hreply
    -- the message that brought the ticket is this one, so its model is the one merged
    obtain ⟨average, v, batch', p', loss', hsource, hcontr⟩ := hmerges e he t model hreply
    have hsame := Message.eq_of_ticket hown hsubmit hsource rfl rfl
    cases hsame
    refine ⟨average, fun q => ⟨fun hq => ?_, fun hq => hq ▸ hcontr⟩⟩
    exact Barrier.contributions_inj hcontr hq
  case shared =>
    intro e he t t' model model' hreply hreply'
    -- both are the average of the same contributions
    obtain ⟨average, -⟩ := hmerges e he t model hreply
    obtain ⟨average', -⟩ := hmerges e he t' model' hreply'
    simpa using average.symm.trans average'
  case complete =>
    intro outcome hdone j w batch p loss t hj hw hfinishes hrenews
    have hunfinished : (Barrier.ofTotals totals : Barrier α τ).Unfinished w := by
      refine ⟨⟨none, .training, 0, totals[w.index], Dict.empty⟩, ?_, rfl⟩
      rw [Barrier.record?_ofTotals_eq, List.getElem?_eq_getElem hw]
      rfl
    exact hlive.answered hfresh hunfinished hj hfinishes hrenews hdone
  case reports =>
    intro outcome hdone
    exact (hlive.receiveAll received).reports (hlive.stage_receiveAll received hfresh) hdone

/-- Two workers that meet once, and one of them is stopped before its last message is taken. -/
theorem run_settled_pair :
    let weights : Weights Float32 := Weights.uniform [⟨0⟩, ⟨1⟩]
    let received : List (Message Float32 Nat) :=
      [.submit ⟨0⟩ 1 Params.empty Scalar.one 5, .submit ⟨1⟩ 1 Params.empty Scalar.one 6,
        .finish ⟨0⟩ Params.empty Scalar.one 2]
    let queued : List (Message Float32 Nat) := [.finish ⟨1⟩ Params.empty Scalar.one 2]
    ((received ++ queued).filterMap Message.ticket?).Nodup ∧
      Settled 2 weights .retained received queued
        ((ofTotals [2, 2] weights .retained).run received queued).1
        ((ofTotals [2, 2] weights .retained).run received queued).2 :=
  ⟨by decide, run_settled [2, 2] _ _ _ _ (by decide)⟩

end Session

end Federated
