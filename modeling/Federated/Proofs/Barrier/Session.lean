/-
  Federated.Proofs.Barrier.Session

  The run of a coordinator, seen through its barrier. The board is copied from the barrier and
  never read, so the statements leave it open.

    * `Session.receive_turn` — taking a message absorbs it, and a round follows if one is due:
      it merges a model or is refused.
    * `Session.conclude_stop` — the stop signal absorbs what is queued and resolves a last round.
-/
import Federated.Proofs.Averaging.Merge
import Federated.Proofs.Barrier.Records

namespace Federated

variable {α τ : Type}

namespace Barrier

/-- The barrier once messages have been taken in order, with no look at whether a round is due. -/
def absorbAll (b : Barrier α τ) (ms : List (Message α τ)) : Barrier α τ :=
  ms.foldl (fun b m => (b.take m).1) b

@[simp] theorem absorbAll_nil (b : Barrier α τ) : b.absorbAll [] = b := rfl

@[simp] theorem absorbAll_cons (b : Barrier α τ) (m : Message α τ) (ms : List (Message α τ)) :
    b.absorbAll (m :: ms) = (b.take m).1.absorbAll ms := rfl

theorem absorbAll_append (b : Barrier α τ) (ms ms' : List (Message α τ)) :
    b.absorbAll (ms ++ ms') = (b.absorbAll ms).absorbAll ms' := List.foldl_append

@[simp] theorem absorbAll_merged (b : Barrier α τ) (ms : List (Message α τ)) :
    (b.absorbAll ms).merged = b.merged := by
  induction ms generalizing b with
  | nil => rfl
  | cons m ms ih => rw [absorbAll_cons, ih, take_merged]

@[simp] theorem absorbAll_rounds (b : Barrier α τ) (ms : List (Message α τ)) :
    (b.absorbAll ms).rounds = b.rounds := by
  induction ms generalizing b with
  | nil => rfl
  | cons m ms ih => rw [absorbAll_cons, ih, take_rounds]

@[simp] theorem size_absorbAll (b : Barrier α τ) (ms : List (Message α τ)) :
    (b.absorbAll ms).size = b.size := by
  induction ms generalizing b with
  | nil => rfl
  | cons m ms ih => rw [absorbAll_cons, ih, size_take]

/-- A worker can only wait with a model of its own at the barrier. -/
def Published (b : Barrier α τ) : Prop :=
  ∀ w r, b.record? w = some r → r.status.isWaiting = true → r.submitted.isSome = true

theorem published_ofTotals (totals : List Nat) :
    (ofTotals totals : Barrier α τ).Published := by
  intro w r hr hw
  obtain ⟨total, rfl⟩ := record?_ofTotals hr
  cases hw

theorem Published.take {b : Barrier α τ} (h : b.Published) (m : Message α τ) :
    (b.take m).1.Published := by
  intro w r hr hw
  rw [record?_take] at hr
  split at hr
  · obtain ⟨r', hr', rfl⟩ := Option.map_eq_some_iff.1 hr
    cases m with
    | progress v batch total => exact h w r' hr' hw
    | submit v batch model loss ticket =>
      -- a finished worker's record stays, and any other holds the model it came with
      by_cases hf : r'.status.isFinished
      · simp only [Record.absorb, hf, if_true] at hw ⊢
        exact h w r' hr' hw
      · simp [Record.absorb, hf]
    | finish v model loss total => rfl
  · exact h w r hr hw

theorem Published.absorbAll {b : Barrier α τ} (h : b.Published) (ms : List (Message α τ)) :
    (b.absorbAll ms).Published := by
  induction ms generalizing b with
  | nil => exact h
  | cons m ms ih => exact ih (h.take m)

/-- Nobody waits at a barrier that has just merged a model. -/
theorem isWaiting_adopt {b : Barrier α τ} {model : Params α} {w : WorkerId} {r : Record α τ}
    (hr : (b.adopt model).record? w = some r) : r.status.isWaiting = false := by
  rw [record?_adopt] at hr
  obtain ⟨r', -, rfl⟩ := Option.map_eq_some_iff.1 hr
  exact Record.isWaiting_release r'

theorem published_adopt (b : Barrier α τ) (model : Params α) : (b.adopt model).Published := by
  intro w r hr hw
  rw [isWaiting_adopt hr] at hw
  cases hw

/-- A worker that waits with a model takes part in a round of either scope. -/
theorem takesPart_of_isWaiting {scope : MergeScope} {r : Record α τ}
    (h : r.status.isWaiting = true) : takesPart scope r = true := by
  cases scope with
  | retained => rfl
  | waitingOnly => exact h

/-- Where somebody waits, there is a model to average. -/
theorem contributions_ne_nil {b : Barrier α τ} (hp : b.Published) {w : WorkerId}
    {r : Record α τ} (hr : b.record? w = some r) (hw : r.status.isWaiting = true)
    (scope : MergeScope) : b.contributions scope ≠ [] := by
  obtain ⟨p, hsub⟩ := Option.isSome_iff_exists.1 (hp w r hr hw)
  have hmem : (w, p) ∈ b.contributions scope :=
    mem_contributions.2 ⟨r, hr, takesPart_of_isWaiting hw, hsub⟩
  exact List.ne_nil_of_mem hmem

end Barrier

/-! ## The coordinator -/

namespace Coordinator

theorem post_barrier (c : Coordinator α τ) (w : WorkerId) :
    (c.post w).barrier = c.barrier ∧ (c.post w).weights = c.weights ∧
      (c.post w).scope = c.scope := by
  unfold post
  split <;> exact ⟨rfl, rfl, rfl⟩

theorem postAll_barrier (c : Coordinator α τ) (ws : List WorkerId) :
    (ws.foldl post c).barrier = c.barrier ∧ (ws.foldl post c).weights = c.weights ∧
      (ws.foldl post c).scope = c.scope := by
  induction ws generalizing c with
  | nil => exact ⟨rfl, rfl, rfl⟩
  | cons w ws ih =>
    obtain ⟨hb, hw, hs⟩ := ih (c.post w)
    obtain ⟨hb', hw', hs'⟩ := c.post_barrier w
    exact ⟨hb.trans hb', hw.trans hw', hs.trans hs'⟩

@[simp] theorem apply_barrier (c : Coordinator α τ) (m : Message α τ) :
    (c.apply m).1.barrier = (c.barrier.take m).1 := (post_barrier _ m.worker).1

@[simp] theorem apply_weights (c : Coordinator α τ) (m : Message α τ) :
    (c.apply m).1.weights = c.weights := (post_barrier _ m.worker).2.1

@[simp] theorem apply_scope (c : Coordinator α τ) (m : Message α τ) :
    (c.apply m).1.scope = c.scope := (post_barrier _ m.worker).2.2

@[simp] theorem apply_snd (c : Coordinator α τ) (m : Message α τ) :
    (c.apply m).2 = (c.barrier.take m).2 := rfl

theorem applyAll_cons (c : Coordinator α τ) (m : Message α τ) (ms : List (Message α τ)) :
    c.applyAll (m :: ms) = (((c.apply m).1.applyAll ms).1,
      (c.barrier.take m).2 ++ ((c.apply m).1.applyAll ms).2) := rfl

@[simp] theorem applyAll_barrier (c : Coordinator α τ) (ms : List (Message α τ)) :
    (c.applyAll ms).1.barrier = c.barrier.absorbAll ms := by
  induction ms generalizing c with
  | nil => rfl
  | cons m ms ih =>
    rw [applyAll_cons]
    show ((c.apply m).1.applyAll ms).1.barrier = _
    rw [ih, apply_barrier, Barrier.absorbAll_cons]

@[simp] theorem applyAll_weights (c : Coordinator α τ) (ms : List (Message α τ)) :
    (c.applyAll ms).1.weights = c.weights := by
  induction ms generalizing c with
  | nil => rfl
  | cons m ms ih => exact (ih _).trans (c.apply_weights m)

@[simp] theorem applyAll_scope (c : Coordinator α τ) (ms : List (Message α τ)) :
    (c.applyAll ms).1.scope = c.scope := by
  induction ms generalizing c with
  | nil => rfl
  | cons m ms ih => exact (ih _).trans (c.apply_scope m)

variable [Scalar α]

theorem resolve_of_ok {c : Coordinator α τ} {b : Barrier α τ} {round : Round}
    {replies : List (Reply α τ)}
    (h : c.barrier.resolve c.weights c.scope = .ok (b, round, replies)) :
    ∃ c' : Coordinator α τ, c.resolve = .ok (c', round, replies) ∧ c'.barrier = b ∧
      c'.weights = c.weights ∧ c'.scope = c.scope := by
  refine ⟨round.released.foldl post { c with barrier := b }, ?_, postAll_barrier _ _⟩
  simp only [resolve, h]
  rfl

theorem resolve_of_error {c : Coordinator α τ} {cause : AggregationError α}
    (h : c.barrier.resolve c.weights c.scope = .error cause) : c.resolve = .error cause := by
  simp only [resolve, h]
  rfl

/-- The average that a round resolved now would make. -/
def average (c : Coordinator α τ) (b : Barrier α τ) :
    Except (AggregationError α) (Option (Params α)) :=
  Params.average (b.contributions c.scope) (some c.weights)

end Coordinator

/-! ## The session -/

namespace Session

/-- A coordinator's run before its first message. -/
def ofTotals (totals : List Nat) (weights : Weights α) (scope : MergeScope) : Session α τ :=
  ⟨Coordinator.ofTotals totals weights scope, .serving⟩

theorem isServing_iff {s : Session α τ} : s.isServing = true ↔ s.stage = .serving := by
  obtain ⟨c, stage⟩ := s
  cases stage <;> simp [isServing]

variable [Scalar α]

/-- What taking a message comes to, for a run that still serves. -/
inductive Turn (c : Coordinator α τ) (m : Message α τ) : Session α τ → List (Reply α τ) → Prop
  /-- No round is due. -/
  | quiet (c' : Coordinator α τ) (hb : c'.barrier = (c.barrier.take m).1)
      (hw : c'.weights = c.weights) (hs : c'.scope = c.scope)
      (due : (c.barrier.take m).1.roundReady = false) :
      Turn c m ⟨c', .serving⟩ (c.barrier.take m).2
  /-- A round is due, and merges a model. -/
  | merged (c' : Coordinator α τ) (model : Params α)
      (average : c.average (c.barrier.take m).1 = .ok (some model))
      (hb : c'.barrier = (c.barrier.take m).1.adopt model)
      (hw : c'.weights = c.weights) (hs : c'.scope = c.scope)
      (due : (c.barrier.take m).1.roundReady = true) :
      Turn c m ⟨c', .serving⟩ ((c.barrier.take m).2 ++ (c.barrier.take m).1.answers model)
  /-- A round is due, and is refused. -/
  | refused (c' : Coordinator α τ) (cause : AggregationError α)
      (average : c.average (c.barrier.take m).1 = .error cause)
      (hb : c'.barrier = (c.barrier.take m).1)
      (hw : c'.weights = c.weights) (hs : c'.scope = c.scope)
      (due : (c.barrier.take m).1.roundReady = true) :
      Turn c m ⟨c', .failed cause⟩ ((c.barrier.take m).2 ++ (c.barrier.take m).1.abandon)

section
variable {c : Coordinator α τ} {m : Message α τ} {queue : List (Message α τ)}

theorem receive_of_quiet (due : (c.barrier.take m).1.roundReady = false) :
    receive ⟨c, .serving⟩ m = (⟨(c.apply m).1, .serving⟩, (c.barrier.take m).2) := by
  rw [← c.apply_barrier m] at due
  simp only [receive, due]
  rfl

theorem receive_of_ok (due : (c.barrier.take m).1.roundReady = true) {c' : Coordinator α τ}
    {round : Round} {answers : List (Reply α τ)}
    (h : (c.apply m).1.resolve = .ok (c', round, answers)) :
    receive ⟨c, .serving⟩ m = (⟨c', .serving⟩, (c.barrier.take m).2 ++ answers) := by
  rw [← c.apply_barrier m] at due
  simp only [receive, due, h]
  rfl

theorem receive_of_error (due : (c.barrier.take m).1.roundReady = true)
    {cause : AggregationError α} (h : (c.apply m).1.resolve = .error cause) :
    receive ⟨c, .serving⟩ m =
      (⟨(c.apply m).1, .failed cause⟩, (c.barrier.take m).2 ++ (c.barrier.take m).1.abandon) := by
  rw [← c.apply_barrier m] at due ⊢
  simp only [receive, due, h]
  rfl

theorem conclude_of_ok {c' : Coordinator α τ} {round : Round} {answers : List (Reply α τ)}
    (h : (c.applyAll queue).1.resolve = .ok (c', round, answers)) :
    conclude ⟨c, .serving⟩ queue =
      (⟨c', .completed ⟨c'.barrier.merged, c'.barrier.rounds, c'.barrier.reports⟩⟩,
        (c.applyAll queue).2 ++ answers ++ c'.barrier.abandon) := by
  simp only [conclude, h]

theorem conclude_of_error {cause : AggregationError α}
    (h : (c.applyAll queue).1.resolve = .error cause) :
    conclude ⟨c, .serving⟩ queue = (⟨(c.applyAll queue).1, .failed cause⟩,
      (c.applyAll queue).2 ++ (c.barrier.absorbAll queue).abandon) := by
  rw [← c.applyAll_barrier queue]
  simp only [conclude, h]
  rfl

end

/-- Taking a message absorbs it, and a round follows if one is due. -/
theorem receive_turn {c : Coordinator α τ} (hp : c.barrier.Published) (m : Message α τ) :
    Turn c m (receive ⟨c, .serving⟩ m).1 (receive ⟨c, .serving⟩ m).2 := by
  cases due : (c.barrier.take m).1.roundReady with
  | false =>
    rw [receive_of_quiet due]
    exact .quiet _ (c.apply_barrier m) (c.apply_weights m) (c.apply_scope m) due
  | true =>
    -- posting progress leaves the barrier, the weights and the scope alone
    have hresolve : (c.apply m).1.barrier.resolve (c.apply m).1.weights (c.apply m).1.scope =
        (c.barrier.take m).1.resolve c.weights c.scope := by simp
    cases average : c.average (c.barrier.take m).1 with
    | error cause =>
      rw [receive_of_error due
        (Coordinator.resolve_of_error (hresolve.trans (Barrier.resolve_of_error average)))]
      exact .refused _ cause average (c.apply_barrier m) (c.apply_weights m) (c.apply_scope m) due
    | ok merged =>
      -- a round that is due has a waiting worker, so it never comes out without a model
      obtain ⟨⟨w, r, hr, hwait⟩, -⟩ := Barrier.roundReady_iff.1 due
      have hsome : merged ≠ none := by
        rintro rfl
        exact Barrier.contributions_ne_nil (hp.take m) hr hwait c.scope
          ((Params.average_eq_none_iff (Barrier.keySorted_contributions _ _)).1 average)
      obtain ⟨model, rfl⟩ := Option.ne_none_iff_exists'.1 hsome
      obtain ⟨c', hc', hb, hw, hs⟩ :=
        Coordinator.resolve_of_ok (hresolve.trans (Barrier.resolve_of_merged average))
      rw [receive_of_ok due hc']
      exact .merged c' model average hb (hw.trans (c.apply_weights m)) (hs.trans (c.apply_scope m))
        due

/-- What the stop signal comes to, for a run that still serves. -/
inductive Stop (c : Coordinator α τ) (queue : List (Message α τ)) :
    Session α τ → List (Reply α τ) → Prop
  /-- The last round merges a model. -/
  | merged (c' : Coordinator α τ) (model : Params α)
      (average : c.average (c.barrier.absorbAll queue) = .ok (some model))
      (hb : c'.barrier = (c.barrier.absorbAll queue).adopt model) :
      Stop c queue ⟨c', .completed ⟨some model, c.barrier.rounds + 1,
          ((c.barrier.absorbAll queue).adopt model).reports⟩⟩
        ((c.applyAll queue).2 ++ (c.barrier.absorbAll queue).answers model)
  /-- Nobody takes part in the last round, and nobody waits. -/
  | empty (c' : Coordinator α τ) (average : c.average (c.barrier.absorbAll queue) = .ok none)
      (hb : c'.barrier = c.barrier.absorbAll queue)
      (hn : ∀ w r, (c.barrier.absorbAll queue).record? w = some r → r.status.isWaiting = false) :
      Stop c queue ⟨c', .completed ⟨c.barrier.merged, c.barrier.rounds,
          (c.barrier.absorbAll queue).reports⟩⟩ (c.applyAll queue).2
  /-- The last round is refused. -/
  | refused (c' : Coordinator α τ) (cause : AggregationError α)
      (average : c.average (c.barrier.absorbAll queue) = .error cause)
      (hb : c'.barrier = c.barrier.absorbAll queue) :
      Stop c queue ⟨c', .failed cause⟩
        ((c.applyAll queue).2 ++ (c.barrier.absorbAll queue).abandon)

/-- The stop signal absorbs what is queued and resolves a last round. -/
theorem conclude_stop {c : Coordinator α τ} (hp : c.barrier.Published)
    (queue : List (Message α τ)) :
    Stop c queue (conclude ⟨c, .serving⟩ queue).1 (conclude ⟨c, .serving⟩ queue).2 := by
  have hresolve : (c.applyAll queue).1.barrier.resolve (c.applyAll queue).1.weights
      (c.applyAll queue).1.scope = (c.barrier.absorbAll queue).resolve c.weights c.scope := by
    simp
  cases average : c.average (c.barrier.absorbAll queue) with
  | error cause =>
    rw [conclude_of_error
      (Coordinator.resolve_of_error (hresolve.trans (Barrier.resolve_of_error average)))]
    exact .refused _ cause average (c.applyAll_barrier queue)
  | ok merged =>
    cases merged with
    -- the round answers everyone who waits, so nothing is left to give up
    | some model =>
      obtain ⟨c', hc', hb, -, -⟩ :=
        Coordinator.resolve_of_ok (hresolve.trans (Barrier.resolve_of_merged average))
      have habandon : c'.barrier.abandon = [] := by
        rw [hb]
        simp [Barrier.abandon, Barrier.waiting_adopt]
      rw [conclude_of_ok hc', habandon, List.append_nil]
      simp only [hb, Barrier.adopt_merged, Barrier.adopt_rounds, Barrier.absorbAll_rounds]
      exact .merged c' model average hb
    | none =>
      -- nothing to merge: nobody waits, since whoever waits has a model to merge
      have hn : ∀ w r, (c.barrier.absorbAll queue).record? w = some r →
          r.status.isWaiting = false := by
        intro w r hr
        rw [← Bool.not_eq_true]
        intro hw
        exact Barrier.contributions_ne_nil (hp.absorbAll queue) hr hw c.scope
          ((Params.average_eq_none_iff (Barrier.keySorted_contributions _ _)).1 average)
      obtain ⟨c', hc', hb, -, -⟩ :=
        Coordinator.resolve_of_ok (hresolve.trans (Barrier.resolve_of_empty average hn))
      have habandon : c'.barrier.abandon = [] := by
        rw [hb]
        simp [Barrier.abandon, Barrier.waiting_eq_nil hn]
      rw [conclude_of_ok hc', habandon, List.append_nil, List.append_nil]
      simp only [hb, Barrier.absorbAll_merged, Barrier.absorbAll_rounds]
      exact .empty c' average hb hn

end Session

end Federated
