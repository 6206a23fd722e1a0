/-
  Federated.Proofs.Barrier.Prompt

  When a run of the coordinator resolves its rounds: at once when the last worker that trained
  has joined or left, and never before.

    * `Barrier.Due` — somebody waits and nobody trains.
    * `Prompt`, `receive_prompt` — what one message does to a run that serves, whoever sent it.
    * `Idle.receiveAll` — between messages no round is due, and each one that was has been
      resolved by the message that made it due.
    * `rounds_prompt` — all of it, after every sequence of messages that a run outlives.
-/
import Federated.Proofs.Barrier.Freshness

namespace Federated

variable {α τ : Type}

namespace Barrier

/-- Somebody waits, and nobody trains. -/
def Due (b : Barrier α τ) : Prop :=
  (∃ w r, b.record? w = some r ∧ r.status.isWaiting = true) ∧
    ∀ w r, b.record? w = some r → r.status.isTraining = false

/-- Somebody trains, or nobody waits. -/
def Open (b : Barrier α τ) : Prop :=
  (∃ w r, b.record? w = some r ∧ r.status.isTraining = true) ∨
    ∀ w r, b.record? w = some r → r.status.isWaiting = false

theorem not_due_iff {b : Barrier α τ} : ¬ b.Due ↔ b.Open := by
  simp only [Due, Open, not_and_or, not_exists, not_forall, exists_prop, Bool.not_eq_true,
    Bool.not_eq_false, ← imp_iff_not_or]
  exact or_comm

theorem open_iff {b : Barrier α τ} : b.Open ↔ b.roundReady = false := by
  rw [← not_due_iff, ← Bool.not_eq_true]
  exact not_congr roundReady_iff.symm

/-- At a new barrier nobody waits. -/
theorem open_ofTotals (totals : List Nat) : (ofTotals totals : Barrier α τ).Open := by
  refine .inr fun w r hr => ?_
  obtain ⟨total, rfl⟩ := record?_ofTotals hr
  rfl

/-- A round that merges a model leaves nobody waiting. -/
theorem open_adopt (b : Barrier α τ) (model : Params α) : (b.adopt model).Open :=
  .inr fun _ _ hr => isWaiting_adopt hr

end Barrier

namespace Session

section
variable [Scalar α]

/-- What a message does to a run that serves. `taken` is the barrier once the message has been
    taken, before any round. -/
structure Prompt (c : Coordinator α τ) (taken : Barrier α τ) (next : Session α τ)
    (replies : List (Reply α τ)) : Prop where
  /-- A round is resolved, or attempted in vain, exactly when it is due. -/
  resolved : (next.coordinator.barrier.rounds = c.barrier.rounds + 1 ∨
    ∃ cause, next.stage = .failed cause) ↔ taken.Due
  /-- One message makes for one round at most. -/
  once : next.coordinator.barrier.rounds ≤ c.barrier.rounds + 1
  /-- Before a round is due nobody is let go. -/
  early : taken.Open → next.stage = .serving ∧ next.coordinator.barrier = taken ∧
    ∀ t model, (⟨t, .merged model⟩ : Reply α τ) ∉ replies
  /-- Once it is due everybody who waits is answered with its model. -/
  prompt : taken.Due → next.stage = .serving → ∃ model, c.average taken = .ok (some model) ∧
    next.coordinator.barrier = taken.adopt model ∧
    ∀ w r t, taken.record? w = some r → r.status = .waiting t →
      (⟨t, .merged model⟩ : Reply α τ) ∈ replies
  /-- A run fails by the average of a round that is due, and by nothing else. -/
  failed : ∀ cause, next.stage = .failed cause → taken.Due ∧ c.average taken = .error cause
  /-- Where the next message is waited for, no round is due. -/
  idle : next.stage = .serving → next.coordinator.barrier.Open

theorem receive_prompt {c : Coordinator α τ} (hp : c.barrier.Published) (m : Message α τ) :
    Prompt c (c.barrier.take m).1 (receive ⟨c, .serving⟩ m).1 (receive ⟨c, .serving⟩ m).2 := by
  generalize hnext : receive ⟨c, .serving⟩ m = next
  obtain ⟨next, replies⟩ := next
  have hturn := receive_turn hp m
  rw [hnext] at hturn
  cases hturn with
  | quiet c' hb hw hs due =>
    have hopen : (c.barrier.take m).1.Open := Barrier.open_iff.2 due
    have hnot : ¬ (c.barrier.take m).1.Due := Barrier.not_due_iff.2 hopen
    exact
      { resolved := by simp [hb, hnot]
        once := by simp [hb]
        early := fun _ => ⟨rfl, hb, fun _ _ => Barrier.not_merged_mem_take⟩
        prompt := fun hdue => absurd hdue hnot
        failed := nofun
        idle := fun _ => by rwa [hb] }
  | merged c' model average hb hw hs due =>
    have hdue : (c.barrier.take m).1.Due := Barrier.roundReady_iff.1 due
    have hnot : ¬ (c.barrier.take m).1.Open := fun h => Barrier.not_due_iff.2 h hdue
    exact
      { resolved := by simp [hb, hdue]
        once := by simp [hb]
        early := fun hopen => absurd hopen hnot
        prompt := fun _ _ => ⟨model, average, hb, fun w r t hr ht =>
          List.mem_append_right _ (Barrier.mem_answers.2 ⟨rfl, w, r, hr, ht⟩)⟩
        failed := nofun
        idle := fun _ => hb ▸ Barrier.open_adopt _ model }
  | refused c' cause average hb hw hs due =>
    have hdue : (c.barrier.take m).1.Due := Barrier.roundReady_iff.1 due
    have hnot : ¬ (c.barrier.take m).1.Open := fun h => Barrier.not_due_iff.2 h hdue
    exact
      { resolved := iff_of_true (.inr ⟨cause, rfl⟩) hdue
        once := by simp [hb]
        early := fun hopen => absurd hopen hnot
        prompt := fun _ => nofun
        failed := by rintro _ ⟨⟩; exact ⟨hdue, average⟩
        idle := nofun }

end

/-! ## Whole runs -/

/-- A coordinator between two messages. -/
structure Idle (weights : Weights α) (scope : MergeScope) (c : Coordinator α τ) : Prop where
  weights_eq : c.weights = weights
  scope_eq : c.scope = scope
  published : c.barrier.Published
  idle : c.barrier.Open

theorem idle_ofTotals (totals : List Nat) (weights : Weights α) (scope : MergeScope) :
    Idle weights scope (Coordinator.ofTotals totals weights scope : Coordinator α τ) :=
  ⟨rfl, rfl, Barrier.published_ofTotals totals, Barrier.open_ofTotals totals⟩

variable [Scalar α] {weights : Weights α} {scope : MergeScope}

/-- A run that goes on is idle again, and has counted the round that the message made due. -/
theorem Idle.receive {c c' : Coordinator α τ} (h : Idle weights scope c) {m : Message α τ}
    (hs : (Session.receive ⟨c, .serving⟩ m).1 = ⟨c', .serving⟩) :
    Idle weights scope c' ∧ c'.barrier.rounds =
      c.barrier.rounds + if (c.barrier.take m).1.roundReady then 1 else 0 := by
  have hturn := receive_turn h.published m
  rw [hs] at hturn
  generalize (Session.receive ⟨c, .serving⟩ m).2 = replies at hturn
  cases hturn with
  | quiet _ hb hw hs due =>
    refine ⟨⟨hw.trans h.weights_eq, hs.trans h.scope_eq, ?_, ?_⟩, by simp [hb, due]⟩
    · rw [hb]
      exact h.published.take m
    · rw [hb]
      exact Barrier.open_iff.2 due
  | merged _ model average hb hw hs due =>
    refine ⟨⟨hw.trans h.weights_eq, hs.trans h.scope_eq, ?_, ?_⟩, by simp [hb, due]⟩
    · rw [hb]
      exact Barrier.published_adopt _ model
    · rw [hb]
      exact Barrier.open_adopt _ model

/-- So is a run that has outlived any messages, and it has counted the rounds that they made
    due, one for each. -/
theorem Idle.receiveAll {c c' : Coordinator α τ} (h : Idle weights scope c)
    {ms : List (Message α τ)} (hs : (Session.receiveAll ⟨c, .serving⟩ ms).1 = ⟨c', .serving⟩) :
    Idle weights scope c' ∧ c'.barrier.rounds = c.barrier.rounds +
      (Session.receiveAll ⟨c, .serving⟩ ms).2.countP (·.barrier.roundReady) := by
  induction ms generalizing c with
  | nil =>
    cases hs
    exact ⟨h, rfl⟩
  | cons m ms ih =>
    simp only [receiveAll_cons] at hs ⊢
    generalize hnext : (Session.receive ⟨c, .serving⟩ m).1 = next at hs ⊢
    obtain ⟨c₁, stage⟩ := next
    by_cases hstage : stage = .serving
    · subst hstage
      obtain ⟨h₁, hrounds₁⟩ := h.receive hnext
      obtain ⟨h', hrounds'⟩ := ih h₁ hs
      refine ⟨h', ?_⟩
      simp only [hrounds', hrounds₁, List.countP_cons]
      omega
    · -- a run that has ended takes no more messages, so it cannot serve in the end
      rw [receiveAll_of_not_serving hstage] at hs
      cases hs
      exact absurd rfl hstage

/-- The barrier is prompt and never premature. Whatever messages a run has taken, of known and
    unknown workers and in any order, while it still serves: no round is due, as many have been
    resolved as messages made one due, and one more message is followed by a round exactly if
    somebody waits and nobody trains then. -/
theorem rounds_prompt (totals : List Nat) (weights : Weights α) (scope : MergeScope)
    (received : List (Message α τ))
    (serving : ((ofTotals totals weights scope).receiveAll received).1.stage = .serving) :
    let served := (ofTotals totals weights scope).receiveAll received
    let c := served.1.coordinator
    (c.weights = weights ∧ c.scope = scope) ∧
    (c.barrier.roundReady = false ∧ c.barrier.Open) ∧
    c.barrier.rounds = served.2.countP (·.barrier.roundReady) ∧
    ∀ m : Message α τ, Prompt c (c.barrier.take m).1 (served.1.receive m).1
      (served.1.receive m).2 := by
  intro served c
  have hserved : served.1 = ⟨c, .serving⟩ := by
    rw [← serving]
  obtain ⟨hidle, hrounds⟩ := (idle_ofTotals totals weights scope).receiveAll hserved
  refine ⟨⟨hidle.weights_eq, hidle.scope_eq⟩, ⟨Barrier.open_iff.1 hidle.idle, hidle.idle⟩,
    hrounds.trans (Nat.zero_add _), fun m => ?_⟩
  rw [hserved]
  exact receive_prompt hidle.published m

/-- Two workers and a stranger: the first waits until the second joins it, waits again until the
    second has left, and then the stranger changes nothing. -/
theorem rounds_prompt_pair :
    let model (n : Nat) : Params Float32 := Params.ofList [("weight", Tensor.zeros [n])]
    let weights : Weights Float32 := Weights.uniform [⟨0⟩, ⟨1⟩]
    let received : List (Message Float32 Nat) :=
      [.submit ⟨0⟩ 1 (model 2) Scalar.one 5, .submit ⟨7⟩ 1 (model 3) Scalar.one 6,
        .submit ⟨1⟩ 1 (model 2) Scalar.one 7, .submit ⟨0⟩ 2 (model 2) Scalar.one 8,
        .finish ⟨1⟩ (model 2) Scalar.one 1, .submit ⟨1⟩ 2 (model 4) Scalar.one 9]
    let served := (ofTotals [3, 1] weights .retained).receiveAll received
    let c := served.1.coordinator
    served.1.stage = .serving ∧
    served.2.map (·.barrier.roundReady) = [false, false, true, false, true, false] ∧
    c.barrier.rounds = 2 ∧ c.barrier.Open ∧
    ∀ m : Message Float32 Nat, Prompt c (c.barrier.take m).1 (served.1.receive m).1
      (served.1.receive m).2 := by
  intro model weights received served c
  have hstage : served.1.stage = .serving := isServing_iff.1 (by decide +kernel)
  have hdue : served.2.map (·.barrier.roundReady) =
      [false, false, true, false, true, false] := by
    decide +kernel
  obtain ⟨-, ⟨-, hopen⟩, hrounds, hprompt⟩ := rounds_prompt [3, 1] weights .retained received hstage
  have hcount : served.2.countP (·.barrier.roundReady) = 2 := by
    have h := congrArg (List.countP id) hdue
    rwa [List.countP_map] at h
  exact ⟨hstage, hdue, hrounds.trans hcount, hopen, hprompt⟩

end Session

end Federated
