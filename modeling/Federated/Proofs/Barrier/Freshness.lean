/-
  Federated.Proofs.Barrier.Freshness

  What a run of the coordinator answers with when it is stopped, read off the messages it was
  sent and the rounds it resolved, wherever in the sequence the stop signal is taken.

    * `accepted` — the models of a worker that count, and `Tells.take`: the barrier keeps the
      latest of them.
    * `Traced.receive` — what one message adds to the rounds resolved so far.
    * `completed_upToDate` — under `retained` the outcome is the average of the latest models of
      all workers, under `waitingOnly` it is the last round that somebody waited for, and it
      counts the rounds that had models.
-/
import Federated.Proofs.Barrier.Answers
import Federated.Proofs.Barrier.Calls

namespace Federated

variable {α τ : Type}

/-! ## The models of a worker -/

namespace Message

/-- The model of a worker that a message brings. -/
def modelOf? (w : WorkerId) : Message α τ → Option (Params α)
  | .progress _ _ _ => none
  | .submit v _ model _ _ => if v = w then some model else none
  | .finish v model _ _ => if v = w then some model else none

/-- The model that a worker finishes with. -/
def lastModelOf? (w : WorkerId) : Message α τ → Option (Params α)
  | .finish v model _ _ => if v = w then some model else none
  | _ => none

theorem modelOf?_of_last {w : WorkerId} {m : Message α τ} {model : Params α}
    (h : m.lastModelOf? w = some model) : m.modelOf? w = some model := by
  cases m with
  | finish v p loss total => exact h
  | _ => cases h

theorem modelOf?_of_ne {w : WorkerId} {m : Message α τ} (h : m.worker ≠ w) :
    m.modelOf? w = none ∧ m.lastModelOf? w = none := by
  cases m with
  | progress v batch total => exact ⟨rfl, rfl⟩
  | submit v batch model loss ticket => exact ⟨if_neg h, rfl⟩
  | finish v model loss total => exact ⟨if_neg h, if_neg h⟩

end Message

/-- The models of a worker that are accepted, in order: all it sends until it finishes, and from
    then on those it finishes with. -/
def accepted (w : WorkerId) : List (Message α τ) → List (Params α)
  | [] => []
  | m :: ms =>
    match m.lastModelOf? w with
    | some model => model :: ms.filterMap (·.lastModelOf? w)
    | none => (m.modelOf? w).toList ++ accepted w ms

/-- The latest model of a worker that is accepted. -/
def latest? (w : WorkerId) (ms : List (Message α τ)) : Option (Params α) :=
  (accepted w ms).getLast?

/-- Whether a worker has finished. -/
def hasFinished (w : WorkerId) (ms : List (Message α τ)) : Bool :=
  ms.any fun m => (m.lastModelOf? w).isSome

/-- One more message brings its model, or its last model if the worker has finished before. -/
theorem accepted_concat (w : WorkerId) (ms : List (Message α τ)) (m : Message α τ) :
    accepted w (ms ++ [m]) =
      accepted w ms ++
        (if hasFinished w ms then m.lastModelOf? w else m.modelOf? w).toList := by
  induction ms with
  | nil =>
    cases hm : m.lastModelOf? w with
    | none => simp [accepted, hasFinished, hm]
    | some model => simp [accepted, hasFinished, hm, Message.modelOf?_of_last hm]
  | cons d ms ih =>
    cases hd : d.lastModelOf? w with
    | none => simp [accepted, hasFinished, hd, ih]
    | some model => cases hm : m.lastModelOf? w <;> simp [accepted, hasFinished, hd, hm]

theorem hasFinished_concat (w : WorkerId) (ms : List (Message α τ)) (m : Message α τ) :
    hasFinished w (ms ++ [m]) = (hasFinished w ms || (m.lastModelOf? w).isSome) := by
  simp [hasFinished]

namespace Barrier

/-- Each record holds the latest model of its worker, and whether it has finished. -/
def Tells (b : Barrier α τ) (seen : List (Message α τ)) : Prop :=
  ∀ w r, b.record? w = some r →
    r.submitted = latest? w seen ∧ r.status.isFinished = hasFinished w seen

variable {b : Barrier α τ} {seen : List (Message α τ)}

theorem tells_ofTotals (totals : List Nat) : (ofTotals totals : Barrier α τ).Tells [] := by
  intro w r hr
  obtain ⟨total, rfl⟩ := record?_ofTotals hr
  exact ⟨rfl, rfl⟩

theorem Tells.take (h : b.Tells seen) (m : Message α τ) : (b.take m).1.Tells (seen ++ [m]) := by
  intro w r hr
  rw [latest?, accepted_concat, hasFinished_concat]
  by_cases hw : m.worker = w
  · rw [record?_take, if_pos hw] at hr
    obtain ⟨r, hr', rfl⟩ := Option.map_eq_some_iff.1 hr
    obtain ⟨hsub, hfin⟩ := h w r hr'
    subst hw
    cases m with
    | progress v batch total =>
      simpa [Record.absorb, Message.modelOf?, Message.lastModelOf?, latest?] using ⟨hsub, hfin⟩
    | submit v batch model loss ticket =>
      -- a worker that has finished is not heard any more
      cases hf : r.status.isFinished with
      | true =>
        rw [hf] at hfin
        simpa [Record.absorb, hf, ← hfin, Message.lastModelOf?, latest?] using hsub
      | false =>
        have hopen : hasFinished v seen = false := hfin.symm.trans hf
        simp [Record.absorb, hf, hopen, Message.modelOf?, Message.lastModelOf?, Message.worker]
        rfl
    | finish v model loss total =>
      simp [Record.absorb, Message.modelOf?, Message.lastModelOf?, Message.worker,
        Status.isFinished]
  · rw [record?_take_ne hw] at hr
    obtain ⟨hmodel, hlast⟩ := Message.modelOf?_of_ne hw
    simpa [hmodel, hlast, latest?] using h w r hr

theorem Tells.absorbAll (h : b.Tells seen) (ms : List (Message α τ)) :
    (b.absorbAll ms).Tells (seen ++ ms) := by
  induction ms generalizing b seen with
  | nil => simpa using h
  | cons m ms ih => simpa using ih (h.take m)

theorem Tells.adopt (h : b.Tells seen) (model : Params α) : (b.adopt model).Tells seen := by
  intro w r hr
  rw [record?_adopt] at hr
  obtain ⟨r', hr', rfl⟩ := Option.map_eq_some_iff.1 hr
  rw [Record.submitted_release, Record.isFinished_release]
  exact h w r' hr'

/-- A round of all workers averages the latest model of each. -/
theorem Tells.contributions (h : b.Tells seen) :
    b.contributions .retained = (List.range b.size).filterMap fun i =>
      (latest? ⟨i⟩ seen).map (⟨i⟩, ·) := by
  have hworkers : ((List.range b.size).map WorkerId.mk).filterMap
      (fun w => (latest? w seen).map (w, ·)) =
        (List.range b.size).filterMap fun i => (latest? ⟨i⟩ seen).map (⟨i⟩, ·) :=
    List.filterMap_map
  rw [← hworkers, ← numbered_map_fst, List.filterMap_map, Barrier.contributions]
  refine List.filterMap_congr fun e he => ?_
  simp [takesPart, (h e.1 e.2 (mem_numbered.1 he)).1]

/-! ## Once a model has come in -/

/-- Some worker has submitted. -/
def Begun (b : Barrier α τ) : Prop :=
  ∃ w r, b.record? w = some r ∧ r.submitted.isSome = true

theorem Begun.since {b' : Barrier α τ} (h : b.Begun) (hsince : b.Since b') : b'.Begun := by
  obtain ⟨w, r, hr, hsub⟩ := h
  obtain ⟨r', hr', hlater⟩ := hsince.records w r hr
  exact ⟨w, r', hr', hlater.submitted hsub⟩

theorem since_take (b : Barrier α τ) (m : Message α τ) : b.Since (b.take m).1 := by
  rw [take_fst]
  exact (Called.taken m).since

theorem since_absorbAll (b : Barrier α τ) (ms : List (Message α τ)) :
    b.Since (b.absorbAll ms) := by
  induction ms generalizing b with
  | nil => exact .refl b
  | cons m ms ih => exact (b.since_take m).trans (ih _)

theorem begun_of_contributions {scope : MergeScope} (h : b.contributions scope ≠ []) :
    b.Begun := by
  obtain ⟨⟨w, p⟩, hmem⟩ := List.exists_mem_of_ne_nil _ h
  obtain ⟨r, hr, -, hsub⟩ := mem_contributions.1 hmem
  exact ⟨w, r, hr, by rw [hsub]; rfl⟩

theorem Begun.contributions (h : b.Begun) : b.contributions .retained ≠ [] := by
  obtain ⟨w, r, hr, hsub⟩ := h
  obtain ⟨p, hp⟩ := Option.isSome_iff_exists.1 hsub
  exact List.ne_nil_of_mem (mem_contributions.2 ⟨r, hr, rfl, hp⟩)

/-- Where nobody waits, a round of the waiting workers has no models. -/
theorem contributions_of_waiting_nil (h : b.waiting = []) :
    b.contributions .waitingOnly = [] := by
  rw [List.eq_nil_iff_forall_not_mem]
  rintro ⟨w, p⟩ hmem
  obtain ⟨r, hr, hwait, -⟩ := mem_contributions.1 hmem
  cases hs : r.status with
  | waiting ticket => exact List.not_mem_nil (h ▸ mem_waiting.2 ⟨r, hr, hs⟩)
  | _ => simp [takesPart, hs, Status.isWaiting] at hwait

theorem waiting_ne_nil {w : WorkerId} {r : Record α τ} (hr : b.record? w = some r)
    (hw : r.status.isWaiting = true) : b.waiting ≠ [] := by
  cases hs : r.status with
  | waiting ticket => exact List.ne_nil_of_mem (mem_waiting.2 ⟨r, hr, hs⟩)
  | _ => simp [hs, Status.isWaiting] at hw

end Barrier

/-! ## The rounds of a run -/

/-- The last barrier of a list at which somebody waits. -/
def lastAwaited? (bs : List (Barrier α τ)) : Option (Barrier α τ) :=
  (bs.filter fun b => !b.waiting.isEmpty).getLast?

/-- How many rounds resolved at the barriers of a list have models. -/
def mergeCount (scope : MergeScope) (bs : List (Barrier α τ)) : Nat :=
  bs.countP fun b => !(b.participants scope).isEmpty

theorem lastAwaited?_concat (bs : List (Barrier α τ)) (b : Barrier α τ) :
    lastAwaited? (bs ++ [b]) = if b.waiting = [] then lastAwaited? bs else some b := by
  by_cases hb : b.waiting = [] <;> simp [lastAwaited?, hb]

theorem mergeCount_concat (scope : MergeScope) (bs : List (Barrier α τ)) (b : Barrier α τ) :
    mergeCount scope (bs ++ [b]) =
      mergeCount scope bs + if b.contributions scope = [] then 0 else 1 := by
  by_cases hb : b.contributions scope = [] <;>
    simp [mergeCount, Barrier.participants, List.countP_append, hb]

namespace Session

variable [Scalar α]

/-- The barriers at which a run resolves its rounds, the last one at the stop signal. -/
def resolved (s : Session α τ) (received queued : List (Message α τ)) : List (Barrier α τ) :=
  (((s.receiveAll received).2.map (·.barrier)).filter (·.roundReady)) ++
    [(s.receiveAll received).1.coordinator.barrier.absorbAll queued]

/-- What a coordinator that still serves has made of the messages it has seen, and of the
    barriers at which it has resolved a round. -/
structure Traced (workers : Nat) (weights : Weights α) (scope : MergeScope)
    (seen : List (Message α τ)) (resolved : List (Barrier α τ)) (c : Coordinator α τ) :
    Prop where
  size_eq : c.barrier.size = workers
  weights_eq : c.weights = weights
  scope_eq : c.scope = scope
  published : c.barrier.Published
  tells : c.barrier.Tells seen
  /-- Nothing is merged before the first submission. -/
  begun : c.barrier.merged.isSome = true → c.barrier.Begun
  /-- What is merged is the last round that somebody waited for. -/
  merged : (lastAwaited? resolved).elim (.ok none)
    (fun b => Params.average (b.contributions scope) (some weights)) = .ok c.barrier.merged
  rounds : c.barrier.rounds = mergeCount scope resolved

variable {workers : Nat} {weights : Weights α} {scope : MergeScope} {seen : List (Message α τ)}
  {resolved : List (Barrier α τ)}

theorem traced_ofTotals (totals : List Nat) (weights : Weights α) (scope : MergeScope) :
    Traced totals.length weights scope [] []
      (Coordinator.ofTotals totals weights scope : Coordinator α τ) where
  size_eq := by simp [Coordinator.ofTotals, Barrier.ofTotals, Barrier.size]
  weights_eq := rfl
  scope_eq := rfl
  published := Barrier.published_ofTotals totals
  tells := Barrier.tells_ofTotals totals
  begun := fun h => by cases h
  merged := rfl
  rounds := rfl

/-- A message is seen, and a round that it makes due is resolved. -/
theorem Traced.receive {c c' : Coordinator α τ} (h : Traced workers weights scope seen resolved c)
    (m : Message α τ) (hs : (receive ⟨c, .serving⟩ m).1 = ⟨c', .serving⟩) :
    Traced workers weights scope (seen ++ [m])
      (resolved ++ [(c.barrier.take m).1].filter (·.roundReady)) c' := by
  have hturn := receive_turn h.published m
  rw [hs] at hturn
  have hbegun : (c.barrier.take m).1.merged.isSome = true → (c.barrier.take m).1.Begun := by
    rw [Barrier.take_merged]
    exact fun hm => (h.begun hm).since (c.barrier.since_take m)
  generalize (Session.receive ⟨c, .serving⟩ m).2 = replies at hturn
  cases hturn with
  | quiet _ hb hw hsc due =>
    have hnone : [(c.barrier.take m).1].filter (·.roundReady) = [] := by simp [due]
    rw [hnone, List.append_nil]
    refine ⟨?_, hw.trans h.weights_eq, hsc.trans h.scope_eq, ?_, ?_, ?_, ?_, ?_⟩ <;> rw [hb]
    · rw [Barrier.size_take, h.size_eq]
    · exact h.published.take m
    · exact h.tells.take m
    · exact hbegun
    · rw [Barrier.take_merged]
      exact h.merged
    · rw [Barrier.take_rounds]
      exact h.rounds
  | merged _ model average hb hw hsc due =>
    -- a round that is due has somebody waiting, so it has a model too
    obtain ⟨⟨w, r, hr, hwait⟩, -⟩ := Barrier.roundReady_iff.1 due
    have hwaiting := Barrier.waiting_ne_nil hr hwait
    have hmodels := Barrier.contributions_ne_nil (h.published.take m) hr hwait scope
    have hone : [(c.barrier.take m).1].filter (·.roundReady) = [(c.barrier.take m).1] := by
      simp [due]
    rw [hone]
    refine ⟨?_, hw.trans h.weights_eq, hsc.trans h.scope_eq, ?_, ?_, ?_, ?_, ?_⟩ <;> rw [hb]
    · rw [Barrier.size_adopt, Barrier.size_take, h.size_eq]
    · exact Barrier.published_adopt _ model
    · exact (h.tells.take m).adopt model
    · have hsince := (Barrier.Called.merged (b := (c.barrier.take m).1) weights scope model).since
      exact fun _ => (Barrier.begun_of_contributions hmodels).since hsince
    · rw [lastAwaited?_concat, if_neg hwaiting]
      rw [Coordinator.average, h.weights_eq, h.scope_eq] at average
      exact average
    · rw [mergeCount_concat, if_neg hmodels, Barrier.adopt_rounds, Barrier.take_rounds, h.rounds]

theorem receiveAll_of_not_serving {s : Session α τ} (hs : s.stage ≠ .serving)
    (ms : List (Message α τ)) : (s.receiveAll ms).1 = s := by
  induction ms with
  | nil => rfl
  | cons m ms ih => rw [receiveAll_cons, receive_of_not_serving hs]; exact ih

/-- Messages are seen one after another, and the rounds that they make due are resolved. -/
theorem Traced.receiveAll {c c' : Coordinator α τ}
    (h : Traced workers weights scope seen resolved c)
    {ms : List (Message α τ)} (hs : (receiveAll ⟨c, .serving⟩ ms).1 = ⟨c', .serving⟩) :
    Traced workers weights scope (seen ++ ms)
      (resolved ++
        ((Session.receiveAll ⟨c, .serving⟩ ms).2.map (·.barrier)).filter (·.roundReady)) c' := by
  induction ms generalizing c seen resolved with
  | nil =>
    cases hs
    simpa [Session.receiveAll] using h
  | cons m ms ih =>
    rw [receiveAll_cons] at hs ⊢
    -- a run that serves at the end has served all along
    obtain ⟨d, hd⟩ : ∃ d, (Session.receive ⟨c, .serving⟩ m).1 = ⟨d, .serving⟩ := by
      by_contra hnot
      have hstage : (Session.receive ⟨c, .serving⟩ m).1.stage ≠ .serving := fun hserving =>
        hnot ⟨_, congrArg (Session.mk _) hserving⟩
      rw [receiveAll_of_not_serving hstage] at hs
      exact hstage (congrArg Session.stage hs)
    rw [hd] at hs ⊢
    have hlater := ih (h.receive m hd) hs
    rw [← List.append_cons, List.append_assoc, ← List.filter_append] at hlater
    simpa using hlater

/-- What a completed run owes to whoever stopped it. -/
structure UpToDate (workers : Nat) (weights : Weights α) (scope : MergeScope)
    (received queued : List (Message α τ)) (resolved : List (Barrier α τ))
    (outcome : Outcome α) : Prop where
  /-- Among all workers, the outcome is the average of the latest model of each that has one. -/
  retained : scope = .retained →
    Params.average ((List.range workers).filterMap fun i =>
      (latest? ⟨i⟩ (received ++ queued)).map (⟨i⟩, ·)) (some weights) = .ok outcome.merged
  /-- Among those who wait, it is the average of the last round that somebody waited for. -/
  waitingOnly : scope = .waitingOnly →
    (lastAwaited? resolved).elim (.ok none)
      (fun b => Params.average (b.contributions .waitingOnly) (some weights)) = .ok outcome.merged
  /-- The rounds counted are those that had models. -/
  rounds : outcome.rounds = mergeCount scope resolved

/-- The stop signal resolves the last round, behind those of the messages received. -/
theorem Traced.conclude {c : Coordinator α τ} {received queued : List (Message α τ)}
    {outcome : Outcome α} (htraced : Traced workers weights scope received resolved c)
    (hdone : (Session.conclude ⟨c, .serving⟩ queued).1.stage = .completed outcome) :
    UpToDate workers weights scope received queued (resolved ++ [c.barrier.absorbAll queued])
      outcome := by
  have hsize : (c.barrier.absorbAll queued).size = workers := by
    rw [Barrier.size_absorbAll, htraced.size_eq]
  have hcontributions := (htraced.tells.absorbAll queued).contributions
  rw [hsize] at hcontributions
  have hstop := conclude_stop htraced.published queued
  generalize (Session.conclude ⟨c, .serving⟩ queued).1 = s at hstop hdone
  generalize (Session.conclude ⟨c, .serving⟩ queued).2 = replies at hstop
  cases hstop with
  | merged c' model average hb =>
    cases hdone
    rw [Coordinator.average, htraced.weights_eq, htraced.scope_eq] at average
    have hmodels : (c.barrier.absorbAll queued).contributions scope ≠ [] := by
      intro hnil
      rw [hnil] at average
      cases average
    refine ⟨?_, ?_, ?_⟩
    · rintro rfl
      rw [← hcontributions]
      exact average
    · -- the models of this round are those of waiting workers
      rintro rfl
      rw [lastAwaited?_concat, if_neg fun h => hmodels (Barrier.contributions_of_waiting_nil h)]
      exact average
    · rw [mergeCount_concat, if_neg hmodels, htraced.rounds]
  | empty c' average hb hn =>
    cases hdone
    rw [Coordinator.average, htraced.weights_eq, htraced.scope_eq] at average
    have hmodels : (c.barrier.absorbAll queued).contributions scope = [] :=
      (Params.average_eq_none_iff (Barrier.keySorted_contributions _ _)).1 average
    refine ⟨?_, ?_, ?_⟩
    · rintro rfl
      -- no worker has submitted, so nothing was merged in an earlier round either
      have hnone : c.barrier.merged = none := by
        rw [← Option.not_isSome_iff_eq_none]
        intro hmerged
        exact ((htraced.begun hmerged).since (c.barrier.since_absorbAll queued)).contributions
          hmodels
      rw [← hcontributions, hnone]
      exact average
    · rintro rfl
      rw [lastAwaited?_concat, if_pos (Barrier.waiting_eq_nil hn)]
      exact htraced.merged
    · rw [mergeCount_concat, if_pos hmodels, htraced.rounds, Nat.add_zero]
  | refused c' cause average hb => cases hdone

/-- Wherever in a sequence of messages the stop signal is taken, a run that completes answers
    with what the messages have brought up to then and what is drained behind it. -/
theorem completed_upToDate (totals : List Nat) (weights : Weights α) (scope : MergeScope)
    (received queued : List (Message α τ)) (outcome : Outcome α)
    (hdone : ((ofTotals totals weights scope).run received queued).1.stage =
      .completed outcome) :
    UpToDate totals.length weights scope received queued
      ((ofTotals totals weights scope).resolved received queued) outcome := by
  have hlive := live_ofTotals (τ := τ) totals weights scope
  have hfresh : ∀ o, (ofTotals totals weights scope : Session α τ).stage ≠ .completed o := by
    intro o h
    cases h
  -- a run that completes has served up to the stop signal
  obtain ⟨c, hc⟩ := serving_of_completed (hlive.stage_receiveAll received hfresh)
    (show (run _ [] queued).1.stage = .completed outcome from hdone)
  have htraced := (traced_ofTotals totals weights scope).receiveAll hc
  rw [List.nil_append, List.nil_append] at htraced
  simp only [run, hc] at hdone
  rw [resolved, hc]
  exact htraced.conclude hdone

/-- One worker that is answered once, finishes, submits once more in vain, and finishes again
    behind the stop signal: that last model is the outcome. -/
theorem completed_upToDate_single :
    let model (n : Nat) : Params Float32 := Params.ofList [("weight", Tensor.zeros [n])]
    let weights : Weights Float32 := Weights.uniform [⟨0⟩]
    let received : List (Message Float32 Nat) :=
      [.submit ⟨0⟩ 1 (model 1) Scalar.one 5, .finish ⟨0⟩ (model 2) Scalar.one 2,
        .submit ⟨0⟩ 2 (model 3) Scalar.one 6]
    let queued : List (Message Float32 Nat) :=
      [.submit ⟨7⟩ 1 (model 4) Scalar.one 7, .finish ⟨0⟩ (model 5) Scalar.one 2]
    ∃ outcome, ((ofTotals [1] weights .retained).run received queued).1.stage =
        .completed outcome ∧ outcome.merged.map (·.layout.entries) = some [("weight", [5])] ∧
      UpToDate 1 weights .retained received queued
        ((ofTotals [1] weights .retained).resolved received queued) outcome := by
  intro model weights received queued
  have hstage : (match ((ofTotals [1] weights .retained).run received queued).1.stage with
      | .completed outcome => outcome.merged.map (·.layout.entries)
      | _ => none) = some [("weight", [5])] := by
    decide +kernel
  split at hstage
  · next outcome hdone =>
    exact ⟨outcome, hdone, hstage, completed_upToDate [1] weights _ received queued _ hdone⟩
  · cases hstage

end Session

end Federated
