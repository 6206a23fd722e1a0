/-
  Federated.Proofs.Barrier.Calls

  What the barrier keeps through any calls in any order: messages of known and unknown workers,
  out of turn or twice, and rounds with any weights and either scope, refused ones included.

    * `Barrier.perform` — one call, and `perform_called`, what it can come to.
    * `Backed.performAll` — who waits or has finished has a model at the barrier.
    * `since_performAll` — what is never lost: finished workers, models, losses, the merged
      model, and the count of merges.
    * `calls_kept` — all of it, for every call after every history.
-/
import Federated.Proofs.Barrier.InPlace

namespace Federated

variable {α τ : Type}

/-! ## Records -/

namespace Record

/-- Whoever waits or has finished has submitted a model. -/
def Backed (r : Record α τ) : Prop :=
  (r.status.isWaiting || r.status.isFinished) = true → r.submitted.isSome = true

/-- What of an earlier record is still there in a later one. -/
structure Since (r r' : Record α τ) : Prop where
  finished : r.status.isFinished = true → r'.status.isFinished = true
  submitted : r.submitted.isSome = true → r'.submitted.isSome = true
  losses : ∀ label, r.losses.contains label = true → r'.losses.contains label = true

theorem Since.refl (r : Record α τ) : r.Since r := ⟨id, id, fun _ => id⟩

theorem Since.trans {r₁ r₂ r₃ : Record α τ} (h : r₁.Since r₂) (h' : r₂.Since r₃) :
    r₁.Since r₃ :=
  ⟨h'.finished ∘ h.finished, h'.submitted ∘ h.submitted,
    fun label => h'.losses label ∘ h.losses label⟩

theorem contains_insert {losses : Dict LossLabel α} {label : LossLabel}
    (h : losses.contains label = true) (new : LossLabel) (loss : α) :
    (losses.insert new loss).contains label = true := by
  rw [Dict.contains, Dict.find?_insert]
  split
  · rfl
  · exact h

theorem Backed.absorb {r : Record α τ} (h : r.Backed) (m : Message α τ) : (r.absorb m).Backed := by
  cases m with
  | progress w batch total => exact h
  | submit w batch model loss ticket =>
    by_cases hf : r.status.isFinished
    · simpa [Record.absorb, hf] using h
    · simp [Record.absorb, hf, Backed]
  | finish w model loss total => exact fun _ => rfl

theorem since_absorb (r : Record α τ) (m : Message α τ) : r.Since (r.absorb m) := by
  cases m with
  | progress w batch total => exact ⟨id, id, fun _ => id⟩
  | submit w batch model loss ticket =>
    by_cases hf : r.status.isFinished
    · simpa [Record.absorb, hf] using Since.refl r
    · simp only [Record.absorb, hf]
      exact ⟨fun h => absurd h hf, fun _ => rfl, fun label h => contains_insert h _ _⟩
  | finish w model loss total =>
    exact ⟨fun _ => rfl, fun _ => rfl, fun label h => contains_insert h _ _⟩

@[simp] theorem isFinished_release (r : Record α τ) :
    r.release.status.isFinished = r.status.isFinished := by
  cases hs : r.status <;> simp [Record.release, hs, Status.isWaiting, Status.isFinished]

theorem Backed.release {r : Record α τ} (h : r.Backed) : r.release.Backed := by
  intro hs
  rw [isWaiting_release, Bool.false_or, isFinished_release] at hs
  rw [submitted_release]
  exact h (by simp [hs])

theorem since_release (r : Record α τ) : r.Since r.release := ⟨by simp, by simp, by simp⟩

end Record

namespace Barrier

/-! ## Calls -/

/-- A call of the barrier: a message of one worker, or a round. -/
inductive Call (α τ : Type) where
  | message (m : Message α τ)
  | resolve (weights : Weights α) (scope : MergeScope)

/-- What a call comes to: the barrier it leaves and the workers it releases. -/
inductive Called (b : Barrier α τ) : Call α τ → Barrier α τ → List WorkerId → Prop
  /-- A message changes the record of its sender. -/
  | taken (m : Message α τ) : Called b (.message m) (b.modify m.worker (·.absorb m)) []
  /-- A round is refused, or has neither models nor a merged model of an earlier round. -/
  | idle (weights : Weights α) (scope : MergeScope) : Called b (.resolve weights scope) b []
  /-- A round merges a model. -/
  | merged (weights : Weights α) (scope : MergeScope) (model : Params α) :
      Called b (.resolve weights scope) (b.adopt model) (b.waiting.map (·.1))
  /-- A round without models hands out the merged model of an earlier one. -/
  | repeated (weights : Weights α) (scope : MergeScope) :
      Called b (.resolve weights scope) b.release (b.waiting.map (·.1))

/-- What a call comes to for the record of one worker. -/
inductive CalledOn (w : WorkerId) (r : Record α τ) : Call α τ → Record α τ → Prop
  /-- The call is of another worker, or does nothing. -/
  | apart (c : Call α τ) : CalledOn w r c r
  /-- The call is a message of the worker. -/
  | own (m : Message α τ) (hm : m.worker = w) : CalledOn w r (.message m) (r.absorb m)
  /-- The call is a round that answers whoever waits. -/
  | released (weights : Weights α) (scope : MergeScope) :
      CalledOn w r (.resolve weights scope) r.release

variable {b b' : Barrier α τ} {c : Call α τ} {released : List WorkerId}

/-- A call works on every record by itself. -/
theorem Called.record? (h : b.Called c b' released) (w : WorkerId) :
    ∃ f : Record α τ → Record α τ,
      b'.record? w = (b.record? w).map f ∧ ∀ r, CalledOn w r c (f r) := by
  cases h with
  | taken m =>
    by_cases hm : m.worker = w
    · exact ⟨(·.absorb m), by rw [record?_modify, if_pos hm], fun r => .own m hm⟩
    · exact ⟨id, by rw [record?_modify, if_neg hm, Option.map_id_fun, id], fun r => .apart _⟩
  | idle weights scope => exact ⟨id, by rw [Option.map_id_fun, id], fun r => .apart _⟩
  | merged weights scope model =>
    exact ⟨Record.release, record?_adopt b model w, fun r => .released weights scope⟩
  | repeated weights scope =>
    exact ⟨Record.release, record?_release b w, fun r => .released weights scope⟩

/-- A submission is replaced by a later one of its own worker only, as long as the worker has not
    finished, and by its last model. -/
theorem CalledOn.submitted {w : WorkerId} {r r' : Record α τ} (h : CalledOn w r c r') :
    r'.submitted = r.submitted ∨
      (∃ batch model loss ticket, c = .message (.submit w batch model loss ticket) ∧
        r.status.isFinished = false ∧ r'.submitted = some model) ∨
      ∃ model loss total, c = .message (.finish w model loss total) ∧
        r'.submitted = some model := by
  cases h with
  | apart => exact .inl rfl
  | released weights scope => exact .inl r.submitted_release
  | own m hm =>
    subst hm
    cases m with
    | progress w batch total => exact .inl rfl
    | finish w model loss total => exact .inr (.inr ⟨model, loss, total, rfl, rfl⟩)
    | submit w batch model loss ticket =>
      cases hf : r.status.isFinished with
      | true => exact .inl (by simp [Record.absorb, hf])
      | false =>
        exact .inr (.inl ⟨batch, model, loss, ticket, rfl, rfl, by simp [Record.absorb, hf]⟩)

/-! ## Through one call -/

/-- Whoever waits or has finished has a model at the barrier. -/
def Backed (b : Barrier α τ) : Prop := ∀ w r, b.record? w = some r → r.Backed

/-- What of an earlier barrier is still there in a later one. -/
structure Since (a b : Barrier α τ) : Prop where
  size : b.size = a.size
  records : ∀ w r, a.record? w = some r → ∃ r', b.record? w = some r' ∧ r.Since r'
  merged : a.merged.isSome = true → b.merged.isSome = true
  rounds : a.rounds ≤ b.rounds

theorem Since.refl (b : Barrier α τ) : b.Since b :=
  ⟨rfl, fun _ r hr => ⟨r, hr, .refl r⟩, id, le_refl _⟩

theorem Since.trans {b₁ b₂ b₃ : Barrier α τ} (h : b₁.Since b₂) (h' : b₂.Since b₃) :
    b₁.Since b₃ := by
  refine ⟨h'.size.trans h.size, fun w r hr => ?_, h'.merged ∘ h.merged, h.rounds.trans h'.rounds⟩
  obtain ⟨r₂, hr₂, hsince⟩ := h.records w r hr
  obtain ⟨r₃, hr₃, hsince'⟩ := h'.records w r₂ hr₂
  exact ⟨r₃, hr₃, hsince.trans hsince'⟩

theorem CalledOn.since {w : WorkerId} {r r' : Record α τ} (h : CalledOn w r c r') :
    r.Since r' := by
  cases h with
  | apart => exact .refl r
  | own m hm => exact r.since_absorb m
  | released weights scope => exact r.since_release

theorem CalledOn.backed {w : WorkerId} {r r' : Record α τ} (h : CalledOn w r c r')
    (hr : r.Backed) : r'.Backed := by
  cases h with
  | apart => exact hr
  | own m hm => exact hr.absorb m
  | released weights scope => exact hr.release

theorem Backed.called (hb : b.Backed) (h : b.Called c b' released) : b'.Backed := by
  intro w r' hr'
  obtain ⟨f, hf, hcalled⟩ := h.record? w
  rw [hf] at hr'
  obtain ⟨r, hr, rfl⟩ := Option.map_eq_some_iff.1 hr'
  exact (hcalled r).backed (hb w r hr)

theorem Called.since (h : b.Called c b' released) : b.Since b' := by
  refine ⟨?size, fun w r hr => ?records, ?merged, ?rounds⟩
  case size =>
    cases h with
    | taken m => exact size_modify b _ _
    | idle weights scope => rfl
    | merged weights scope model => exact size_adopt b model
    | repeated weights scope => simp [release, size]
  case records =>
    obtain ⟨f, hf, hcalled⟩ := h.record? w
    exact ⟨f r, by rw [hf, hr, Option.map_some], (hcalled r).since⟩
  case merged =>
    cases h with
    | merged weights scope model => exact fun _ => rfl
    | taken m => exact id
    | idle weights scope => exact id
    | repeated weights scope => exact id
  case rounds => cases h <;> simp [release, Barrier.modify]

/-- A call counts one merge at most, and only a round does. -/
theorem Called.rounds (h : b.Called c b' released) :
    b'.rounds = b.rounds ∨
      b'.rounds = b.rounds + 1 ∧ ∃ weights scope, c = .resolve weights scope := by
  cases h with
  | merged weights scope model => exact .inr ⟨rfl, weights, scope, rfl⟩
  | _ => exact .inl rfl

/-- Only a worker that waits is released. -/
theorem Called.released_waits (h : b.Called c b' released) {w : WorkerId} (hw : w ∈ released) :
    ∃ r, b.record? w = some r ∧ r.status.isWaiting = true := by
  have hwaiting : w ∈ b.waiting.map (·.1) := by
    cases h <;> first | exact hw | cases hw
  obtain ⟨⟨v, ticket⟩, hmem, rfl⟩ := List.mem_map.1 hwaiting
  obtain ⟨r, hr, hs⟩ := mem_waiting.1 hmem
  exact ⟨r, hr, by rw [hs]; rfl⟩

/-! ## Through all calls -/

theorem backed_ofTotals (totals : List Nat) : (ofTotals totals : Barrier α τ).Backed := by
  intro w r hr
  obtain ⟨total, rfl⟩ := record?_ofTotals hr
  exact fun h => absurd h (by simp [Status.isWaiting, Status.isFinished])

variable [Scalar α]

/-- The barrier after a call, and the workers that the call has released. -/
def perform (b : Barrier α τ) : Call α τ → Barrier α τ × List WorkerId
  | .message m => ((b.take m).1, [])
  | .resolve weights scope =>
    match (resolveInPlace weights scope).run ⟨b, []⟩ with
    | .ok round s => (s.barrier, round.released)
    | .error _ s => (s.barrier, [])

/-- The barrier after calls made one after another. -/
def performAll (b : Barrier α τ) (calls : List (Call α τ)) : Barrier α τ :=
  calls.foldl (fun b c => (b.perform c).1) b

/-- Every call is one of these. -/
theorem perform_called (b : Barrier α τ) (c : Call α τ) :
    b.Called c (b.perform c).1 (b.perform c).2 := by
  cases c with
  | message m =>
    rw [perform, take_fst]
    exact .taken m
  | resolve weights scope =>
    rw [perform, run_resolveInPlace]
    cases average : Params.average (b.contributions scope) (some weights) with
    | error cause =>
      rw [resolve_of_error average]
      exact .idle weights scope
    | ok merged =>
      cases merged with
      | some model =>
        rw [resolve_of_merged average]
        exact .merged weights scope model
      | none =>
        rw [resolve_of_none average]
        cases b.merged with
        | none => exact .idle weights scope
        | some model => exact .repeated weights scope

theorem Backed.performAll (hb : b.Backed) (calls : List (Call α τ)) :
    (b.performAll calls).Backed := by
  induction calls generalizing b with
  | nil => exact hb
  | cons c calls ih => exact ih (hb.called (b.perform_called c))

theorem since_performAll (b : Barrier α τ) (calls : List (Call α τ)) :
    b.Since (b.performAll calls) := by
  induction calls generalizing b with
  | nil => exact .refl b
  | cons c calls ih => exact (b.perform_called c).since.trans (ih _)

/-- What holds of a call `c` at a barrier `b` that an earlier barrier `a` has become. -/
structure Kept (workers : Nat) (a b : Barrier α τ) (c : Call α τ) : Prop where
  /-- Every worker has its record. -/
  size : b.size = workers
  /-- Whoever waits or has finished has submitted. -/
  backed : ∀ w r, b.record? w = some r →
    r.status.isWaiting = true ∨ r.status.isFinished = true → r.submitted.isSome = true
  /-- Whoever has finished stays so, is not reported as waiting, and is not released. -/
  finished : ∀ w r, a.record? w = some r → r.status.isFinished = true →
    (∃ report, b.report? w = some report ∧ report.finished = true ∧ report.waiting = false) ∧
      w ∉ (b.perform c).2
  /-- A submitted model is never cleared. -/
  submitted : ∀ w r, a.record? w = some r → r.submitted.isSome = true →
    ∃ r', b.record? w = some r' ∧ r'.submitted.isSome = true
  /-- A recorded loss is never dropped. -/
  losses : ∀ w r label, a.record? w = some r → r.losses.contains label = true →
    ∃ r', b.record? w = some r' ∧ r'.losses.contains label = true
  /-- There is a merged model from the first merge on. -/
  merged : a.merged.isSome = true → b.merged.isSome = true
  /-- The count of merges does not fall. -/
  rounds : a.rounds ≤ b.rounds
  /-- One call counts one merge at most, and only if it is a round. -/
  counted : (b.perform c).1.rounds = b.rounds ∨
    (b.perform c).1.rounds = b.rounds + 1 ∧ ∃ weights scope, c = .resolve weights scope
  /-- A submitted model gives way to a submission of its own worker, which has not finished by
      then, or to its last model. -/
  replaced : ∀ w r, b.record? w = some r → ∃ r', (b.perform c).1.record? w = some r' ∧
    (r'.submitted = r.submitted ∨
      (∃ batch model loss ticket, c = .message (.submit w batch model loss ticket) ∧
        r.status.isFinished = false ∧ r'.submitted = some model) ∨
      ∃ model loss total, c = .message (.finish w model loss total) ∧
        r'.submitted = some model)
  /-- A message changes nobody else's record. -/
  apart : ∀ m, c = .message m → ∀ w, m.worker ≠ w →
    (b.perform c).1.record? w = b.record? w

/-- Whatever the barrier is called with, in whatever order: after any calls `before`, any more
    calls `since` and one call more, everything in `Kept` holds. -/
theorem calls_kept (totals : List Nat) (before since : List (Call α τ)) (c : Call α τ) :
    Kept totals.length ((ofTotals totals).performAll before)
      (((ofTotals totals).performAll before).performAll since) c := by
  have hstart := since_performAll (ofTotals totals : Barrier α τ) before
  have hbacked := ((backed_ofTotals totals).performAll before).performAll since
  generalize (ofTotals totals : Barrier α τ).performAll before = a at *
  have hlater := since_performAll a since
  generalize a.performAll since = b at *
  have hcall := b.perform_called c
  have hstays : ∀ w r, a.record? w = some r → r.status.isFinished = true →
      ∃ r', b.record? w = some r' ∧ r'.status = .finished := by
    intro w r hr hf
    obtain ⟨r', hr', hsince⟩ := hlater.records w r hr
    refine ⟨r', hr', ?_⟩
    have hf' := hsince.finished hf
    cases hs : r'.status <;> simp_all [Status.isFinished]
  refine ⟨?size, ?backed, ?stays, ?submitted, ?losses, hlater.merged, hlater.rounds,
    hcall.rounds, ?replaced, ?apart⟩
  case size =>
    rw [hlater.size, hstart.size]
    simp [ofTotals, Barrier.size]
  case backed =>
    intro w r hr hs
    exact hbacked w r hr (by simpa using hs)
  case stays =>
    intro w r hr hf
    obtain ⟨r', hr', hs⟩ := hstays w r hr hf
    refine ⟨⟨reportOf w r', by rw [report?, hr', Option.map_some], ?_, ?_⟩, ?_⟩
    · simp [reportOf, hs, Status.isFinished]
    · simp [reportOf, hs, Status.isWaiting]
    · -- whoever is released waits, and a finished worker does not
      intro hreleased
      obtain ⟨r'', hr'', hw⟩ := hcall.released_waits hreleased
      rw [hr'] at hr''
      cases hr''
      simp [hs, Status.isWaiting] at hw
  case submitted =>
    intro w r hr hsub
    obtain ⟨r', hr', hsince⟩ := hlater.records w r hr
    exact ⟨r', hr', hsince.submitted hsub⟩
  case losses =>
    intro w r label hr hlabel
    obtain ⟨r', hr', hsince⟩ := hlater.records w r hr
    exact ⟨r', hr', hsince.losses label hlabel⟩
  case replaced =>
    intro w r hr
    obtain ⟨f, hf, hcalled⟩ := hcall.record? w
    exact ⟨f r, by rw [hf, hr, Option.map_some], (hcalled r).submitted⟩
  case apart =>
    rintro m rfl w hw
    exact record?_take_ne hw

end Barrier

end Federated
