/-
  Federated.Proofs.Barrier.Records

  What the operations of the barrier do to its records, one statement per operation.

    * `take_fst` — a message changes the record of its sender alone, as `Record.absorb` says.
    * `roundReady_iff` — when a round is due, in terms of the records.
    * `mem_contributions`, `mem_waiting` — who takes part in a round, and who is answered.
    * `resolve_of_merged`, `resolve_of_empty`, `resolve_of_error` — what a round leaves, by the
      average of its contributions.
-/
import Federated.Barrier.Coordinator
import Mathlib

namespace Federated

variable {α τ : Type}

/-- A record after a message of its own worker. -/
def Record.absorb (r : Record α τ) : Message α τ → Record α τ
  | .progress _ batch total => { r with done := max batch r.done, total }
  | .submit _ batch model loss ticket =>
    if r.status.isFinished then r
    else
      { r with
        submitted := some model
        status := .waiting ticket
        done := max batch r.done
        losses := r.losses.insert (.batch batch) loss }
  | .finish _ model loss total =>
    { submitted := some model
      status := .finished
      done := total
      total := total
      losses := r.losses.insert .final loss }

/-- A record once its worker, should it wait, has been sent back to training. -/
def Record.release (r : Record α τ) : Record α τ :=
  if r.status.isWaiting then { r with status := .training } else r

/-- A released worker does not wait. -/
theorem Record.isWaiting_release (r : Record α τ) : r.release.status.isWaiting = false := by
  unfold Record.release
  split
  · rfl
  · next h => simpa using h

/-- It keeps its model and its losses. -/
@[simp] theorem Record.submitted_release (r : Record α τ) : r.release.submitted = r.submitted := by
  unfold Record.release
  split <;> rfl

@[simp] theorem Record.losses_release (r : Record α τ) : r.release.losses = r.losses := by
  unfold Record.release
  split <;> rfl

namespace Barrier

/-! ## The start -/

theorem record?_ofTotals_eq (totals : List Nat) (w : WorkerId) :
    (ofTotals totals : Barrier α τ).record? w =
      totals[w.index]?.map fun total => ⟨none, .training, 0, total, Dict.empty⟩ := by
  unfold ofTotals record?
  rw [List.getElem?_toArray, List.getElem?_map]

/-- Every worker trains at first, and nothing of it is known but its count of batches. -/
theorem record?_ofTotals {totals : List Nat} {w : WorkerId} {r : Record α τ}
    (h : (ofTotals totals).record? w = some r) :
    ∃ total, r = ⟨none, .training, 0, total, Dict.empty⟩ := by
  rw [record?_ofTotals_eq, Option.map_eq_some_iff] at h
  obtain ⟨total, -, rfl⟩ := h
  exact ⟨total, rfl⟩

/-! ## Single messages -/

theorem record?_modify_self (b : Barrier α τ) (w : WorkerId) (f : Record α τ → Record α τ) :
    (b.modify w f).record? w = (b.record? w).map f := by
  rw [record?_modify, if_pos rfl]

theorem record?_modify_ne (b : Barrier α τ) {w v : WorkerId} (f : Record α τ → Record α τ)
    (h : w ≠ v) : (b.modify w f).record? v = b.record? v := by
  rw [record?_modify, if_neg h]

/-- Barriers with the same records, merged model and count of merges are the same. -/
theorem ext_record? {a b : Barrier α τ} (hr : ∀ w, a.record? w = b.record? w)
    (hm : a.merged = b.merged) (hn : a.rounds = b.rounds) : a = b := by
  obtain ⟨ra, ma, na⟩ := a
  obtain ⟨rb, mb, nb⟩ := b
  have hrec : ra = rb := by
    apply Array.ext_getElem?
    intro i
    exact hr ⟨i⟩
  cases hrec
  cases hm
  cases hn
  rfl

/-- A change that does nothing to the record there is does nothing at all. -/
theorem modify_eq_self (b : Barrier α τ) (w : WorkerId) (f : Record α τ → Record α τ)
    (h : ∀ r, b.record? w = some r → f r = r) : b.modify w f = b := by
  refine ext_record? (fun v => ?_) rfl rfl
  by_cases hv : w = v
  · subst hv
    rw [record?_modify_self]
    cases hr : b.record? w with
    | none => rfl
    | some r => exact congrArg some (h r hr)
  · exact record?_modify_ne b f hv

/-- Two changes that agree on the record there is leave the same. -/
theorem modify_congr (b : Barrier α τ) (w : WorkerId) {f g : Record α τ → Record α τ}
    (h : ∀ r, b.record? w = some r → f r = g r) : b.modify w f = b.modify w g := by
  refine ext_record? (fun v => ?_) rfl rfl
  by_cases hv : w = v
  · subst hv
    rw [record?_modify_self, record?_modify_self]
    cases hr : b.record? w with
    | none => rfl
    | some r => exact congrArg some (h r hr)
  · rw [record?_modify_ne b f hv, record?_modify_ne b g hv]

/-- A message changes the record of its sender alone. -/
theorem take_fst (b : Barrier α τ) (m : Message α τ) :
    (b.take m).1 = b.modify m.worker (·.absorb m) := by
  cases m with
  | progress w batch total => rfl
  | submit w batch model loss ticket =>
    simp only [take, submit, Message.worker]
    cases hr : b.record? w with
    -- an unknown worker has no record to change
    | none => exact (modify_eq_self b w _ (by simp [hr])).symm
    | some r =>
      by_cases hf : r.status.isFinished
      · -- a finished worker's submission leaves its record as it is
        have hself := modify_eq_self b w (·.absorb (.submit w batch model loss ticket))
          (fun r' hr' => by
            cases hr.symm.trans hr'
            simp [Record.absorb, hf])
        simp [hf, hself]
      · simp only [hf]
        -- the change written by `submit` and that of `absorb` agree on the record there is
        refine modify_congr b w fun r' hr' => ?_
        cases hr.symm.trans hr'
        simp [Record.absorb, hf]
  | finish w model loss total =>
    simp only [take, finish, Message.worker]
    cases hr : b.record? w with
    | none => exact (modify_eq_self b w _ (by simp [hr])).symm
    | some r => rfl

@[simp] theorem take_merged (b : Barrier α τ) (m : Message α τ) :
    (b.take m).1.merged = b.merged := by
  rw [take_fst]
  rfl

@[simp] theorem take_rounds (b : Barrier α τ) (m : Message α τ) :
    (b.take m).1.rounds = b.rounds := by
  rw [take_fst]
  rfl

@[simp] theorem size_take (b : Barrier α τ) (m : Message α τ) : (b.take m).1.size = b.size := by
  rw [take_fst, size_modify]

theorem record?_take (b : Barrier α τ) (m : Message α τ) (w : WorkerId) :
    (b.take m).1.record? w =
      if m.worker = w then (b.record? w).map (·.absorb m) else b.record? w := by
  rw [take_fst, record?_modify]

theorem record?_take_self {b : Barrier α τ} {m : Message α τ} {w : WorkerId} {r : Record α τ}
    (hr : b.record? w = some r) (hw : m.worker = w) :
    (b.take m).1.record? w = some (r.absorb m) := by
  rw [record?_take, if_pos hw, hr]
  rfl

theorem record?_take_ne {b : Barrier α τ} {m : Message α τ} {w : WorkerId}
    (hw : m.worker ≠ w) : (b.take m).1.record? w = b.record? w := by
  rw [record?_take, if_neg hw]

/-- A message of a worker that trains answers no ticket. -/
theorem take_snd_of_training {b : Barrier α τ} {m : Message α τ} {r : Record α τ}
    (hr : b.record? m.worker = some r) (ht : r.status.isTraining) : (b.take m).2 = [] := by
  have hst : r.status = .training := by
    cases hs : r.status with
    | training => rfl
    | waiting ticket => simp [hs, Status.isTraining] at ht
    | finished => simp [hs, Status.isTraining] at ht
  cases m with
  | progress w batch total => rfl
  | submit w batch model loss ticket =>
    simp only [Message.worker] at hr
    simp [take, submit, hr, hst, Status.isFinished, closing, Status.ticket?]
  | finish w model loss total =>
    simp only [Message.worker] at hr
    simp [take, finish, hr, hst, closing, Status.ticket?]

/-! ## Views of all records -/

theorem mem_numbered {b : Barrier α τ} {w : WorkerId} {r : Record α τ} :
    (w, r) ∈ b.numbered ↔ b.record? w = some r := by
  unfold numbered record?
  rw [List.mem_map]
  constructor
  · rintro ⟨⟨r', i⟩, hmem, heq⟩
    have hi := List.mem_zipIdx_iff_getElem?.1 hmem
    simp only [Prod.mk.injEq] at heq
    obtain ⟨rfl, rfl⟩ := heq
    simpa using hi
  · intro h
    refine ⟨(r, w.index), List.mem_zipIdx_iff_getElem?.2 ?_, rfl⟩
    simpa using h

/-- The workers of the records are numbered in order. -/
theorem numbered_map_fst (b : Barrier α τ) :
    b.numbered.map (·.1) = (List.range b.size).map WorkerId.mk := by
  unfold numbered size
  rw [List.map_map]
  have h : (fun e : Record α τ × Nat => (⟨e.2⟩ : WorkerId)) = WorkerId.mk ∘ Prod.snd := rfl
  change b.records.toList.zipIdx.map (fun e => (⟨e.2⟩ : WorkerId)) = _
  rw [h, ← List.map_map, List.zipIdx_map_snd]
  simp [List.range_eq_range']

theorem keySorted_numbered (b : Barrier α τ) : KeySorted b.numbered := by
  have h : (b.numbered.map (·.1)).Pairwise fun v w => compare v w = .lt := by
    -- the numbers of the records are `0, 1, 2, …`
    rw [numbered_map_fst, List.pairwise_map]
    exact List.pairwise_lt_range.imp fun hlt => Std.compare_eq_lt.2 hlt
  exact List.pairwise_map.1 h

/-- Whether some record passes a test. -/
theorem records_any_iff {b : Barrier α τ} {p : Record α τ → Bool} :
    b.records.any p = true ↔ ∃ w r, b.record? w = some r ∧ p r = true := by
  rw [Array.any_eq_true']
  constructor
  · rintro ⟨r, hr, hp⟩
    obtain ⟨i, hi, rfl⟩ := Array.mem_iff_getElem.1 hr
    exact ⟨⟨i⟩, b.records[i], by simp [record?, hi], hp⟩
  · rintro ⟨w, r, hr, hp⟩
    exact ⟨r, Array.mem_of_getElem? hr, hp⟩

/-- A round is due exactly when some worker waits and none trains. -/
theorem roundReady_iff {b : Barrier α τ} :
    b.roundReady = true ↔ (∃ w r, b.record? w = some r ∧ r.status.isWaiting = true) ∧
      ∀ w r, b.record? w = some r → r.status.isTraining = false := by
  unfold roundReady
  rw [Bool.and_eq_true, records_any_iff, Bool.not_eq_true', ← Bool.not_eq_true, records_any_iff]
  refine and_congr_right fun _ => ?_
  constructor
  · intro h w r hr
    rw [← Bool.not_eq_true]
    exact fun ht => h ⟨w, r, hr, ht⟩
  · rintro h ⟨w, r, hr, ht⟩
    simp [h w r hr] at ht

/-- The models of a round are those submitted by the records that take part. -/
theorem mem_contributions {b : Barrier α τ} {scope : MergeScope} {w : WorkerId} {p : Params α} :
    (w, p) ∈ b.contributions scope ↔
      ∃ r, b.record? w = some r ∧ takesPart scope r = true ∧ r.submitted = some p := by
  unfold contributions
  rw [List.mem_filterMap]
  constructor
  · rintro ⟨⟨v, r⟩, hmem, hsome⟩
    simp only [Option.ite_none_right_eq_some, Option.map_eq_some_iff, Prod.mk.injEq] at hsome
    obtain ⟨htakes, q, hq, rfl, rfl⟩ := hsome
    exact ⟨r, mem_numbered.1 hmem, htakes, hq⟩
  · rintro ⟨r, hr, htakes, hp⟩
    exact ⟨(w, r), mem_numbered.2 hr, by simp [htakes, hp]⟩

/-- The models of a round stand in worker order, one at most of each worker. -/
theorem keySorted_contributions (b : Barrier α τ) (scope : MergeScope) :
    KeySorted (b.contributions scope) := by
  -- leaving records out and reading their models keeps the order of the workers
  refine (keySorted_numbered b).filterMap _ ?_
  rintro ⟨v, r⟩ ⟨w, q⟩ hlt x hx y hy
  simp only [Option.ite_none_right_eq_some, Option.map_eq_some_iff] at hx hy
  obtain ⟨-, p, -, rfl⟩ := hx
  obtain ⟨-, p', -, rfl⟩ := hy
  exact hlt

/-- A worker takes part in a round with one model at most. -/
theorem contributions_inj {b : Barrier α τ} {scope : MergeScope} {w : WorkerId}
    {p q : Params α} (hp : (w, p) ∈ b.contributions scope) (hq : (w, q) ∈ b.contributions scope) :
    q = p := by
  obtain ⟨r, hr, -, hsub⟩ := mem_contributions.1 hp
  obtain ⟨r', hr', -, hsub'⟩ := mem_contributions.1 hq
  rw [hr] at hr'
  cases hr'
  exact Option.some.inj (hsub'.symm.trans hsub)

/-- The waiting workers are those whose record waits. -/
theorem mem_waiting {b : Barrier α τ} {w : WorkerId} {ticket : τ} :
    (w, ticket) ∈ b.waiting ↔ ∃ r, b.record? w = some r ∧ r.status = .waiting ticket := by
  unfold waiting
  rw [List.mem_filterMap]
  constructor
  · rintro ⟨⟨v, r⟩, hmem, hsome⟩
    simp only [Option.map_eq_some_iff, Prod.mk.injEq] at hsome
    obtain ⟨t, ht, rfl, rfl⟩ := hsome
    refine ⟨r, mem_numbered.1 hmem, ?_⟩
    cases hs : r.status <;> simp_all [Status.ticket?]
  · rintro ⟨r, hr, hs⟩
    exact ⟨(w, r), mem_numbered.2 hr, by simp [hs, Status.ticket?]⟩

/-- Where no record waits, nobody is waiting. -/
theorem waiting_eq_nil {b : Barrier α τ}
    (h : ∀ w r, b.record? w = some r → r.status.isWaiting = false) : b.waiting = [] := by
  rw [List.eq_nil_iff_forall_not_mem]
  rintro ⟨w, ticket⟩ hmem
  obtain ⟨r, hr, hs⟩ := mem_waiting.1 hmem
  have hw := h w r hr
  rw [hs] at hw
  cases hw

/-! ## Rounds -/

theorem record?_release (b : Barrier α τ) (w : WorkerId) :
    b.release.record? w = (b.record? w).map Record.release := by
  unfold release record? Record.release
  exact Array.getElem?_map

/-- Without a waiting worker there is nobody to release. -/
theorem release_eq_self {b : Barrier α τ}
    (h : ∀ w r, b.record? w = some r → r.status.isWaiting = false) : b.release = b := by
  refine ext_record? (fun w => ?_) rfl rfl
  rw [record?_release]
  cases hr : b.record? w with
  | none => rfl
  | some r => simp [Record.release, h w r hr]

/-- Nobody waits at a barrier that has just released its workers. -/
theorem waiting_release (b : Barrier α τ) : b.release.waiting = [] := by
  apply waiting_eq_nil
  intro w r hr
  rw [record?_release] at hr
  obtain ⟨r', -, rfl⟩ := Option.map_eq_some_iff.1 hr
  exact Record.isWaiting_release r'

/-- The barrier after a round that merged a model. -/
def adopt (b : Barrier α τ) (model : Params α) : Barrier α τ :=
  ({ b with merged := some model, rounds := b.rounds + 1 } : Barrier α τ).release

/-- The answers of a round that merged a model. -/
def answers (b : Barrier α τ) (model : Params α) : List (Reply α τ) :=
  b.waiting.map fun e => ⟨e.2, .merged model⟩

theorem record?_adopt (b : Barrier α τ) (model : Params α) (w : WorkerId) :
    (b.adopt model).record? w = (b.record? w).map Record.release :=
  record?_release _ w

theorem waiting_adopt (b : Barrier α τ) (model : Params α) : (b.adopt model).waiting = [] :=
  waiting_release _

@[simp] theorem adopt_merged (b : Barrier α τ) (model : Params α) :
    (b.adopt model).merged = some model := rfl

@[simp] theorem adopt_rounds (b : Barrier α τ) (model : Params α) :
    (b.adopt model).rounds = b.rounds + 1 := rfl

@[simp] theorem size_adopt (b : Barrier α τ) (model : Params α) :
    (b.adopt model).size = b.size := by
  simp [adopt, release, size]

variable [Scalar α]

/-- A refused average refuses the round. -/
theorem resolve_of_error {b : Barrier α τ} {weights : Weights α} {scope : MergeScope}
    {cause : AggregationError α}
    (h : Params.average (b.contributions scope) (some weights) = .error cause) :
    b.resolve weights scope = .error cause := by
  simp only [resolve, h]
  rfl

/-- A round with a merged model counts, and answers every waiting worker with that model. -/
theorem resolve_of_merged {b : Barrier α τ} {weights : Weights α} {scope : MergeScope}
    {model : Params α}
    (h : Params.average (b.contributions scope) (some weights) = .ok (some model)) :
    b.resolve weights scope =
      .ok (b.adopt model, ⟨b.participants scope, b.waiting.map (·.1)⟩, b.answers model) := by
  simp only [resolve, h]
  rfl

/-- A round without models, at which nobody waits, changes nothing. -/
theorem resolve_of_empty {b : Barrier α τ} {weights : Weights α} {scope : MergeScope}
    (h : Params.average (b.contributions scope) (some weights) = .ok none)
    (hw : ∀ w r, b.record? w = some r → r.status.isWaiting = false) :
    b.resolve weights scope = .ok (b, ⟨b.participants scope, []⟩, []) := by
  have hnil : b.waiting = [] := waiting_eq_nil hw
  simp only [resolve, h]
  cases hm : b.merged with
  | none => simp [bind, Except.bind, pure, Except.pure, hm, participants]
  -- the model of an earlier round is released to nobody
  | some model =>
    simp [bind, Except.bind, pure, Except.pure, hm, hnil, release_eq_self hw, participants]

end Barrier

end Federated
