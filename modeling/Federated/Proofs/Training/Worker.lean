/-
  Federated.Proofs.Training.Worker

  One worker's program: what its steps and its return from the barrier do, and how far it gets
  between two rounds.

    * `SyncPolicy.TimesAll` — all waits of an epoch can be timed.
    * `step_of_step?` — every step of a worker is one of five.
    * `budget_step`, `budget_resume` — no worker runs for ever.
    * `Drift` — the window of batches that a worker stays in between two rounds.
-/
import Federated.Proofs.Model.Layout
import Federated.Training.Worker

namespace Federated

/-! ## Waits -/

namespace SyncPolicy

variable {p : SyncPolicy}

/-- The waits of a worker before its first `total` batches can all be timed. -/
def TimesWaits (p : SyncPolicy) (w : WorkerId) (total : Nat) : Prop :=
  ∀ i < total, p.isDue i = true → p.timed w i = true

/-- All waits of workers with the given counts of batches can be timed. -/
def TimesAll (p : SyncPolicy) (totals : List Nat) : Prop :=
  ∀ w total, totals[w.index]? = some total → p.TimesWaits w total

theorem TimesWaits.mono {w : WorkerId} {m n : Nat} (h : p.TimesWaits w n) (hle : m ≤ n) :
    p.TimesWaits w m := fun i hi => h i (Nat.lt_of_lt_of_le hi hle)

theorem timesWaits_succ {w : WorkerId} {n : Nat} (h : p.TimesWaits w n)
    (hlast : p.isDue n = true → p.timed w n = true) : p.TimesWaits w (n + 1) := by
  intro i hi due
  rcases Nat.lt_succ_iff_lt_or_eq.1 hi with hlt | rfl
  · exact h i hlt due
  · exact hlast due

/-- Before a synchronization at least one interval of batches lies behind a worker. -/
theorem le_of_isDue {i : Nat} (h : p.isDue i = true) : max p.every 1 ≤ i := by
  unfold isDue at h
  rw [Bool.and_eq_true, decide_eq_true_eq, beq_iff_eq] at h
  exact Nat.le_of_dvd h.1 (Nat.dvd_of_mod_eq_zero h.2)

/-- Where no worker has more batches than those before a synchronization, there are no waits. -/
theorem timesAll_of_short {totals : List Nat} (h : ∀ total ∈ totals, total ≤ max p.every 1) :
    p.TimesAll totals := by
  intro w total htotal i hi due
  have hshort := h total (List.mem_of_getElem? htotal)
  have hlow := le_of_isDue due
  omega

end SyncPolicy

namespace Worker

variable {α : Type} [Scalar α]

/-! ## Points -/

section
omit [Scalar α]

theorem isWaiting_iff {w : Worker α} : w.isWaiting = true ↔ w.point = .waiting := by
  unfold isWaiting
  cases hp : w.point <;> simp

theorem hasEnded_iff {w : Worker α} : w.hasEnded = true ↔
    (∃ loss, w.point = .finished loss) ∨ ∃ cause, w.point = .failed cause := by
  unfold hasEnded
  cases hp : w.point <;> simp

theorem isWaiting_of_hasEnded {w : Worker α} (h : w.hasEnded = true) : w.isWaiting = false := by
  rw [← Bool.not_eq_true, isWaiting_iff]
  rcases hasEnded_iff.1 h with ⟨loss, hp⟩ | ⟨cause, hp⟩ <;> simp [hp]

end

/-! ## Steps -/

/-- The steps of a worker, each with the message it sends. -/
inductive Step (w : Worker α) : Worker α → Option (Message α WorkerId) → Prop
  /-- Behind the last batch it publishes its final model. -/
  | finish (point : w.point = .announcing) (rest : w.remaining = []) :
      Step w (w.goto (.finished (meanLoss w.lossSum w.total)))
        (some (.finish w.id w.learner.model.params (meanLoss w.lossSum w.total) w.total))
  /-- A synchronization comes before the next batch. -/
  | announceSync (point : w.point = .announcing) (rest : w.remaining ≠ [])
      (due : w.policy.isDue w.index = true) :
      Step w (w.goto .joining) (some (.progress w.id w.index w.total))
  /-- The next batch comes at once. -/
  | announce (point : w.point = .announcing) (rest : w.remaining ≠ [])
      (due : w.policy.isDue w.index = false) :
      Step w (w.goto .stepping) (some (.progress w.id w.index w.total))
  /-- It publishes its model and waits, or dies where its wait cannot be timed. -/
  | submit (point : w.point = .joining) :
      Step w (w.goto w.joined)
        (some (.submit w.id w.index w.learner.model.params w.lastLoss w.id))
  /-- It trains on a batch. -/
  | train (batch : Batch α) (rest : List (Batch α)) (loss : α) (learner : Learner α)
      (point : w.point = .stepping) (remaining : w.remaining = batch :: rest)
      (ok : w.learner.step batch = .ok (loss, learner)) :
      Step w { w with
        learner
        remaining := rest
        index := w.index + 1
        lossSum := w.lossSum + loss
        lastLoss := loss
        point := .announcing } none
  /-- A batch cannot be trained on. -/
  | fail (batch : Batch α) (rest : List (Batch α)) (halt : Halt ModelError)
      (point : w.point = .stepping) (remaining : w.remaining = batch :: rest)
      (refused : w.learner.step batch = .error halt) :
      Step w (w.goto (.failed (stepFailure w.id halt))) none

/-- Every step of a worker is one of those. -/
theorem step_of_step? {w w' : Worker α} {m : Option (Message α WorkerId)}
    (h : w.step? = some (w', m)) : Step w w' m := by
  unfold step? at h
  cases hp : w.point with
  | announcing =>
    cases hr : w.remaining with
    | nil =>
      simp only [hp, hr, Option.some.injEq, Prod.mk.injEq] at h
      obtain ⟨rfl, rfl⟩ := h
      exact .finish hp hr
    | cons batch rest =>
      have hne : w.remaining ≠ [] := by simp [hr]
      cases hd : w.policy.isDue w.index with
      | true =>
        simp only [hp, hr, hd, if_true, Option.some.injEq, Prod.mk.injEq] at h
        obtain ⟨rfl, rfl⟩ := h
        exact .announceSync hp hne hd
      | false =>
        simp only [hp, hr, hd, Bool.false_eq_true, if_false, Option.some.injEq,
          Prod.mk.injEq] at h
        obtain ⟨rfl, rfl⟩ := h
        exact .announce hp hne hd
  | joining =>
    simp only [hp, Option.some.injEq, Prod.mk.injEq] at h
    obtain ⟨rfl, rfl⟩ := h
    exact .submit hp
  | stepping =>
    cases hr : w.remaining with
    | nil => simp [hp, hr] at h
    | cons batch rest =>
      cases hl : w.learner.step batch with
      | error halt =>
        simp only [hp, hr, hl, Option.some.injEq, Prod.mk.injEq] at h
        obtain ⟨rfl, rfl⟩ := h
        exact .fail batch rest halt hp hr hl
      | ok out =>
        obtain ⟨loss, learner⟩ := out
        simp only [hp, hr, hl, Option.some.injEq, Prod.mk.injEq] at h
        obtain ⟨rfl, rfl⟩ := h
        exact .train batch rest loss learner hp hr hl
  | waiting => simp [hp] at h
  | finished loss => simp [hp] at h
  | failed cause => simp [hp] at h

/-- And each of those is a step. -/
theorem step?_of_step {w w' : Worker α} {m : Option (Message α WorkerId)} (h : Step w w' m) :
    w.step? = some (w', m) := by
  unfold step?
  cases h with
  | finish point rest => simp [point, rest]
  | announceSync point rest due =>
    obtain ⟨b, bs, hr⟩ := List.exists_cons_of_ne_nil rest
    simp [point, hr, due]
  | announce point rest due =>
    obtain ⟨b, bs, hr⟩ := List.exists_cons_of_ne_nil rest
    simp [point, hr, due]
  | submit point => simp [point]
  | train batch rest loss learner point remaining ok => simp [point, remaining, ok]
  | fail batch rest halt point remaining refused => simp [point, remaining, refused]

/-- A worker that takes a step neither waits nor has ended. -/
theorem Step.awake {w w' : Worker α} {m : Option (Message α WorkerId)} (h : Step w w' m) :
    w.isWaiting = false ∧ w.hasEnded = false := by
  unfold isWaiting hasEnded
  cases h with
  | finish point | announceSync point | announce point | submit point => simp [point]
  | train _ _ _ _ point | fail _ _ _ point => simp [point]

/-- A worker that cannot take a step waits or has ended, if its batches do not run out before
    it trains on one. -/
theorem stuck_cases {w : Worker α} (h : w.step? = none)
    (hr : w.point = .stepping → w.remaining ≠ []) :
    w.isWaiting = true ∨ w.hasEnded = true := by
  unfold step? at h
  unfold isWaiting hasEnded
  cases hp : w.point with
  | announcing => cases hrest : w.remaining <;> simp [hp, hrest] at h
  | joining => simp [hp] at h
  | waiting => exact .inl rfl
  -- the only point at which a worker looks for a batch that might not be there
  | stepping =>
    cases hrest : w.remaining with
    | nil => exact absurd hrest (hr hp)
    | cons batch rest => cases hl : w.learner.step batch <;> simp [hp, hrest, hl] at h
  | finished loss => exact .inr rfl
  | failed cause => exact .inr rfl

theorem step?_of_isWaiting {w : Worker α} (h : w.isWaiting = true) : w.step? = none := by
  unfold step?
  rw [isWaiting_iff.1 h]

theorem step?_of_hasEnded {w : Worker α} (h : w.hasEnded = true) : w.step? = none := by
  unfold step?
  rcases hasEnded_iff.1 h with ⟨loss, hp⟩ | ⟨cause, hp⟩ <;> rw [hp]

/-! ## What never changes -/

section
variable {w w' : Worker α} {m : Option (Message α WorkerId)}

theorem Step.id_eq (h : Step w w' m) : w'.id = w.id := by
  cases h <;> rfl

theorem Step.policy_eq (h : Step w w' m) : w'.policy = w.policy := by
  cases h <;> rfl

theorem Step.total_eq (h : Step w w' m) : w'.total = w.total := by
  cases h <;> rfl

/-- A worker sends messages in its own name. -/
theorem Step.worker_eq (h : Step w w' m) {message : Message α WorkerId}
    (hm : m = some message) : message.worker = w.id := by
  cases h <;> cases hm <;> rfl

end

/-- What an answer leaves of a worker: a merged model that fits lets it go on. -/
theorem resume_merged {w : Worker α} {model : Params α}
    (h : w.learner.model.params.layout = model.layout) :
    w.resume (.merged model) =
      { w with
        learner := ⟨{ w.learner.model with params := model },
          if w.policy.keep then w.learner.optimizer else w.spec.build⟩
        point := .stepping } := by
  have hload : w.learner.model.load model = .ok { w.learner.model with params := model } :=
    Affine.load_eq_ok_iff.2 ⟨h, rfl⟩
  simp only [resume, hload]

/-! ## Moves left -/

/-- The most moves that a worker with `left` batches can still cause: its own, and one for each
    message to be taken. -/
def moves (left : Nat) : WorkerPoint α → Nat
  | .announcing => 6 * left + 2
  | .joining => 6 * (left - 1) + 6
  | .waiting => 6 * (left - 1) + 4
  | .stepping => 6 * (left - 1) + 3
  | .finished _ | .failed _ => 0

/-- The moves that a worker can still cause. -/
def budget (w : Worker α) : Nat := moves w.remaining.length w.point

/-- A step costs a move, and one more if it sends a message. -/
theorem budget_step {w w' : Worker α} {m : Option (Message α WorkerId)} (h : Step w w' m) :
    w'.budget + m.toList.length + 1 ≤ w.budget := by
  cases h with
  | finish point rest =>
    simp only [budget, goto, moves, point, Option.toList_some, List.length_singleton]
    omega
  | announceSync point rest due | announce point rest due =>
    have hpos : 0 < w.remaining.length := List.length_pos_iff.2 rest
    simp only [budget, goto, moves, point, Option.toList_some, List.length_singleton]
    omega
  | submit point =>
    -- waiting and dying both cost less than joining
    have hjoined : moves w.remaining.length w.joined ≤ 6 * (w.remaining.length - 1) + 4 := by
      unfold joined
      split <;> simp [moves]
    have hbudget : w.budget = 6 * (w.remaining.length - 1) + 6 := by simp [budget, moves, point]
    show moves w.remaining.length w.joined + 1 + 1 ≤ w.budget
    omega
  | train batch rest loss learner point remaining ok =>
    simp only [budget, moves, point, remaining, Option.toList_none, List.length_nil,
      List.length_cons]
    omega
  | fail batch rest halt point remaining refused =>
    simp only [budget, goto, moves, point, remaining, Option.toList_none, List.length_nil]
    omega

/-- So does reading an answer. -/
theorem budget_resume {w : Worker α} (h : w.isWaiting = true) (answer : Answer α) :
    (w.resume answer).budget + 1 ≤ w.budget := by
  have hp := isWaiting_iff.1 h
  have hbudget : w.budget = 6 * (w.remaining.length - 1) + 4 := by simp [budget, moves, hp]
  rw [hbudget]
  -- it dies of an answer without a model, or of a model that does not fit, or trains on
  unfold resume
  split
  · simp [budget, goto, moves]
  · split
    · simp [budget, goto, moves]
    · simp [budget, moves]

/-! ## Between two rounds -/

/-- The count of batches whose waits a worker has come to. -/
def reached (w : Worker α) : Nat :=
  match w.point with
  | .waiting | .stepping => w.index + 1
  | .finished _ => w.total
  | .announcing | .joining | .failed _ => w.index

/-- Where a worker can stand that has been released from `r` rounds: it has trained on at least
    the batches up to the last of them and on none behind the next one, and its waits so far could
    be timed. -/
structure Drift (r : Nat) (w : Worker α) : Prop where
  counts : w.index + w.remaining.length = w.total
  timed : w.policy.TimesWaits w.id w.reached
  announcing : w.point = .announcing →
    r * max w.policy.every 1 ≤ w.index ∧ w.index ≤ (r + 1) * max w.policy.every 1 ∧
      (w.index = r * max w.policy.every 1 → r = 0)
  stepping : w.point = .stepping →
    r * max w.policy.every 1 ≤ w.index ∧ w.index < (r + 1) * max w.policy.every 1 ∧
      w.remaining ≠ []
  joining : w.point = .joining → w.index = (r + 1) * max w.policy.every 1 ∧ w.remaining ≠ []
  waiting : w.point = .waiting →
    w.index = (r + 1) * max w.policy.every 1 ∧ w.remaining ≠ [] ∧ w.policy.timed w.id w.index = true
  finished : ∀ loss, w.point = .finished loss → w.total ≤ (r + 1) * max w.policy.every 1

theorem drift_start (id : WorkerId) (learner : Learner α) (spec : OptimizerSpec α)
    (policy : SyncPolicy) (batches : List (Batch α)) :
    Drift 0 (start id learner spec policy batches) := by
  refine ⟨?_, fun i hi => absurd hi (Nat.not_lt_zero i), ?_, ?_, ?_, ?_, ?_⟩ <;> simp [start]

/-- Within the window a synchronization is due exactly at its end. -/
theorem isDue_iff {p : SyncPolicy} {r i : Nat} (hlow : r * max p.every 1 ≤ i)
    (hhigh : i ≤ (r + 1) * max p.every 1) (hstart : i = r * max p.every 1 → r = 0) :
    p.isDue i = true ↔ i = (r + 1) * max p.every 1 := by
  have hpos : 0 < max p.every 1 := by omega
  have hsucc : (r + 1) * max p.every 1 = r * max p.every 1 + max p.every 1 := Nat.succ_mul _ _
  unfold SyncPolicy.isDue
  rw [Bool.and_eq_true, decide_eq_true_eq, beq_iff_eq]
  constructor
  · rintro ⟨hi, hmod⟩
    obtain ⟨q, hq⟩ := Nat.dvd_of_mod_eq_zero hmod
    rw [Nat.mul_comm] at hq
    -- a multiple in the window is one of its ends, and the lower one is no synchronization
    have hqr : r ≤ q := Nat.le_of_mul_le_mul_right (hq ▸ hlow) hpos
    have hqr' : q ≤ r + 1 := Nat.le_of_mul_le_mul_right (hq ▸ hhigh) hpos
    rcases Nat.lt_or_ge r q with hlt | hge
    · have : q = r + 1 := by omega
      rw [hq, this]
    · have hqr'' : q = r := by omega
      subst hqr''
      have := hstart hq
      subst this
      omega
  · rintro rfl
    refine ⟨by omega, Nat.mul_mod_left _ _⟩

theorem isDue_end (p : SyncPolicy) (r : Nat) : p.isDue ((r + 1) * max p.every 1) = true := by
  have hpos : 0 < max p.every 1 := by omega
  have hsucc : (r + 1) * max p.every 1 = r * max p.every 1 + max p.every 1 := Nat.succ_mul _ _
  exact (isDue_iff (by omega) le_rfl (by omega)).2 rfl

/-- A worker has come to a wait that cannot be timed. -/
structure Late (w : Worker α) : Prop where
  due : w.policy.isDue w.index = true
  more : w.index < w.total
  untimed : w.policy.timed w.id w.index = false

omit [Scalar α] in
/-- Whoever joins the others has a synchronization due, and batches behind it. -/
theorem Drift.late_of_joining {w : Worker α} {r : Nat} (h : w.Drift r) (point : w.point = .joining)
    (untimed : w.policy.timed w.id w.index = false) : w.Late := by
  obtain ⟨hindex, hrest⟩ := h.joining point
  have hpos : 0 < w.remaining.length := List.length_pos_iff.2 hrest
  have hcounts := h.counts
  refine ⟨?_, by omega, untimed⟩
  rw [hindex]
  exact isDue_end _ r

/-- A worker's steps keep it in its window. -/
theorem Drift.step {w w' : Worker α} {m : Option (Message α WorkerId)} {r : Nat}
    (h : w.Drift r) (hs : Step w w' m) : w'.Drift r := by
  cases hs with
  | finish point rest =>
    obtain ⟨-, hhigh, -⟩ := h.announcing point
    -- no batch is left, so it has trained on all of them
    have htotal : w.total = w.index := by simpa [rest] using h.counts.symm
    have htimed := h.timed
    rw [reached, point] at htimed
    refine ⟨h.counts, htimed.mono htotal.le, ?_, ?_, ?_, ?_, ?_⟩ <;> simp [goto]
    omega
  | announceSync point rest due =>
    obtain ⟨hlow, hhigh, hstart⟩ := h.announcing point
    -- a synchronization is due only at the end of the window
    have hend := (isDue_iff hlow hhigh hstart).1 due
    have htimed := h.timed
    rw [reached, point] at htimed
    refine ⟨h.counts, htimed, ?_, ?_, ?_, ?_, ?_⟩ <;> simp [goto]
    exact ⟨hend, rest⟩
  | announce point rest due =>
    obtain ⟨hlow, hhigh, hstart⟩ := h.announcing point
    -- and none is due before, so there is room for one more batch
    have hend : w.index ≠ (r + 1) * max w.policy.every 1 := by
      intro hi
      rw [(isDue_iff hlow hhigh hstart).2 hi] at due
      cases due
    have htimed := h.timed
    rw [reached, point] at htimed
    have hnext : w.policy.TimesWaits w.id (w.index + 1) :=
      SyncPolicy.timesWaits_succ htimed fun hdue => Bool.noConfusion (due.symm.trans hdue)
    refine ⟨h.counts, hnext, ?_, ?_, ?_, ?_, ?_⟩ <;> simp [goto]
    exact ⟨hlow, by omega, rest⟩
  | submit point =>
    obtain ⟨hend, rest⟩ := h.joining point
    have htimed := h.timed
    rw [reached, point] at htimed
    -- it waits only where its wait can be timed
    unfold joined
    split
    · next timed =>
      have hnext : w.policy.TimesWaits w.id (w.index + 1) :=
        SyncPolicy.timesWaits_succ htimed fun _ => timed
      refine ⟨h.counts, hnext, ?_, ?_, ?_, ?_, ?_⟩ <;> simp [goto]
      exact ⟨hend, rest, timed⟩
    · refine ⟨h.counts, htimed, ?_, ?_, ?_, ?_, ?_⟩ <;> simp [goto]
  | train batch rest loss learner point remaining ok =>
    obtain ⟨hlow, hhigh, -⟩ := h.stepping point
    have hcounts := h.counts
    rw [remaining, List.length_cons] at hcounts
    have htimed := h.timed
    rw [reached, point] at htimed
    refine ⟨?_, htimed, ?_, ?_, ?_, ?_, ?_⟩ <;> simp
    · omega
    · omega
  | fail batch rest halt point remaining refused =>
    have htimed := h.timed
    rw [reached, point] at htimed
    refine ⟨h.counts, htimed.mono (Nat.le_succ _), ?_, ?_, ?_, ?_, ?_⟩ <;> simp [goto]

omit [Scalar α] in
/-- A worker that has ended stays in every later window. -/
theorem Drift.later {w : Worker α} {r : Nat} (h : w.Drift r) (he : w.hasEnded = true) :
    w.Drift (r + 1) := by
  unfold hasEnded at he
  have hwider : (r + 1) * max w.policy.every 1 ≤ (r + 1 + 1) * max w.policy.every 1 :=
    Nat.mul_le_mul_right _ (by omega)
  -- of the points of a worker only `finished` is left to it
  refine ⟨h.counts, h.timed, ?announcing, ?stepping, ?joining, ?waiting, ?finished⟩
  case announcing =>
    intro hp
    simp [hp] at he
  case stepping =>
    intro hp
    simp [hp] at he
  case joining =>
    intro hp
    simp [hp] at he
  case waiting =>
    intro hp
    simp [hp] at he
  case finished =>
    intro loss hp
    exact Nat.le_trans (h.finished loss hp) hwider

/-- A released worker goes on in the next window. -/
theorem Drift.resume {w : Worker α} {r : Nat} (h : w.Drift r) (hw : w.point = .waiting)
    {model : Params α} (hfits : w.learner.model.params.layout = model.layout) :
    (w.resume (.merged model)).Drift (r + 1) := by
  obtain ⟨hend, rest, -⟩ := h.waiting hw
  have hpos : 0 < max w.policy.every 1 := by omega
  have hsucc : (r + 1 + 1) * max w.policy.every 1 =
      (r + 1) * max w.policy.every 1 + max w.policy.every 1 := Nat.succ_mul _ _
  -- it stands at the end of its window, which is the start of the next
  have htimed := h.timed
  rw [reached, hw] at htimed
  rw [resume_merged hfits]
  refine ⟨h.counts, htimed, ?_, ?_, ?_, ?_, ?_⟩ <;> simp
  exact ⟨by omega, by omega, rest⟩

end Worker

end Federated
