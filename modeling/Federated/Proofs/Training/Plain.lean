/-
  Federated.Proofs.Training.Plain

  Plain local training over several epochs: one model and one optimizer, nobody to meet. It is
  what federated training with one worker is measured by.

    * `Learner.trainRenewing` — local training that takes up a fresh optimizer before some of
      its batches.
    * `Plain.course` — epochs behind one another, each at a rate of its own.
    * `Plain.train_eq` — with the optimizer kept, nothing is ever renewed.
-/
import Federated.Optimizer.Bank
import Federated.Proofs.Optimizer.Layout
import Federated.Training.Worker

namespace Federated

variable {α : Type}

/-! ## One epoch -/

namespace Learner

variable [Scalar α]

/-- The learner that trains on batch `i`: with a fresh optimizer, if one is due there. -/
def renewedAt (due : Nat → Bool) (fresh : Optimizer α) (i : Nat) (l : Learner α) : Learner α :=
  if due i then { l with optimizer := fresh } else l

/-- Steps on batches in order, from batch `i` on, until one has no result; where one is due, a
    fresh optimizer is taken up before the batch. `sum` is the sum of the losses before. -/
def trainRenewingFrom (due : Nat → Bool) (fresh : Optimizer α) (l : Learner α) (sum : α)
    (i : Nat) : List (Batch α) → Except (Halt ModelError) α × Learner α
  | [] => (.ok (meanLoss sum i), l)
  | batch :: rest =>
    match (l.renewedAt due fresh i).step batch with
    | .error halt => (.error halt, l.renewedAt due fresh i)
    | .ok (loss, l) => trainRenewingFrom due fresh l (sum + loss) (i + 1) rest

/-- Steps on batches in order, with a fresh optimizer where one is due. -/
def trainRenewing (due : Nat → Bool) (fresh : Optimizer α) (l : Learner α)
    (batches : List (Batch α)) : Except (Halt ModelError) α × Learner α :=
  l.trainRenewingFrom due fresh Scalar.zero 0 batches

variable {due : Nat → Bool} {fresh : Optimizer α} {l l' : Learner α} {sum loss : α} {i : Nat}

theorem trainRenewingFrom_cons {batch : Batch α} {rest : List (Batch α)}
    (h : (l.renewedAt due fresh i).step batch = .ok (loss, l')) :
    l.trainRenewingFrom due fresh sum i (batch :: rest) =
      l'.trainRenewingFrom due fresh (sum + loss) (i + 1) rest := by
  rw [trainRenewingFrom, h]

theorem trainRenewingFrom_refused {batch : Batch α} {rest : List (Batch α)} {halt : Halt ModelError}
    (h : (l.renewedAt due fresh i).step batch = .error halt) :
    (l.trainRenewingFrom due fresh sum i (batch :: rest)).1 = .error halt := by
  rw [trainRenewingFrom, h]

/-- Where none is ever due, this is local training as it is. -/
theorem trainRenewing_never (h : ∀ i, due i = false) (l : Learner α) (batches : List (Batch α)) :
    l.trainRenewing due fresh batches = l.train batches := by
  unfold trainRenewing train
  generalize (Scalar.zero : α) = sum
  generalize 0 = i
  induction batches generalizing l sum i with
  | nil => rfl
  | cons batch rest ih =>
    have hsame : l.renewedAt due fresh i = l := by simp [renewedAt, h i]
    rw [trainRenewingFrom, trainFrom, hsame]
    cases l.step batch with
    | error halt => rfl
    | ok out => exact ih out.2 (sum + out.1) (i + 1)

omit [Scalar α] in
/-- A fresh optimizer comes to the same model. -/
theorem model_renewedAt : (l.renewedAt due fresh i).model = l.model := by
  unfold renewedAt
  split <;> rfl

/-- A step moves the parameters within their layout, and nothing else of the model. -/
theorem load_of_step {batch : Batch α} (h : l.step batch = .ok (loss, l')) :
    l.model.load l'.model.params = .ok l'.model := by
  have hlayout := layout_step h
  unfold step at h
  obtain ⟨⟨loss₁, gradient⟩, -, h⟩ := ok_of_bind h
  obtain ⟨⟨o₁, params₁⟩, -, h⟩ := ok_of_bind h
  cases h
  exact Affine.load_eq_ok_iff.2 ⟨hlayout.symm, rfl⟩

/-- So does training: the model it began with takes over the parameters it ended with. -/
theorem load_trainRenewingFrom (due : Nat → Bool) (fresh : Optimizer α) (l : Learner α) (sum : α)
    (i : Nat) (batches : List (Batch α)) :
    l.model.load (l.trainRenewingFrom due fresh sum i batches).2.model.params =
      .ok (l.trainRenewingFrom due fresh sum i batches).2.model := by
  induction batches generalizing l sum i with
  | nil => exact Affine.load_eq_ok_iff.2 ⟨rfl, rfl⟩
  | cons batch rest ih =>
    rw [trainRenewingFrom]
    cases hstep : (l.renewedAt due fresh i).step batch with
    | error halt =>
      simp only
      rw [model_renewedAt]
      exact Affine.load_eq_ok_iff.2 ⟨rfl, rfl⟩
    | ok out =>
      have hfirst := load_of_step hstep
      rw [model_renewedAt, Affine.load_eq_ok_iff] at hfirst
      obtain ⟨hl, hm⟩ := Affine.load_eq_ok_iff.1 (ih out.2 (sum + out.1) (i + 1))
      refine Affine.load_eq_ok_iff.2 ⟨hfirst.1.trans hl, hm.trans ?_⟩
      rw [hfirst.2]

end Learner

/-! ## Several epochs -/

/-- An epoch to come: the learning rate to be set before it, if there is one, and its batches. -/
structure Lesson (α : Type) where
  rate : Option α
  batches : List (Batch α)

/-- What an epoch has come to: the parameters of the model, the optimizer that goes on to the
    next epoch, and the mean loss of the worker. -/
structure Milestone (α : Type) where
  params : Params α
  optimizer : Option (Optimizer α)
  loss : Option α

/-- Epochs behind one another: what each of them has come to, and what ended them early if
    something did. -/
structure Course (α ε : Type) where
  reached : List (Milestone α)
  halt : Option ε

/-- The course with one more epoch before it. -/
def Course.after {ε : Type} (c : Course α ε) (m : Milestone α) : Course α ε :=
  { c with reached := m :: c.reached }

theorem Course.after_inj {ε : Type} {c c' : Course α ε} {m : Milestone α}
    (h : c.after m = c'.after m) : c = c' := by
  obtain ⟨reached, halt⟩ := c
  obtain ⟨reached', halt'⟩ := c'
  cases h
  rfl

/-- The same course with its end seen in another way. -/
def Course.mapHalt {ε ε' : Type} (f : ε → ε') (c : Course α ε) : Course α ε' :=
  ⟨c.reached, c.halt.map f⟩

/-- What plain training carries from epoch to epoch: a model with its one optimizer, and what
    fresh ones are built from. -/
structure Plain (α : Type) where
  learner : Learner α
  spec : OptimizerSpec α

namespace Plain

variable [Scalar α]

/-- Before the first epoch. -/
def start (model : Affine α) (spec : OptimizerSpec α) : Plain α := ⟨⟨model, spec.build⟩, spec⟩

/-- With a learning rate set, if there is one to be set. -/
def rated (p : Plain α) : Option α → Plain α
  | none => p
  | some rate =>
    ⟨{ p.learner with optimizer := p.learner.optimizer.withRate rate }, p.spec.withRate rate⟩

/-- One epoch: local training if optimizers are kept, and else with a fresh optimizer before
    every batch whose number is above zero and a multiple of `every`. -/
def train (keep : Bool) (every : Nat) (p : Plain α) (batches : List (Batch α)) :
    Except (Halt ModelError) α × Learner α :=
  if keep then p.learner.train batches
  else p.learner.trainRenewing (fun i => decide (0 < i ∧ every ∣ i)) p.spec.build batches

/-- The epochs of a plan, until a step has no result. -/
def course (keep : Bool) (every : Nat) (p : Plain α) :
    List (Lesson α) → Course α (Halt ModelError)
  | [] => ⟨[], none⟩
  | lesson :: plan =>
    match (p.rated lesson.rate).train keep every lesson.batches with
    | (.error halt, _) => ⟨[], some halt⟩
    | (.ok loss, learner) =>
      (course keep every ⟨learner, (p.rated lesson.rate).spec⟩ plan).after
        ⟨learner.model.params, some learner.optimizer, some loss⟩

end Plain

/-- Whether a worker takes up a fresh optimizer before batch `i`. -/
def SyncPolicy.renews (p : SyncPolicy) (i : Nat) : Bool := p.isDue i && !p.keep

/-- An epoch takes up fresh optimizers where a worker with the same policy does. -/
theorem Plain.train_eq [Scalar α] {policy : SyncPolicy} (h : 0 < policy.every) (p : Plain α)
    (batches : List (Batch α)) :
    p.train policy.keep policy.every batches =
      p.learner.trainRenewing policy.renews p.spec.build batches := by
  unfold train
  cases hkeep : policy.keep with
  | true =>
    rw [if_pos rfl]
    refine (Learner.trainRenewing_never (fun i => ?_) p.learner batches).symm
    simp [SyncPolicy.renews, hkeep]
  | false =>
    rw [if_neg Bool.false_ne_true]
    have hdue : (fun i => decide (0 < i ∧ policy.every ∣ i)) = policy.renews := by
      funext i
      simp [SyncPolicy.renews, SyncPolicy.isDue, hkeep, Nat.max_eq_left h, Bool.beq_eq_decide_eq,
        Nat.dvd_iff_mod_eq_zero]
    rw [hdue]

/-- Fresh optimizers have the rate of what they are built from. -/
theorem OptimizerSpec.build_withRate [Scalar α] (spec : OptimizerSpec α) (rate : α) :
    (spec.withRate rate).build = spec.build.withRate rate := by
  cases spec <;> rfl

end Federated
