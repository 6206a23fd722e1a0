/-
  Federated.Proofs.Model.Assignment

  Parameters assigned to others in use: the layouts are compared, and then one parameter after
  another is written over by its counterpart. An assignment that is refused has written nothing.

    * `Params.takeOver` — assigning is an update by the rule that replaces each parameter.
    * `Params.run_takeOver` — what the steps of it come to is what `assign` says.
    * `Params.run_assignInPlace` — the same for parameters by themselves.
-/
import Federated.Proofs.Optimizer.Elements

namespace Federated

variable {α : Type} [Scalar α]

namespace Params

/-! ## Parameters taken over -/

/-- To take parameters over is to update by a rule that replaces each by its counterpart. -/
def takeOver : UpdateRule Unit Unit α where
  advance o := o
  prepare o _ _ := o
  step _ _ p q := (Tensor.zipWith (fun _ y => y) p q).map fun t => (t, ())
  keep o _ _ := o

omit [Scalar α] in
theorem lawful_takeOver : (takeOver (α := α)).Lawful where
  step_prepare _ _ _ _ := rfl
  keep_prepare _ _ _ _ := rfl
  step_keep _ _ _ _ _ _ _ := rfl

/-- From an equal layout all is taken over. -/
theorem update_takeOver {own theirs : Params α} (h : own.layout = theirs.layout) :
    (takeOver (α := α)).update () (own.beside theirs) = .ok ((), theirs) := by
  have htraverse : (own.beside theirs).traverse
      (fun name pair => (takeOver (α := α)).step () name pair.1 pair.2) =
      .ok ((own.beside theirs).mapValues fun _ pair => (pair.2, ())) := by
    refine traverse_beside h fun name p q _ hshape => ?_
    simp only [takeOver, Tensor.zipWith_ofFn]
    rw [← hshape, q.ofFn_cell]
    rfl
  have hkept : ∀ es : List (String × (Tensor α × Unit)),
      es.foldl (fun o e => (takeOver (α := α)).keep o e.1 e.2.2) () = () := fun _ => rfl
  unfold UpdateRule.update
  show (_ >>= _) = _
  rw [htraverse]
  simp only [bind, Except.bind, pure, Except.pure, Dict.mapValues_mapValues]
  exact congrArg (fun tensors => Except.ok ((), Params.mk tensors)) (mapValues_counterpart h)

/-- Taking over in place comes to what `assign` says. A refusal comes before anything has been
    written. -/
theorem run_takeOver (own theirs : Params α) :
    UpdateRule.Ends (⟨(), own⟩ : UpdateRule.Site Unit α)
      (((own.assign theirs).mapError fun m => Halt.error (ModelError.layout m)).map fun p =>
        ((), ⟨(), p⟩))
      ((takeOver.updateInPlace theirs).run ⟨(), own⟩) := by
  have hends := UpdateRule.run_updateInPlace lawful_takeOver () theirs own
  rw [assign_eq]
  cases hm : own.layoutMismatch? theirs with
  | none =>
    have h := layoutMismatch?_eq_none_iff.1 hm
    rw [paired_of_layout h] at hends
    simp only [Except.mapError, bind, Except.bind, update_takeOver h] at hends
    exact hends
  | some m =>
    have hpaired : own.paired theirs = .error m := by rw [paired, hm]
    rw [hpaired] at hends
    exact hends

/-! ## Assignment in place -/

/-- Writes other parameters over those in use, one after another once the layouts have been
    compared. A failure ends this and leaves them as they are by then. -/
def assignInPlace (theirs : Params α) : EStateM (Halt ModelError) (Params α) Unit :=
  UpdateRule.zoom (fun own => ⟨(), own⟩) (fun _ s => s.params) (takeOver.updateInPlace theirs)

/-- Parameters in use become the others, unless the layouts differ, and then stay as they are. -/
theorem run_assignInPlace (own theirs : Params α) :
    (assignInPlace theirs).run own = match own.layoutMismatch? theirs with
      | none => .ok () theirs
      | some m => .error (.error (.layout m)) own := by
  have hends := (run_takeOver own theirs).zoom (fun p : Params α => ⟨(), p⟩)
    (fun _ s => s.params) rfl
  rw [assign_eq] at hends
  cases hm : own.layoutMismatch? theirs with
  | none =>
    rw [hm] at hends
    exact hends
  | some m =>
    rw [hm] at hends
    exact hends

end Params

end Federated
