/-
  Federated.Proofs.Optimizer.Histories

  An optimizer in use: it is given gradients and parameters, of which some do not belong together,
  and its learning rate is changed in between. Whatever has been done with it, an update is made
  completely or not at all.

    * `Optimizer.Use`, `Optimizer.afterAll` — what is done with an optimizer, and what it leaves.
    * `Optimizer.Moves` — what a completed update leaves, element by element.
    * `Optimizer.run_update`, `Optimizer.run_refused` — the two ways in which an update ends.
    * `Optimizer.all_or_nothing` — so it is after every history in which names keep their shapes.
-/
import Federated.Proofs.Numeric.Exact
import Federated.Proofs.Optimizer.Elements
import Federated.Proofs.Optimizer.Rates

namespace Federated

variable {α : Type} [Scalar α]

namespace Optimizer

/-! ## Single updates -/

/-- What a completed update leaves of an optimizer and of parameters: the layout, every element
    moved by the gradient at its place, and what has been learned there. -/
structure Moves (o : Optimizer α) (gradient params : Params α) (o' : Optimizer α)
    (params' : Params α) : Prop where
  layout : params'.layout = params.layout
  elements : ∀ name i, params'.element? name i =
    (params.element? name i).bind fun x => (gradient.element? name i).map (o.moved name i x)
  kept : ∀ name i, o'.keptAt name i =
    ((gradient.element? name i).map (o.learned name i)).getD (o.keptAt name i)
  bare : o'.bare = o.advance.bare

variable {o : Optimizer α} {shapes : String → List Nat} {gradient params : Params α}

omit [Scalar α] in
/-- A gradient has the shapes of the parameters that it belongs to. -/
theorem conforms_of_layout (conforms : params.Conforms shapes)
    (h : params.layout = gradient.layout) : gradient.Conforms shapes := by
  intro name g hg
  obtain ⟨-, -, hnone⟩ | ⟨p, _, -, hp, hsome, hshape⟩ := Params.find?_beside h name
  · rw [hnone] at hg
    cases hg
  · obtain rfl := Option.some.inj (hsome.symm.trans hg)
    exact hshape.trans (conforms name p hp)

theorem moves (fits : o.Fits shapes) (conforms : params.Conforms shapes)
    (h : params.layout = gradient.layout) :
    o.Moves gradient params (o.absorb gradient) (o.move gradient params) where
  layout := layout_move o gradient params
  elements := element?_move o h
  kept := keptAt_absorb fits (conforms_of_layout conforms h)
  bare := bare_absorb o gradient

/-- Between equal layouts an update in place is completed. -/
theorem run_update (fits : o.Fits shapes) (conforms : params.Conforms shapes)
    (h : params.layout = gradient.layout) :
    (updateInPlace gradient).run ⟨o, params⟩ =
      .ok () ⟨o.absorb gradient, o.move gradient params⟩ := by
  have hends := run_updateInPlace o gradient params
  rw [update_eq fits conforms h] at hends
  exact hends

/-- Between layouts that differ it is refused, and nothing is written. -/
theorem run_refused (o : Optimizer α) (h : params.layout ≠ gradient.layout) :
    ∃ m, (updateInPlace gradient).run ⟨o, params⟩ = .error (.error (.layout m)) ⟨o, params⟩ := by
  obtain ⟨m, hm⟩ := Option.ne_none_iff_exists'.1 fun hnone =>
    h (Params.layoutMismatch?_eq_none_iff.1 hnone)
  have hupdate : o.update gradient params = .error (.error (.layout m)) := by
    unfold update Params.paired
    rw [hm]
    rfl
  have hends := run_updateInPlace o gradient params
  rw [hupdate] at hends
  exact ⟨m, hends⟩

/-! ## Histories -/

omit [Scalar α] in
/-- What is done with an optimizer. -/
inductive Use (α : Type) where
  | update (gradient params : Params α)
  | setRate (rate : α)

/-- Parameters that are passed have the shapes that belong to their names; a gradient can be
    anything. -/
def Use.Conforms (shapes : String → List Nat) : Use α → Prop
  | .update _ params => params.Conforms shapes
  | .setRate _ => True

/-- The learning rate that is in force after uses. -/
def rateAfter (rate : α) : List (Use α) → α
  | [] => rate
  | .update _ _ :: later => rateAfter rate later
  | .setRate rate :: later => rateAfter rate later

/-- An optimizer as a use leaves it, completed or failed. -/
def after (o : Optimizer α) : Use α → Optimizer α
  | .update gradient params =>
    match (updateInPlace gradient).run ⟨o, params⟩ with
    | .ok _ s => s.state
    | .error _ s => s.state
  | .setRate rate => o.withRate rate

/-- An optimizer as uses leave it, one after another. -/
def afterAll (o : Optimizer α) (uses : List (Use α)) : Optimizer α := uses.foldl after o

theorem after_update (fits : o.Fits shapes) (conforms : params.Conforms shapes)
    (h : params.layout = gradient.layout) :
    o.after (.update gradient params) = o.absorb gradient := by
  rw [after, run_update fits conforms h]

/-- A refused update is as if it had not been tried. -/
theorem after_refused (o : Optimizer α) (h : params.layout ≠ gradient.layout) :
    o.after (.update gradient params) = o := by
  obtain ⟨m, hrun⟩ := run_refused o h
  rw [after, hrun]

/-- Every use leaves an optimizer that fits. -/
theorem Fits.after (fits : o.Fits shapes) {use : Use α} (conforms : use.Conforms shapes) :
    (o.after use).Fits shapes := by
  cases use with
  | setRate rate => exact fits.withRate rate
  | update gradient params =>
    by_cases h : params.layout = gradient.layout
    · rw [after_update fits conforms h]
      exact fits.absorb (conforms_of_layout conforms h)
    · rw [after_refused o h]
      exact fits

theorem Fits.afterAll (fits : o.Fits shapes) {uses : List (Use α)}
    (conforms : ∀ use ∈ uses, use.Conforms shapes) : (o.afterAll uses).Fits shapes := by
  induction uses generalizing o with
  | nil => exact fits
  | cons use uses ih =>
    obtain ⟨huse, huses⟩ := List.forall_mem_cons.1 conforms
    exact ih (fits.after huse) huses

theorem rate_absorb (o : Optimizer α) (gradient : Params α) :
    (o.absorb gradient).rate = o.rate := by
  cases o <;> rfl

/-- The rate in force is the one that has been set last. -/
theorem rate_afterAll (fits : o.Fits shapes) {uses : List (Use α)}
    (conforms : ∀ use ∈ uses, use.Conforms shapes) :
    (o.afterAll uses).rate = rateAfter o.rate uses := by
  induction uses generalizing o with
  | nil => rfl
  | cons use uses ih =>
    obtain ⟨huse, huses⟩ := List.forall_mem_cons.1 conforms
    have hrate := ih (fits.after huse) huses
    cases use with
    | setRate rate =>
      rw [show (o.after (.setRate rate)).rate = rate from o.rate_withRate rate] at hrate
      exact hrate
    | update gradient params =>
      have hsame : (o.after (.update gradient params)).rate = o.rate := by
        by_cases h : params.layout = gradient.layout
        · rw [after_update fits huse h, rate_absorb]
        · rw [after_refused o h]
      rw [hsame] at hrate
      exact hrate

omit [Scalar α] in
theorem withRate_withRate (o : Optimizer α) (r r' : α) :
    (o.withRate r).withRate r' = o.withRate r' := by
  cases o <;> rfl

/-- Optimizers that differ in their rate alone differ in nothing else after the same uses. -/
theorem afterAll_withRate (fits : o.Fits shapes) {uses : List (Use α)}
    (conforms : ∀ use ∈ uses, use.Conforms shapes) (rate r : α) :
    ((o.withRate rate).afterAll uses).withRate r = (o.afterAll uses).withRate r := by
  induction uses generalizing o rate with
  | nil => exact o.withRate_withRate rate r
  | cons use uses ih =>
    obtain ⟨huse, huses⟩ := List.forall_mem_cons.1 conforms
    cases use with
    | setRate rate' =>
      show (((o.withRate rate).withRate rate').afterAll uses).withRate r = _
      rw [withRate_withRate]
      rfl
    | update gradient params =>
      show (((o.withRate rate).after (.update gradient params)).afterAll uses).withRate r =
        ((o.after (.update gradient params)).afterAll uses).withRate r
      by_cases h : params.layout = gradient.layout
      · rw [after_update (fits.withRate rate) huse h, after_update fits huse h, absorb_withRate]
        exact ih (fits.absorb (conforms_of_layout huse h)) huses rate
      · rw [after_refused _ h, after_refused _ h]
        exact ih fits huses rate

/-- After every history in which names keep their shapes, an update is all or nothing. If the
    layouts of parameters and gradient differ it is refused, and everything to come is as if it had
    not been tried. If they are equal it is completed, element by element, at the rate that has been
    set last. To set the rate changes nothing else. -/
theorem all_or_nothing (spec : OptimizerSpec α) {history : List (Use α)}
    (conforms : ∀ use ∈ history, use.Conforms shapes) (gradient : Params α)
    (hparams : params.Conforms shapes) :
    let o := spec.build.afterAll history
    (params.layout ≠ gradient.layout →
      (∃ m, (updateInPlace gradient).run ⟨o, params⟩ = .error (.error (.layout m)) ⟨o, params⟩) ∧
      ∀ later, spec.build.afterAll (history ++ .update gradient params :: later) =
        spec.build.afterAll (history ++ later)) ∧
    (params.layout = gradient.layout → ∃ o' params',
      (updateInPlace gradient).run ⟨o, params⟩ = .ok () ⟨o', params'⟩ ∧
      o.Moves gradient params o' params') ∧
    o.rate = rateAfter spec.rate history ∧
    ∀ rate later, (∀ use ∈ later, use.Conforms shapes) → ∀ r,
      (spec.build.afterAll (history ++ .setRate rate :: later)).withRate r =
        (spec.build.afterAll (history ++ later)).withRate r := by
  intro o
  have fits : o.Fits shapes := (fits_build spec).afterAll conforms
  have happend : ∀ later, spec.build.afterAll (history ++ later) = o.afterAll later :=
    fun later => List.foldl_append
  refine ⟨fun h => ⟨run_refused o h, fun later => ?_⟩, fun h => ?_, ?_,
    fun rate later hlater r => ?_⟩
  · rw [happend, happend]
    exact congrArg (afterAll · later) (after_refused o h)
  · exact ⟨_, _, run_update fits hparams h, moves fits hparams h⟩
  · rw [← spec.rate_build]
    exact rate_afterAll (fits_build spec) conforms
  · rw [happend, happend]
    exact afterAll_withRate fits hlater rate r

/-- Descent with a velocity over the rationals. After a gradient of 2 the velocity is 2, the update
    that follows has no gradient for its parameter and is refused, and the rate is set to 2: another
    gradient of 2 makes the velocity 3, and takes an element from 1 to -5. -/
theorem all_or_nothing_velocity :
    let single (x : ℚ) : Params ℚ := Params.empty.insert "weight" (.ofFn [1] fun _ => x)
    let history : List (Use ℚ) :=
      [.update (single 2) (single 1), .update Params.empty (single 1), .setRate 2]
    let o := (OptimizerSpec.momentum (1 / 2) (1 / 2)).build.afterAll history
    (∀ use ∈ history, use.Conforms fun _ => [1]) ∧ (single 1).Conforms (fun _ => [1]) ∧
      ∃ o' params', (updateInPlace (single 2)).run ⟨o, single 1⟩ = .ok () ⟨o', params'⟩ ∧
        params'.element? "weight" 0 = some (-5) ∧ o'.keptAt "weight" 0 = [3] := by
  intro single history o
  have hsingle : ∀ x, (single x).Conforms fun _ => [1] := by
    intro x name t ht
    have hfind := ht.symm.trans
      (Dict.find?_insert Dict.empty "weight" name (Tensor.ofFn [1] fun _ => x))
    split_ifs at hfind
    · obtain rfl := Option.some.inj hfind
      rfl
    · cases hfind
  have conforms : ∀ use ∈ history, use.Conforms fun _ => [1] := by
    simp only [history, List.forall_mem_cons]
    exact ⟨hsingle 1, hsingle 1, trivial, fun _ h => nomatch h⟩
  have hlayout : (single 1).layout = (single 2).layout :=
    Params.layoutMismatch?_eq_none_iff.1 (by decide +kernel)
  obtain ⟨-, hupdate, -, -⟩ :=
    all_or_nothing (.momentum (1 / 2) (1 / 2)) conforms (single 2) (hsingle 1)
  obtain ⟨o', params', hrun, moves⟩ := hupdate hlayout
  refine ⟨conforms, hsingle 1, o', params', hrun, ?_, ?_⟩
  · rw [moves.elements]
    decide +kernel
  · rw [moves.kept]
    decide +kernel

end Optimizer

end Federated
