/-
  Federated.Proofs.Averaging.Merge

  When models can be averaged, and the layout of what comes out. Models are given in worker
  order, as a round gives them.

    * `average_of_single`, `average_of_foreign`, `average_of_refused`, `average_of_shares` — the
      average, case by case.
    * `average_eq_none_iff` — there is no average exactly if there are no models.
    * `layout_of_average` — models that have been averaged had the layout of the average.
    * `average_isOk` — models of one layout whose weights can be restricted to them have an
      average of that layout.
-/
import Federated.Averaging.Merge
import Federated.Proofs.Model.Layout

namespace Federated

variable {α : Type} [Scalar α]

/-- Adding a multiple of another tensor keeps the shape. -/
theorem Tensor.shape_addScaled (acc : Tensor α) (w : α) (t : Tensor α) :
    (acc.addScaled w t).shape = acc.shape := by
  unfold addScaled
  split
  · next sum h => exact shape_of_zipWith h
  · rfl

namespace Params

/-- A weighted sum has the shape of its first tensor. -/
theorem shape_weightedSum (name : String) (w : α) (first : Tensor α)
    (others : List (α × Params α)) : (weightedSum name w first others).shape = first.shape := by
  unfold weightedSum
  refine List.foldlRecOn (motive := fun acc : Tensor α => acc.shape = first.shape) others _
    (Tensor.shape_map _ first) fun acc hacc e _ => ?_
  split
  · exact (Tensor.shape_addScaled acc e.1 _).trans hacc
  · exact hacc

/-- So a sum taken parameter by parameter has the layout of its first model. -/
theorem layout_weightedSum (first : Params α) (w : α) (others : List (α × Params α)) :
    (⟨first.tensors.mapValues fun name t => weightedSum name w t others⟩ : Params α).layout =
      first.layout := by
  rw [layout_eq_iff]
  intro name
  simp only [find?, Dict.find?_mapValues, Option.map_map]
  congr 1
  funext t
  exact shape_weightedSum name w t others

omit [Scalar α] in
/-- No model is foreign exactly if all have the first one's layout. -/
theorem foreignLayout?_eq_none_iff {first : Params α} {others : List (WorkerId × Params α)} :
    first.foreignLayout? others = none ↔ ∀ e ∈ others, e.2.layout = first.layout := by
  unfold foreignLayout?
  rw [List.findSome?_eq_none_iff]
  refine forall_congr' fun e => forall_congr' fun _ => ?_
  rw [Option.map_eq_none_iff, layoutMismatch?_eq_none_iff]
  exact eq_comm

/-! ## The cases of an average -/

/-- The weight of a worker in a merge; none counts as zero. -/
def shareOf (shares : Weights α) (w : WorkerId) : α := (shares.find? w).getD Scalar.zero

section
variable {models : List (WorkerId × Params α)} {weights : Option (Weights α)} {v : WorkerId}
  {first : Params α} {e : WorkerId × Params α} {others : List (WorkerId × Params α)}

theorem average_of_single (h : (Dict.ofList models).entries = [(v, first)]) :
    average models weights = .ok (some first) := by
  simp only [average, h]
  rfl

theorem average_of_foreign (h : (Dict.ofList models).entries = (v, first) :: e :: others)
    {cause : AggregationError α} (hf : first.foreignLayout? (e :: others) = some cause) :
    average models weights = .error cause := by
  simp only [average, h, hf]
  rfl

theorem average_of_refused (h : (Dict.ofList models).entries = (v, first) :: e :: others)
    (hf : first.foreignLayout? (e :: others) = none) {cause : AggregationError α}
    (hr : (weights.getD (Weights.uniform (Dict.ofList models).keys)).restrict
      (Dict.ofList models).keys = .error cause) :
    average models weights = .error cause := by
  simp only [average, h, hf, hr]
  rfl

theorem average_of_shares (h : (Dict.ofList models).entries = (v, first) :: e :: others)
    (hf : first.foreignLayout? (e :: others) = none) {shares : Weights α}
    (hr : (weights.getD (Weights.uniform (Dict.ofList models).keys)).restrict
      (Dict.ofList models).keys = .ok shares) :
    average models weights = .ok (some ⟨first.tensors.mapValues fun name t =>
      weightedSum name (shareOf shares v) t
        ((e :: others).map fun d => (shareOf shares d.1, d.2))⟩) := by
  simp only [average, h, hf, hr]
  rfl

/-- Several models are refused, or have an average of the layout that they have in common. -/
theorem average_of_many (weights : Option (Weights α))
    (h : (Dict.ofList models).entries = (v, first) :: e :: others) :
    (∃ cause, average models weights = .error cause) ∨
      (∀ d ∈ e :: others, d.2.layout = first.layout) ∧
        ∃ model, average models weights = .ok (some model) ∧ model.layout = first.layout := by
  cases hf : first.foreignLayout? (e :: others) with
  | some cause => exact .inl ⟨cause, average_of_foreign h hf⟩
  | none =>
    cases hr : (weights.getD (Weights.uniform (Dict.ofList models).keys)).restrict
        (Dict.ofList models).keys with
    | error cause => exact .inl ⟨cause, average_of_refused h hf hr⟩
    | ok shares =>
      exact .inr ⟨foreignLayout?_eq_none_iff.1 hf, _, average_of_shares h hf hr,
        layout_weightedSum first _ _⟩

end

/-- There is no average exactly if there are no models. -/
theorem average_eq_none_iff {models : List (WorkerId × Params α)} (hs : KeySorted models)
    {weights : Option (Weights α)} : average models weights = .ok none ↔ models = [] := by
  have hentries := Dict.entries_ofList hs
  constructor
  · intro h
    match models with
    | [] => rfl
    | [(v, first)] =>
      rw [average_of_single hentries] at h
      cases h
    | (v, first) :: e :: others =>
      rcases average_of_many weights hentries with
        ⟨cause, hcause⟩ | ⟨-, model, hmodel, -⟩
      · cases hcause.symm.trans h
      · cases hmodel.symm.trans h
  · rintro rfl
    rfl

/-- Models of one layout whose weights can be restricted to them have an average, which has
    that layout too. -/
theorem average_isOk {models : List (WorkerId × Params α)} {weights : Weights α}
    {layout : Dict String (List Nat)} (hs : KeySorted models) (hne : models ≠ [])
    (hl : ∀ e ∈ models, e.2.layout = layout)
    (hw : ∃ restricted, weights.restrict (models.map (·.1)) = .ok restricted) :
    ∃ model, average models (some weights) = .ok (some model) ∧ model.layout = layout := by
  have hentries := Dict.entries_ofList hs
  match models with
  | [] => exact absurd rfl hne
  | [(v, first)] => exact ⟨first, average_of_single hentries, hl _ List.mem_cons_self⟩
  | (v, first) :: e :: others =>
    have hfirst : first.layout = layout := hl _ List.mem_cons_self
    have hforeign : first.foreignLayout? (e :: others) = none :=
      foreignLayout?_eq_none_iff.2 fun d hd =>
        (hl d (List.mem_cons_of_mem _ hd)).trans hfirst.symm
    obtain ⟨restricted, hr⟩ := hw
    rw [← hentries] at hr
    exact ⟨_, average_of_shares hentries hforeign hr, (layout_weightedSum first _ _).trans hfirst⟩

/-- All models of an average have its layout. -/
theorem layout_of_average {models : List (WorkerId × Params α)} (hs : KeySorted models)
    {weights : Option (Weights α)} {model : Params α}
    (h : average models weights = .ok (some model)) :
    ∀ e ∈ models, e.2.layout = model.layout := by
  have hentries := Dict.entries_ofList hs
  match models with
  | [] => simp
  | [(v, first)] =>
    rw [average_of_single hentries] at h
    cases h
    simp
  | (v, first) :: e :: others =>
    rcases average_of_many weights hentries with
      ⟨cause, hcause⟩ | ⟨hall, model', hmodel, hlayout⟩
    · cases hcause.symm.trans h
    · cases hmodel.symm.trans h
      rw [hlayout]
      exact List.forall_mem_cons.2 ⟨rfl, hall⟩

end Params

end Federated
