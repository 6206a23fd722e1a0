/-
  Federated.Proofs.Model.Layout

  The layout of parameters as a value: their names with their shapes.

    * `layoutMismatch?_eq_none_iff` — the comparison finds nothing exactly between equal layouts.
    * `assign_eq`, `assign_eq_ok_iff` — parameters can be taken over exactly from an equal layout,
      and are taken over whole.
    * `layout_of_traverse` — what is computed parameter by parameter in unchanged shapes has the
      layout it was computed from.
-/
import Federated.Model.Affine
import Federated.Proofs.Basic

namespace Federated

variable {α β ε : Type}

/-! ## Layouts -/

/-- The names of parameters with their shapes. -/
def Params.layout (p : Params α) : Dict String (List Nat) := p.tensors.mapValues fun _ t => t.shape

namespace Params

/-- The shape of a name in a layout is that of its tensor. -/
theorem find?_layout (p : Params α) (name : String) :
    p.layout.find? name = (p.find? name).map (·.shape) :=
  Dict.find?_mapValues p.tensors _ name

/-- Layouts are equal if they give every name the same shape. -/
theorem layout_eq_iff {p : Params α} {q : Params β} :
    p.layout = q.layout ↔
      ∀ name, (p.find? name).map (·.shape) = (q.find? name).map (·.shape) := by
  constructor
  · intro h name
    rw [← find?_layout, ← find?_layout, h]
  · intro h
    apply Dict.ext_find?
    intro name
    rw [find?_layout, find?_layout, h name]

/-- A parameter meets its counterpart exactly if there is one of the same shape. -/
theorem tensorMismatch?_eq_none_iff {theirs : Params α} {name : String} {t : Tensor α} :
    theirs.tensorMismatch? name t = none ↔ (theirs.find? name).map (·.shape) = some t.shape := by
  unfold tensorMismatch?
  cases theirs.find? name with
  | none => simp
  | some u => simp [eq_comm]

/-- The comparison of layouts finds nothing exactly if they are equal. -/
theorem layoutMismatch?_eq_none_iff {own theirs : Params α} :
    own.layoutMismatch? theirs = none ↔ own.layout = theirs.layout := by
  -- the first search goes through the own names, each with its tensor
  have hown : (own.tensors.entries.findSome? fun e => theirs.tensorMismatch? e.1 e.2) = none ↔
      ∀ name t, own.find? name = some t → (theirs.find? name).map (·.shape) = some t.shape := by
    simp only [← tensorMismatch?_eq_none_iff]
    exact Dict.findSome?_entries_eq_none_iff
  -- the second one looks for names that only the other side has
  have htheirs : (theirs.tensors.keys.find? fun name => !own.tensors.contains name) = none ↔
      ∀ name u, theirs.find? name = some u → (own.find? name).isSome := by
    rw [List.find?_eq_none]
    constructor
    · intro h name u hu
      have hkey : name ∈ theirs.tensors.keys :=
        List.mem_map.2 ⟨(name, u), Dict.mem_entries_iff.2 hu, rfl⟩
      simpa [Dict.contains, find?, Option.isSome_iff_ne_none] using h name hkey
    · intro h name hkey
      obtain ⟨⟨_, u⟩, hmem, rfl⟩ := List.mem_map.1 hkey
      simpa [Dict.contains, find?, Option.isSome_iff_ne_none] using
        h _ u (Dict.mem_entries_iff.1 hmem)
  rw [layout_eq_iff]
  unfold layoutMismatch?
  constructor
  · intro h name
    split at h
    · cases h
    · next hnone =>
      have hsome := htheirs.1 (Option.map_eq_none_iff.1 h)
      -- a name on the own side has its counterpart, and one that is not there is on neither side
      cases ho : own.find? name with
      | some t => exact (hown.1 hnone name t ho).symm
      | none =>
        cases ht : theirs.find? name with
        | none => rfl
        | some u => simpa [ho] using hsome name u ht
  · intro h
    have hnone := hown.2 fun name t ht => by rw [← h name, ht]; rfl
    have hsome := htheirs.2 fun name u hu => by
      have := h name
      rw [hu, Option.map_some, Option.map_eq_some_iff] at this
      obtain ⟨t, ht, -⟩ := this
      simp [ht]
    rw [hnone, hsome]
    rfl

/-- Parameters can be paired exactly if their layouts are equal. -/
theorem paired_eq_ok_iff {own theirs : Params α} {pairs : Dict String (Tensor α × Tensor α)} :
    own.paired theirs = .ok pairs ↔ own.layout = theirs.layout ∧
      pairs = own.tensors.mapValues fun name t => (t, (theirs.find? name).getD t) := by
  unfold paired
  cases hm : own.layoutMismatch? theirs with
  | none => simp [layoutMismatch?_eq_none_iff.1 hm, eq_comm]
  | some m =>
    have hne : own.layout ≠ theirs.layout := fun h => by
      rw [layoutMismatch?_eq_none_iff.2 h] at hm
      cases hm
    simp [hne]

/-- From an equal layout every name finds its counterpart. -/
theorem mapValues_counterpart {own theirs : Params α} (h : own.layout = theirs.layout) :
    (own.tensors.mapValues fun name t => (t, (theirs.find? name).getD t)).mapValues
      (fun _ pair => pair.2) = theirs.tensors := by
  apply Dict.ext_find?
  intro name
  have hname := layout_eq_iff.1 h name
  rw [Dict.find?_mapValues, Dict.find?_mapValues]
  change ((own.find? name).map _).map _ = theirs.find? name
  cases ho : own.find? name with
  | none =>
    rw [ho] at hname
    exact (Option.map_eq_none_iff.1 hname.symm).symm
  | some t =>
    rw [ho, Option.map_some, eq_comm, Option.map_eq_some_iff] at hname
    obtain ⟨u, hu, -⟩ := hname
    simp [hu]

/-- Parameters are taken over whole, or the first difference of the layouts is reported. -/
theorem assign_eq (own theirs : Params α) :
    own.assign theirs = match own.layoutMismatch? theirs with
      | none => .ok theirs
      | some m => .error m := by
  unfold assign paired
  cases hm : own.layoutMismatch? theirs with
  | none =>
    exact congrArg (fun tensors => Except.ok (Params.mk tensors))
      (mapValues_counterpart (layoutMismatch?_eq_none_iff.1 hm))
  | some m => rfl

/-- Parameters can be taken over exactly from an equal layout, and are taken over whole. -/
theorem assign_eq_ok_iff {own theirs p : Params α} :
    own.assign theirs = .ok p ↔ own.layout = theirs.layout ∧ p = theirs := by
  rw [assign_eq, ← layoutMismatch?_eq_none_iff]
  cases own.layoutMismatch? theirs with
  | none => simp [eq_comm]
  | some m => simp

end Params

/-! ## Computed parameters -/

section
variable {κ ν μ ρ : Type} {f : κ → ν → Except ε μ} {after : κ → μ → ρ} {before : κ → ν → ρ}

theorem map_of_traverseEntries (hf : ∀ k v v', f k v = .ok v' → after k v' = before k v)
    {es : List (κ × ν)} {es' : List (κ × μ)} (h : Dict.traverseEntries f es = .ok es') :
    es'.map (fun e => (e.1, after e.1 e.2)) = es.map fun e => (e.1, before e.1 e.2) := by
  induction es generalizing es' with
  | nil =>
    cases h
    rfl
  | cons e es ih =>
    unfold Dict.traverseEntries at h
    cases hv : f e.1 e.2 with
    | error x =>
      rw [hv] at h
      cases h
    | ok v' =>
      rw [hv] at h
      cases hr : Dict.traverseEntries f es with
      | error x =>
        rw [hr] at h
        cases h
      | ok rest =>
        rw [hr] at h
        cases h
        simp [ih hr, hf e.1 e.2 v' hv]

/-- Views of computed values that can be had from the values they are computed from make the
    same dictionary on both sides. -/
theorem Dict.mapValues_of_traverse [Ord κ] {d : Dict κ ν} {d' : Dict κ μ}
    (h : d.traverse f = .ok d') (hf : ∀ k v v', f k v = .ok v' → after k v' = before k v) :
    d'.mapValues after = d.mapValues before := by
  have hentries := map_of_traverseEntries hf (Dict.traverse_eq_ok_iff.1 h)
  unfold mapValues
  congr 1

end

/-- What is computed parameter by parameter in unchanged shapes has the layout it was computed
    from. -/
theorem Params.layout_of_traverse {ν μ : Type} {f : String → ν → Except ε μ} {d : Dict String ν}
    {d' : Dict String μ} {tensor : μ → Tensor α} {start : ν → Tensor α}
    (h : d.traverse f = .ok d')
    (hf : ∀ name v v', f name v = .ok v' → (tensor v').shape = (start v).shape) :
    (⟨d'.mapValues fun _ v => tensor v⟩ : Params α).layout =
      (⟨d.mapValues fun _ v => start v⟩ : Params α).layout := by
  have hmap : ∀ {ν : Type} (e : Dict String ν) (g : ν → Tensor α),
      (⟨e.mapValues fun _ v => g v⟩ : Params α).layout = e.mapValues fun _ v => (g v).shape := by
    intro ν e g
    apply Dict.ext_find?
    intro name
    simp only [layout, Dict.find?_mapValues, Option.map_map]
    rfl
  rw [hmap, hmap]
  exact Dict.mapValues_of_traverse h hf

/-! ## Tensors -/

theorem le_elementCount {shape : List Nat} (h : ∀ n ∈ shape, 0 < n) {n : Nat} (hn : n ∈ shape) :
    n ≤ elementCount shape :=
  Nat.le_of_dvd (List.prod_pos h) (List.dvd_prod hn)

/-- No extent of a shape that can be stored is beyond the limit of their product. -/
theorem le_extentLimit_of_isStorable {shape : List Nat} (h : isStorable shape = true) :
    ∀ n ∈ shape, n ≤ extentLimit := by
  intro n hn
  rw [isStorable, Bool.and_eq_true, decide_eq_true_eq] at h
  by_cases hpos : 0 < n
  · have hmem : n ∈ shape.filter (0 < ·) := List.mem_filter.2 ⟨hn, by simpa using hpos⟩
    have hle := le_elementCount (fun m hm => by simpa using (List.mem_filter.1 hm).2) hmem
    exact hle.trans h.1
  · omega

theorem Tensor.shape_map (f : α → β) (t : Tensor α) : (t.map f).shape = t.shape := rfl

/-- Two tensors can be combined exactly if their shapes are equal, which is that of the result. -/
theorem Tensor.shape_of_zipWith {γ : Type} {f : α → β → γ} {a : Tensor α} {b : Tensor β}
    {c : Tensor γ} (h : Tensor.zipWith f a b = .ok c) : c.shape = a.shape := by
  unfold zipWith at h
  split at h
  · cases h; rfl
  · cases h

/-! ## Models -/

/-- A model takes over exactly the parameters of its own layout, and nothing else of it
    changes. -/
theorem Affine.load_eq_ok_iff {m m' : Affine α} {params : Params α} :
    m.load params = .ok m' ↔ m.params.layout = params.layout ∧ m' = { m with params } := by
  unfold load
  cases ha : m.params.assign params with
  | error mismatch =>
    have hne : m.params.layout ≠ params.layout := fun h => by
      rw [Params.assign_eq_ok_iff.2 ⟨h, rfl⟩] at ha
      cases ha
    simp [hne]
  | ok p =>
    obtain ⟨hl, rfl⟩ := Params.assign_eq_ok_iff.1 ha
    simp [hl, eq_comm]

end Federated
