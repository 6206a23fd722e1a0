/-
  Federated.Proofs.Averaging.Reference

  The average of models said worker by worker and element by element, without a word of how it is
  computed, and that it does not depend on the order in which the models are listed.

    * `Params.Average` — what an average comes to, kind by kind and in order of precedence.
    * `Params.getElem?_weightedSum` — the elements of a weighted sum, one by one.
    * `Params.average_iff` — the average is what the rules say, and nothing else.
    * `Params.average_by_worker` — this in single precision, whatever the order of the list.
-/
import Federated.Proofs.Averaging.Merge
import Federated.Proofs.Averaging.Weights

namespace Federated

variable {α : Type}

namespace Params

/-! ## The rules -/

/-- One element of a parameter, by its place in row-major order. -/
def element? (p : Params α) (name : String) (i : Nat) : Option α :=
  (p.find? name).bind fun t => t.data[i]?

/-- The model that counts for a worker: the last one listed for it. -/
def listed? (models : List (WorkerId × Params α)) (w : WorkerId) : Option (Params α) :=
  (models.filter fun e => e.1 = w).getLast?.map (·.2)

/-- The workers that models are listed for, each once and in ascending order. -/
structure Lists (models : List (WorkerId × Params α)) (ids : List WorkerId) : Prop where
  ascending : ids.Pairwise fun v w => v.index < w.index
  mem : ∀ w, w ∈ ids ↔ w ∈ models.map (·.1)

/-- The models of all workers of a list have the layout of a given one. -/
def Agree (models : List (WorkerId × Params α)) (first : Params α) (ids : List WorkerId) : Prop :=
  ∀ w ∈ ids, ∃ model, listed? models w = some model ∧ model.layout = first.layout

variable [Scalar α]

/-- An element of a worker's model times the weight of the worker. -/
def term? (models : List (WorkerId × Params α)) (shares : Weights α) (name : String) (i : Nat)
    (w : WorkerId) : Option α := do
  let share ← shares.find? w
  let model ← listed? models w
  let x ← model.element? name i
  return share * x

/-- The sum of terms, added from the left. -/
def leftSum? : List α → Option α
  | [] => none
  | x :: xs => some (xs.foldl (· + ·) x)

/-- What the average of models comes to. A layout that differs comes before weights that are
    refused, and the least worker whose layout differs before all others. -/
inductive Average (models : List (WorkerId × Params α)) (weights : Option (Weights α)) :
    Except (AggregationError α) (Option (Params α)) → Prop
  /-- No models, no average. -/
  | nothing (empty : models = []) : Average models weights (.ok none)
  /-- The only model is taken as it is, whatever the weights. -/
  | single {w : WorkerId} {model : Params α} (ids : Lists models [w])
      (only : listed? models w = some model) : Average models weights (.ok (some model))
  /-- The layout of a worker differs from that of the least one. -/
  | foreign {v w : WorkerId} {before after : List WorkerId} {first model : Params α}
      {mismatch : LayoutMismatch} (ids : Lists models (v :: before ++ w :: after))
      (least : listed? models v = some first) (agree : Agree models first before)
      (other : listed? models w = some model)
      (differs : first.layoutMismatch? model = some mismatch) :
      Average models weights (.error (.layout w mismatch))
  /-- The weights cannot be restricted to the workers. -/
  | refused {v w : WorkerId} {rest : List WorkerId} {first : Params α}
      {cause : AggregationError α} (ids : Lists models (v :: w :: rest))
      (least : listed? models v = some first) (agree : Agree models first (w :: rest))
      (refusal : (weights.getD (Weights.uniform (v :: w :: rest))).restrict (v :: w :: rest) =
        .error cause) : Average models weights (.error cause)
  /-- Every element is the sum of its weighted terms by ascending worker. -/
  | merged {v w : WorkerId} {rest : List WorkerId} {first model : Params α} {shares : Weights α}
      (ids : Lists models (v :: w :: rest)) (least : listed? models v = some first)
      (agree : Agree models first (w :: rest))
      (restricted : (weights.getD (Weights.uniform (v :: w :: rest))).restrict (v :: w :: rest) =
        .ok shares)
      (layout : model.layout = first.layout)
      (elements : ∀ name i, model.element? name i =
        ((v :: w :: rest).mapM (term? models shares name i)).bind leftSum?) :
      Average models weights (.ok (some model))

/-! ## Listed models -/

section
omit [Scalar α]
variable {models : List (WorkerId × Params α)}

theorem find?_ofList (models : List (WorkerId × Params α)) (w : WorkerId) :
    (Dict.ofList models).find? w = listed? models w := Dict.find?_ofList models w

theorem lists_keys (models : List (WorkerId × Params α)) :
    Lists models (Dict.ofList models).keys :=
  ⟨Dict.ascending_keys _, fun _ => Dict.mem_keys_iff.trans Dict.isSome_find?_ofList⟩

/-- There is one such list of workers. -/
theorem Lists.eq_keys {ids : List WorkerId} (h : Lists models ids) :
    (Dict.ofList models).keys = ids :=
  WorkerId.eq_of_ascending (lists_keys models).ascending h.ascending
    fun w => ((lists_keys models).mem w).trans (h.mem w).symm

/-- What is bound for a worker is what counts for it. -/
theorem listed?_entries (models : List (WorkerId × Params α)) :
    ∀ e ∈ (Dict.ofList models).entries, listed? models e.1 = some e.2 := by
  rintro ⟨w, p⟩ hmem
  rw [← find?_ofList]
  exact Dict.mem_entries_iff.1 hmem

theorem Lists.entries {v : WorkerId} {ids : List WorkerId} {first : Params α}
    (h : Lists models (v :: ids)) (least : listed? models v = some first) :
    ∃ others, (Dict.ofList models).entries = (v, first) :: others ∧ others.map (·.1) = ids ∧
      ∀ e ∈ others, listed? models e.1 = some e.2 := by
  have hkeys : (Dict.ofList models).entries.map (·.1) = v :: ids := h.eq_keys
  obtain ⟨⟨w, p⟩, others, hentries, rfl, hothers⟩ := List.map_eq_cons_iff.1 hkeys
  obtain ⟨hw, hlisted⟩ := List.forall_mem_cons.1 (hentries ▸ listed?_entries models)
  obtain rfl : p = first := Option.some.inj (hw.symm.trans least)
  exact ⟨others, hentries, hothers, hlisted⟩

end

/-! ## Elements -/

omit [Scalar α] in
/-- Parameters of one layout are equal if all their elements are. -/
theorem ext_elements {p q : Params α} (hl : p.layout = q.layout)
    (he : ∀ name i, p.element? name i = q.element? name i) : p = q := by
  have hfind : ∀ name, p.find? name = q.find? name := by
    intro name
    have hshape := layout_eq_iff.1 hl name
    have helem := he name
    simp only [element?] at helem
    cases hp : p.find? name with
    | none =>
      rw [hp] at hshape
      exact (Option.map_eq_none_iff.1 hshape.symm).symm
    | some t =>
      rw [hp, Option.map_some, eq_comm, Option.map_eq_some_iff] at hshape
      obtain ⟨u, hq, hshape⟩ := hshape
      rw [hp, hq] at helem
      obtain ⟨shape, data, size⟩ := t
      obtain ⟨shape', data', size'⟩ := u
      obtain rfl : shape' = shape := hshape
      obtain rfl : data = data' := Array.ext_getElem? helem
      exact hq.symm
  obtain ⟨tensors⟩ := p
  obtain ⟨tensors'⟩ := q
  exact congrArg Params.mk (Dict.ext_find? hfind)

/-- What adding a multiple of a tensor does to each element. -/
theorem getElem?_addScaled {acc t : Tensor α} (h : t.shape = acc.shape) (c : α) (i : Nat) :
    (acc.addScaled c t).data[i]? =
      acc.data[i]?.bind fun a => (t.data[i]?).map fun x => a + c * x := by
  have hzip : Tensor.zipWith (fun a x => a + c * x) acc t = .ok ⟨acc.shape,
      Array.zipWith (fun a x => a + c * x) acc.data t.data, by
        simp [acc.size_eq, t.size_eq, h]⟩ := dif_pos h.symm
  rw [Tensor.addScaled, hzip]
  show (Array.zipWith (fun a x => a + c * x) acc.data t.data)[i]? = _
  rw [Array.getElem?_zipWith]
  cases acc.data[i]? <;> cases t.data[i]? <;> rfl

/-- An element of a model times the weight of the model. -/
def scaledElement? (name : String) (i : Nat) (e : α × Params α) : Option α :=
  (e.2.element? name i).map (e.1 * ·)

/-- A sum with the share of one more model added. -/
def addShare (name : String) (acc : Tensor α) (e : α × Params α) : Tensor α :=
  match e.2.find? name with
  | some t => acc.addScaled e.1 t
  | none => acc

/-- Adding models one after another adds their scaled elements one after another. -/
theorem getElem?_foldl_addShare (name : String) (i : Nat) {others : List (α × Params α)}
    {acc : Tensor α}
    (h : ∀ e ∈ others, ∃ t, e.2.find? name = some t ∧ t.shape = acc.shape) :
    (others.foldl (addShare name) acc).data[i]? = acc.data[i]?.bind fun a =>
      (others.mapM (scaledElement? name i)).map fun xs => xs.foldl (· + ·) a := by
  induction others generalizing acc with
  | nil =>
    rw [List.foldl_nil, List.mapM_nil]
    cases acc.data[i]? <;> rfl
  | cons e others ih =>
    obtain ⟨⟨t, hfind, hshape⟩, hothers⟩ := List.forall_mem_cons.1 h
    have hadd : addShare name acc e = acc.addScaled e.1 t := by rw [addShare, hfind]
    have helement : scaledElement? name i e = (t.data[i]?).map (e.1 * ·) := by
      rw [scaledElement?, element?, hfind]
      rfl
    -- the sum so far has kept its shape, so the others still fit
    have hkept := Tensor.shape_addScaled acc e.1 t
    rw [List.foldl_cons, hadd, ih fun d hd => by rw [hkept]; exact hothers d hd,
      getElem?_addScaled hshape, List.mapM_cons, helement]
    cases acc.data[i]? with
    | none => rfl
    | some a =>
      cases t.data[i]? with
      | none => rfl
      | some x => cases others.mapM (scaledElement? name i) <;> rfl

/-- The elements of a weighted sum. -/
theorem getElem?_weightedSum (name : String) (i : Nat) (w : α) {first : Tensor α}
    {others : List (α × Params α)}
    (h : ∀ e ∈ others, ∃ t, e.2.find? name = some t ∧ t.shape = first.shape) :
    (weightedSum name w first others).data[i]? = first.data[i]?.bind fun x =>
      (others.mapM (scaledElement? name i)).map fun xs => xs.foldl (· + ·) (x * w) := by
  have hfit : ∀ e ∈ others, ∃ t, e.2.find? name = some t ∧
      t.shape = (first.map fun x => x * w).shape := h
  have hsum : weightedSum name w first others =
      others.foldl (addShare name) (first.map fun x => x * w) := rfl
  have hfirst : (first.map fun x => x * w).data[i]? = (first.data[i]?).map (· * w) :=
    Array.getElem?_map
  rw [hsum, getElem?_foldl_addShare name i hfit, hfirst]
  cases first.data[i]? <;> rfl

/-! ## The average meets the rules -/

theorem mapM_congr {β γ : Type} {f g : β → Option γ} {l : List β} (h : ∀ x ∈ l, f x = g x) :
    l.mapM f = l.mapM g := by
  induction l with
  | nil => rfl
  | cons x l ih =>
    obtain ⟨hx, hl⟩ := List.forall_mem_cons.1 h
    rw [List.mapM_cons, List.mapM_cons, hx, ih hl]

section
variable {models : List (WorkerId × Params α)} {shares : Weights α} {v : WorkerId}
  {first : Params α} {others : List (WorkerId × Params α)}

theorem term?_of_listed {w : WorkerId} {model : Params α} (hw : listed? models w = some model)
    (hs : ∃ x, shares.find? w = some x) (name : String) (i : Nat) :
    term? models shares name i w = scaledElement? name i (shareOf shares w, model) := by
  obtain ⟨x, hx⟩ := hs
  rw [term?, scaledElement?, shareOf, hx, hw]
  show (model.element? name i >>= fun y => some (x * y)) = (model.element? name i).map (x * ·)
  cases model.element? name i <;> rfl

/-- The elements of a merge are sums of terms. -/
theorem element?_merged (hcomm : ∀ x y : α, x * y = y * x) (least : listed? models v = some first)
    (hothers : ∀ d ∈ others, listed? models d.1 = some d.2)
    (hlayout : ∀ d ∈ others, d.2.layout = first.layout)
    (hshares : ∀ w ∈ v :: others.map (·.1), ∃ x, shares.find? w = some x)
    (name : String) (i : Nat) :
    (⟨first.tensors.mapValues fun name t => weightedSum name (shareOf shares v) t
      (others.map fun d => (shareOf shares d.1, d.2))⟩ : Params α).element? name i =
      ((v :: others.map (·.1)).mapM (term? models shares name i)).bind leftSum? := by
  obtain ⟨hv, hrest⟩ := List.forall_mem_cons.1 hshares
  have hterms : (others.map (·.1)).mapM (term? models shares name i) =
      (others.map fun d => (shareOf shares d.1, d.2)).mapM (scaledElement? name i) := by
    rw [List.mapM_map, List.mapM_map]
    exact mapM_congr fun d hd =>
      term?_of_listed (hothers d hd) (hrest d.1 (List.mem_map_of_mem hd)) name i
  rw [List.mapM_cons, term?_of_listed least hv, hterms, scaledElement?]
  generalize shareOf shares v = share
  have hfind : (⟨first.tensors.mapValues fun name t => weightedSum name share t
      (others.map fun d => (shareOf shares d.1, d.2))⟩ : Params α).find? name =
      (first.find? name).map fun t => weightedSum name share t
        (others.map fun d => (shareOf shares d.1, d.2)) := Dict.find?_mapValues _ _ _
  rw [element?, element?, hfind]
  cases hfirst : first.find? name with
  | none => rfl
  | some t =>
    -- all models have the parameter in the same shape, so that no term is left out
    have hfit : ∀ e ∈ others.map (fun d => (shareOf shares d.1, d.2)),
        ∃ u, e.2.find? name = some u ∧ u.shape = t.shape := by
      intro e he
      obtain ⟨d, hd, rfl⟩ := List.mem_map.1 he
      have hname := layout_eq_iff.1 (hlayout d hd) name
      rw [hfirst, Option.map_some, Option.map_eq_some_iff] at hname
      exact hname
    rw [Option.map_some, Option.bind_some, Option.bind_some, getElem?_weightedSum name i share hfit]
    cases t.data[i]? with
    | none => rfl
    | some x =>
      rw [Option.bind_some, hcomm x share]
      cases (others.map fun d => (shareOf shares d.1, d.2)).mapM (scaledElement? name i) <;> rfl

end

/-- What the rules say of a list of models that is not empty, in terms of what is bound. -/
theorem average_spec_cons (hcomm : ∀ x y : α, x * y = y * x) {weights : Option (Weights α)}
    {models : List (WorkerId × Params α)} {v : WorkerId} {first : Params α}
    {others : List (WorkerId × Params α)}
    (hentries : (Dict.ofList models).entries = (v, first) :: others) :
    Average models weights (average models weights) := by
  have hkeys : (Dict.ofList models).keys = v :: others.map (·.1) := by rw [Dict.keys, hentries]; rfl
  have hids : Lists models (v :: others.map (·.1)) := hkeys ▸ lists_keys models
  obtain ⟨least, hothers⟩ := List.forall_mem_cons.1 (hentries ▸ listed?_entries models)
  cases others with
  | nil =>
    rw [average_of_single hentries]
    exact .single hids least
  | cons e others =>
    cases hf : first.foreignLayout? (e :: others) with
    | some cause =>
      rw [average_of_foreign hentries hf]
      obtain ⟨before, d, after, hsplit, hd, hbefore⟩ := List.findSome?_eq_some_iff.1 hf
      obtain ⟨mismatch, differs, rfl⟩ := Option.map_eq_some_iff.1 hd
      rw [hsplit] at hids hothers
      rw [List.map_append, List.map_cons] at hids
      refine .foreign hids least (fun w hw => ?_) (hothers d (by simp)) differs
      obtain ⟨u, hu, rfl⟩ := List.mem_map.1 hw
      have hnone := Option.map_eq_none_iff.1 (hbefore u hu)
      exact ⟨u.2, hothers u (by simp [hu]), (layoutMismatch?_eq_none_iff.1 hnone).symm⟩
    | none =>
      have hlayout := foreignLayout?_eq_none_iff.1 hf
      have hagree : Agree models first ((e :: others).map (·.1)) := by
        intro w hw
        obtain ⟨d, hd, rfl⟩ := List.mem_map.1 hw
        exact ⟨d.2, hothers d hd, hlayout d hd⟩
      cases hr : (weights.getD (Weights.uniform (Dict.ofList models).keys)).restrict
          (Dict.ofList models).keys with
      | error cause =>
        rw [average_of_refused hentries hf hr]
        rw [hkeys] at hr
        exact .refused hids least hagree hr
      | ok shares =>
        rw [average_of_shares hentries hf hr]
        rw [hkeys] at hr
        refine .merged hids least hagree hr (layout_weightedSum first _ _) ?_
        exact element?_merged hcomm least hothers hlayout fun w hw =>
          Weights.find?_of_restrict hr hw

/-- The average is what the rules say, -/
theorem average_spec (hcomm : ∀ x y : α, x * y = y * x) (models : List (WorkerId × Params α))
    (weights : Option (Weights α)) : Average models weights (average models weights) := by
  cases hentries : (Dict.ofList models).entries with
  | nil =>
    have hempty : models = [] := by
      have hkeys := (lists_keys models).mem
      rw [Dict.keys, hentries] at hkeys
      cases models with
      | nil => rfl
      | cons e rest => exact absurd ((hkeys e.1).2 List.mem_cons_self) List.not_mem_nil
    subst hempty
    exact .nothing rfl
  | cons head others => exact average_spec_cons hcomm hentries

omit [Scalar α] in
theorem Agree.layout {models : List (WorkerId × Params α)} {first : Params α}
    {ids : List WorkerId} (h : Agree models first ids) {d : WorkerId × Params α}
    (hd : listed? models d.1 = some d.2) (hmem : d.1 ∈ ids) : d.2.layout = first.layout := by
  obtain ⟨model, hmodel, hlayout⟩ := h d.1 hmem
  obtain rfl : d.2 = model := Option.some.inj (hd.symm.trans hmodel)
  exact hlayout

/-- and the rules say nothing else. -/
theorem Average.average_eq (hcomm : ∀ x y : α, x * y = y * x)
    {models : List (WorkerId × Params α)} {weights : Option (Weights α)}
    {r : Except (AggregationError α) (Option (Params α))} (h : Average models weights r) :
    average models weights = r := by
  cases h with
  | nothing empty =>
    subst empty
    rfl
  | single ids only =>
    obtain ⟨others, hentries, hkeys, -⟩ := ids.entries only
    obtain rfl := List.map_eq_nil_iff.1 hkeys
    exact average_of_single hentries
  | @foreign v w before after first model mismatch ids least agree other differs =>
    obtain ⟨others, hentries, hkeys, hlisted⟩ := ids.entries least
    obtain ⟨here, there, rfl, rfl, hthere⟩ := List.map_eq_append_iff.1 hkeys
    obtain ⟨⟨w', p⟩, there, rfl, rfl, -⟩ := List.map_eq_cons_iff.1 hthere
    obtain rfl : p = model :=
      Option.some.inj ((hlisted (w', p) (by simp)).symm.trans other)
    -- the search passes over the models that agree and stops at this one
    have hf : first.foreignLayout? (here ++ (w', p) :: there) = some (.layout w' mismatch) := by
      refine List.findSome?_eq_some_iff.2 ⟨here, (w', p), there, rfl, ?_, fun d hd => ?_⟩
      · rw [differs]
        rfl
      · rw [Option.map_eq_none_iff, layoutMismatch?_eq_none_iff]
        exact (agree.layout (hlisted d (by simp [hd])) (List.mem_map_of_mem hd)).symm
    obtain ⟨e, others, hcons⟩ := List.exists_cons_of_ne_nil
      (show here ++ (w', p) :: there ≠ [] by simp)
    rw [hcons] at hentries hf
    exact average_of_foreign hentries hf
  | @refused v w rest first cause ids least agree refusal =>
    obtain ⟨others, hentries, hkeys, hlisted⟩ := ids.entries least
    obtain ⟨e, others, rfl, rfl, rfl⟩ := List.map_eq_cons_iff.1 hkeys
    have hf : first.foreignLayout? (e :: others) = none := foreignLayout?_eq_none_iff.2
      fun d hd => agree.layout (hlisted d hd) (List.mem_map_of_mem hd)
    rw [← ids.eq_keys] at refusal
    exact average_of_refused hentries hf refusal
  | @merged v w rest first model shares ids least agree restricted layout elements =>
    obtain ⟨others, hentries, hkeys, hlisted⟩ := ids.entries least
    obtain ⟨e, others, rfl, rfl, rfl⟩ := List.map_eq_cons_iff.1 hkeys
    have hlayout : ∀ d ∈ e :: others, d.2.layout = first.layout :=
      fun d hd => agree.layout (hlisted d hd) (List.mem_map_of_mem hd)
    have hshares : ∀ u ∈ v :: (e :: others).map (·.1), ∃ x, shares.find? u = some x :=
      fun u hu => Weights.find?_of_restrict restricted hu
    rw [← ids.eq_keys] at restricted
    rw [average_of_shares hentries (foreignLayout?_eq_none_iff.2 hlayout) restricted]
    -- a model is its layout and its elements, and both are given
    refine congrArg (Except.ok ∘ some) (ext_elements ?_ fun name i => ?_)
    · exact (layout_weightedSum first _ _).trans layout.symm
    · rw [elements]
      exact element?_merged hcomm least hlisted hlayout hshares name i

/-- The average is exactly what the rules say. -/
theorem average_iff (hcomm : ∀ x y : α, x * y = y * x) {models : List (WorkerId × Params α)}
    {weights : Option (Weights α)} {r : Except (AggregationError α) (Option (Params α))} :
    average models weights = r ↔ Average models weights r :=
  ⟨fun h => h ▸ average_spec hcomm models weights, Average.average_eq hcomm⟩

/-! ## The order of the list -/

section
variable {models models' : List (WorkerId × Params α)}

omit [Scalar α] in
/-- Of a worker that is listed once, that one model counts. -/
theorem listed?_eq_some_iff (hnodup : (models.map (·.1)).Nodup) {w : WorkerId}
    {model : Params α} : listed? models w = some model ↔ (w, model) ∈ models := by
  have hmem : ∀ {p}, listed? models w = some p → (w, p) ∈ models := by
    intro p hp
    obtain ⟨⟨v, q⟩, hlast, rfl⟩ := Option.map_eq_some_iff.1 hp
    obtain ⟨hin, hv⟩ := List.mem_filter.1 (List.mem_of_getLast? hlast)
    obtain rfl : v = w := of_decide_eq_true hv
    exact hin
  refine ⟨hmem, fun hin => ?_⟩
  have hsome : ((Dict.ofList models).find? w).isSome = true :=
    Dict.isSome_find?_ofList.2 (List.mem_map_of_mem hin)
  obtain ⟨p, hp⟩ := Option.isSome_iff_exists.1 hsome
  rw [find?_ofList] at hp
  have heq : (w, p) = (w, model) := List.inj_on_of_nodup_map hnodup (hmem hp) hin rfl
  rw [hp, (Prod.mk.inj heq).2]

/-- Models of different workers have the same average in whatever order they are listed. -/
theorem average_perm (hnodup : (models.map (·.1)).Nodup) (hperm : models'.Perm models)
    (weights : Option (Weights α)) : average models' weights = average models weights := by
  have hnodup' : (models'.map (·.1)).Nodup := (hperm.map _).nodup_iff.2 hnodup
  have hsame : Dict.ofList models' = Dict.ofList models := by
    refine Dict.ext_find? fun w => Option.ext fun p => ?_
    rw [find?_ofList, find?_ofList, listed?_eq_some_iff hnodup', listed?_eq_some_iff hnodup]
    exact hperm.mem_iff
  rw [average, average, hsame]

end

/-- The average of models in single precision, for every list of models and all weights: it is
    none without models, the only model unchanged, the refusal of the least worker whose layout
    differs, the refusal of the weights, or the model whose elements are the sums of the weighted
    elements by ascending worker; and it is nothing else. So models of different workers have the
    same average, to the last bit, in whatever order they are listed. -/
theorem average_by_worker (models : List (WorkerId × Params Float32))
    (weights : Option (Weights Float32)) :
    (∀ r, average models weights = r ↔ Average models weights r) ∧
      ((models.map (·.1)).Nodup → ∀ models' : List (WorkerId × Params Float32),
        models'.Perm models → average models' weights = average models weights) :=
  ⟨fun _ => average_iff Single.mul_comm,
    fun hnodup _ hperm => average_perm hnodup hperm weights⟩

/-- Three workers of different weights, listed from the last to the first and from the second on:
    both lists have the one average that the rules give. -/
theorem average_by_worker_three :
    let model (n : Nat) : Params Float32 :=
      .ofList [("bias", Tensor.replicate [2] (Scalar.ofCount n)), ("weight", Tensor.zeros [1, 2])]
    let weights : Weights Float32 := Weights.proportional [(⟨0⟩, 3), (⟨1⟩, 1), (⟨2⟩, 7)]
    let models : List (WorkerId × Params Float32) :=
      [(⟨2⟩, model 5), (⟨1⟩, model 0), (⟨0⟩, model 3)]
    let models' : List (WorkerId × Params Float32) :=
      [(⟨1⟩, model 0), (⟨0⟩, model 3), (⟨2⟩, model 5)]
    (models.map (·.1)).Nodup ∧ models'.Perm models ∧
      ∃ merged, average models' (some weights) = .ok (some merged) ∧
        average models (some weights) = .ok (some merged) ∧
        Average models (some weights) (.ok (some merged)) := by
  intro model weights models models'
  have hnodup : (models.map (·.1)).Nodup := by decide
  have hperm : models'.Perm models := by
    show (models.drop 1 ++ models.take 1).Perm (models.take 1 ++ models.drop 1)
    exact List.perm_append_comm
  obtain ⟨hrules, horder⟩ := average_by_worker models (some weights)
  have hsome : ((average models (some weights)).toOption.bind id).isSome = true := by
    decide +kernel
  obtain ⟨merged, hmerged⟩ := Option.isSome_iff_exists.1 hsome
  have haverage : average models (some weights) = .ok (some merged) := by
    cases h : average models (some weights) with
    | error cause =>
      rw [h] at hmerged
      cases hmerged
    | ok found =>
      rw [h] at hmerged
      exact congrArg Except.ok hmerged
  exact ⟨hnodup, hperm, merged, (horder hnodup models' hperm).trans haverage, haverage,
    (hrules _).1 haverage⟩

end Params

end Federated
