/-
  Federated.Proofs.Optimizer.InPlace

  An update as it is carried out on an optimizer and on parameters in use: layouts are compared,
  powers are advanced, and then one parameter after another is visited, a buffer created for it if
  it has none, and written over. A visit that fails undoes nothing of what has been written before.
  `Optimizer.update` says in one go what such an update comes to.

    * `UpdateRule` — what the optimizers do differently; all else of an update is shared.
    * `UpdateRule.updateInPlace`, `Optimizer.updateInPlace` — the steps of an update.
    * `UpdateRule.Ends` — how steps on a state end: a refusal has written nothing.
    * `run_updateInPlace` — an update ends so by what `update` says.
-/
import Federated.Proofs.Model.Layout
import Federated.Optimizer.Basic

namespace Federated

variable {α σ κ : Type}

/-! ## Parameters and gradients side by side -/

namespace Params

variable {params gradient : Params α}

/-- Each parameter beside the gradient of its name. -/
def beside (params gradient : Params α) : Dict String (Tensor α × Tensor α) :=
  params.tensors.mapValues fun name t => (t, (gradient.find? name).getD t)

theorem paired_of_layout (h : params.layout = gradient.layout) :
    params.paired gradient = .ok (params.beside gradient) :=
  paired_eq_ok_iff.2 ⟨h, rfl⟩

/-- Under a name there is nothing on either side, or else a parameter and its gradient, of one
    shape. -/
theorem find?_beside (h : params.layout = gradient.layout) (name : String) :
    ((params.beside gradient).find? name = none ∧ params.find? name = none ∧
        gradient.find? name = none) ∨
      ∃ p g, (params.beside gradient).find? name = some (p, g) ∧ params.find? name = some p ∧
        gradient.find? name = some g ∧ g.shape = p.shape := by
  have hname := layout_eq_iff.1 h name
  have hbeside : (params.beside gradient).find? name =
      (params.find? name).map fun t => (t, (gradient.find? name).getD t) :=
    Dict.find?_mapValues params.tensors _ name
  cases hp : params.find? name with
  | none =>
    rw [hp] at hname hbeside
    exact .inl ⟨hbeside, rfl, Option.map_eq_none_iff.1 hname.symm⟩
  | some p =>
    rw [hp, Option.map_some, eq_comm, Option.map_eq_some_iff] at hname
    obtain ⟨g, hg, hshape⟩ := hname
    rw [hp, hg] at hbeside
    exact .inr ⟨p, g, hbeside, rfl, hg, hshape⟩

/-- So each pair is a parameter and its gradient. -/
theorem of_mem_beside (h : params.layout = gradient.layout) {name : String} {p g : Tensor α}
    (he : (name, (p, g)) ∈ (params.beside gradient).entries) :
    params.find? name = some p ∧ gradient.find? name = some g ∧ g.shape = p.shape := by
  have hfind := Dict.mem_entries_iff.1 he
  obtain ⟨hnone, -, -⟩ | ⟨_, _, hsome, hp, hg, hshape⟩ := find?_beside h name
  · rw [hnone] at hfind
    cases hfind
  · obtain ⟨rfl, rfl⟩ := Prod.mk.inj (Option.some.inj (hsome.symm.trans hfind))
    exact ⟨hp, hg, hshape⟩

end Params

/-! ## Rules of updates -/

/-- How an optimizer with state `σ` updates parameters one by one; `κ` is what it keeps of each. -/
structure UpdateRule (σ κ α : Type) where
  /-- What is done before any parameter is visited. -/
  advance : σ → σ
  /-- Creates what is kept of a parameter, if it is met for the first time. -/
  prepare : σ → String → Tensor α → σ
  /-- What becomes of a parameter by its gradient, and what is kept of that. -/
  step : σ → String → Tensor α → Tensor α → Except Defect (Tensor α × κ)
  keep : σ → String → κ → σ

/-! ## The three rules -/

section
variable [Scalar α]

def Descent.rule : UpdateRule (Descent α) Unit α where
  advance o := o
  prepare o _ _ := o
  step o _ p g := (o.step p g).map (·, ())
  keep o _ _ := o

def Momentum.rule : UpdateRule (Momentum α) (Tensor α) α where
  advance o := o
  prepare o name g :=
    let start := (o.velocity.find? name).getD (Tensor.zeros g.shape)
    { o with velocity := o.velocity.insert name start }
  step o := o.step
  keep o name v := { o with velocity := o.velocity.insert name v }

def Adam.rule : UpdateRule (Adam α) (Moments α) α where
  advance := Adam.advance
  prepare o name g :=
    let start := (o.moments.find? name).getD ⟨Tensor.zeros g.shape, Tensor.zeros g.shape⟩
    { o with moments := o.moments.insert name start }
  step o := o.step
  keep o name m := { o with moments := o.moments.insert name m }

end

namespace UpdateRule

/-! ## The steps of an update -/

/-- An optimizer at work, and the parameters it works on. -/
structure Site (σ α : Type) where
  state : σ
  params : Params α

/-- A state and parameters that have been computed. -/
def site (out : σ × Params α) : Unit × Site σ α := ((), ⟨out.1, out.2⟩)

/-- Steps on parameters in use. A failure ends them and leaves everything as it is by then. -/
abbrev InPlace (σ α : Type) : Type → Type := EStateM (Halt ModelError) (Site σ α)

variable (r : UpdateRule σ κ α) (gradient : Params α)

/-- Visits a parameter that has a gradient. -/
def visit (name : String) : InPlace σ α Unit := do
  let s ← get
  match s.params.find? name, gradient.find? name with
  | some p, some g =>
    let opened := r.prepare s.state name g
    set (⟨opened, s.params⟩ : Site σ α)
    let out ← ofExcept ((r.step opened name p g).mapError Halt.defect)
    set (⟨r.keep opened name out.2, s.params.insert name out.1⟩ : Site σ α)
  | _, _ => return ()

/-- Visits parameters one after another. -/
def visitEach : List String → InPlace σ α Unit
  | [] => return ()
  | name :: names => do
    visit r gradient name
    visitEach names

/-- An update. The layouts are compared before anything is written. -/
def updateInPlace : InPlace σ α Unit := do
  let s ← get
  if let some m := s.params.layoutMismatch? gradient then throw (.error (.layout m))
  set (⟨r.advance s.state, s.params⟩ : Site σ α)
  visitEach r gradient s.params.tensors.keys

/-- The same steps taken on a part of a larger state. -/
def zoom {τ : Type} (view : τ → Site σ α) (put : τ → Site σ α → τ) (job : InPlace σ α Unit) :
    EStateM (Halt ModelError) τ Unit := fun t =>
  match job.run (view t) with
  | .ok a s => .ok a (put t s)
  | .error e s => .error e (put t s)

/-- The same steps taken by an optimizer of one kind. -/
def within {τ : Type} (wrap : σ → τ) (o : σ) : InPlace σ α Unit → InPlace τ α Unit :=
  zoom (fun s => ⟨o, s.params⟩) fun _ s => ⟨wrap s.state, s.params⟩

/-! ## In one go -/

/-- All parameters stepped from the state at the start, and then everything kept. -/
def update (o : σ) (pairs : Dict String (Tensor α × Tensor α)) : Except Defect (σ × Params α) := do
  let stepped ← pairs.traverse fun name pair => r.step (r.advance o) name pair.1 pair.2
  return (stepped.entries.foldl (fun o e => r.keep o e.1 e.2.2) (r.advance o),
    ⟨stepped.mapValues fun _ s => s.1⟩)

/-- What makes the order of the visits immaterial: a step looks at nothing that is kept of other
    parameters, and what is created for a parameter is what the step takes where there is nothing.
    -/
structure Lawful : Prop where
  step_prepare : ∀ o name p g, r.step (r.prepare o name g) name p g = r.step o name p g
  keep_prepare : ∀ o name g k, r.keep (r.prepare o name g) name k = r.keep o name k
  step_keep : ∀ o name other k p g, name ≠ other →
    r.step (r.keep o other k) name p g = r.step o name p g

/-! ## One parameter after another -/

variable {r : UpdateRule σ κ α} {gradient params : Params α} {o : σ} {name : String}
  {p g moved : Tensor α}

theorem run_visit (lawful : r.Lawful) (hp : params.find? name = some p)
    (hg : gradient.find? name = some g) {k : κ} (hstep : r.step o name p g = .ok (moved, k)) :
    (r.visit gradient name).run ⟨o, params⟩ =
      .ok () ⟨r.keep o name k, params.insert name moved⟩ := by
  simp only [visit, EStateM.run_bind, EStateM.run_get, hp, hg, EStateM.run_set,
    lawful.step_prepare, hstep, Except.mapError, ofExcept, EStateM.run_pure, lawful.keep_prepare]

theorem run_visit_defect (lawful : r.Lawful) (hp : params.find? name = some p)
    (hg : gradient.find? name = some g) {d : Defect} (hstep : r.step o name p g = .error d) :
    ∃ s, (r.visit gradient name).run ⟨o, params⟩ = .error (.defect d) s := by
  simp only [visit, EStateM.run_bind, EStateM.run_get, hp, hg, EStateM.run_set,
    lawful.step_prepare, hstep, Except.mapError, ofExcept]
  exact ⟨_, rfl⟩

theorem traverseEntries_congr {ε ν μ : Type} {f f' : String → ν → Except ε μ}
    {es : List (String × ν)} (h : ∀ e ∈ es, f e.1 e.2 = f' e.1 e.2) :
    Dict.traverseEntries f es = Dict.traverseEntries f' es := by
  induction es with
  | nil => rfl
  | cons e es ih =>
    obtain ⟨he, hes⟩ := List.forall_mem_cons.1 h
    rw [Dict.traverseEntries, Dict.traverseEntries, he, ih hes]

/-- Parameters visited one after another are stepped all from the state at the start. -/
theorem run_visitEach (lawful : r.Lawful) {es : List (String × (Tensor α × Tensor α))}
    (hnodup : (es.map (·.1)).Nodup)
    (hes : ∀ e ∈ es, params.find? e.1 = some e.2.1 ∧ gradient.find? e.1 = some e.2.2) :
    match Dict.traverseEntries (fun name pair => r.step o name pair.1 pair.2) es with
    | .ok stepped => (r.visitEach gradient (es.map (·.1))).run ⟨o, params⟩ =
        .ok () ⟨stepped.foldl (fun o e => r.keep o e.1 e.2.2) o,
          stepped.foldl (fun p e => p.insert e.1 e.2.1) params⟩
    | .error d => ∃ s, (r.visitEach gradient (es.map (·.1))).run ⟨o, params⟩ =
        .error (.defect d) s := by
  induction es generalizing o params with
  | nil => rfl
  | cons e es ih =>
    obtain ⟨name, p, g⟩ := e
    obtain ⟨⟨hp, hg⟩, hrest⟩ := List.forall_mem_cons.1 hes
    obtain ⟨hname, hnodup⟩ := List.nodup_cons.1 hnodup
    have hne : ∀ e ∈ es, e.1 ≠ name := by
      rintro e he rfl
      exact hname (List.mem_map.2 ⟨e, he, rfl⟩)
    rw [Dict.traverseEntries]
    cases hstep : r.step o name p g with
    | error d =>
      obtain ⟨s, hvisit⟩ := run_visit_defect lawful hp hg hstep
      refine ⟨s, ?_⟩
      simp only [List.map_cons, visitEach, EStateM.run_bind, hvisit]
    | ok out =>
      obtain ⟨moved, k⟩ := out
      have hvisit := run_visit lawful hp hg hstep
      -- the visit has left alone what the others are stepped from
      have hsame : Dict.traverseEntries
          (fun name' pair => r.step (r.keep o name k) name' pair.1 pair.2) es =
          Dict.traverseEntries (fun name' pair => r.step o name' pair.1 pair.2) es :=
        traverseEntries_congr fun e he => lawful.step_keep o e.1 name k _ _ (hne e he)
      have hfind : ∀ e ∈ es, (params.insert name moved).find? e.1 = some e.2.1 ∧
          gradient.find? e.1 = some e.2.2 := by
        intro e he
        obtain ⟨hpe, hge⟩ := hrest e he
        exact ⟨(Dict.find?_insert params.tensors name e.1 moved).trans
          ((if_neg (hne e he)).trans hpe), hge⟩
      have hvisits := ih (o := r.keep o name k) hnodup hfind
      rw [hsame] at hvisits
      simp only [List.map_cons, visitEach, EStateM.run_bind, hvisit]
      cases htail : Dict.traverseEntries (fun name' pair => r.step o name' pair.1 pair.2) es with
      | error d =>
        rw [htail] at hvisits
        exact hvisits
      | ok stepped =>
        rw [htail] at hvisits
        exact hvisits

/-- Every parameter written over makes up the parameters behind the update. -/
theorem foldl_insert_moved {stepped : Dict String (Tensor α × κ)}
    (h : stepped.keys = params.tensors.keys) :
    stepped.entries.foldl (fun p e => p.insert e.1 e.2.1) params =
      ⟨stepped.mapValues fun _ s => s.1⟩ := by
  have hfold : ∀ (es : List (String × (Tensor α × κ))) (p : Params α),
      es.foldl (fun p e => p.insert e.1 e.2.1) p =
        ⟨p.tensors.insertAll (es.map fun e => (e.1, e.2.1))⟩ := by
    intro es
    induction es with
    | nil => exact fun p => rfl
    | cons e es ih => exact fun p => ih _
  have hkeys : (stepped.mapValues fun _ s => s.1).keys = params.tensors.keys := by
    rw [← h, Dict.keys, Dict.keys, Dict.mapValues, List.map_map]
    rfl
  rw [hfold]
  exact congrArg Params.mk (Dict.insertAll_of_keys_eq hkeys)

/-- All parameters of the layout of a gradient visited. -/
theorem run_visitAll (lawful : r.Lawful) (o : σ) (h : params.layout = gradient.layout) :
    match (params.beside gradient).traverse fun name pair => r.step o name pair.1 pair.2 with
    | .ok stepped => (r.visitEach gradient params.tensors.keys).run ⟨o, params⟩ =
        .ok () ⟨stepped.entries.foldl (fun o e => r.keep o e.1 e.2.2) o,
          ⟨stepped.mapValues fun _ s => s.1⟩⟩
    | .error d => ∃ s, (r.visitEach gradient params.tensors.keys).run ⟨o, params⟩ =
        .error (.defect d) s := by
  have hkeys : (params.beside gradient).entries.map (·.1) = params.tensors.keys := by
    rw [Params.beside, Dict.mapValues, List.map_map]
    rfl
  have hvisits := run_visitEach lawful (o := o) (params.beside gradient).nodup_keys fun e he =>
    (Params.of_mem_beside h he).imp_right And.left
  rw [hkeys] at hvisits
  cases htraverse : (params.beside gradient).traverse fun name pair =>
      r.step o name pair.1 pair.2 with
  | error d =>
    rw [Dict.traverse_eq_error_iff.1 htraverse] at hvisits
    exact hvisits
  | ok stepped =>
    have hentries := Dict.traverse_eq_ok_iff.1 htraverse
    have hstepped : stepped.keys = params.tensors.keys :=
      (Dict.keys_traverseEntries hentries).trans hkeys
    rw [hentries] at hvisits
    simp only [foldl_insert_moved hstepped] at hvisits
    exact hvisits

/-- How steps on a state end by what they come to in one go. A refusal comes before anything has
    been written. -/
def Ends {τ β : Type} (t : τ) (result : Except (Halt ModelError) (β × τ))
    (run : EStateM.Result (Halt ModelError) τ β) : Prop :=
  match result with
  | .ok (b, t') => run = .ok b t'
  | .error (.error cause) => run = .error (.error cause) t
  | .error (.defect d) => ∃ left, run = .error (.defect d) left

/-- Steps on a part end as they do by themselves. -/
theorem Ends.zoom {τ : Type} (view : τ → Site σ α) (put : τ → Site σ α → τ) {t : τ}
    {result : Except (Halt ModelError) (Unit × Site σ α)} {job : InPlace σ α Unit}
    (h : Ends (view t) result (job.run (view t))) (hput : put t (view t) = t) :
    Ends t (result.map fun out => ((), put t out.2)) ((UpdateRule.zoom view put job).run t) := by
  have hrun : (UpdateRule.zoom view put job).run t =
      match job.run (view t) with
      | .ok a s => .ok a (put t s)
      | .error e s => .error e (put t s) := rfl
  rw [hrun]
  match result, h with
  | .ok ((), s), h =>
    rw [show job.run (view t) = .ok () s from h]
    rfl
  | .error (.error cause), h =>
    rw [show job.run (view t) = .error (.error cause) (view t) from h]
    exact congrArg (EStateM.Result.error (Halt.error cause)) hput
  | .error (.defect d), h =>
    obtain ⟨left, hleft⟩ := h
    rw [hleft]
    exact ⟨_, rfl⟩

theorem Ends.within {τ : Type} (wrap : σ → τ) {o : σ}
    {result : Except (Halt ModelError) (Unit × Site σ α)} {job : InPlace σ α Unit}
    (h : Ends ⟨o, params⟩ result (job.run ⟨o, params⟩)) :
    Ends ⟨wrap o, params⟩ (result.map fun out => ((), ⟨wrap out.2.state, out.2.params⟩))
      ((UpdateRule.within wrap o job).run ⟨wrap o, params⟩) :=
  Ends.zoom (fun s : Site τ α => ⟨o, s.params⟩) (fun _ s => ⟨wrap s.state, s.params⟩) h rfl

/-- An update in place comes to what the rule says in one go. -/
theorem run_updateInPlace (lawful : r.Lawful) (o : σ) (gradient params : Params α) :
    Ends ⟨o, params⟩
      ((params.paired gradient).mapError (fun m => Halt.error (.layout m)) >>= fun pairs =>
        ((r.update o pairs).mapError Halt.defect).map site)
      ((r.updateInPlace gradient).run ⟨o, params⟩) := by
  cases hm : params.layoutMismatch? gradient with
  | some m =>
    have hpaired : params.paired gradient = .error m := by rw [Params.paired, hm]
    rw [hpaired]
    simp only [updateInPlace, EStateM.run_bind, EStateM.run_get, hm]
    rfl
  | none =>
    have hlayout := Params.layoutMismatch?_eq_none_iff.1 hm
    have hvisits := run_visitAll lawful (r.advance o) hlayout
    have hrun : (r.updateInPlace gradient).run ⟨o, params⟩ =
        (r.visitEach gradient params.tensors.keys).run ⟨r.advance o, params⟩ := by
      simp only [updateInPlace, EStateM.run_bind, EStateM.run_get, hm, EStateM.run_set]
    rw [Params.paired_of_layout hlayout, hrun]
    show Ends _ (((r.update o (params.beside gradient)).mapError Halt.defect).map site) _
    unfold update
    cases htraverse : (params.beside gradient).traverse fun name pair =>
        r.step (r.advance o) name pair.1 pair.2 with
    | error d =>
      rw [htraverse] at hvisits
      exact hvisits
    | ok stepped =>
      rw [htraverse] at hvisits
      exact hvisits

/-- So does an update by an optimizer of one kind among others. -/
theorem run_within {τ : Type} (lawful : r.Lawful) (wrap : σ → τ) (o : σ)
    (gradient params : Params α)
    {update : Dict String (Tensor α × Tensor α) → Except Defect (σ × Params α)}
    (hupdate : ∀ pairs, update pairs = r.update o pairs) :
    Ends ⟨wrap o, params⟩
      (((params.paired gradient).mapError (fun m => Halt.error (ModelError.layout m)) >>=
        fun pairs => (update pairs).mapError Halt.defect >>= fun out =>
          return (wrap out.1, out.2)).map site)
      ((within wrap o (r.updateInPlace gradient)).run ⟨wrap o, params⟩) := by
  have hends := (run_updateInPlace lawful o gradient params).within wrap
  cases hpaired : params.paired gradient with
  | error m =>
    rw [hpaired] at hends
    exact hends
  | ok pairs =>
    rw [hpaired] at hends
    simp only [Except.mapError, bind, Except.bind] at hends ⊢
    rw [hupdate]
    cases hresult : r.update o pairs with
    | error d =>
      rw [hresult] at hends
      exact hends
    | ok out =>
      rw [hresult] at hends
      exact hends

end UpdateRule

/-! ## The rules are lawful -/

section
variable [Scalar α]

theorem Descent.lawful_rule : (Descent.rule (α := α)).Lawful where
  step_prepare _ _ _ _ := rfl
  keep_prepare _ _ _ _ := rfl
  step_keep _ _ _ _ _ _ _ := rfl

theorem Momentum.lawful_rule : (Momentum.rule (α := α)).Lawful where
  step_prepare o name p g := by
    simp only [rule, step, Dict.find?_insert, if_true, Option.getD_some]
  keep_prepare o name g v := by
    simp only [rule, Dict.insert_insert]
  step_keep o name other v p g hne := by
    simp only [rule, step, Dict.find?_insert, if_neg hne]

theorem Adam.lawful_rule : (Adam.rule (α := α)).Lawful where
  step_prepare o name p g := by
    simp only [rule, step, stepSize, Dict.find?_insert, if_true, Option.getD_some]
  keep_prepare o name g m := by
    simp only [rule, Dict.insert_insert]
  step_keep o name other m p g hne := by
    simp only [rule, step, stepSize, Dict.find?_insert, if_neg hne]

/-! ## The rules in one go -/

theorem Descent.update_eq (o : Descent α) (pairs : Dict String (Tensor α × Tensor α)) :
    o.update pairs = rule.update o pairs := by
  have hkept : ∀ es : List (String × (Tensor α × Unit)),
      es.foldl (fun o e => rule.keep o e.1 e.2.2) (rule.advance o) = o := by
    intro es
    induction es with
    | nil => rfl
    | cons e es ih => exact ih
  have htraverse : pairs.traverse (fun name pair => rule.step (rule.advance o) name pair.1 pair.2) =
      (pairs.traverse fun _ pair => o.step pair.1 pair.2).map fun d =>
        d.mapValues fun _ t => (t, ()) :=
    Dict.traverse_map (fun _ (pair : Tensor α × Tensor α) => o.step pair.1 pair.2)
      (fun t => (t, ())) pairs
  unfold update UpdateRule.update
  rw [htraverse]
  simp only [hkept]
  cases pairs.traverse fun _ pair => o.step pair.1 pair.2 with
  | error d => rfl
  | ok stepped =>
    have hsame : (stepped.mapValues fun _ t => (t, ())).mapValues (fun _ s => s.1) = stepped := by
      apply Dict.ext_find?
      intro name
      rw [Dict.find?_mapValues, Dict.find?_mapValues]
      cases stepped.find? name <;> rfl
    exact congrArg (fun tensors => Except.ok (o, Params.mk tensors)) hsame.symm

theorem Momentum.update_eq (o : Momentum α) (pairs : Dict String (Tensor α × Tensor α)) :
    o.update pairs = rule.update o pairs := by
  have hkept : ∀ (es : List (String × (Tensor α × Tensor α))) (o : Momentum α),
      es.foldl (fun o e => rule.keep o e.1 e.2.2) o =
        { o with velocity := o.velocity.insertAll (es.map fun e => (e.1, e.2.2)) } := by
    intro es
    induction es with
    | nil => exact fun o => rfl
    | cons e es ih => exact fun o => ih _
  unfold update UpdateRule.update
  simp only [hkept]
  rfl

theorem Adam.update_eq (o : Adam α) (pairs : Dict String (Tensor α × Tensor α)) :
    o.update pairs = rule.update o pairs := by
  have hkept : ∀ (es : List (String × (Tensor α × Moments α))) (o : Adam α),
      es.foldl (fun o e => rule.keep o e.1 e.2.2) o =
        { o with moments := o.moments.insertAll (es.map fun e => (e.1, e.2.2)) } := by
    intro es
    induction es with
    | nil => exact fun o => rfl
    | cons e es ih => exact fun o => ih _
  unfold update UpdateRule.update
  simp only [hkept]
  rfl

/-! ## Any optimizer -/

namespace Optimizer

open UpdateRule

/-- An update of an optimizer of any kind, by the rule of its kind. -/
def updateInPlace (gradient : Params α) : InPlace (Optimizer α) α Unit := fun s =>
  match s.state with
  | .descent o => within .descent o (Descent.rule.updateInPlace gradient) s
  | .momentum o => within .momentum o (Momentum.rule.updateInPlace gradient) s
  | .adam o => within .adam o (Adam.rule.updateInPlace gradient) s

/-- An update in place comes to what `update` says. A refusal comes before anything has been
    written. -/
theorem run_updateInPlace (o : Optimizer α) (gradient params : Params α) :
    Ends ⟨o, params⟩ ((o.update gradient params).map site)
      ((updateInPlace gradient).run ⟨o, params⟩) := by
  unfold update
  cases o with
  | descent o =>
    exact run_within Descent.lawful_rule Optimizer.descent o gradient params o.update_eq
  | momentum o =>
    exact run_within Momentum.lawful_rule Optimizer.momentum o gradient params o.update_eq
  | adam o => exact run_within Adam.lawful_rule Optimizer.adam o gradient params o.update_eq

end Optimizer

end

end Federated
