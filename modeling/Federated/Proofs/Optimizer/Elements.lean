/-
  Federated.Proofs.Optimizer.Elements

  An update by its elements. Every element of every parameter is moved by the element of the
  gradient at its place and by what the optimizer keeps of this place; no element bears on another.

    * `Optimizer.keptAt`, `moved`, `learned` — the three optimizers on a single element.
    * `Optimizer.move`, `absorb` — what an update makes of parameters, by their elements, and of an
      optimizer, by the gradient alone.
    * `Optimizer.Fits` — what makes an update safe: what is accumulated for a parameter has its
      shape.
    * `Optimizer.update_eq` — from there on, an update between equal layouts succeeds, and moves and
      absorbs.
-/
import Federated.Proofs.Averaging.Reference
import Federated.Proofs.Optimizer.InPlace
import Federated.Proofs.Optimizer.Layout
import Federated.Proofs.Tensor.Basic

namespace Federated

variable {α : Type}

/-! ## The optimizers on a single element -/

variable [Scalar α]

namespace Momentum

/-- The velocity kept of a place. -/
def velocityAt (o : Momentum α) (name : String) (i : Nat) : α :=
  Tensor.keptCell (o.velocity.find? name) i

/-- The velocity of a place after a gradient of `y`. -/
def velocityAfter (o : Momentum α) (name : String) (i : Nat) (y : α) : α :=
  o.momentum * o.velocityAt name i + y

/-- What becomes of an element `x` by a gradient of `y`. -/
def moved (o : Momentum α) (name : String) (i : Nat) (x y : α) : α :=
  x - o.rate * o.velocityAfter name i y

end Momentum

namespace Adam

variable (o : Adam α) (name : String) (i : Nat)

/-- The running mean kept of a place. -/
def meanAt : α := Tensor.keptCell ((o.moments.find? name).map (·.mean)) i

/-- The running mean of squares kept of a place. -/
def squareAt : α := Tensor.keptCell ((o.moments.find? name).map (·.square)) i

def meanAfter (y : α) : α := o.beta1 * o.meanAt name i + (Scalar.one - o.beta1) * y

def squareAfter (y : α) : α := o.beta2 * o.squareAt name i + (Scalar.one - o.beta2) * (y * y)

/-- What becomes of an element `x` by a gradient of `y`. -/
def moved (x y : α) : α :=
  x - o.stepSize * o.meanAfter name i y / (Scalar.sqrt (o.squareAfter name i y) + o.epsilon)

end Adam

namespace Optimizer

/-- An optimizer at the start of an update. -/
def advance : Optimizer α → Optimizer α
  | .descent o => .descent o
  | .momentum o => .momentum o
  | .adam o => .adam o.advance

/-- An optimizer without what it has accumulated of the parameters. -/
def bare : Optimizer α → Optimizer α
  | .descent o => .descent o
  | .momentum o => .momentum { o with velocity := Dict.empty }
  | .adam o => .adam { o with moments := Dict.empty }

/-- What an optimizer keeps of a place. -/
def keptAt (o : Optimizer α) (name : String) (i : Nat) : List α :=
  match o with
  | .descent _ => []
  | .momentum o => [o.velocityAt name i]
  | .adam o => [o.meanAt name i, o.squareAt name i]

/-- What an optimizer keeps of a place after a gradient of `y`. -/
def learned (o : Optimizer α) (name : String) (i : Nat) (y : α) : List α :=
  match o with
  | .descent _ => []
  | .momentum o => [o.velocityAfter name i y]
  | .adam o => [o.meanAfter name i y, o.squareAfter name i y]

/-- What becomes of an element `x` by a gradient of `y`. -/
def moved (o : Optimizer α) (name : String) (i : Nat) (x y : α) : α :=
  match o with
  | .descent o => x + -o.rate * y
  | .momentum o => o.moved name i x y
  | .adam o => o.advance.moved name i x y

/-- What is accumulated for a parameter has the shape that belongs to its name. -/
def Fits (shapes : String → List Nat) : Optimizer α → Prop
  | .descent _ => True
  | .momentum o => ∀ name v, o.velocity.find? name = some v → v.shape = shapes name
  | .adam o => ∀ name m, o.moments.find? name = some m →
    m.mean.shape = shapes name ∧ m.square.shape = shapes name

end Optimizer

omit [Scalar α] in
/-- Parameters whose tensors have the shapes that belong to their names. -/
def Params.Conforms (shapes : String → List Nat) (p : Params α) : Prop :=
  ∀ name t, p.find? name = some t → t.shape = shapes name

/-- The shapes that a layout gives its names. -/
def shapesOf (layout : Dict String (List Nat)) (name : String) : List Nat :=
  (layout.find? name).getD []

omit [Scalar α] in
theorem Params.conforms_shapesOf {p : Params α} {layout : Dict String (List Nat)}
    (h : p.layout = layout) : p.Conforms (shapesOf layout) := by
  intro name t ht
  rw [← h, shapesOf, Params.find?_layout, ht]
  rfl

/-! ## Steps -/

variable {name : String} {shape : List Nat} (x y : Nat → α)

theorem Descent.step_ofFn (o : Descent α) : o.step (.ofFn shape x) (.ofFn shape y) =
    .ok (.ofFn shape fun i => x i + -o.rate * y i) :=
  Tensor.zipWith_ofFn _ shape x y

theorem Momentum.step_ofFn {o : Momentum α}
    (hv : ∀ v, o.velocity.find? name = some v → v.shape = shape) :
    o.step name (.ofFn shape x) (.ofFn shape y) =
      .ok (.ofFn shape fun i => o.moved name i (x i) (y i),
        .ofFn shape fun i => o.velocityAfter name i (y i)) := by
  have hstart : (o.velocity.find? name).getD (Tensor.zeros (Tensor.ofFn shape y).shape) =
      .ofFn shape (Tensor.keptCell (o.velocity.find? name)) := Tensor.getD_zeros hv
  unfold step
  simp only [hstart, Tensor.zipWith_ofFn, bind, Except.bind, pure, Except.pure]
  rfl

omit [Scalar α] in
/-- Moments of a shape are two tensors of this shape. -/
theorem Moments.shapes_of_kept {kept : Option (Moments α)}
    (h : ∀ m, kept = some m → m.mean.shape = shape ∧ m.square.shape = shape) :
    (∀ t, kept.map (·.mean) = some t → t.shape = shape) ∧
      ∀ t, kept.map (·.square) = some t → t.shape = shape := by
  constructor
  all_goals
    intro t ht
    obtain ⟨m, hm, rfl⟩ := Option.map_eq_some_iff.1 ht
  · exact (h m hm).1
  · exact (h m hm).2

theorem Adam.step_ofFn {o : Adam α} (hm : ∀ m, o.moments.find? name = some m →
      m.mean.shape = shape ∧ m.square.shape = shape) :
    o.step name (.ofFn shape x) (.ofFn shape y) =
      .ok (.ofFn shape fun i => o.moved name i (x i) (y i),
        ⟨.ofFn shape fun i => o.meanAfter name i (y i),
          .ofFn shape fun i => o.squareAfter name i (y i)⟩) := by
  obtain ⟨hmeans, hsquares⟩ := Moments.shapes_of_kept hm
  have hmean : ((o.moments.find? name).getD ⟨Tensor.zeros (Tensor.ofFn shape y).shape,
      Tensor.zeros (Tensor.ofFn shape y).shape⟩).mean =
      .ofFn shape (Tensor.keptCell ((o.moments.find? name).map (·.mean))) := by
    rw [← Tensor.getD_zeros hmeans]
    cases o.moments.find? name <;> rfl
  have hsquare : ((o.moments.find? name).getD ⟨Tensor.zeros (Tensor.ofFn shape y).shape,
      Tensor.zeros (Tensor.ofFn shape y).shape⟩).square =
      .ofFn shape (Tensor.keptCell ((o.moments.find? name).map (·.square))) := by
    rw [← Tensor.getD_zeros hsquares]
    cases o.moments.find? name <;> rfl
  unfold step
  simp only [hmean, hsquare, Tensor.zipWith_ofFn, bind, Except.bind, pure, Except.pure]
  rfl

/-! ## Places -/

theorem Params.element?_eq {p : Params α} {t : Tensor α} (h : p.find? name = some t) (i : Nat) :
    p.element? name i = if i < Federated.elementCount t.shape then some (t.cell i) else none := by
  rw [element?, h]
  exact t.getElem?_eq_cell i

section
variable {params gradient : Params α}

/-- What is computed from each pair can be computed from tensors of one shape and their elements. -/
theorem Params.traverse_beside {μ : Type} (h : params.layout = gradient.layout)
    {f : String → Tensor α × Tensor α → Except Defect μ} {out : String → Tensor α × Tensor α → μ}
    (hf : ∀ name p g, params.find? name = some p → g.shape = p.shape →
      f name (.ofFn p.shape p.cell, .ofFn p.shape g.cell) = .ok (out name (p, g))) :
    (params.beside gradient).traverse f = .ok ((params.beside gradient).mapValues out) := by
  apply Dict.traverse_eq_ok
  rintro ⟨name, p, g⟩ he
  obtain ⟨hp, -, hshape⟩ := of_mem_beside h he
  have hpair : (p, g) = (Tensor.ofFn p.shape p.cell, Tensor.ofFn p.shape g.cell) := by
    rw [p.ofFn_cell, ← hshape, g.ofFn_cell]
  rw [← hf name p g hp hshape, ← hpair]

omit [Scalar α] in
/-- What is computed of pairs from the gradient alone. -/
theorem Params.mapValues_beside {β : Type} (h : params.layout = gradient.layout)
    (f : String → Tensor α → β) :
    ((params.beside gradient).mapValues fun name pair => f name pair.2) =
      gradient.tensors.mapValues f := by
  rw [← mapValues_counterpart h]
  apply Dict.ext_find?
  intro name
  simp only [beside, Dict.find?_mapValues, Option.map_map]
  rfl

end

/-! ## What an update makes of an optimizer -/

def Momentum.absorb (o : Momentum α) (gradient : Params α) : Momentum α :=
  let learned := gradient.tensors.mapValues fun name g =>
    Tensor.ofFn g.shape fun i => o.velocityAfter name i (g.cell i)
  { o with velocity := o.velocity.insertAll learned.entries }

def Adam.absorb (o : Adam α) (gradient : Params α) : Adam α :=
  let learned := gradient.tensors.mapValues fun name g =>
    (⟨Tensor.ofFn g.shape fun i => o.meanAfter name i (g.cell i),
      Tensor.ofFn g.shape fun i => o.squareAfter name i (g.cell i)⟩ : Moments α)
  { o.advance with moments := o.moments.insertAll learned.entries }

theorem Momentum.find?_absorb (o : Momentum α) (gradient : Params α) (name : String) :
    (o.absorb gradient).velocity.find? name =
      ((gradient.find? name).map fun g =>
        Tensor.ofFn g.shape fun i => o.velocityAfter name i (g.cell i)).or
      (o.velocity.find? name) := by
  rw [absorb, Dict.find?_insertAll_entries, Dict.find?_mapValues]
  rfl

theorem Adam.find?_absorb (o : Adam α) (gradient : Params α) (name : String) :
    (o.absorb gradient).moments.find? name =
      ((gradient.find? name).map fun g =>
        (⟨Tensor.ofFn g.shape fun i => o.meanAfter name i (g.cell i),
          Tensor.ofFn g.shape fun i => o.squareAfter name i (g.cell i)⟩ : Moments α)).or
      (o.moments.find? name) := by
  rw [absorb, Dict.find?_insertAll_entries, Dict.find?_mapValues]
  rfl

/-- What is kept of a place after a gradient has been absorbed. -/
theorem Tensor.keptCell_or {gradient : Params α} {kept : Option (Tensor α)}
    (hkept : ∀ t g, kept = some t → gradient.find? name = some g → t.shape = g.shape)
    (after : Nat → α → α) (i : Nat) :
    keptCell (((gradient.find? name).map fun g => ofFn g.shape fun i => after i (g.cell i)).or
        kept) i =
      ((gradient.element? name i).map (after i)).getD (keptCell kept i) := by
  cases hg : gradient.find? name with
  | none =>
    rw [Params.element?, hg]
    rfl
  | some g =>
    rw [Params.element?_eq hg]
    show ((ofFn g.shape fun i => after i (g.cell i)).data[i]?).getD Scalar.zero = _
    rw [getElem?_ofFn]
    split_ifs with hi
    · rfl
    · -- beyond the end there is nothing before either
      cases kept with
      | none => rfl
      | some t =>
        have hlast : t.data[i]? = none := by
          rw [getElem?_eq_cell, hkept t g rfl hg, if_neg hi]
        show Scalar.zero = (t.data[i]?).getD Scalar.zero
        rw [hlast, Option.getD_none]

namespace Optimizer

/-- An optimizer after an update by a gradient. -/
def absorb (gradient : Params α) : Optimizer α → Optimizer α
  | .descent o => .descent o
  | .momentum o => .momentum (o.absorb gradient)
  | .adam o => .adam (o.absorb gradient)

/-- An update does nothing but advance an optimizer, and accumulate. -/
theorem bare_absorb (o : Optimizer α) (gradient : Params α) :
    (o.absorb gradient).bare = o.advance.bare := by
  cases o <;> rfl

/-- What is accumulated does not depend on the learning rate. -/
theorem absorb_withRate (o : Optimizer α) (rate : α) (gradient : Params α) :
    (o.withRate rate).absorb gradient = (o.absorb gradient).withRate rate := by
  cases o <;> rfl

variable {o : Optimizer α} {shapes : String → List Nat} {gradient params : Params α}

/-- A fresh optimizer has nothing that could fail to fit. -/
theorem fits_build (spec : OptimizerSpec α) : spec.build.Fits shapes := by
  cases spec with
  | descent rate => exact trivial
  | momentum rate mu => exact fun name v hv => nomatch hv
  | adam rate beta1 beta2 epsilon => exact fun name m hm => nomatch hm

omit [Scalar α] in
theorem Fits.withRate (fits : o.Fits shapes) (rate : α) : (o.withRate rate).Fits shapes := by
  cases o <;> exact fits

theorem Fits.absorb (fits : o.Fits shapes) (conforms : gradient.Conforms shapes) :
    (o.absorb gradient).Fits shapes := by
  cases o with
  | descent o => exact trivial
  | momentum o =>
    intro name v hv
    rw [Momentum.find?_absorb] at hv
    cases hg : gradient.find? name with
    | none =>
      rw [hg] at hv
      exact fits name v hv
    | some g =>
      rw [hg] at hv
      obtain rfl := Option.some.inj hv
      exact conforms name g hg
  | adam o =>
    intro name m hm
    rw [Adam.find?_absorb] at hm
    cases hg : gradient.find? name with
    | none =>
      rw [hg] at hm
      exact fits name m hm
    | some g =>
      rw [hg] at hm
      obtain rfl := Option.some.inj hm
      exact ⟨conforms name g hg, conforms name g hg⟩

/-- What is kept of a place is learned from the gradient at this place. -/
theorem keptAt_absorb (fits : o.Fits shapes) (conforms : gradient.Conforms shapes) (name : String)
    (i : Nat) : (o.absorb gradient).keptAt name i =
      ((gradient.element? name i).map (o.learned name i)).getD (o.keptAt name i) := by
  have hshape : ∀ g, gradient.find? name = some g → g.shape = shapes name := conforms name
  cases o with
  | descent o => cases gradient.element? name i <;> rfl
  | momentum o =>
    have hvelocity := Tensor.keptCell_or
      (fun v g hv hg => (fits name v hv).trans (hshape g hg).symm) (o.velocityAfter name) i
    simp only [absorb, keptAt, Momentum.velocityAt, Momentum.find?_absorb, hvelocity]
    cases gradient.element? name i <;> rfl
  | adam o =>
    obtain ⟨hmeans, hsquares⟩ := Moments.shapes_of_kept (fits name)
    have hmean := Tensor.keptCell_or (fun t g ht hg => (hmeans t ht).trans (hshape g hg).symm)
      (o.meanAfter name) i
    have hsquare := Tensor.keptCell_or (fun t g ht hg => (hsquares t ht).trans (hshape g hg).symm)
      (o.squareAfter name) i
    simp only [absorb, keptAt, Adam.meanAt, Adam.squareAt, Adam.find?_absorb, Option.map_or,
      Option.map_map, Function.comp_def, hmean, hsquare]
    cases gradient.element? name i <;> rfl

/-! ## What an update makes of parameters -/

/-- Parameters after an update by a gradient. -/
def move (o : Optimizer α) (gradient params : Params α) : Params α :=
  ⟨(params.beside gradient).mapValues fun name pair =>
    .ofFn pair.1.shape fun i => o.moved name i (pair.1.cell i) (pair.2.cell i)⟩

theorem layout_move (o : Optimizer α) (gradient params : Params α) :
    (o.move gradient params).layout = params.layout := by
  rw [Params.layout_eq_iff]
  intro name
  simp only [move, Params.beside, Params.find?, Dict.find?_mapValues, Option.map_map]
  rfl

/-- Every element is moved by the gradient at its place. -/
theorem element?_move (o : Optimizer α) (h : params.layout = gradient.layout) (name : String)
    (i : Nat) : (o.move gradient params).element? name i =
      (params.element? name i).bind fun x => (gradient.element? name i).map (o.moved name i x) := by
  have hfind : (o.move gradient params).find? name = ((params.beside gradient).find? name).map _ :=
    Dict.find?_mapValues _ _ name
  obtain ⟨hnone, hp, hg⟩ | ⟨p, g, hsome, hp, hg, hshape⟩ := Params.find?_beside h name
  · rw [hnone] at hfind
    rw [Params.element?, Params.element?, hfind, hp]
    rfl
  · rw [hsome] at hfind
    rw [Params.element?_eq hp, Params.element?_eq hg, Params.element?, hfind, hshape]
    refine (Tensor.getElem?_ofFn _ _ i).trans ?_
    split_ifs <;> rfl

end Optimizer

/-! ## Updates -/

section
variable {shapes : String → List Nat} {params gradient : Params α}

theorem Descent.update_beside (o : Descent α) (h : params.layout = gradient.layout) :
    o.update (params.beside gradient) = .ok (o, (Optimizer.descent o).move gradient params) := by
  have htraverse : (params.beside gradient).traverse (fun _ pair => o.step pair.1 pair.2) =
      .ok ((params.beside gradient).mapValues fun _ pair =>
        .ofFn pair.1.shape fun i => pair.1.cell i + -o.rate * pair.2.cell i) :=
    Params.traverse_beside h fun _ p g _ _ => o.step_ofFn p.cell g.cell
  unfold update
  rw [htraverse]
  rfl

theorem Momentum.update_beside {o : Momentum α} (fits : (Optimizer.momentum o).Fits shapes)
    (conforms : params.Conforms shapes) (h : params.layout = gradient.layout) :
    o.update (params.beside gradient) =
      .ok (o.absorb gradient, (Optimizer.momentum o).move gradient params) := by
  have htraverse : (params.beside gradient).traverse
      (fun name pair => o.step name pair.1 pair.2) =
      .ok ((params.beside gradient).mapValues fun name pair =>
        (.ofFn pair.1.shape fun i => o.moved name i (pair.1.cell i) (pair.2.cell i),
          .ofFn pair.2.shape fun i => o.velocityAfter name i (pair.2.cell i))) := by
    refine Params.traverse_beside h fun name p g hp hshape => ?_
    simp only [hshape]
    exact Momentum.step_ofFn p.cell g.cell fun v hv =>
      (fits name v hv).trans (conforms name p hp).symm
  unfold update
  rw [htraverse]
  simp only [bind, Except.bind, pure, Except.pure, Dict.mapValues_mapValues, absorb,
    Params.mapValues_beside h fun name g =>
      Tensor.ofFn g.shape fun i => o.velocityAfter name i (g.cell i)]
  rfl

theorem Adam.update_beside {o : Adam α} (fits : (Optimizer.adam o).Fits shapes)
    (conforms : params.Conforms shapes) (h : params.layout = gradient.layout) :
    o.update (params.beside gradient) =
      .ok (o.absorb gradient, (Optimizer.adam o).move gradient params) := by
  have htraverse : (params.beside gradient).traverse
      (fun name pair => o.advance.step name pair.1 pair.2) =
      .ok ((params.beside gradient).mapValues fun name pair =>
        (.ofFn pair.1.shape fun i => o.advance.moved name i (pair.1.cell i) (pair.2.cell i),
          ⟨.ofFn pair.2.shape fun i => o.meanAfter name i (pair.2.cell i),
            .ofFn pair.2.shape fun i => o.squareAfter name i (pair.2.cell i)⟩)) := by
    refine Params.traverse_beside h fun name p g hp hshape => ?_
    have hpshape := conforms name p hp
    simp only [hshape]
    refine Adam.step_ofFn p.cell g.cell fun m hm => ?_
    obtain ⟨hmean, hsquare⟩ := fits name m hm
    exact ⟨hmean.trans hpshape.symm, hsquare.trans hpshape.symm⟩
  unfold update
  simp only [htraverse, bind, Except.bind, pure, Except.pure, Dict.mapValues_mapValues, absorb,
    Params.mapValues_beside h fun name g =>
      (⟨Tensor.ofFn g.shape fun i => o.meanAfter name i (g.cell i),
        Tensor.ofFn g.shape fun i => o.squareAfter name i (g.cell i)⟩ : Moments α)]
  rfl

/-- An update between equal layouts succeeds, if what is accumulated fits. It absorbs the gradient
    and moves the parameters. -/
theorem Optimizer.update_eq {o : Optimizer α} (fits : o.Fits shapes)
    (conforms : params.Conforms shapes) (h : params.layout = gradient.layout) :
    o.update gradient params = .ok (o.absorb gradient, o.move gradient params) := by
  unfold update
  rw [Params.paired_of_layout h]
  cases o with
  | descent o =>
    simp only [Except.mapError, bind, Except.bind, o.update_beside h]
    rfl
  | momentum o =>
    simp only [Except.mapError, bind, Except.bind, Momentum.update_beside fits conforms h]
    rfl
  | adam o =>
    simp only [Except.mapError, bind, Except.bind, Adam.update_beside fits conforms h]
    rfl

end

end Federated
