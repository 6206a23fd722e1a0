/-
  Federated.Proofs.Optimizer.Moments

  Descent by moments in exact arithmetic. Over any run of updates the running means of gradients and
  of their squares are sums in which a gradient counts less with every update since, the powers are
  those of the number of updates, and nothing that is divided by is zero.

    * `decayed` — a sum in which the last term counts whole, and the others less by a factor each.
    * `Optimizer.Use.Of`, `gradientsOf` — uses of one layout, and the gradients that are absorbed.
    * `Adam.Accumulated` — what is accumulated, kept by every use.
    * `Adam.update_unrolled` — every update of a run, in terms of all gradients up to it.
-/
import Federated.Proofs.Optimizer.Histories

namespace Federated

-- the operations of exact arithmetic are written as those of the field
attribute [-instance] Scalar.toAdd Scalar.toSub Scalar.toMul Scalar.toDiv Scalar.toNeg

/-! ## Sums that decay -/

section
variable {K : Type} [Field K]

/-- A sum in which every term but the last counts `β` times as much as the one after it. -/
def decayed (β : K) (xs : List K) : K :=
  ∑ j ∈ Finset.range xs.length, β ^ (xs.length - (j + 1)) * xs.getD j 0

/-- One more term. -/
theorem decayed_append (β : K) (xs : List K) (x : K) :
    decayed β (xs ++ [x]) = β * decayed β xs + x := by
  have hlength : (xs ++ [x]).length = xs.length + 1 := by simp
  have hlast : (xs ++ [x]).getD xs.length 0 = x := by simp [List.getD]
  have hbefore : ∀ j ∈ Finset.range xs.length,
      β ^ (xs.length + 1 - (j + 1)) * (xs ++ [x]).getD j 0 =
        β * (β ^ (xs.length - (j + 1)) * xs.getD j 0) := by
    intro j hj
    have hlt := Finset.mem_range.1 hj
    have hterm : (xs ++ [x]).getD j 0 = xs.getD j 0 := by
      simp [List.getD, List.getElem?_append_left hlt]
    rw [hterm, show xs.length + 1 - (j + 1) = xs.length - (j + 1) + 1 by omega, pow_succ]
    ring
  rw [decayed, hlength, Finset.sum_range_succ, hlast, Nat.sub_self, pow_zero, one_mul,
    Finset.sum_congr rfl hbefore, ← Finset.mul_sum]
  rfl

theorem decayed_nonneg [LinearOrder K] [IsStrictOrderedRing K] {β : K} (hβ : 0 ≤ β) {xs : List K}
    (hxs : ∀ x ∈ xs, 0 ≤ x) : 0 ≤ decayed β xs := by
  refine Finset.sum_nonneg fun j hj => mul_nonneg (pow_nonneg hβ _) ?_
  have hlt := Finset.mem_range.1 hj
  rw [List.getD_eq_getElem xs 0 hlt]
  exact hxs _ (List.getElem_mem hlt)

theorem decayed_squares_nonneg [LinearOrder K] [IsStrictOrderedRing K] {β : K} (hβ : 0 ≤ β)
    (xs : List K) : 0 ≤ decayed β (xs.map (· ^ 2)) := by
  refine decayed_nonneg hβ fun y hy => ?_
  obtain ⟨x, -, rfl⟩ := List.mem_map.1 hy
  exact sq_nonneg x

end

/-! ## Places -/

section
variable {α : Type} [Scalar α]

/-- Places in parameters of a layout. -/
def IsPlace (layout : Dict String (List Nat)) (name : String) (i : Nat) : Prop :=
  ∃ shape, layout.find? name = some shape ∧ i < elementCount shape

theorem Params.exists_element? {p : Params α} {name : String} {i : Nat} :
    (∃ x, p.element? name i = some x) ↔ IsPlace p.layout name i := by
  unfold IsPlace
  rw [find?_layout]
  cases hp : p.find? name with
  | none => simp [element?, hp]
  | some t => simp [element?_eq hp]

end

/-! ## Uses of one layout -/

namespace Optimizer

variable {α : Type}

/-- Updates are between parameters and gradients of one layout. -/
def Use.Of (layout : Dict String (List Nat)) : Use α → Prop
  | .update gradient params => gradient.layout = layout ∧ params.layout = layout
  | .setRate _ => True

/-- The gradients of the updates, in order. -/
def gradientsOf : List (Use α) → List (Params α)
  | [] => []
  | .update gradient _ :: later => gradient :: gradientsOf later
  | .setRate _ :: later => gradientsOf later

end Optimizer

variable {K : Type} [Field K] [LinearOrder K] [Root K]

/-- The element of parameters at a place, zero where there is none. -/
def Params.valueAt (p : Params K) (name : String) (i : Nat) : K := (p.element? name i).getD 0

/-- The elements of gradients at one place. -/
def valuesAt (gradients : List (Params K)) (name : String) (i : Nat) : List K :=
  gradients.map fun g => g.valueAt name i

/-! ## What is accumulated -/

namespace Adam

/-- The running means of gradients. -/
def means (a : Adam K) : Params K := ⟨a.moments.mapValues fun _ m => m.mean⟩

/-- The running means of squares of gradients. -/
def squares (a : Adam K) : Params K := ⟨a.moments.mapValues fun _ m => m.square⟩

variable {rate β1 β2 ε : K} {layout : Dict String (List Nat)} {gradients : List (Params K)}
  {a : Adam K}

/-- What has been accumulated from gradients of one layout. -/
structure Accumulated (rate β1 β2 ε : K) (layout : Dict String (List Nat))
    (gradients : List (Params K)) (a : Adam K) : Prop where
  rate : a.rate = rate
  beta1 : a.beta1 = β1
  beta2 : a.beta2 = β2
  epsilon : a.epsilon = ε
  power1 : a.power1 = β1 ^ gradients.length
  power2 : a.power2 = β2 ^ gradients.length
  names : ∀ name m, a.moments.find? name = some m →
    layout.find? name = some m.mean.shape ∧ layout.find? name = some m.square.shape
  mean : ∀ name i, IsPlace layout name i →
    a.meanAt name i = (1 - β1) * decayed β1 (valuesAt gradients name i)
  square : ∀ name i, IsPlace layout name i →
    a.squareAt name i = (1 - β2) * decayed β2 ((valuesAt gradients name i).map (· ^ 2))

theorem Accumulated.fits (h : Accumulated rate β1 β2 ε layout gradients a) :
    (Optimizer.adam a).Fits (shapesOf layout) := by
  intro name m hm
  obtain ⟨hmean, hsquare⟩ := h.names name m hm
  unfold shapesOf
  constructor
  · rw [hmean, Option.getD_some]
  · rw [hsquare, Option.getD_some]

/-- At first there is nothing. -/
theorem accumulated_build (rate β1 β2 ε : K) (layout : Dict String (List Nat)) :
    ∃ a, (OptimizerSpec.adam rate β1 β2 ε).build = .adam a ∧
    Accumulated rate β1 β2 ε layout [] a := by
  refine ⟨_, rfl, rfl, rfl, rfl, rfl, (pow_zero β1).symm, (pow_zero β2).symm,
    (fun name m hm => nomatch hm), fun name i _ => ?_, fun name i _ => ?_⟩
  · exact (mul_zero (1 - β1)).symm
  · exact (mul_zero (1 - β2)).symm

/-- What is learned at a place from one more gradient. -/
theorem Accumulated.learned (h : Accumulated rate β1 β2 ε layout gradients a)
    {gradient : Params K} {name : String} {i : Nat} (hplace : IsPlace layout name i) {y : K}
    (hy : gradient.element? name i = some y) :
    a.meanAfter name i y = (1 - β1) * decayed β1 (valuesAt (gradients ++ [gradient]) name i) ∧
      a.squareAfter name i y =
        (1 - β2) * decayed β2 ((valuesAt (gradients ++ [gradient]) name i).map (· ^ 2)) := by
  have hvalues : valuesAt (gradients ++ [gradient]) name i = valuesAt gradients name i ++ [y] := by
    simp [valuesAt, Params.valueAt, hy]
  have hmean : a.meanAfter name i y = a.beta1 * a.meanAt name i + (1 - a.beta1) * y := rfl
  have hsquare : a.squareAfter name i y =
      a.beta2 * a.squareAt name i + (1 - a.beta2) * (y * y) := rfl
  constructor
  · rw [hmean, h.mean name i hplace, h.beta1, hvalues, decayed_append]
    ring
  · rw [hsquare, h.square name i hplace, h.beta2, hvalues, List.map_append, List.map_singleton,
      decayed_append]
    ring

/-- A gradient of the layout is accumulated with those before it. -/
theorem Accumulated.absorb (h : Accumulated rate β1 β2 ε layout gradients a) {gradient : Params K}
    (hlayout : gradient.layout = layout) :
    Accumulated rate β1 β2 ε layout (gradients ++ [gradient]) (a.absorb gradient) := by
  have hkept : ∀ name i y, gradient.element? name i = some y →
      [(a.absorb gradient).meanAt name i, (a.absorb gradient).squareAt name i] =
        [a.meanAfter name i y, a.squareAfter name i y] := by
    intro name i y hy
    have hlearned := Optimizer.keptAt_absorb h.fits (Params.conforms_shapesOf hlayout) name i
    rw [hy] at hlearned
    exact hlearned
  have hlength : (gradients ++ [gradient]).length = gradients.length + 1 := by simp
  refine ⟨h.rate, h.beta1, h.beta2, h.epsilon, ?_, ?_, fun name m hm => ?_,
    fun name i hplace => ?_, fun name i hplace => ?_⟩
  · rw [hlength, pow_succ, ← h.power1, ← h.beta1]
    rfl
  · rw [hlength, pow_succ, ← h.power2, ← h.beta2]
    rfl
  · rw [find?_absorb] at hm
    cases hg : gradient.find? name with
    | none =>
      rw [hg] at hm
      exact h.names name m hm
    | some g =>
      rw [hg] at hm
      obtain rfl := Option.some.inj hm
      have hshape : layout.find? name = some g.shape := by
        rw [← hlayout, Params.find?_layout, hg]
        rfl
      exact ⟨hshape, hshape⟩
  · obtain ⟨y, hy⟩ := Params.exists_element?.2 (hlayout.symm ▸ hplace)
    exact (List.cons.inj (hkept name i y hy)).1.trans (h.learned hplace hy).1
  · obtain ⟨y, hy⟩ := Params.exists_element?.2 (hlayout.symm ▸ hplace)
    exact (List.cons.inj (List.cons.inj (hkept name i y hy)).2).1.trans (h.learned hplace hy).2

/-- What a use of the layout leaves has accumulated its gradient, if it is an update. -/
theorem Accumulated.afterAll (h : Accumulated rate β1 β2 ε layout gradients a)
    {uses : List (Optimizer.Use K)} (uniform : ∀ use ∈ uses, use.Of layout) :
    ∃ a', (Optimizer.adam a).afterAll uses = .adam a' ∧
      Accumulated (Optimizer.rateAfter rate uses) β1 β2 ε layout
        (gradients ++ Optimizer.gradientsOf uses) a' := by
  induction uses generalizing rate gradients a with
  | nil => exact ⟨a, rfl, by rw [Optimizer.gradientsOf, List.append_nil]; exact h⟩
  | cons use uses ih =>
    obtain ⟨huse, huses⟩ := List.forall_mem_cons.1 uniform
    cases use with
    | setRate rate' =>
      exact ih ⟨rfl, h.beta1, h.beta2, h.epsilon, h.power1, h.power2, h.names, h.mean, h.square⟩
        huses
    | update gradient params =>
      obtain ⟨hgradient, hparams⟩ := huse
      have hafter := Optimizer.after_update h.fits (Params.conforms_shapesOf hparams)
        (hparams.trans hgradient.symm)
      obtain ⟨a', ha', haccumulated⟩ := ih (h.absorb hgradient) huses
      refine ⟨a', ?_, ?_⟩
      · rw [← ha']
        exact congrArg (Optimizer.afterAll · uses) hafter
      · rw [List.append_assoc] at haccumulated
        exact haccumulated

/-- What has been accumulated once has the layout of the gradients. -/
theorem Accumulated.layout_moments (h : Accumulated rate β1 β2 ε layout gradients a)
    {gradient : Params K} (hlayout : gradient.layout = layout) :
    (a.absorb gradient).means.layout = layout ∧ (a.absorb gradient).squares.layout = layout := by
  have hshape : ∀ name, layout.find? name = (gradient.find? name).map (·.shape) := fun name => by
    rw [← hlayout, Params.find?_layout]
  have hmoments : ∀ name, ((a.absorb gradient).moments.find? name).map (·.mean.shape) =
        layout.find? name ∧
      ((a.absorb gradient).moments.find? name).map (·.square.shape) = layout.find? name := by
    intro name
    rw [find?_absorb, hshape]
    cases hg : gradient.find? name with
    | some g => exact ⟨rfl, rfl⟩
    | none =>
      -- a name that is not in the layout has never been met
      cases hm : a.moments.find? name with
      | none => exact ⟨rfl, rfl⟩
      | some m =>
        have hname := (h.names name m hm).1
        rw [hshape, hg] at hname
        cases hname
  constructor
  all_goals
    apply Dict.ext_find?
    intro name
    rw [Params.find?_layout]
  · rw [← (hmoments name).1, means, Params.find?, Dict.find?_mapValues, Option.map_map]
    rfl
  · rw [← (hmoments name).2, squares, Params.find?, Dict.find?_mapValues, Option.map_map]
    rfl

/-! ## Every update of a run -/

/-- What is accepted as hyperparameters. -/
theorem bounds_of_validate (valid : (OptimizerSpec.adam rate β1 β2 ε).validate = .ok ()) :
    (0 ≤ β1 ∧ β1 < 1) ∧ (0 ≤ β2 ∧ β2 < 1) ∧ 0 < ε := by
  obtain ⟨⟨⟩, -, valid⟩ := ok_of_bind valid
  obtain ⟨⟨⟩, hβ1, valid⟩ := ok_of_bind valid
  obtain ⟨⟨⟩, hβ2, hε⟩ := ok_of_bind valid
  have hfraction : ∀ β : K, Scalar.isFraction β = true → 0 ≤ β ∧ β < 1 := fun β h => by
    obtain ⟨hzero, hone⟩ := Bool.and_eq_true_iff.1 h
    exact ⟨of_decide_eq_true hzero, of_decide_eq_true hone⟩
  have hpositive : (!decide (ε ≤ 0)) = true := of_check hε
  exact ⟨hfraction β1 (of_check hβ1), hfraction β2 (of_check hβ2), by simpa using hpositive⟩

/-- What has been accumulated at a place of the layout. -/
theorem Accumulated.elements (h : Accumulated rate β1 β2 ε layout gradients a)
    (hmeans : a.means.layout = layout) (hsquares : a.squares.layout = layout) {name : String}
    {i : Nat} (hplace : IsPlace layout name i) :
    a.means.element? name i = some ((1 - β1) * decayed β1 (valuesAt gradients name i)) ∧
      a.squares.element? name i =
        some ((1 - β2) * decayed β2 ((valuesAt gradients name i).map (· ^ 2))) := by
  have hmean : (a.means.element? name i).getD 0 = a.meanAt name i := by
    rw [Params.element?, Params.find?, means, Dict.find?_mapValues]
    rfl
  have hsquare : (a.squares.element? name i).getD 0 = a.squareAt name i := by
    rw [Params.element?, Params.find?, squares, Dict.find?_mapValues]
    rfl
  obtain ⟨v, hv⟩ := Params.exists_element?.2 (hmeans.symm ▸ hplace)
  obtain ⟨s, hs⟩ := Params.exists_element?.2 (hsquares.symm ▸ hplace)
  rw [hv, Option.getD_some, h.mean name i hplace] at hmean
  rw [hs, Option.getD_some, h.square name i hplace] at hsquare
  exact ⟨hmean ▸ hv, hsquare ▸ hs⟩

/-- What becomes of an element by one more gradient. -/
theorem Accumulated.moved (h : Accumulated rate β1 β2 ε layout gradients a) {gradient : Params K}
    {name : String} {i : Nat} (hplace : IsPlace layout name i) {y : K}
    (hy : gradient.element? name i = some y) (x : K) :
    (Optimizer.adam a).moved name i x y =
      x - rate * Root.root (1 - β2 ^ (gradients.length + 1)) / (1 - β1 ^ (gradients.length + 1)) *
        ((1 - β1) * decayed β1 (valuesAt (gradients ++ [gradient]) name i)) /
        (Root.root
          ((1 - β2) * decayed β2 ((valuesAt (gradients ++ [gradient]) name i).map (· ^ 2))) +
          ε) := by
  have hmoved : (Optimizer.adam a).moved name i x y =
      x - a.rate * (Root.root (1 - a.power2 * a.beta2) / (1 - a.power1 * a.beta1)) *
        a.meanAfter name i y / (Root.root (a.squareAfter name i y) + a.epsilon) := rfl
  obtain ⟨hv, hs⟩ := h.learned hplace hy
  rw [hmoved, hv, hs, h.rate, h.epsilon, h.power1, h.power2, h.beta1, h.beta2, ← pow_succ,
    ← pow_succ, ← mul_div_assoc rate]

variable [IsStrictOrderedRing K]

/-- Every update of a run, in exact arithmetic. After `t` updates by gradients of one layout, at any
    rates, the powers are the `t`-th ones, and at every place the mean and the mean of squares are
    the decayed sums of what the gradients are there. The corrections and the divisor are positive,
    and the last update was made by the ratio of the two at the rate in force. -/
theorem update_unrolled (hroot : ∀ x : K, 0 ≤ x → 0 ≤ Root.root x)
    (valid : (OptimizerSpec.adam rate β1 β2 ε).validate = .ok ())
    {history : List (Optimizer.Use K)} (uniform : ∀ use ∈ history, use.Of layout)
    {gradient params : Params K} (hgradient : gradient.layout = layout)
    (hparams : params.layout = layout) :
    let gradients := Optimizer.gradientsOf history ++ [gradient]
    let t := gradients.length
    ∃ a params', (Optimizer.updateInPlace gradient).run
        ⟨(OptimizerSpec.adam rate β1 β2 ε).build.afterAll history, params⟩ =
          .ok () ⟨.adam a, params'⟩ ∧
      a.power1 = β1 ^ t ∧ a.power2 = β2 ^ t ∧ 0 < 1 - β1 ^ t ∧ 0 < 1 - β2 ^ t ∧
      a.means.layout = layout ∧ a.squares.layout = layout ∧
      ∀ name i x, params.element? name i = some x →
        let v := (1 - β1) * decayed β1 (valuesAt gradients name i)
        let s := (1 - β2) * decayed β2 ((valuesAt gradients name i).map (· ^ 2))
        a.means.element? name i = some v ∧ a.squares.element? name i = some s ∧
          0 ≤ s ∧ 0 < Root.root s + ε ∧
          params'.element? name i = some (x - Optimizer.rateAfter rate history *
            Root.root (1 - β2 ^ t) / (1 - β1 ^ t) * v / (Root.root s + ε)) := by
  intro gradients t
  obtain ⟨⟨hβ1, hβ1lt⟩, ⟨hβ2, hβ2lt⟩, hε⟩ := bounds_of_validate valid
  obtain ⟨start, hstart, hnothing⟩ := accumulated_build rate β1 β2 ε layout
  obtain ⟨a, ha, haccumulated⟩ := hnothing.afterAll uniform
  have hlayout := hparams.trans hgradient.symm
  have hrun := Optimizer.run_update haccumulated.fits (Params.conforms_shapesOf hparams) hlayout
  have habsorbed := haccumulated.absorb hgradient
  obtain ⟨hmeans, hsquares⟩ := haccumulated.layout_moments hgradient
  have ht : t = (Optimizer.gradientsOf history).length + 1 := by simp [t, gradients]
  have ht0 : t ≠ 0 := by omega
  refine ⟨a.absorb gradient, (Optimizer.adam a).move gradient params, ?_, habsorbed.power1,
    habsorbed.power2, sub_pos.2 (pow_lt_one₀ hβ1 hβ1lt ht0), sub_pos.2 (pow_lt_one₀ hβ2 hβ2lt ht0),
    hmeans, hsquares, fun name i x hx => ?_⟩
  · rw [hstart, ha]
    exact hrun
  · intro v s
    have hplace : IsPlace layout name i := hparams ▸ Params.exists_element?.1 ⟨x, hx⟩
    obtain ⟨hmean, hsquare⟩ := habsorbed.elements hmeans hsquares hplace
    have hs : 0 ≤ s := mul_nonneg (sub_nonneg.2 hβ2lt.le) (decayed_squares_nonneg hβ2 _)
    obtain ⟨y, hy⟩ := Params.exists_element?.2 (hgradient.symm ▸ hplace)
    refine ⟨hmean, hsquare, hs, add_pos_of_nonneg_of_pos (hroot s hs) hε, ?_⟩
    rw [Optimizer.element?_move _ hlayout, hx, hy, ht]
    exact congrArg some (haccumulated.moved hplace hy x)

/-- Two updates over the rationals, the second one at a rate of 3. With gradients of 2 and 4 the
    mean is 5/2, the mean of squares, which forgets all but the last of them, is 16, and an element
    goes from 1 to -1. -/
theorem update_unrolled_two :
    let single (x : ℚ) : Params ℚ := Params.empty.insert "weight" (.ofFn [1] fun _ => x)
    let history : List (Optimizer.Use ℚ) := [.update (single 2) (single 1), .setRate 3]
    let spec : OptimizerSpec ℚ := .adam 1 (1 / 2) 0 1
    (∀ x : ℚ, 0 ≤ x → 0 ≤ Root.root x) ∧ spec.validate = .ok () ∧
      (∀ use ∈ history, use.Of (single 1).layout) ∧ (single 4).layout = (single 1).layout ∧
      ∃ a params', (Optimizer.updateInPlace (single 4)).run
          ⟨spec.build.afterAll history, single 1⟩ = .ok () ⟨.adam a, params'⟩ ∧
        a.power1 = 1 / 4 ∧ a.means.element? "weight" 0 = some (5 / 2) ∧
        a.squares.element? "weight" 0 = some 16 ∧ params'.element? "weight" 0 = some (-1) := by
  intro single history spec
  have hroot : ∀ x : ℚ, 0 ≤ x → 0 ≤ Root.root x := fun x _ => Rat.sqrt_nonneg x
  have valid : spec.validate = .ok () := by
    have hvalid : spec.validate.toOption = some () := by decide +kernel
    cases hresult : spec.validate with
    | error e =>
      rw [hresult] at hvalid
      cases hvalid
    | ok _ => rfl
  have hlayout : ∀ x y : ℚ, (single x).layout = (single y).layout := fun _ _ => rfl
  have uniform : ∀ use ∈ history, use.Of (single 1).layout := by
    simp only [history, List.forall_mem_cons]
    exact ⟨⟨hlayout 2 1, rfl⟩, trivial, fun _ h => nomatch h⟩
  obtain ⟨a, params', hrun, hpower1, -, -, -, -, -, hplaces⟩ :=
    update_unrolled hroot valid uniform (hlayout 4 1) rfl
  have hx : (single 1).element? "weight" 0 = some 1 := by decide +kernel
  obtain ⟨hmean, hsquare, -, -, hmoved⟩ := hplaces "weight" 0 1 hx
  refine ⟨hroot, valid, uniform, hlayout 4 1, a, params', hrun, ?_, ?_, ?_, ?_⟩
  · rw [hpower1]
    decide +kernel
  · rw [hmean]
    decide +kernel
  · rw [hsquare]
    decide +kernel
  · rw [hmoved]
    decide +kernel

end Adam

end Federated
