/-
  Federated.Proofs.Averaging.Consensus

  Averages in exact arithmetic, where a merge is a consensus: each of its elements is the centre
  of mass of the elements of the models, under the weights as they were given.

    * `Weights.restrict_isOk_iff`, `Weights.find?_of_restrict_eq` — when weights can be restricted
      to workers in exact arithmetic, and to what.
    * `Params.Mergeable` — models of one layout with weights for all of them.
    * `Params.Mergeable.average` — their merge, element by element.
    * `Params.Mergeable.average_congr` — it depends on the models of positive weight alone, and on
      their weights up to a common factor.
    * `Params.average_consensus` — what follows for the shares and for the merge.
-/
import Federated.Proofs.Averaging.Reference
import Federated.Proofs.Numeric.Exact

namespace Federated

-- the operations of exact arithmetic are written as those of the field
attribute [-instance] Scalar.toAdd Scalar.toSub Scalar.toMul Scalar.toDiv Scalar.toNeg

variable {K : Type} [Field K] [LinearOrder K] [Root K]

namespace Weights

open Params (shareOf)

/-! ## Restricted weights -/

section
variable {ws : Weights K} {ids : List WorkerId}

theorem shareOf_of_find? {w : WorkerId} {x : K} (h : ws.find? w = some x) : shareOf ws w = x := by
  rw [shareOf, h]
  rfl

theorem shareOf_of_none {w : WorkerId} (h : ws.find? w = none) : shareOf ws w = 0 := by
  rw [shareOf, h]
  rfl

/-- A weight can be used unless it is negative. -/
theorem usable_exact_iff {x : K} : Usable x ↔ 0 ≤ x := by
  show true = true ∧ decide (x < 0) = false ↔ 0 ≤ x
  simp

/-- Weights that were collected add up to those given. -/
theorem sum_of_collect (hids : ids.Pairwise fun v w => compare v w = .lt)
    {es : List (WorkerId × K)} (h : ws.collect ids = .ok es) :
    (ofList es).total = (ids.map (shareOf ws)).sum := by
  obtain ⟨rfl, hall⟩ := collect_eq_ok_iff.1 h
  have hentries : (ofList es).byWorker.values = es.map (·.2) := by
    show (Dict.ofList es).entries.map (·.2) = _
    rw [Dict.entries_ofList (List.pairwise_map.1 hids)]
  have hshares : (es.map (·.1)).map (shareOf ws) = es.map (·.2) := by
    rw [List.map_map]
    exact List.map_congr_left fun e he => shareOf_of_find? (hall e he).1
  rw [hshares, total, hentries, List.sum_eq_foldl]
  rfl

/-- Weights can be restricted to workers exactly if each has one that is not negative and they do
    not all vanish. -/
theorem restrict_isOk_iff (hids : ids.Pairwise fun v w => compare v w = .lt) :
    (∃ shares, ws.restrict ids = .ok shares) ↔
      (∀ w ∈ ids, ∃ x, ws.find? w = some x ∧ 0 ≤ x) ∧ 0 < (ids.map (shareOf ws)).sum := by
  constructor
  · rintro ⟨shares, h⟩
    obtain ⟨es, hes, htotal, -⟩ := restrict_eq_ok h
    rw [sum_of_collect hids hes] at htotal
    obtain ⟨rfl, hall⟩ := collect_eq_ok_iff.1 hes
    refine ⟨fun w hw => ?_, not_le.1 (of_decide_eq_false htotal)⟩
    obtain ⟨e, he, rfl⟩ := List.mem_map.1 hw
    exact ⟨e.2, (hall e he).1, usable_exact_iff.1 (hall e he).2⟩
  · rintro ⟨hall, hpos⟩
    obtain ⟨es, hes⟩ := exists_collect fun w hw =>
      (hall w hw).imp fun x hx => ⟨hx.1, usable_exact_iff.2 hx.2⟩
    rw [← sum_of_collect hids hes] at hpos
    have hle : ¬ Scalar.le (ofList es).total Scalar.zero = true :=
      fun h => not_le.2 hpos (of_decide_eq_true h)
    exact ⟨_, (restrict_of_collect hes).trans (if_neg hle)⟩

/-- Restricted weights are those of the workers, divided by their sum. -/
theorem find?_of_restrict_eq (hids : ids.Pairwise fun v w => compare v w = .lt)
    {shares : Weights K} (h : ws.restrict ids = .ok shares) (w : WorkerId) :
    shares.find? w =
      if w ∈ ids then (ws.find? w).map (· / (ids.map (shareOf ws)).sum) else none := by
  obtain ⟨es, hes, -, hfind⟩ := restrict_eq_ok h
  rw [hfind, sum_of_collect hids hes]
  split_ifs with hw
  · rw [find?_of_collect hes hw]
  · have hnone : (ofList es).find? w = none := by
      rw [← Option.not_isSome_iff_eq_none]
      exact fun hsome => hw (keys_collect hes ▸ Dict.isSome_find?_ofList.1 hsome)
    rw [hnone]
    rfl

/-- All weights times a factor. -/
def scale (ws : Weights K) (c : K) : Weights K := ⟨ws.byWorker.mapValues fun _ x => c * x⟩

omit [LinearOrder K] [Root K] in
theorem find?_scale (ws : Weights K) (c : K) (w : WorkerId) :
    (ws.scale c).find? w = (ws.find? w).map (c * ·) := Dict.find?_mapValues _ _ w

theorem shareOf_scale (ws : Weights K) (c : K) (w : WorkerId) :
    shareOf (ws.scale c) w = c * shareOf ws w := by
  cases h : ws.find? w with
  | none => rw [shareOf_of_none h, shareOf_of_none (by rw [find?_scale, h]; rfl), mul_zero]
  | some x => rw [shareOf_of_find? h, shareOf_of_find? (by rw [find?_scale, h]; rfl)]

/-- The weight one for each worker. -/
theorem find?_uniform {w : WorkerId} (hw : w ∈ ids) :
    (uniform ids : Weights K).find? w = some 1 := by
  have hkey : w ∈ (ids.map fun v => (v, (Scalar.one : K))).map (·.1) := by
    simpa [Function.comp_def] using hw
  obtain ⟨x, hx⟩ := Option.isSome_iff_exists.1 (Dict.isSome_find?_ofList.2 hkey)
  obtain ⟨v, -, hv⟩ := List.mem_map.1 (mem_of_find?_ofList hx)
  obtain rfl : x = 1 := (Prod.mk.inj hv).2.symm
  exact hx

end

end Weights

namespace Params

open Weights

/-! ## Merges -/

/-- The weights that the shares of a merge are made from. -/
def given (weights : Option (Weights K)) (ids : List WorkerId) : Weights K :=
  weights.getD (Weights.uniform ids)

/-- Models of some workers, of one layout, and weights that can be restricted to the workers, or no
    weights. -/
structure Mergeable (models : List (WorkerId × Params K)) (weights : Option (Weights K))
    (ids : List WorkerId) (layout : Dict String (List Nat)) : Prop where
  lists : Lists models ids
  nonempty : ids ≠ []
  layout : ∀ w ∈ ids, ∃ model, listed? models w = some model ∧ model.layout = layout
  accepted : ∀ ws, weights = some ws → ∃ shares, ws.restrict ids = .ok shares

section
variable {models : List (WorkerId × Params K)} {weights : Option (Weights K)}
  {ids : List WorkerId} {layout : Dict String (List Nat)}

omit [Field K] [LinearOrder K] [Root K] in
theorem Lists.sorted (h : Lists models ids) : ids.Pairwise fun v w => compare v w = .lt :=
  h.ascending.imp fun hlt => Std.compare_eq_lt.2 hlt

omit [Field K] [LinearOrder K] [Root K] in
theorem Lists.nodup (h : Lists models ids) : ids.Nodup :=
  h.ascending.imp fun {v w} hlt heq => by
    subst heq
    exact Nat.lt_irrefl _ hlt

omit [LinearOrder K] [Root K] in
/-- The results of a computation that succeeds on all members of a list. -/
theorem eq_map_of_mapM {ι : Type} {term : ι → Option K} {l : List ι} {xs : List K}
    (h : l.mapM term = some xs) : xs = l.map fun w => (term w).getD 0 := by
  induction l generalizing xs with
  | nil =>
    cases h
    rfl
  | cons w l ih =>
    rw [List.mapM_cons] at h
    obtain ⟨x, hx, h⟩ := Option.bind_eq_some_iff.1 h
    obtain ⟨rest, hrest, h⟩ := Option.bind_eq_some_iff.1 h
    cases h
    rw [List.map_cons, hx, ih hrest]
    rfl

/-- A sum from the left is a sum. -/
theorem bind_leftSum? {ι : Type} {term : ι → Option K} {l : List ι} (hne : l ≠ []) :
    (l.mapM term).bind leftSum? = (l.mapM term).map List.sum := by
  cases hterms : l.mapM term with
  | none => rfl
  | some xs =>
    obtain ⟨w, l, rfl⟩ := List.exists_cons_of_ne_nil hne
    have hxs := eq_map_of_mapM hterms
    rw [List.map_cons] at hxs
    subst hxs
    have hsum : ∀ (x : K) (xs : List K), xs.foldl (· + ·) x = (x :: xs).sum := by
      intro x xs
      rw [List.sum_eq_foldl, List.foldl_cons, zero_add]
    exact congrArg some (hsum _ _)

variable [IsStrictOrderedRing K]

/-- Without weights all models count the same. -/
theorem Mergeable.restricts (h : Mergeable models weights ids layout) :
    ∃ shares, (given weights ids).restrict ids = .ok shares := by
  cases weights with
  | some ws => exact h.accepted ws rfl
  | none =>
    refine (restrict_isOk_iff h.lists.sorted).2
      ⟨fun w hw => ⟨1, find?_uniform hw, zero_le_one⟩, ?_⟩
    have hones : ids.map (shareOf (uniform ids : Weights K)) = ids.map fun _ => 1 :=
      List.map_congr_left fun w hw => shareOf_of_find? (find?_uniform hw)
    have hlength : 0 < ids.length := List.length_pos_iff.2 h.nonempty
    rw [given, Option.getD_none, hones]
    simpa using hlength

omit [Field K] [LinearOrder K] [Root K] [IsStrictOrderedRing K] in
theorem Lists.listed (h : Lists models ids) {w : WorkerId} {model : Params K}
    (hw : listed? models w = some model) : w ∈ ids := by
  rw [← h.eq_keys, (lists_keys models).mem, ← Dict.isSome_find?_ofList, find?_ofList, hw]
  rfl

omit [Field K] [LinearOrder K] [Root K] [IsStrictOrderedRing K] in
theorem Lists.unique {ids' : List WorkerId} (h : Lists models ids) (h' : Lists models ids') :
    ids' = ids :=
  h'.eq_keys.symm.trans h.eq_keys

/-- Models that can be merged are, into the sums of their elements times their shares. -/
theorem Mergeable.merge (h : Mergeable models weights ids layout) :
    ∃ shares merged, (given weights ids).restrict ids = .ok shares ∧
      average models weights = .ok (some merged) ∧ merged.layout = layout ∧
      ∀ name i, merged.element? name i =
        (ids.mapM (term? models shares name i)).map List.sum := by
  obtain ⟨shares, hshares⟩ := h.restricts
  have hspec := average_spec (mul_comm (G := K)) models weights
  generalize average models weights = result at hspec
  cases hspec with
  | nothing empty =>
    -- without models there are no workers
    subst empty
    obtain ⟨w, hw⟩ := List.exists_mem_of_ne_nil ids h.nonempty
    cases (h.lists.mem w).1 hw
  | @single w model lists only =>
    obtain rfl := h.lists.unique lists
    obtain ⟨model', hmodel', hlayout⟩ := h.layout w List.mem_cons_self
    obtain rfl : model = model' := Option.some.inj (only.symm.trans hmodel')
    refine ⟨shares, model, hshares, rfl, hlayout, fun name i => ?_⟩
    -- the share of the only worker is one
    have hpos := ((restrict_isOk_iff h.lists.sorted).1 ⟨shares, hshares⟩).2
    have hfind := find?_of_restrict_eq h.lists.sorted hshares w
    rw [if_pos List.mem_cons_self] at hfind
    obtain ⟨x, hx, -⟩ :=
      ((restrict_isOk_iff h.lists.sorted).1 ⟨shares, hshares⟩).1 w List.mem_cons_self
    rw [List.map_singleton, List.sum_singleton, shareOf_of_find? hx] at hpos hfind
    rw [hx, Option.map_some, div_self hpos.ne'] at hfind
    have hterm : term? models shares name i w = (model.element? name i).map (1 * ·) := by
      rw [term?, hfind, only]
      show (model.element? name i >>= fun y => some (1 * y)) = _
      cases model.element? name i <;> rfl
    rw [List.mapM_cons, hterm, List.mapM_nil]
    cases model.element? name i with
    | none => rfl
    | some x => simp
  | @foreign v w before after first model mismatch lists least agree other differs =>
    obtain rfl := h.lists.unique lists
    obtain ⟨p, hp, hlayout⟩ := h.layout v (by simp)
    obtain ⟨q, hq, hlayout'⟩ := h.layout w (by simp)
    obtain rfl : first = p := Option.some.inj (least.symm.trans hp)
    obtain rfl : model = q := Option.some.inj (other.symm.trans hq)
    rw [layoutMismatch?_eq_none_iff.2 (hlayout.trans hlayout'.symm)] at differs
    cases differs
  | refused lists least agree refusal =>
    obtain rfl := h.lists.unique lists
    cases hshares.symm.trans refusal
  | @merged v w rest first model shares' lists least agree restricted layout' elements =>
    obtain rfl := h.lists.unique lists
    obtain rfl : shares' = shares := Except.ok.inj (restricted.symm.trans hshares)
    obtain ⟨p, hp, hlayout⟩ := h.layout v List.mem_cons_self
    obtain rfl : first = p := Option.some.inj (least.symm.trans hp)
    refine ⟨shares', model, hshares, rfl, layout'.trans hlayout, fun name i => ?_⟩
    rw [elements, bind_leftSum? (List.cons_ne_nil _ _)]

/-! ## The centre of mass -/

/-- An element of the model that counts for a worker. -/
def elementAt (models : List (WorkerId × Params K)) (name : String) (i : Nat) (w : WorkerId) : K :=
  ((listed? models w).bind (·.element? name i)).getD 0

/-- A worker of a merge whose weight is positive, with its model. -/
structure Counted (models : List (WorkerId × Params K)) (ws : Weights K) (w : WorkerId)
    (model : Params K) (x : K) : Prop where
  listed : listed? models w = some model
  weight : ws.find? w = some x
  pos : 0 < x

/-- The weights of a merge are not negative, and do not all vanish. -/
theorem Mergeable.weighed (h : Mergeable models weights ids layout) :
    (∀ w ∈ ids, ∃ x, (given weights ids).find? w = some x ∧ 0 ≤ x) ∧
      0 < (ids.map (shareOf (given weights ids))).sum :=
  (restrict_isOk_iff h.lists.sorted).1 h.restricts

theorem Mergeable.counted_iff (h : Mergeable models weights ids layout) {w : WorkerId}
    (hw : w ∈ ids) : shareOf (given weights ids) w ≠ 0 ↔
      ∃ model, Counted models (given weights ids) w model (shareOf (given weights ids) w) := by
  obtain ⟨x, hx, hx0⟩ := h.weighed.1 w hw
  obtain ⟨model, hmodel, -⟩ := h.layout w hw
  rw [shareOf_of_find? hx]
  exact ⟨fun hne => ⟨model, hmodel, hx, hx0.lt_of_ne' hne⟩, fun ⟨_, hcounted⟩ => hcounted.pos.ne'⟩

theorem Mergeable.exists_counted (h : Mergeable models weights ids layout) :
    ∃ w model x, Counted models (given weights ids) w model x := by
  by_contra hnone
  have hzero : (ids.map (shareOf (given weights ids))).sum = 0 := by
    refine List.sum_eq_zero fun x hx => ?_
    obtain ⟨w, hw, rfl⟩ := List.mem_map.1 hx
    by_contra hne
    obtain ⟨model, hcounted⟩ := (h.counted_iff hw).1 hne
    exact hnone ⟨w, model, _, hcounted⟩
  exact h.weighed.2.ne' hzero

/-- Each element of a merge is the centre of mass of those of the models. -/
theorem Mergeable.centerMass (h : Mergeable models weights ids layout) {shares : Weights K}
    (hshares : (given weights ids).restrict ids = .ok shares) {merged : Params K}
    (elements : ∀ name i, merged.element? name i =
      (ids.mapM (term? models shares name i)).map List.sum)
    {name : String} {i : Nat} {x : K} (hx : merged.element? name i = some x) :
    x = ids.toFinset.centerMass (shareOf (given weights ids)) (elementAt models name i) := by
  rw [elements, Option.map_eq_some_iff] at hx
  obtain ⟨xs, hxs, rfl⟩ := hx
  have hterm : ∀ w ∈ ids, (term? models shares name i w).getD 0 =
      (ids.map (shareOf (given weights ids))).sum⁻¹ *
        (shareOf (given weights ids) w * elementAt models name i w) := by
    intro w hw
    obtain ⟨y, hy, -⟩ := h.weighed.1 w hw
    obtain ⟨model, hmodel, -⟩ := h.layout w hw
    have hfind := find?_of_restrict_eq h.lists.sorted hshares w
    rw [if_pos hw, hy, Option.map_some] at hfind
    rw [term?, hfind, hmodel, elementAt, hmodel, shareOf_of_find? hy]
    show ((model.element? name i).bind fun z => some (_ * z)).getD 0 =
      _ * (y * (model.element? name i).getD 0)
    cases model.element? name i with
    | none => simp
    | some z =>
      show y / _ * z = _ * (y * z)
      ring
  rw [eq_map_of_mapM hxs, List.map_congr_left hterm, Finset.centerMass, List.sum_map_mul_left,
    List.sum_toFinset _ h.lists.nodup, List.sum_toFinset _ h.lists.nodup]
  rfl

omit [Field K] [LinearOrder K] [Root K] [IsStrictOrderedRing K] in
/-- Models of one layout have the same places. -/
theorem isSome_element? {p q : Params K} (h : p.layout = q.layout) (name : String) (i : Nat) :
    (p.element? name i).isSome = (q.element? name i).isSome := by
  have hshape := layout_eq_iff.1 h name
  unfold element?
  cases hp : p.find? name with
  | none =>
    rw [hp] at hshape
    rw [Option.map_eq_none_iff.1 hshape.symm]
  | some t =>
    rw [hp, Option.map_some, eq_comm, Option.map_eq_some_iff] at hshape
    obtain ⟨u, hq, hshape⟩ := hshape
    rw [hq]
    show (t.data[i]?).isSome = (u.data[i]?).isSome
    have hsize : t.data.size = u.data.size := by rw [t.size_eq, u.size_eq, hshape]
    rw [Bool.eq_iff_iff, Option.isSome_iff_exists, Option.isSome_iff_exists]
    simp [Array.getElem?_eq_some_iff, hsize]

/-- A merge depends on the models of positive weight alone, and on their weights up to a common
    factor. -/
theorem Mergeable.average_congr (h : Mergeable models weights ids layout)
    {models' : List (WorkerId × Params K)} {weights' : Option (Weights K)} {ids' : List WorkerId}
    (h' : Mergeable models' weights' ids' layout) {c : K} (hc : 0 < c)
    (hsame : ∀ w model x, Counted models' (given weights' ids') w model (c * x) ↔
      Counted models (given weights ids) w model x) :
    average models' weights' = average models weights := by
  obtain ⟨shares, merged, hshares, haverage, hlayout, helements⟩ := h.merge
  obtain ⟨shares', merged', hshares', haverage', hlayout', helements'⟩ := h'.merge
  rw [haverage, haverage']
  refine congrArg (Except.ok ∘ some) (ext_elements (hlayout'.trans hlayout.symm) fun name i => ?_)
  have hplaces := isSome_element? (hlayout'.trans hlayout.symm) name i
  cases hx' : merged'.element? name i with
  | none =>
    rw [hx', Option.isSome_none, eq_comm, Option.isSome_eq_false_iff, Option.isNone_iff_eq_none]
      at hplaces
    exact hplaces.symm
  | some x' =>
    rw [hx', Option.isSome_some, eq_comm, Option.isSome_iff_exists] at hplaces
    obtain ⟨x, hx⟩ := hplaces
    rw [hx, h.centerMass hshares helements hx, h'.centerMass hshares' helements' hx',
      ← Finset.centerMass_smul_left ids.toFinset _ hc.ne']
    have hagree : ∀ w model x, Counted models (given weights ids) w model x →
        w ∈ ids'.toFinset ∩ ids.toFinset ∧
          shareOf (given weights' ids') w = c • shareOf (given weights ids) w ∧
          elementAt models' name i w = elementAt models name i w := by
      intro w model x hcounted
      have hcounted' := (hsame w model x).2 hcounted
      refine ⟨?_, ?_, ?_⟩
      · simp [h.lists.listed hcounted.listed, h'.lists.listed hcounted'.listed]
      · rw [shareOf_of_find? hcounted.weight, shareOf_of_find? hcounted'.weight, smul_eq_mul]
      · rw [elementAt, elementAt, hcounted.listed, hcounted'.listed]
    -- a weight that is not zero is that of a model that counts, on either side
    refine congrArg some (Finset.centerMass_congr fun w hw => ?_)
    rcases hw with ⟨hw, hne⟩ | ⟨hw, hne⟩
    · obtain ⟨model, hcounted⟩ := (h'.counted_iff (List.mem_toFinset.1 hw)).1 hne
      refine hagree w model (c⁻¹ * shareOf (given weights' ids') w) ((hsame _ _ _).1 ?_)
      rwa [mul_inv_cancel_left₀ hc.ne']
    · rw [Pi.smul_apply, smul_ne_zero_iff] at hne
      obtain ⟨model, hcounted⟩ := (h.counted_iff (List.mem_toFinset.1 hw)).1 hne.2
      exact hagree w model _ hcounted

/-- The elements at a place of the models that count. -/
def elementsOf (models : List (WorkerId × Params K)) (ws : Weights K) (name : String) (i : Nat) :
    Set K :=
  {y | ∃ w model x, Counted models ws w model x ∧ model.element? name i = some y}

/-- Each element of a merge lies between the least and the greatest of those that count. -/
theorem Mergeable.between (h : Mergeable models weights ids layout) {merged : Params K}
    (hlayout : merged.layout = layout) {name : String} {i : Nat} {x : K}
    (hx : merged.element? name i = some x)
    (hmass : x = ids.toFinset.centerMass (shareOf (given weights ids)) (elementAt models name i)) :
    ∃ lo hi, IsLeast (elementsOf models (given weights ids) name i) lo ∧
      IsGreatest (elementsOf models (given weights ids) name i) hi ∧ lo ≤ x ∧ x ≤ hi := by
  classical
  -- the workers that count
  let voters := ids.toFinset.filter (shareOf (given weights ids) · ≠ 0)
  have hvoters : ∀ y, y ∈ elementsOf models (given weights ids) name i ↔
      ∃ w ∈ voters, elementAt models name i w = y := by
    intro y
    constructor
    · rintro ⟨w, model, weight, hcounted, hy⟩
      have hw := h.lists.listed hcounted.listed
      refine ⟨w, Finset.mem_filter.2 ⟨List.mem_toFinset.2 hw, ?_⟩, ?_⟩
      · rw [shareOf_of_find? hcounted.weight]
        exact hcounted.pos.ne'
      · rw [elementAt, hcounted.listed, Option.bind_some, hy, Option.getD_some]
    · rintro ⟨w, hw, rfl⟩
      obtain ⟨hw, hne⟩ := Finset.mem_filter.1 hw
      rw [List.mem_toFinset] at hw
      obtain ⟨model, hcounted⟩ := (h.counted_iff hw).1 hne
      obtain ⟨model', hmodel', hlayout'⟩ := h.layout w hw
      obtain rfl : model = model' := Option.some.inj (hcounted.listed.symm.trans hmodel')
      have hplace := isSome_element? (hlayout.trans hlayout'.symm) name i
      rw [hx, Option.isSome_some, eq_comm, Option.isSome_iff_exists] at hplace
      obtain ⟨y, hy⟩ := hplace
      refine ⟨w, model, _, hcounted, ?_⟩
      rw [elementAt, hcounted.listed, Option.bind_some, hy, Option.getD_some]
  have hnonneg : ∀ w ∈ voters, 0 ≤ shareOf (given weights ids) w := by
    intro w hw
    obtain ⟨y, hy, hy0⟩ := h.weighed.1 w (List.mem_toFinset.1 (Finset.mem_filter.1 hw).1)
    rwa [shareOf_of_find? hy]
  have hpos : 0 < ∑ w ∈ voters, shareOf (given weights ids) w := by
    rw [Finset.sum_filter_ne_zero, List.sum_toFinset _ h.lists.nodup]
    exact h.weighed.2
  have hne : voters.Nonempty := Finset.nonempty_of_sum_ne_zero hpos.ne'
  rw [← Finset.centerMass_filter_ne_zero] at hmass
  obtain ⟨v, hv, hlo⟩ := Finset.exists_mem_eq_inf' hne (elementAt models name i)
  obtain ⟨w, hw, hhi⟩ := Finset.exists_mem_eq_sup' hne (elementAt models name i)
  refine ⟨_, _, ⟨(hvoters _).2 ⟨v, hv, rfl⟩, ?_⟩, ⟨(hvoters _).2 ⟨w, hw, rfl⟩, ?_⟩, ?_, ?_⟩
  · intro y hy
    obtain ⟨u, hu, rfl⟩ := (hvoters y).1 hy
    exact hlo ▸ Finset.inf'_le _ hu
  · intro y hy
    obtain ⟨u, hu, rfl⟩ := (hvoters y).1 hy
    exact hhi ▸ Finset.le_sup' _ hu
  · rw [hmass, ← hlo]
    exact Finset.inf_le_centerMass hnonneg hpos
  · rw [hmass, ← hhi]
    exact Finset.centerMass_le_sup hnonneg hpos

/-- Models that are all the same where they count merge to themselves. -/
theorem Mergeable.eq_of_counted (h : Mergeable models weights ids layout) {merged model : Params K}
    (hlayout : merged.layout = layout)
    (hbetween : ∀ name i x, merged.element? name i = some x →
      ∃ lo hi, IsLeast (elementsOf models (given weights ids) name i) lo ∧
        IsGreatest (elementsOf models (given weights ids) name i) hi ∧ lo ≤ x ∧ x ≤ hi)
    (hsame : ∀ w p x, Counted models (given weights ids) w p x → p = model) : merged = model := by
  obtain ⟨w, p, x, hcounted⟩ := h.exists_counted
  have hw := h.lists.listed hcounted.listed
  obtain rfl := hsame w p _ hcounted
  obtain ⟨q, hq, hlayout'⟩ := h.layout w hw
  obtain rfl : p = q := Option.some.inj (hcounted.listed.symm.trans hq)
  refine ext_elements (hlayout.trans hlayout'.symm) fun name i => ?_
  have hplaces := isSome_element? (hlayout.trans hlayout'.symm) name i
  cases hx : merged.element? name i with
  | none =>
    rw [hx, Option.isSome_none, eq_comm, Option.isSome_eq_false_iff, Option.isNone_iff_eq_none]
      at hplaces
    exact hplaces.symm
  | some x =>
    obtain ⟨lo, hi, ⟨⟨v, a, _, ha, hlo⟩, -⟩, ⟨⟨u, b, _, hb, hhi⟩, -⟩, hle, hge⟩ :=
      hbetween name i x hx
    -- both bounds are elements of the one model
    obtain rfl := hsame v a _ ha
    obtain rfl := hsame u b _ hb
    obtain rfl := Option.some.inj (hlo.symm.trans hhi)
    rw [hlo, le_antisymm hge hle]

/-! ## What changes nothing -/

theorem Mergeable.scale {ws : Weights K} (h : Mergeable models (some ws) ids layout) {c : K}
    (hc : 0 < c) : Mergeable models (some (ws.scale c)) ids layout := by
  obtain ⟨hall, hpos⟩ := h.weighed
  refine ⟨h.lists, h.nonempty, h.layout, ?_⟩
  rintro _ ⟨⟩
  refine (restrict_isOk_iff h.lists.sorted).2 ⟨fun w hw => ?_, ?_⟩
  · obtain ⟨x, hx, hx0⟩ := hall w hw
    exact ⟨c * x, by rw [find?_scale]; exact congrArg _ hx, mul_nonneg hc.le hx0⟩
  · have hshares : ids.map (shareOf (ws.scale c)) = ids.map fun w => c * shareOf ws w :=
      List.map_congr_left fun w _ => shareOf_scale ws c w
    rw [hshares, List.sum_map_mul_left]
    exact mul_pos hc hpos

/-- A common factor of all weights changes nothing. -/
theorem Mergeable.average_scale {ws : Weights K} (h : Mergeable models (some ws) ids layout) {c : K}
    (hc : 0 < c) : average models (some (ws.scale c)) = average models (some ws) := by
  refine h.average_congr (h.scale hc) hc fun w model x => ?_
  show Counted models (ws.scale c) w model (c * x) ↔ Counted models ws w model x
  constructor
  · rintro ⟨hlisted, hweight, hpos⟩
    rw [find?_scale, Option.map_eq_some_iff] at hweight
    obtain ⟨y, hy, hyx⟩ := hweight
    obtain rfl := mul_left_cancel₀ hc.ne' hyx
    exact ⟨hlisted, hy, pos_of_mul_pos_right hpos hc.le⟩
  · rintro ⟨hlisted, hweight, hpos⟩
    exact ⟨hlisted, by rw [find?_scale, hweight]; rfl, mul_pos hc hpos⟩

omit [Root K] [IsStrictOrderedRing K] in
/-- A worker of weight zero does not count. -/
theorem not_counted_of_zero {ws : Weights K} {w : WorkerId} (hzero : ws.find? w = some 0)
    {model : Params K} {x : K} : ¬ Counted models ws w model x := by
  rintro ⟨-, hweight, hpos⟩
  rw [hzero] at hweight
  cases hweight
  exact lt_irrefl _ hpos

/-- Models that differ in one worker of weight zero have the same merge. -/
theorem Mergeable.average_congr_zero (h : Mergeable models weights ids layout)
    {models' : List (WorkerId × Params K)} {ids' : List WorkerId}
    (h' : Mergeable models' weights ids' layout)
    (hgiven : given weights ids' = given weights ids) {w : WorkerId}
    (hzero : (given weights ids).find? w = some 0)
    (hothers : ∀ v, v ≠ w → listed? models' v = listed? models v) :
    average models' weights = average models weights := by
  refine h.average_congr h' one_pos fun v model x => ?_
  rw [hgiven, one_mul]
  by_cases hv : v = w
  · subst hv
    exact iff_of_false (not_counted_of_zero hzero) (not_counted_of_zero hzero)
  · constructor
    · rintro ⟨hlisted, hweight, hpos⟩
      exact ⟨hothers v hv ▸ hlisted, hweight, hpos⟩
    · rintro ⟨hlisted, hweight, hpos⟩
      exact ⟨(hothers v hv).symm ▸ hlisted, hweight, hpos⟩

omit [Field K] [LinearOrder K] [Root K] [IsStrictOrderedRing K] in
theorem listed?_concat (w v : WorkerId) (model : Params K) :
    listed? (models ++ [(w, model)]) v = if w = v then some model else listed? models v := by
  unfold listed?
  rw [List.filter_append]
  split_ifs with h <;> simp [h]

omit [Field K] [LinearOrder K] [Root K] [IsStrictOrderedRing K] in
theorem listed?_filter_ne {w v : WorkerId} (h : v ≠ w) :
    listed? (models.filter (·.1 ≠ w)) v = listed? models v := by
  unfold listed?
  rw [List.filter_filter]
  congr 2
  refine List.filter_congr fun e _ => ?_
  by_cases he : e.1 = v <;> simp [he, h]

/-- Another model of a worker of weight zero changes nothing, -/
theorem Mergeable.average_replace (h : Mergeable models weights ids layout) {w : WorkerId}
    (hw : w ∈ ids) (hzero : (given weights ids).find? w = some 0) {model : Params K}
    (hmodel : model.layout = layout) :
    average (models ++ [(w, model)]) weights = average models weights := by
  have h' : Mergeable (models ++ [(w, model)]) weights ids layout := by
    refine ⟨⟨h.lists.ascending, fun v => ?_⟩, h.nonempty, fun v hv => ?_, h.accepted⟩
    · rw [List.map_append, List.mem_append, ← h.lists.mem]
      refine ⟨.inl, fun hv => hv.elim id fun hv => ?_⟩
      rw [List.map_singleton, List.mem_singleton] at hv
      exact hv ▸ hw
    · rw [listed?_concat]
      split_ifs with hwv
      · exact ⟨model, rfl, hmodel⟩
      · exact h.layout v hv
  exact h.average_congr_zero h' rfl hzero fun v hv => by rw [listed?_concat, if_neg hv.symm]

/-- Whoever has weight zero can be left out. -/
theorem Mergeable.drop {ws : Weights K} (h : Mergeable models (some ws) ids layout) {w : WorkerId}
    (hzero : ws.find? w = some 0) :
    Mergeable (models.filter (·.1 ≠ w)) (some ws) (ids.filter (· ≠ w)) layout := by
  -- somebody else counts, and stays
  obtain ⟨v, model, x, hcounted⟩ := h.exists_counted
  have hweight : ws.find? v = some x := hcounted.weight
  have hvw : v ≠ w := by
    rintro rfl
    exact not_counted_of_zero hzero hcounted
  have hv : v ∈ ids.filter (· ≠ w) := by simpa [hvw] using h.lists.listed hcounted.listed
  have hkept : ∀ u ∈ ids.filter (· ≠ w), u ∈ ids ∧ u ≠ w := fun u hu => by
    simpa using List.mem_filter.1 hu
  have husable : ∀ u ∈ ids.filter (· ≠ w), ∃ y, ws.find? u = some y ∧ 0 ≤ y :=
    fun u hu => h.weighed.1 u (hkept u hu).1
  refine ⟨⟨h.lists.ascending.filter _, fun u => ?_⟩, List.ne_nil_of_mem hv, fun u hu => ?_, ?_⟩
  · have hmem := h.lists.mem u
    simp only [List.mem_filter, List.mem_map, decide_eq_true_eq] at hmem ⊢
    rw [hmem]
    constructor
    · rintro ⟨⟨e, he, rfl⟩, hu⟩
      exact ⟨e, ⟨he, hu⟩, rfl⟩
    · rintro ⟨e, ⟨he, hu⟩, rfl⟩
      exact ⟨⟨e, he, rfl⟩, hu⟩
  · rw [listed?_filter_ne (hkept u hu).2]
    exact h.layout u (hkept u hu).1
  · rintro _ ⟨⟩
    refine (restrict_isOk_iff (h.lists.sorted.filter _)).2 ⟨husable, ?_⟩
    have hnonneg : ∀ y ∈ (ids.filter (· ≠ w)).map (shareOf ws), 0 ≤ y := by
      intro y hy
      obtain ⟨u, hu, rfl⟩ := List.mem_map.1 hy
      obtain ⟨y, hy, hy0⟩ := husable u hu
      rwa [shareOf_of_find? hy]
    have hle := List.single_le_sum hnonneg _ (List.mem_map_of_mem hv)
    rw [shareOf_of_find? hweight] at hle
    exact hcounted.pos.trans_le hle

/-- and neither does it to leave such a worker out. -/
theorem Mergeable.average_drop (h : Mergeable models weights ids layout) {w : WorkerId}
    (hw : w ∈ ids) (hzero : (given weights ids).find? w = some 0) :
    average (models.filter (·.1 ≠ w)) weights = average models weights := by
  cases weights with
  | none =>
    -- without weights every worker has weight one
    rw [given, Option.getD_none, find?_uniform hw, Option.some.injEq] at hzero
    exact absurd hzero one_ne_zero
  | some ws => exact h.average_congr_zero (h.drop hzero) rfl hzero fun u hu => listed?_filter_ne hu

/-! ## The consensus -/

/-- What a merge of models of one layout comes to in exact arithmetic. -/
structure Consensus (models : List (WorkerId × Params K)) (weights : Option (Weights K))
    (ids : List WorkerId) (layout : Dict String (List Nat)) (shares : Weights K)
    (merged : Params K) : Prop where
  restricted : (given weights ids).restrict ids = .ok shares
  average : Params.average models weights = .ok (some merged)
  layout_eq : merged.layout = layout
  /-- The shares are the weights times one factor, -/
  proportional : ∃ scale > 0, ∀ w ∈ ids, ∃ x, (given weights ids).find? w = some x ∧
    shares.find? w = some (scale * x)
  /-- none of them is negative, -/
  nonneg : ∀ w x, shares.find? w = some x → w ∈ ids ∧ 0 ≤ x
  /-- and they sum to one. -/
  total : (ids.map (shareOf shares)).sum = 1
  /-- Each element is the sum of those of the models times their shares, -/
  elements : ∀ name i, merged.element? name i =
    (ids.mapM (term? models shares name i)).map List.sum
  /-- and lies between the least and the greatest of those of positive weight. -/
  between : ∀ name i x, merged.element? name i = some x →
    ∃ lo hi, IsLeast (elementsOf models (given weights ids) name i) lo ∧
      IsGreatest (elementsOf models (given weights ids) name i) hi ∧ lo ≤ x ∧ x ≤ hi
  /-- Models of positive weight that are all equal merge to themselves. -/
  equal : ∀ model, (∀ w p x, Counted models (given weights ids) w p x → p = model) →
    merged = model
  /-- A model of weight zero can be replaced and left out. -/
  silent : ∀ w ∈ ids, (given weights ids).find? w = some 0 →
    (∀ model, model.layout = layout →
      Params.average (models ++ [(w, model)]) weights = .ok (some merged)) ∧
    Params.average (models.filter (·.1 ≠ w)) weights = .ok (some merged)
  /-- A factor of all weights changes nothing, -/
  scaled : ∀ ws c, weights = some ws → 0 < c →
    Params.average models (some (ws.scale c)) = .ok (some merged)
  /-- nor does anything else but the models of positive weight and the ratios of their weights. -/
  counted : ∀ models' weights' ids' c, Mergeable models' weights' ids' layout → 0 < c →
    (∀ w model x, Counted models' (given weights' ids') w model (c * x) ↔
      Counted models (given weights ids) w model x) →
    Params.average models' weights' = .ok (some merged)

/-- A merge is a consensus. In exact arithmetic, for all models of one layout and all weights that
    can be restricted to their workers, or none: there is a merge, its shares are the weights
    brought to sum one, its elements lie between those of the models of positive weight, and
    nothing else has a part in it. -/
theorem average_consensus (h : Mergeable models weights ids layout) :
    ∃ shares merged, Consensus models weights ids layout shares merged := by
  obtain ⟨shares, merged, hshares, haverage, hlayout, helements⟩ := h.merge
  obtain ⟨hweights, hpos⟩ := h.weighed
  have hfind := find?_of_restrict_eq h.lists.sorted hshares
  have hbetween : ∀ name i x, merged.element? name i = some x →
      ∃ lo hi, IsLeast (elementsOf models (given weights ids) name i) lo ∧
        IsGreatest (elementsOf models (given weights ids) name i) hi ∧ lo ≤ x ∧ x ≤ hi :=
    fun name i x hx => h.between hlayout hx (h.centerMass hshares helements hx)
  have hshare : ∀ w ∈ ids, ∃ x, (given weights ids).find? w = some x ∧ 0 ≤ x ∧
      shares.find? w = some ((ids.map (shareOf (given weights ids))).sum⁻¹ * x) := by
    intro w hw
    obtain ⟨x, hx, hx0⟩ := hweights w hw
    refine ⟨x, hx, hx0, ?_⟩
    rw [hfind, if_pos hw, hx, Option.map_some, div_eq_inv_mul]
  refine ⟨shares, merged,
    { restricted := hshares
      average := haverage
      layout_eq := hlayout
      proportional := ⟨_, inv_pos.2 hpos, fun w hw => ?proportional⟩
      nonneg := fun w x hx => ?nonneg
      total := ?total
      elements := helements
      between := hbetween
      equal := fun model => h.eq_of_counted hlayout hbetween
      silent := fun w hw hzero =>
        ⟨fun model hmodel => (h.average_replace hw hzero hmodel).trans haverage,
          (h.average_drop hw hzero).trans haverage⟩
      scaled := ?scaled
      counted := fun models' weights' ids' c h' hc hsame =>
        (h.average_congr h' hc hsame).trans haverage }⟩
  case proportional =>
    obtain ⟨x, hx, -, hs⟩ := hshare w hw
    exact ⟨x, hx, hs⟩
  case nonneg =>
    by_cases hw : w ∈ ids
    · obtain ⟨y, -, hy, hs⟩ := hshare w hw
      obtain rfl := Option.some.inj (hs.symm.trans hx)
      exact ⟨hw, mul_nonneg (inv_nonneg.2 hpos.le) hy⟩
    · rw [hfind, if_neg hw] at hx
      cases hx
  case total =>
    have hall : ids.map (shareOf shares) = ids.map fun w =>
        (ids.map (shareOf (given weights ids))).sum⁻¹ * shareOf (given weights ids) w := by
      refine List.map_congr_left fun w hw => ?_
      obtain ⟨x, hx, -, hs⟩ := hshare w hw
      rw [shareOf_of_find? hs, shareOf_of_find? hx]
    rw [hall, List.sum_map_mul_left, inv_mul_cancel₀ hpos.ne']
  case scaled =>
    rintro ws c rfl hc
    exact (h.average_scale hc).trans haverage

end

/-- Three workers of which the second has weight zero, listed from the last to the first: the first
    one counts three times as much as the third. -/
theorem average_consensus_three :
    let model (x : ℚ) : Params ℚ := .ofList [("bias", Tensor.replicate [2] x)]
    let weights : Weights ℚ := Weights.ofList [(⟨0⟩, 3), (⟨1⟩, 0), (⟨2⟩, 1)]
    let models : List (WorkerId × Params ℚ) :=
      [(⟨2⟩, model 4), (⟨1⟩, model 100), (⟨0⟩, model 2)]
    let ids : List WorkerId := [⟨0⟩, ⟨1⟩, ⟨2⟩]
    Mergeable models (some weights) ids (model 0).layout ∧ ∃ shares merged,
      Consensus models (some weights) ids (model 0).layout shares merged ∧
      merged.element? "bias" 1 = some (5 / 2) := by
  intro model weights models ids
  have hmergeable : Mergeable models (some weights) ids (model 0).layout := by
    refine ⟨⟨by decide, fun w => ?_⟩, by decide, fun w hw => ?_, ?_⟩
    · simp only [ids, models, List.map_cons, List.map_nil, List.mem_cons, List.not_mem_nil,
        or_false]
      tauto
    · have hlisted : ∀ w ∈ ids,
          (listed? models w).map (·.layout.entries) = some (model 0).layout.entries := by
        decide +kernel
      obtain ⟨p, hp, hentries⟩ := Option.map_eq_some_iff.1 (hlisted w hw)
      exact ⟨p, hp, Dict.ext_find? fun name => congrArg (Dict.lookup name) hentries⟩
    · rintro _ ⟨⟩
      have hok : (weights.restrict ids).toOption.isSome = true := by decide +kernel
      cases hshares : weights.restrict ids with
      | ok shares => exact ⟨shares, rfl⟩
      | error cause =>
        rw [hshares] at hok
        cases hok
  obtain ⟨shares, merged, hconsensus⟩ := average_consensus hmergeable
  refine ⟨hmergeable, shares, merged, hconsensus, ?_⟩
  have hvalue : ((average models (some weights)).toOption.bind id).bind (·.element? "bias" 1) =
      some (5 / 2 : ℚ) := by
    decide +kernel
  rw [hconsensus.average] at hvalue
  exact hvalue

end Params

end Federated
