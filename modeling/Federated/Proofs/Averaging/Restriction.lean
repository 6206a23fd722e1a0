/-
  Federated.Proofs.Averaging.Restriction

  What restricting weights comes to, said without a word of how it is computed. A refusal goes by
  the order of the list: it is that of the first worker that bars the weights. The sum and the
  shares go by the order of the workers, each of them counted once however often it is listed.

    * `Weights.Restriction` — the kinds of outcome, in order of precedence.
    * `Weights.collect_eq_error_iff` — the weights are refused for the first worker that bars them.
    * `Weights.total_of_collect` — what is summed are the weights of the workers, in their order.
    * `Weights.restrict_iff` — restricting comes to what the rules say, and to nothing else.
    * `Weights.restrict_by_set` — so the list counts for a refusal alone, not for the shares.
-/
import Federated.Proofs.Averaging.Weights

namespace Federated

namespace Weights

/-! ## The rules -/

/-- The workers of a list, each once and in ascending order. -/
structure Roster (ids order : List WorkerId) : Prop where
  ascending : order.Pairwise fun v w => v.index < w.index
  mem : ∀ w, w ∈ order ↔ w ∈ ids

/-- A single that is no weight: it is negative, no number or infinite. -/
def Unfit (x : Float32) : Prop :=
  Scalar.lt x Scalar.zero = true ∨ x.isNaN = true ∨ x.isInf = true

instance (x : Float32) : Decidable (Unfit x) :=
  inferInstanceAs (Decidable (_ ∨ _ ∨ _))

/-- A worker with a weight that is one. -/
def Weighs (ws : Weights Float32) (w : WorkerId) : Prop :=
  ∃ x, ws.find? w = some x ∧ ¬ Unfit x

/-- Why weights cannot be restricted to a worker. -/
inductive Bars (ws : Weights Float32) (w : WorkerId) : AggregationError Float32 → Prop
  | missing (weight : ws.find? w = none) : Bars ws w (.missingWeight w)
  | invalid {x : Float32} (weight : ws.find? w = some x) (unfit : Unfit x) :
      Bars ws w (.invalidWeight w x)

/-- The sum of the weights of workers, added in their order from zero. -/
def sumOver {α : Type} [Scalar α] (ws : Weights α) (order : List WorkerId) : α :=
  (order.filterMap ws.find?).foldl (· + ·) Scalar.zero

/-- What restricting weights to the workers of a list comes to. A worker that bars it comes before
    a sum that is not above zero, and the first such worker of the list before all others. -/
inductive Restriction (ws : Weights Float32) (ids : List WorkerId) :
    Except (AggregationError Float32) (Weights Float32) → Prop
  /-- A worker bars it, and none before it in the list does. -/
  | barred {before after : List WorkerId} {w : WorkerId} {cause : AggregationError Float32}
      (split : ids = before ++ w :: after) (first : ∀ v ∈ before, ws.Weighs v)
      (bars : ws.Bars w cause) : Restriction ws ids (.error cause)
  /-- The weights of the workers do not sum to more than zero. -/
  | weightless {order : List WorkerId} (weighed : ∀ w ∈ ids, ws.Weighs w)
      (roster : Roster ids order) (sum : Scalar.lt Scalar.zero (ws.sumOver order) = false) :
      Restriction ws ids (.error .zeroTotalWeight)
  /-- Exactly the workers of the list have a share, which is their weight divided by the sum. -/
  | shared {order : List WorkerId} {shares : Weights Float32}
      (weighed : ∀ w ∈ ids, ws.Weighs w) (roster : Roster ids order)
      (sum : Scalar.lt Scalar.zero (ws.sumOver order) = true)
      (workers : shares.byWorker.keys = order)
      (share : ∀ w ∈ ids, shares.find? w = (ws.find? w).map (· / ws.sumOver order)) :
      Restriction ws ids (.ok shares)

/-! ## Rosters -/

/-- The workers that weights are made for, by the list that they are made of. -/
theorem roster_ofList {α : Type} (es : List (WorkerId × α)) :
    Roster (es.map (·.1)) (ofList es).byWorker.keys :=
  ⟨Dict.ascending_keys _, fun _ => Dict.mem_keys_iff.trans Dict.isSome_find?_ofList⟩

/-- There is one roster of a list. -/
theorem Roster.eq {ids order order' : List WorkerId} (h : Roster ids order)
    (h' : Roster ids order') : order = order' :=
  WorkerId.eq_of_ascending h.ascending h'.ascending fun w => (h.mem w).trans (h'.mem w).symm

/-! ## Collected weights -/

section
variable {α : Type} [Scalar α] {ws : Weights α} {ids order : List WorkerId}
  {es : List (WorkerId × α)}

/-- Why the weight of a worker is refused, if it is. -/
def refusal? (ws : Weights α) (w : WorkerId) : Option (AggregationError α) :=
  match ws.usable w with
  | .ok _ => none
  | .error cause => some cause

/-- Weights are refused for the first worker of the list whose weight is. -/
theorem collect_eq_error_iff {cause : AggregationError α} :
    ws.collect ids = .error cause ↔ ids.findSome? ws.refusal? = some cause := by
  induction ids with
  | nil => simp [collect]
  | cons w ids ih =>
    rw [collect, List.findSome?_cons, refusal?]
    cases ws.usable w with
    | error refusal => simp only [bind, Except.bind, Except.error.injEq, Option.some.injEq]
    | ok x =>
      simp only [← ih]
      -- what is put in front of the rest does not come into its refusal
      cases ws.collect ids <;> simp [bind, Except.bind, pure, Except.pure]

theorem restrict_of_refused {cause : AggregationError α} (h : ws.collect ids = .error cause) :
    ws.restrict ids = .error cause := by
  rw [restrict, h]
  rfl

/-- A refusal of weights is none of a layout. -/
theorem restrict_ne_layout {w : WorkerId} {m : LayoutMismatch} :
    ws.restrict ids ≠ .error (.layout w m) := by
  intro h
  cases hc : ws.collect ids with
  | error cause =>
    obtain rfl := Except.error.inj ((restrict_of_refused hc).symm.trans h)
    obtain ⟨v, -, hv⟩ := List.exists_of_findSome?_eq_some (collect_eq_error_iff.1 hc)
    rw [refusal?, usable] at hv
    cases hx : ws.find? v with
    | none => simp [hx] at hv
    | some x =>
      simp only [hx] at hv
      split_ifs at hv
      cases hv
  | ok es =>
    rw [restrict_of_collect hc] at h
    split_ifs at h
    cases h

/-- What is summed are the weights of the workers, each once, by ascending worker. -/
theorem total_of_collect (h : ws.collect ids = .ok es) (roster : Roster ids order) :
    (ofList es).total = ws.sumOver order := by
  have hkeys : (ofList es).byWorker.entries.map (·.1) = order :=
    (keys_collect h ▸ roster_ofList es).eq roster
  -- a collected weight is still found under its worker, also if the worker is listed repeatedly
  have hvalues : order.filterMap ws.find? = (ofList es).byWorker.values := by
    rw [← hkeys, List.filterMap_map, Dict.values, ← List.filterMap_eq_map]
    refine List.filterMap_congr fun e he => ?_
    have hfind : (ofList es).find? e.1 = some e.2 := Dict.mem_entries_iff.1 he
    exact ((collect_eq_ok_iff.1 h).2 e (mem_of_find?_ofList hfind)).1
  rw [sumOver, hvalues, total]

theorem keys_quotients (h : ws.collect ids = .ok es) (roster : Roster ids order) :
    (ofList es).quotients.byWorker.keys = order := by
  have hkeys : (ofList es).quotients.byWorker.keys = (ofList es).byWorker.keys := by
    rw [Dict.keys, Dict.keys, quotients, Dict.mapValues, List.map_map]
    rfl
  rw [hkeys]
  exact (keys_collect h ▸ roster_ofList es).eq roster

theorem find?_quotients_of_mem (h : ws.collect ids = .ok es) (roster : Roster ids order)
    {w : WorkerId} (hw : w ∈ ids) :
    (ofList es).quotients.find? w = (ws.find? w).map (· / ws.sumOver order) := by
  rw [find?_quotients, total_of_collect h roster, find?_of_collect h hw]

omit [Scalar α] in
/-- Weights of the same workers that agree on each of them are equal. -/
theorem ext_roster {shares shares' : Weights α} (roster : Roster ids shares.byWorker.keys)
    (hkeys : shares'.byWorker.keys = shares.byWorker.keys)
    (h : ∀ w ∈ ids, shares'.find? w = shares.find? w) : shares' = shares := by
  have hnone : ∀ {d : Dict WorkerId α} {w : WorkerId}, w ∉ d.keys → d.find? w = none :=
    fun hw => Option.not_isSome_iff_eq_none.1 (mt Dict.mem_keys_iff.2 hw)
  obtain ⟨d⟩ := shares
  obtain ⟨d'⟩ := shares'
  refine congrArg Weights.mk (Dict.ext_find? fun w => ?_)
  by_cases hw : w ∈ ids
  · exact h w hw
  · have hout : w ∉ d.keys := fun hmem => hw ((roster.mem w).1 hmem)
    rw [hnone hout, hnone (show w ∉ d'.keys from fun hmem => hout (hkeys ▸ hmem))]

end

/-! ## Singles -/

section
variable {ws : Weights Float32} {ids order : List WorkerId} {es : List (WorkerId × Float32)}

/-- A single can be used unless it is negative, no number or infinite. -/
theorem usable_iff_not_unfit {x : Float32} : Usable x ↔ ¬ Unfit x := by
  have hfinite : ∀ u : Float.Model.UnpackedFloat,
      u.isFinite = true ↔ ¬ u.isNaN = true ∧ ¬ u.isInf = true := by
    intro u
    cases u <;> simp [Float.Model.UnpackedFloat.isFinite, Float.Model.UnpackedFloat.isNaN,
      Float.Model.UnpackedFloat.isInf]
  have hx : Scalar.isFinite x = true ↔ ¬ x.isNaN = true ∧ ¬ x.isInf = true :=
    hfinite x.toModel.unpack
  rw [Usable, Unfit, hx, not_or, not_or, Bool.not_eq_true (Scalar.lt x Scalar.zero), and_comm]

/-- The refusal of a weight, by the weight. -/
theorem refusal?_eq (ws : Weights Float32) (w : WorkerId) :
    ws.refusal? w = match ws.find? w with
      | none => some (.missingWeight w)
      | some x => if Unfit x then some (.invalidWeight w x) else none := by
  have hfit : ∀ x : Float32,
      (Scalar.isFinite x && !Scalar.lt x Scalar.zero) = true ↔ ¬ Unfit x := by
    intro x
    rw [← usable_iff_not_unfit, Usable, Bool.and_eq_true, Bool.not_eq_true']
  rw [refusal?, usable]
  cases ws.find? w with
  | none => rfl
  | some x => by_cases hx : Unfit x <;> simp [hfit, hx]

theorem weighs_iff {w : WorkerId} : ws.Weighs w ↔ ws.refusal? w = none := by
  rw [Weighs, refusal?_eq]
  cases ws.find? w <;> simp

theorem bars_iff {w : WorkerId} {cause : AggregationError Float32} :
    ws.Bars w cause ↔ ws.refusal? w = some cause := by
  rw [refusal?_eq]
  constructor
  · rintro (hnone | ⟨hsome, hunfit⟩)
    · rw [hnone]
    · rw [hsome]
      exact if_pos hunfit
  · intro h
    cases hw : ws.find? w with
    | none =>
      rw [hw] at h
      cases h
      exact .missing hw
    | some x =>
      rw [hw] at h
      simp only at h
      split_ifs at h with hunfit
      cases h
      exact .invalid hw hunfit

/-- The sum of weights that can be used is a number: it is above zero unless it is zero or less. -/
theorem le_zero_total_iff (h : ws.collect ids = .ok es) :
    Scalar.le (ofList es).total Scalar.zero = true ↔
      Scalar.lt Scalar.zero (ofList es).total = false := by
  have hvalues : ∀ x ∈ (ofList es).byWorker.values, ∃ a, Single.Magnitude x a :=
    fun x hx => (magnitude_of_collect h x hx).imp fun a ha => ha.2
  -- terms that are finite and not below zero have a sum with a magnitude, which may be infinite
  obtain ⟨t, ht, -⟩ := Single.magnitude_foldl hvalues Single.magnitude_zero
  change Single.Magnitude (ofList es).total t at ht
  rw [ht.le_iff Single.magnitude_zero, ← Bool.not_eq_true, Single.magnitude_zero.lt_iff ht]
  exact Nat.not_lt.symm

/-! ## Restricting meets the rules -/

theorem collect_of_weighs (h : ∀ w ∈ ids, ws.Weighs w) : ∃ es, ws.collect ids = .ok es :=
  exists_collect fun w hw =>
    (h w hw).imp fun _ hx => ⟨hx.1, usable_iff_not_unfit.2 hx.2⟩

theorem weighs_of_collect (h : ws.collect ids = .ok es) : ∀ w ∈ ids, ws.Weighs w := by
  obtain ⟨rfl, hall⟩ := collect_eq_ok_iff.1 h
  intro w hw
  obtain ⟨e, he, rfl⟩ := List.mem_map.1 hw
  exact ⟨e.2, (hall e he).1, usable_iff_not_unfit.1 (hall e he).2⟩

/-- The rules leave no list without an outcome, -/
theorem exists_restriction (ws : Weights Float32) (ids : List WorkerId) :
    ∃ r, Restriction ws ids r := by
  cases hc : ws.collect ids with
  | error cause =>
    obtain ⟨before, w, after, hsplit, hw, hbefore⟩ :=
      List.findSome?_eq_some_iff.1 (collect_eq_error_iff.1 hc)
    exact ⟨_, .barred hsplit (fun v hv => weighs_iff.2 (hbefore v hv)) (bars_iff.2 hw)⟩
  | ok es =>
    have hroster : Roster ids (ofList es).byWorker.keys := keys_collect hc ▸ roster_ofList es
    have hweighed := weighs_of_collect hc
    cases hsum : Scalar.lt Scalar.zero (ws.sumOver (ofList es).byWorker.keys) with
    | false => exact ⟨_, .weightless hweighed hroster hsum⟩
    | true =>
      exact ⟨_, .shared hweighed hroster hsum (keys_quotients hc hroster)
        fun w hw => find?_quotients_of_mem hc hroster hw⟩

/-- and restricting comes to any outcome that they allow. -/
theorem Restriction.restrict_eq {r : Except (AggregationError Float32) (Weights Float32)}
    (h : Restriction ws ids r) : ws.restrict ids = r := by
  cases h with
  | barred split first bars =>
    have hcollect := collect_eq_error_iff.2 (List.findSome?_eq_some_iff.2
      ⟨_, _, _, split, bars_iff.1 bars, fun v hv => weighs_iff.1 (first v hv)⟩)
    exact restrict_of_refused hcollect
  | weightless weighed roster sum =>
    obtain ⟨es, hes⟩ := collect_of_weighs weighed
    rw [← total_of_collect hes roster] at sum
    rw [restrict_of_collect hes, if_pos ((le_zero_total_iff hes).2 sum)]
  | @shared order shares weighed roster sum workers share =>
    -- the shares given are those computed: both are for the same workers and agree on each
    obtain ⟨es, hes⟩ := collect_of_weighs weighed
    have hle : ¬ Scalar.le (ofList es).total Scalar.zero = true := by
      rw [le_zero_total_iff hes, total_of_collect hes roster, sum]
      exact Bool.false_ne_true.symm
    have hsame : (ofList es).quotients = shares := by
      refine ext_roster (workers ▸ roster) ?_ fun w hw => ?_
      · rw [keys_quotients hes roster, workers]
      · rw [find?_quotients_of_mem hes roster hw, share w hw]
    rw [restrict_of_collect hes, if_neg hle, hsame]

/-- Restricting comes to what the rules say, and to nothing else. -/
theorem restrict_iff {r : Except (AggregationError Float32) (Weights Float32)} :
    ws.restrict ids = r ↔ Restriction ws ids r := by
  refine ⟨fun h => ?_, Restriction.restrict_eq⟩
  obtain ⟨r', hr'⟩ := exists_restriction ws ids
  obtain rfl := hr'.restrict_eq.symm.trans h
  exact hr'

/-! ## The order of the list -/

/-- Shares depend on the set of workers alone. -/
theorem Restriction.of_same {ids' : List WorkerId} {shares : Weights Float32}
    (h : Restriction ws ids (.ok shares)) (hsame : ∀ w, w ∈ ids' ↔ w ∈ ids) :
    Restriction ws ids' (.ok shares) := by
  cases h with
  | shared weighed roster sum workers share =>
    have hroster := Roster.mk roster.ascending fun w => (roster.mem w).trans (hsame w).symm
    exact .shared (fun w hw => weighed w ((hsame w).1 hw)) hroster sum workers
      fun w hw => share w ((hsame w).1 hw)

end

/-- Restricting weights to the workers of a list, for all weights and every list, with workers
    listed repeatedly and in any order: it comes to the refusal of the first worker of the list
    that has no weight or an unfit one, else to a refusal of a sum that is not above zero, the
    weights of the different workers added by ascending worker, and else to exactly these workers
    with their weights divided by the sum. So lists of the same workers are given the same shares,
    or none of them is given any. -/
theorem restrict_by_set (ws : Weights Float32) (ids : List WorkerId) :
    (∀ r, ws.restrict ids = r ↔ Restriction ws ids r) ∧
      ∀ ids' : List WorkerId, (∀ w, w ∈ ids' ↔ w ∈ ids) →
        ∀ shares, ws.restrict ids' = .ok shares ↔ ws.restrict ids = .ok shares := by
  refine ⟨fun r => restrict_iff, fun ids' hsame shares => ?_⟩
  rw [restrict_iff, restrict_iff]
  exact ⟨fun h => h.of_same fun w => (hsame w).symm, fun h => h.of_same hsame⟩

/-- The third of three workers has no number for a weight. A list with that one comes to its
    refusal, though a worker without any weight follows. The other two have the same shares whether
    the list is in order or not, and with a repeated worker. -/
theorem restrict_by_set_pair :
    let ws : Weights Float32 :=
      ofList [(⟨0⟩, Scalar.one), (⟨1⟩, Scalar.ofCount 3), (⟨2⟩, Float32.ofBits 0x7fc00000)]
    ws.restrict [⟨1⟩, ⟨2⟩, ⟨3⟩, ⟨2⟩] = .error (.invalidWeight ⟨2⟩ (Float32.ofBits 0x7fc00000)) ∧
      (∀ w : WorkerId, w ∈ [⟨0⟩, ⟨1⟩] ↔ w ∈ [⟨1⟩, ⟨0⟩, ⟨1⟩]) ∧
      ∃ shares, ws.restrict [⟨1⟩, ⟨0⟩, ⟨1⟩] = .ok shares ∧
        Restriction ws [⟨1⟩, ⟨0⟩, ⟨1⟩] (.ok shares) ∧ ws.restrict [⟨0⟩, ⟨1⟩] = .ok shares := by
  intro ws
  obtain ⟨hrules, hset⟩ := restrict_by_set ws [⟨1⟩, ⟨0⟩, ⟨1⟩]
  have hsame : ∀ w : WorkerId, w ∈ [⟨0⟩, ⟨1⟩] ↔ w ∈ [⟨1⟩, ⟨0⟩, ⟨1⟩] := by
    intro w
    simp only [List.mem_cons, List.not_mem_nil, or_false]
    tauto
  have hok : (ws.restrict [⟨1⟩, ⟨0⟩, ⟨1⟩]).toOption.isSome = true := by decide +kernel
  refine ⟨(restrict_by_set ws _).1 _ |>.2 ?_, hsame, ?_⟩
  · have hfirst : ∀ v ∈ [WorkerId.mk 1], ws.Weighs v := by
      intro v hv
      obtain rfl := List.mem_singleton.1 hv
      exact ⟨Scalar.ofCount 3, rfl, by decide +kernel⟩
    have hsplit : [WorkerId.mk 1, ⟨2⟩, ⟨3⟩, ⟨2⟩] = [⟨1⟩] ++ ⟨2⟩ :: [⟨3⟩, ⟨2⟩] := rfl
    have hunfit : Unfit (Float32.ofBits 0x7fc00000) := by decide +kernel
    exact .barred hsplit hfirst (.invalid rfl hunfit)
  · cases h : ws.restrict [⟨1⟩, ⟨0⟩, ⟨1⟩] with
    | error cause =>
      rw [h] at hok
      cases hok
    | ok shares => exact ⟨shares, rfl, (hrules _).1 h, (hset _ hsame shares).2 h⟩

end Weights

end Federated
