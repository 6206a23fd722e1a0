/-
  Federated.Proofs.Averaging.Weights

  Weights restricted to some workers, and that those of an epoch can be restricted to any of its
  workers: they are finite singles above zero, so their sum is above zero too.

    * `collect_eq_ok_iff`, `restrict_of_collect` — weights are collected, and then divided.
    * `restrict_eq_ok` — what restricted weights are.
    * `find?_of_restrict` — restricted weights weigh each of the workers.
    * `restrict_isOk` — positive finite weights can be restricted.
    * `restrict_ofBatches` — and those of an epoch are such weights, by either scheme.
-/
import Federated.Averaging.Weights
import Federated.Proofs.Model.Layout
import Federated.Proofs.Numeric.Single

namespace Federated

/-! ## Workers in order -/

/-- The workers of a dictionary ascend. -/
theorem Dict.ascending_keys {ν : Type} (d : Dict WorkerId ν) :
    d.keys.Pairwise fun v w => v.index < w.index := by
  have hsorted : d.keys.Pairwise fun v w => compare v w = .lt := List.pairwise_map.2 d.sorted
  exact hsorted.imp fun {v w} h =>
    Std.compare_eq_lt.1 (show compare v.index w.index = .lt from h)

/-- Two ascending lists of the same workers are equal. -/
theorem WorkerId.eq_of_ascending {order order' : List WorkerId}
    (h : order.Pairwise fun v w => v.index < w.index)
    (h' : order'.Pairwise fun v w => v.index < w.index) (hmem : ∀ w, w ∈ order ↔ w ∈ order') :
    order = order' := by
  have hnodup : ∀ {l : List WorkerId}, l.Pairwise (fun v w => v.index < w.index) → l.Nodup := by
    intro l hl
    refine hl.imp fun {v w} hlt heq => ?_
    subst heq
    exact Nat.lt_irrefl _ hlt
  exact List.Perm.eq_of_pairwise (fun v w _ _ hvw hwv => absurd hvw (Nat.lt_asymm hwv)) h h'
    ((List.perm_ext_iff_of_nodup (hnodup h) (hnodup h')).2 hmem)

namespace Weights

/-! ## Restricted weights -/

/-- A weight in a list is one that the list was made of. -/
theorem mem_of_find?_ofList {α : Type} {es : List (WorkerId × α)} {w : WorkerId} {x : α}
    (h : (ofList es).find? w = some x) : (w, x) ∈ es := by
  have hfind : (Dict.ofList es).find? w = some x := h
  rw [Dict.find?_ofList] at hfind
  obtain ⟨e, he, rfl⟩ := Option.map_eq_some_iff.1 hfind
  obtain ⟨hmem, hkey⟩ := List.mem_filter.1 (List.mem_of_getLast? he)
  rw [decide_eq_true_iff] at hkey
  exact hkey ▸ hmem

section
variable {α : Type} [Scalar α] {ws : Weights α} {ids : List WorkerId}

/-- A weight that can be used: a finite number, not below zero. -/
def Usable (x : α) : Prop := Scalar.isFinite x = true ∧ Scalar.lt x Scalar.zero = false

theorem usable_eq_ok_iff {w : WorkerId} {x : α} :
    ws.usable w = .ok x ↔ ws.find? w = some x ∧ Usable x := by
  unfold usable Usable
  cases ws.find? w with
  | none => simp
  | some y =>
    simp only [Option.some.injEq]
    split_ifs with h
    · rw [Bool.and_eq_true, Bool.not_eq_true'] at h
      constructor
      · rintro ⟨⟩
        exact ⟨rfl, h⟩
      · rintro ⟨rfl, -⟩
        rfl
    · constructor
      · rintro ⟨⟩
      · rintro ⟨rfl, hfin, hlt⟩
        simp [hfin, hlt] at h

/-- Weights are collected exactly if all of them can be used: each beside its worker, in the order
    of the workers. -/
theorem collect_eq_ok_iff {es : List (WorkerId × α)} :
    ws.collect ids = .ok es ↔
      es.map (·.1) = ids ∧ ∀ e ∈ es, ws.find? e.1 = some e.2 ∧ Usable e.2 := by
  induction ids generalizing es with
  | nil =>
    constructor
    · rintro ⟨⟩
      simp
    · rintro ⟨hnil, -⟩
      rw [List.map_eq_nil_iff.1 hnil]
      rfl
  | cons w ids ih =>
    constructor
    · intro h
      obtain ⟨x, hx, h⟩ := ok_of_bind h
      obtain ⟨rest, hrest, h⟩ := ok_of_bind h
      cases h
      obtain ⟨hkeys, hall⟩ := ih.1 hrest
      exact ⟨by simp [hkeys], List.forall_mem_cons.2 ⟨usable_eq_ok_iff.1 hx, hall⟩⟩
    · rintro ⟨hkeys, hall⟩
      obtain ⟨⟨v, x⟩, rest, rfl, rfl, rfl⟩ := List.map_eq_cons_iff.1 hkeys
      obtain ⟨hx, hrest⟩ := List.forall_mem_cons.1 hall
      rw [collect, usable_eq_ok_iff.2 hx, ih.2 ⟨rfl, hrest⟩]
      rfl

theorem keys_collect {es : List (WorkerId × α)} (h : ws.collect ids = .ok es) :
    es.map (·.1) = ids := (collect_eq_ok_iff.1 h).1

/-- Of the workers of the list, what is collected are their weights. -/
theorem find?_of_collect {es : List (WorkerId × α)} (h : ws.collect ids = .ok es)
    {w : WorkerId} (hw : w ∈ ids) :
    (ofList es).find? w = ws.find? w := by
  obtain ⟨rfl, hall⟩ := collect_eq_ok_iff.1 h
  obtain ⟨x, hx⟩ := Option.isSome_iff_exists.1 (Dict.isSome_find?_ofList.2 hw)
  exact hx.trans (hall (w, x) (mem_of_find?_ofList hx)).1.symm

theorem exists_collect (h : ∀ w ∈ ids, ∃ x, ws.find? w = some x ∧ Usable x) :
    ∃ es, ws.collect ids = .ok es := by
  induction ids with
  | nil => exact ⟨[], rfl⟩
  | cons w ids ih =>
    obtain ⟨⟨x, hx⟩, hrest⟩ := List.forall_mem_cons.1 h
    obtain ⟨es, hes⟩ := ih hrest
    refine ⟨(w, x) :: es, ?_⟩
    rw [collect, usable_eq_ok_iff.2 hx, hes]
    rfl

/-- Weights divided by their sum. -/
def quotients (chosen : Weights α) : Weights α :=
  ⟨chosen.byWorker.mapValues fun _ x => x / chosen.total⟩

theorem find?_quotients (chosen : Weights α) (w : WorkerId) :
    chosen.quotients.find? w = (chosen.find? w).map (· / chosen.total) :=
  Dict.find?_mapValues _ _ w

/-- Collected weights are restricted unless their sum is zero or less. -/
theorem restrict_of_collect {es : List (WorkerId × α)} (h : ws.collect ids = .ok es) :
    ws.restrict ids = if Scalar.le (ofList es).total Scalar.zero then .error .zeroTotalWeight
      else .ok (ofList es).quotients := by
  simp only [restrict, h, bind, Except.bind]
  split_ifs <;> rfl

/-- What is restricted: the weights collected, divided by their sum, which is above zero. -/
theorem restrict_eq_ok {shares : Weights α} (h : ws.restrict ids = .ok shares) :
    ∃ es, ws.collect ids = .ok es ∧ Scalar.le (ofList es).total Scalar.zero = false ∧
      ∀ w, shares.find? w = ((ofList es).find? w).map (· / (ofList es).total) := by
  obtain ⟨es, hes, -⟩ := ok_of_bind h
  rw [restrict_of_collect hes] at h
  split_ifs at h with htotal
  cases h
  exact ⟨es, hes, Bool.eq_false_iff.2 htotal, find?_quotients _⟩

/-- Each of the workers that weights were restricted to has one. -/
theorem find?_of_restrict {shares : Weights α} (h : ws.restrict ids = .ok shares) {w : WorkerId}
    (hw : w ∈ ids) : ∃ x, shares.find? w = some x := by
  obtain ⟨es, hes, -, hfind⟩ := restrict_eq_ok h
  rw [← keys_collect hes, ← Dict.isSome_find?_ofList, Option.isSome_iff_exists] at hw
  obtain ⟨x, hx⟩ := hw
  exact ⟨x / (ofList es).total, by rw [hfind]; exact congrArg _ hx⟩

end

/-- Collected weights are finite, and not below zero. -/
theorem magnitude_of_collect {ws : Weights Float32} {ids : List WorkerId}
    {es : List (WorkerId × Float32)} (h : ws.collect ids = .ok es) :
    ∀ x ∈ (ofList es).byWorker.values,
      ∃ a < BinaryFormat.single.infinity, Single.Magnitude x a := by
  intro x hx
  obtain ⟨e, he, rfl⟩ := List.mem_map.1 hx
  have hmem : e ∈ es := mem_of_find?_ofList (Dict.mem_entries_iff.1 he)
  obtain ⟨-, hfin, hlt⟩ := (collect_eq_ok_iff.1 h).2 e hmem
  exact Single.exists_magnitude hfin hlt

/-! ## The weights of an epoch -/

/-- A worker with a weight that can be used and adds to a sum. -/
def Counts (ws : Weights Float32) (w : WorkerId) : Prop :=
  ∃ x, ws.find? w = some x ∧ Single.Positive x ∧ Scalar.isFinite x = true

/-- Such weights can be restricted to workers, of which there is at least one. -/
theorem restrict_isOk {ws : Weights Float32} {ids : List WorkerId} (hne : ids ≠ [])
    (h : ∀ w ∈ ids, ws.Counts w) : ∃ restricted, ws.restrict ids = .ok restricted := by
  have husable : ∀ w ∈ ids, ∃ x, ws.find? w = some x ∧ Usable x := by
    intro w hw
    obtain ⟨x, hfind, hpos, hfin⟩ := h w hw
    exact ⟨x, hfind, hfin, hpos.not_lt_zero⟩
  obtain ⟨es, hes⟩ := exists_collect husable
  have hvalues : ∀ x ∈ (ofList es).byWorker.values, Single.Positive x := by
    intro x hx
    obtain ⟨e, he, rfl⟩ := List.mem_map.1 hx
    have hmem : e ∈ es := mem_of_find?_ofList (Dict.mem_entries_iff.1 he)
    obtain ⟨y, hfind, hpos, -⟩ := h e.1 (keys_collect hes ▸ List.mem_map_of_mem hmem)
    obtain rfl : e.2 = y :=
      Option.some.inj (((collect_eq_ok_iff.1 hes).2 e hmem).1.symm.trans hfind)
    exact hpos
  -- the first of the workers has a weight, so there is something to sum
  have hsome : (ofList es).byWorker.values ≠ [] := by
    obtain ⟨w, hw⟩ := List.exists_mem_of_ne_nil ids hne
    obtain ⟨x, hx⟩ := Option.isSome_iff_exists.1
      (Dict.isSome_find?_ofList.2 (keys_collect hes ▸ hw))
    exact List.ne_nil_of_mem (List.mem_map_of_mem (Dict.mem_entries_iff.2 hx))
  refine ⟨(ofList es).quotients, ?_⟩
  rw [restrict_of_collect hes, total, (Single.positive_foldl hsome hvalues).not_le_zero]
  rfl

/-- The weight that a worker with some batches has in an epoch. -/
def weightOf {α : Type} [Scalar α] (scheme : Weighting) (n : Nat) : α :=
  match scheme with
  | .uniform => Scalar.one
  | .proportional => Scalar.ofCount n

theorem find?_ofBatches {α : Type} [Scalar α] (scheme : Weighting) {batches : List (WorkerId × Nat)}
    (hs : KeySorted batches) {w : WorkerId} {n : Nat} (hw : (w, n) ∈ batches) :
    (ofBatches scheme batches : Weights α).find? w = some (weightOf scheme n) := by
  have hfind : ∀ f : WorkerId × Nat → α,
      (ofList (batches.map fun b => (b.1, f b))).find? w = some (f (w, n)) := by
    intro f
    have hsorted : KeySorted (batches.map fun b => (b.1, f b)) :=
      Dict.keySorted_of_keys_eq hs (by simp)
    apply Dict.mem_entries_iff.1
    show (w, f (w, n)) ∈ (Dict.ofList (batches.map fun b => (b.1, f b))).entries
    rw [Dict.entries_ofList hsorted]
    exact List.mem_map.2 ⟨(w, n), hw, rfl⟩
  cases scheme with
  | uniform =>
    show (uniform (batches.map (·.1))).find? w = _
    unfold uniform
    rw [List.map_map]
    exact hfind fun _ => Scalar.one
  | proportional => exact hfind fun b => Scalar.ofCount b.2

/-- The weights of an epoch, whose workers have batches, count. -/
theorem counts_ofBatches (scheme : Weighting) {batches : List (WorkerId × Nat)}
    (hs : KeySorted batches) (hb : ∀ b ∈ batches, 0 < b.2 ∧ b.2 < 2 ^ 64) {w : WorkerId} {n : Nat}
    (hw : (w, n) ∈ batches) : (ofBatches scheme batches).Counts w := by
  refine ⟨_, find?_ofBatches scheme hs hw, ?_⟩
  cases scheme with
  | uniform => exact Single.one_positive
  | proportional => exact Single.ofCount_positive (hb _ hw).1 (hb _ hw).2

/-- The weights of an epoch can be restricted to any of its workers. -/
theorem restrict_ofBatches (scheme : Weighting) {batches : List (WorkerId × Nat)}
    (hs : KeySorted batches) (hb : ∀ b ∈ batches, 0 < b.2 ∧ b.2 < 2 ^ 64) {ids : List WorkerId}
    (hne : ids ≠ []) (hmem : ∀ w ∈ ids, w ∈ batches.map (·.1)) :
    ∃ restricted, (ofBatches scheme batches : Weights Float32).restrict ids = .ok restricted := by
  apply restrict_isOk hne
  intro w hw
  obtain ⟨⟨v, n⟩, hv, rfl⟩ := List.mem_map.1 (hmem w hw)
  exact counts_ofBatches scheme hs hb hv

end Weights

end Federated
