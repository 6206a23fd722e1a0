/-
  Federated.Proofs.Training.Opening

  How an epoch opens, over any scalar: it is refused for want of workers or of batches, or every
  worker takes its optimizer out of the bank.

    * `Epoch.Opening`, `opening_start` — the three ways of it.
    * `Epoch.Opened` — the state of an epoch that begins.
    * `Leaves.refused_iff` — what an epoch leaves tells whether it was refused, and why.
-/
import Federated.Proofs.Training.Schedule
import Federated.Proofs.Training.Touched

namespace Federated

namespace Epoch

variable {α : Type} [Scalar α] {config : FederatedConfig} {clock : Clock} {model : Affine α}
  {shards : List (List (Batch α))} {bank : Bank α} {board : Board α}

/-! ## The seats -/

/-- The worker of each shard begins with the optimizer that is stored for it, or a fresh one. -/
theorem getElem?_seats_eq (config : FederatedConfig) (clock : Clock) (model : Affine α)
    (bank : Bank α) (next : Nat) (shards : List (List (Batch α))) (i : Nat) :
    (seats config clock model bank next shards).1[i]? = shards[i]?.map fun shard =>
      ⟨Worker.start ⟨next + i⟩ ⟨model, (bank.take ⟨next + i⟩).1⟩ bank.spec (config.policy clock)
        shard, none, false⟩ := by
  induction shards generalizing bank next i with
  | nil => rfl
  | cons shard shards ih =>
    cases i with
    | zero => rfl
    | succ i =>
      -- the first worker takes out its own optimizer, and leaves those of all others
      have hne : (⟨next + (i + 1)⟩ : WorkerId) ≠ ⟨next⟩ := fun h => by
        have := congrArg WorkerId.index h
        simp at this
      have htake : ((bank.take ⟨next⟩).2.take ⟨next + (i + 1)⟩).1 =
          (bank.take ⟨next + (i + 1)⟩).1 := by
        show ((bank.take ⟨next⟩).2.stored.find? _).getD bank.spec.build = _
        rw [bank.find?_take, if_neg hne]
        rfl
      have hrest := ih (bank.take ⟨next⟩).2 (next + 1) i
      rw [show next + 1 + i = next + (i + 1) by omega, htake] at hrest
      exact hrest

/-- The bank behind the workers: their optimizers are gone, all others are where they were. -/
theorem bank_seats (config : FederatedConfig) (clock : Clock) (model : Affine α) (bank : Bank α)
    (next : Nat) (shards : List (List (Batch α))) :
    (seats config clock model bank next shards).2.spec = bank.spec ∧
      ∀ w, (seats config clock model bank next shards).2.stored.find? w =
        if next ≤ w.index ∧ w.index < next + shards.length then none
        else bank.stored.find? w := by
  induction shards generalizing bank next with
  | nil =>
    refine ⟨rfl, fun w => ?_⟩
    rw [if_neg (by simp)]
    rfl
  | cons shard shards ih =>
    obtain ⟨hspec, hstored⟩ := ih (bank.take ⟨next⟩).2 (next + 1)
    refine ⟨hspec, fun w => (hstored w).trans ?_⟩
    rw [bank.find?_take, List.length_cons]
    by_cases hw : w.index = next
    · have hself : w = ⟨next⟩ := congrArg WorkerId.mk hw
      rw [if_neg (by omega), if_pos hself, if_pos (by omega)]
    · have hother : w ≠ ⟨next⟩ := fun h => hw (congrArg WorkerId.index h)
      have hrange : next + 1 ≤ w.index ∧ w.index < next + 1 + shards.length ↔
          next ≤ w.index ∧ w.index < next + (shards.length + 1) := by
        omega
      rw [if_neg hother, if_congr hrange rfl rfl]

/-! ## The state of an epoch that begins -/

/-- An epoch that begins: nobody has trained yet, every worker has the optimizer that was stored
    for it, or a fresh one, and the bank has all the others. -/
structure Opened (config : FederatedConfig) (clock : Clock) (model : Affine α)
    (shards : List (List (Batch α))) (bank : Bank α) (s : System α) : Prop where
  seats : ∀ w, s.seat? w = shards[w.index]?.map fun shard =>
    ⟨Worker.start w ⟨model, (bank.take w).1⟩ bank.spec (config.policy clock) shard, none, false⟩
  spec : s.bank.spec = bank.spec
  stored : ∀ w, s.bank.stored.find? w =
    if w.index < shards.length then none else bank.stored.find? w
  running : s.stopped = false
  active : s.failure = none

/-- The ways in which an epoch opens. -/
inductive Opening (config : FederatedConfig) (clock : Clock) (model : Affine α)
    (shards : List (List (Batch α))) (bank : Bank α) : Except (ConfigError α) (System α) → Prop
  | noWorkers (none : shards = []) : Opening config clock model shards bank (.error .noWorkers)
  | emptyShard {w : WorkerId} (empty : shards[w.index]? = some [])
      (first : ∀ j shard, j < w.index → shards[j]? = some shard → shard ≠ []) :
      Opening config clock model shards bank (.error (.emptyShard w))
  | begun {s : System α} (crowd : shards ≠ []) (full : ∀ shard ∈ shards, shard ≠ [])
      (opened : Opened config clock model shards bank s) :
      Opening config clock model shards bank (.ok s)

omit [Scalar α] in
/-- The worker that is found to have no batches is the first one without. -/
theorem emptyShard?_eq_some {w : WorkerId} (h : emptyShard? shards = some w) :
    shards[w.index]? = some [] ∧
      ∀ j shard, j < w.index → shards[j]? = some shard → shard ≠ [] := by
  obtain ⟨i, hi, rfl⟩ := Option.map_eq_some_iff.1 h
  obtain ⟨hlt, hempty, hfirst⟩ := List.findIdx?_eq_some_iff_getElem.1 hi
  refine ⟨?_, fun j shard hj hshard => ?_⟩
  · rw [List.getElem?_eq_getElem hlt, List.isEmpty_iff.1 hempty]
  · obtain ⟨hlt', rfl⟩ := List.getElem?_eq_some_iff.1 hshard
    have := hfirst j hj
    rwa [Bool.not_eq_true, List.isEmpty_eq_false_iff] at this

omit [Scalar α] in
theorem full_of_emptyShard? (h : emptyShard? shards = none) : ∀ shard ∈ shards, shard ≠ [] := by
  rw [emptyShard?, Option.map_eq_none_iff, List.findIdx?_eq_none_iff] at h
  exact fun shard hshard => List.isEmpty_eq_false_iff.1 (h shard hshard)

/-- Every epoch opens in one of those ways. -/
theorem opening_start (config : FederatedConfig) (clock : Clock) (model : Affine α)
    (shards : List (List (Batch α))) (bank : Bank α) :
    Opening config clock model shards bank (start config clock model shards bank) := by
  rw [start]
  cases hempty : shards.isEmpty with
  | true => exact .noWorkers (List.isEmpty_iff.1 hempty)
  | false =>
    cases hfound : emptyShard? shards with
    | some w =>
      obtain ⟨hw, hfirst⟩ := emptyShard?_eq_some hfound
      exact .emptyShard hw hfirst
    | none =>
      refine .begun (List.isEmpty_eq_false_iff.1 hempty) (full_of_emptyShard? hfound) ?_
      obtain ⟨hspec, hstored⟩ := bank_seats config clock model bank 0 shards
      refine ⟨fun w => ?_, hspec, fun w => ?_, rfl, rfl⟩
      · have hseat := getElem?_seats_eq config clock model bank 0 shards w.index
        rw [Nat.zero_add] at hseat
        exact (List.getElem?_toArray ..).trans hseat
      · refine (hstored w).trans ?_
        simp

theorem Opened.blameless {s : System α} (h : Opened config clock model shards bank s) :
    s.Blameless := by
  refine ⟨fun w seat cause hseat hp => ?_, fun cause hcause => ?_⟩
  · rw [h.seats w] at hseat
    obtain ⟨shard, -, rfl⟩ := Option.map_eq_some_iff.1 hseat
    cases hp
  · rw [h.active] at hcause
    cases hcause

theorem opened_of_start {s : System α} (h : start config clock model shards bank = .ok s) :
    shards ≠ [] ∧ (∀ shard ∈ shards, shard ≠ []) ∧ Opened config clock model shards bank s := by
  have hopening := opening_start config clock model shards bank
  rw [h] at hopening
  cases hopening with
  | begun crowd full opened => exact ⟨crowd, full, opened⟩

/-! ## Refusals -/

/-- An epoch with workers is refused exactly if one of them has no batches, for the first such. -/
theorem start_eq_error_iff (hne : shards ≠ []) {cause : ConfigError α} :
    start config clock model shards bank = .error cause ↔
      ∃ w, cause = .emptyShard w ∧ shards[w.index]? = some [] ∧
        ∀ j shard, j < w.index → shards[j]? = some shard → shard ≠ [] := by
  have hopening := opening_start config clock model shards bank
  generalize start config clock model shards bank = opening at hopening
  cases hopening with
  | noWorkers none => exact absurd none hne
  | @emptyShard w empty first =>
    constructor
    · intro h
      cases h
      exact ⟨w, rfl, empty, first⟩
    · rintro ⟨v, rfl, hempty, hfirst⟩
      -- of two workers that are the first, neither is before the other
      have hindex : w.index = v.index := by
        rcases Nat.lt_trichotomy w.index v.index with hlt | heq | hlt
        · exact absurd rfl (hfirst w.index [] hlt empty)
        · exact heq
        · exact absurd rfl (first v.index [] hlt hempty)
      exact congrArg (fun i => Except.error (ConfigError.emptyShard ⟨i⟩)) hindex
  | begun _ full =>
    constructor
    · intro h
      cases h
    · rintro ⟨w, -, hempty, -⟩
      exact absurd rfl (full [] (List.mem_of_getElem? hempty))

/-- An epoch was refused exactly if its result is a fault of its configuration: no execution comes
    to such a result. -/
theorem Leaves.refused_iff {left : Run α} (h : Leaves config clock model shards bank board left)
    (cause : ConfigError α) :
    left.result = .error (.error (.config cause)) ↔
      start config clock model shards bank = .error cause := by
  cases h with
  | refused hstart =>
    constructor
    · intro hresult
      cases hresult
      exact hstart
    · intro hstart'
      cases hstart.symm.trans hstart'
      rfl
  | @passed s₀ s choices hstart hrun =>
    have hblameless : s.Blameless := System.run_induction System.Blameless.step
      (opened_of_start hstart).2.2.blameless hrun
    constructor
    · intro hresult
      rw [leave] at hresult
      split at hresult
      · cases hresult
      · next result hresult? =>
        cases result with
        | ok e => cases hresult
        | error failure =>
          cases hresult
          exact absurd hresult? (hblameless.result cause)
    · intro hstart'
      cases hstart.symm.trans hstart'

end Epoch

end Federated
