/-
  Federated.Proofs.Training.Start

  The start of an epoch: it is refused only without workers or with a worker without batches, and
  what holds of every point of an epoch holds of it.

    * `Begun` — a state that an epoch starts from, over any scalar.
    * `Begun.running` — what every point of an epoch has in common holds of it, if its weights can
      be restricted to any of its workers.
    * `initial`, `running_initial` — in single precision they always can.
-/
import Federated.Proofs.Training.Ending
import Federated.Training.Epoch

namespace Federated

namespace Epoch

/-! ## Seats -/

section
variable {α : Type} [Scalar α]

theorem length_seats (config : FederatedConfig) (clock : Clock) (model : Affine α) (bank : Bank α)
    (next : Nat) (shards : List (List (Batch α))) :
    (seats config clock model bank next shards).1.length = shards.length := by
  induction shards generalizing bank next with
  | nil => rfl
  | cons shard shards ih =>
    show (seats config clock model _ (next + 1) shards).1.length + 1 = shards.length + 1
    rw [ih]

/-- Each worker begins with the batches of its shard. -/
theorem getElem?_seats (config : FederatedConfig) (clock : Clock) (model : Affine α) (bank : Bank α)
    (next : Nat) (shards : List (List (Batch α))) {i : Nat} {seat : Seat α}
    (h : (seats config clock model bank next shards).1[i]? = some seat) :
    ∃ shard optimizer, shards[i]? = some shard ∧
      seat = ⟨Worker.start ⟨next + i⟩ ⟨model, optimizer⟩ bank.spec (config.policy clock) shard,
        none, false⟩ := by
  induction shards generalizing bank next i with
  | nil => cases h
  | cons shard shards ih =>
    cases i with
    | zero => exact ⟨shard, (bank.take ⟨next⟩).1, rfl, (Option.some.inj h).symm⟩
    -- the bank that the first worker leaves has the same spec
    | succ i =>
      obtain ⟨shard', optimizer, hshard, hseat⟩ := ih (bank.take ⟨next⟩).2 (next + 1) h
      refine ⟨shard', optimizer, hshard, ?_⟩
      rw [show next + (i + 1) = next + 1 + i by omega]
      exact hseat

omit [Scalar α] in
theorem emptyShard?_eq_none {shards : List (List (Batch α))} (h : ∀ shard ∈ shards, shard ≠ []) :
    emptyShard? shards = none := by
  unfold emptyShard?
  rw [Option.map_eq_none_iff, List.findIdx?_eq_none_iff]
  intro shard hshard
  rw [List.isEmpty_eq_false_iff]
  exact h shard hshard

end

/-- Workers in order, each with the count of its batches. -/
theorem keySorted_numbered (totals : List Nat) :
    KeySorted (totals.zipIdx.map fun e => ((⟨e.2⟩ : WorkerId), e.1)) := by
  -- the numbers of the workers increase
  have hindex : (totals.zipIdx.map Prod.snd).Pairwise (· < ·) := by
    rw [List.zipIdx_map_snd]
    exact List.pairwise_lt_range'
  refine List.pairwise_map.2 ((List.pairwise_map.1 hindex).imp fun hlt => ?_)
  exact (Std.compare_eq_lt.2 hlt : compare (_ : Nat) _ = .lt)

theorem mem_numbered {totals : List Nat} {w : WorkerId} {n : Nat} (h : totals[w.index]? = some n) :
    (w, n) ∈ totals.zipIdx.map fun e => ((⟨e.2⟩ : WorkerId), e.1) :=
  List.mem_map.2 ⟨(n, w.index), List.mem_zipIdx_iff_getElem?.2 h, rfl⟩

/-! ## The start -/

section
variable {α : Type} [Scalar α] {config : FederatedConfig} {clock : Clock} {model : Affine α}
  {shards : List (List (Batch α))} {bank : Bank α} {s : System α}

/-- A state that an epoch starts from. -/
structure Begun (config : FederatedConfig) (clock : Clock) (model : Affine α)
    (shards : List (List (Batch α))) (bank : Bank α) (s : System α) : Prop where
  seats : ∀ w seat, s.seat? w = some seat → ∃ shard optimizer, shards[w.index]? = some shard ∧
    seat = ⟨Worker.start w ⟨model, optimizer⟩ bank.spec (config.policy clock) shard, none, false⟩
  size : s.seats.size = shards.length
  session : s.session = Session.ofTotals (shards.map List.length)
    (Weights.ofBatches config.weighting ((shards.map List.length).zipIdx.map fun e => (⟨e.2⟩, e.1)))
    config.scope
  empty : s.queue = []
  unstopped : s.stopped = false
  active : s.failure = none

theorem begun_placed : Begun config clock model shards bank
    ⟨(seats config clock model bank 0 shards).1.toArray, [],
      Session.ofTotals (shards.map List.length) (Weights.ofBatches config.weighting
        ((shards.map List.length).zipIdx.map fun e => (⟨e.2⟩, e.1))) config.scope,
      (seats config clock model bank 0 shards).2, false, none⟩ := by
  refine ⟨fun w seat hseat => ?_, ?_, rfl, rfl, rfl, rfl⟩
  · unfold System.seat? at hseat
    rw [List.getElem?_toArray] at hseat
    obtain ⟨shard, optimizer, hshard, hstart⟩ :=
      getElem?_seats config clock model bank 0 shards hseat
    rw [Nat.zero_add] at hstart
    exact ⟨shard, optimizer, hshard, hstart⟩
  · rw [List.size_toArray, length_seats]

/-- An epoch of workers that all have batches begins. -/
theorem exists_begun (config : FederatedConfig) (clock : Clock) (model : Affine α) (bank : Bank α)
    (hne : shards ≠ []) (hfull : ∀ shard ∈ shards, shard ≠ []) :
    ∃ s, start config clock model shards bank = .ok s ∧ Begun config clock model shards bank s := by
  have hempty : shards.isEmpty = false := by simpa using hne
  refine ⟨_, ?_, begun_placed⟩
  unfold start
  simp only [hempty, emptyShard?_eq_none hfull]
  rfl

theorem Begun.barrier (h : Begun config clock model shards bank s) :
    s.barrier = Barrier.ofTotals (shards.map List.length) := by
  unfold System.barrier
  rw [h.session]
  rfl

theorem Begun.fresh (h : Begun config clock model shards bank s) :
    s.Fresh (config.policy clock).timed := by
  refine ⟨?_, ⟨_, h.barrier, by rw [List.length_map, h.size]⟩, h.empty, fun w seat hseat => ?_,
    h.unstopped, h.active⟩
  · rw [h.session]
    rfl
  · obtain ⟨shard, optimizer, -, rfl⟩ := h.seats w seat hseat
    exact ⟨_, _, _, _, rfl, rfl⟩

/-- What holds of every point of an epoch holds of its start. -/
theorem Begun.running (h : Begun config clock model shards bank s)
    (hweights : ∀ ids : List WorkerId, ids ≠ [] → (ids.Pairwise fun v w => compare v w = .lt) →
      (∀ w ∈ ids, w.index < shards.length) →
      ∃ restricted, s.session.coordinator.weights.restrict ids = .ok restricted) :
    s.Running (config.policy clock) (shards.map List.length) model.params.layout s.bank := by
  refine ⟨h.fresh.steady, ?size, ?policy, ?total, ⟨?workers, ?records, ?weights⟩,
    ⟨?lost, ?blamed, rfl, ?stored, fun _ _ => rfl⟩⟩
  case size =>
    rw [List.length_map, h.size]
  case policy =>
    intro w seat hseat
    obtain ⟨shard, optimizer, -, rfl⟩ := h.seats w seat hseat
    rfl
  case total =>
    intro w seat hseat
    obtain ⟨shard, optimizer, hshard, rfl⟩ := h.seats w seat hseat
    rw [List.getElem?_map, hshard]
    rfl
  case workers =>
    intro w seat hseat
    obtain ⟨shard, optimizer, -, rfl⟩ := h.seats w seat hseat
    rfl
  case records =>
    intro w r p hr hsub
    rw [System.flushed_of_empty h.empty, h.barrier] at hr
    obtain ⟨total, rfl⟩ := Barrier.record?_ofTotals hr
    cases hsub
  case weights =>
    intro ids hne hs hids
    refine hweights ids hne hs fun w hw => ?_
    obtain ⟨seat, hseat⟩ := hids w hw
    rw [← h.size]
    exact (Array.getElem?_eq_some_iff.1 hseat).1
  case lost =>
    intro w seat cause hseat hj
    obtain ⟨shard, optimizer, -, rfl⟩ := h.seats w seat hseat
    cases hj
  case blamed =>
    intro cause hcause
    rw [h.active] at hcause
    cases hcause
  case stored =>
    intro w seat loss hseat hj
    obtain ⟨shard, optimizer, -, rfl⟩ := h.seats w seat hseat
    cases hj

theorem Begun.sound (h : Begun config clock model shards bank s) : s.Sound := by
  intro w seat cause hseat hp
  obtain ⟨shard, optimizer, -, rfl⟩ := h.seats w seat hseat
  cases hp

end

/-! ## In single precision -/

/-- The weights of an epoch. -/
def weights (config : FederatedConfig) (totals : List Nat) : Weights Float32 :=
  Weights.ofBatches config.weighting (totals.zipIdx.map fun e => (⟨e.2⟩, e.1))

theorem restrict_weights (config : FederatedConfig) {totals : List Nat}
    (htotals : ∀ total ∈ totals, 0 < total ∧ total ≤ countLimit) {ids : List WorkerId}
    (hne : ids ≠ []) (hids : ∀ w ∈ ids, w.index < totals.length) :
    ∃ restricted, (weights config totals).restrict ids = .ok restricted := by
  refine Weights.restrict_ofBatches config.weighting (keySorted_numbered totals) ?_ hne ?_
  · rintro b hb
    obtain ⟨e, he, rfl⟩ := List.mem_map.1 hb
    have hmem := htotals e.1 (List.mem_of_getElem? (List.mem_zipIdx_iff_getElem?.1 he))
    have hlimit : countLimit = 2 ^ 64 - 1 := rfl
    show 0 < e.1 ∧ e.1 < 2 ^ 64
    omega
  · intro w hw
    have hlt := hids w hw
    exact List.mem_map.2 ⟨_, mem_numbered (List.getElem?_eq_getElem hlt), rfl⟩

/-- The state that an epoch starts from. -/
def initial (config : FederatedConfig) (clock : Clock) (model : Affine Float32)
    (shards : List (List (Batch Float32))) (bank : Bank Float32) : System Float32 :=
  ⟨(seats config clock model bank 0 shards).1.toArray, [],
    Session.ofTotals (shards.map List.length) (weights config (shards.map List.length))
      config.scope, (seats config clock model bank 0 shards).2, false, none⟩

variable {config : FederatedConfig} {clock : Clock} {model : Affine Float32}
  {shards : List (List (Batch Float32))} {bank : Bank Float32}

/-- An epoch of workers that all have batches begins. -/
theorem start_eq (hne : shards ≠ []) (hfull : ∀ shard ∈ shards, shard ≠ []) :
    start config clock model shards bank = .ok (initial config clock model shards bank) := by
  have hempty : shards.isEmpty = false := by simpa using hne
  unfold start
  simp only [hempty, emptyShard?_eq_none hfull]
  rfl

theorem begun_initial :
    Begun config clock model shards bank (initial config clock model shards bank) := begun_placed

theorem seat?_initial {w : WorkerId} {seat : Seat Float32}
    (h : (initial config clock model shards bank).seat? w = some seat) :
    ∃ shard optimizer, shards[w.index]? = some shard ∧ seat =
      ⟨Worker.start w ⟨model, optimizer⟩ bank.spec (config.policy clock) shard, none, false⟩ :=
  begun_initial.seats w seat h

theorem running_initial (hfull : ∀ shard ∈ shards, shard ≠ [])
    (hcount : ∀ shard ∈ shards, shard.length ≤ countLimit) :
    (initial config clock model shards bank).Running (config.policy clock) (shards.map List.length)
      model.params.layout (initial config clock model shards bank).bank := by
  refine begun_initial.running fun ids hne _ hids => restrict_weights config ?_ hne ?_
  · intro total htotal
    obtain ⟨shard, hshard, rfl⟩ := List.mem_map.1 htotal
    exact ⟨List.length_pos_iff.2 (hfull shard hshard), hcount shard hshard⟩
  · rwa [List.length_map]

theorem sound_initial : (initial config clock model shards bank).Sound := begun_initial.sound

end Epoch

end Federated
