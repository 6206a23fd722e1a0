/-
  Federated.Proofs.Training.Counts

  What the counts of batches say about synchronizations: how many of them come between the
  batches of a worker, how many rounds there are, and who is due for which of them.

    * `le_syncs_iff` — a worker has a synchronization if it has a batch behind it.
    * `lastRound_eq_zero_iff` — when there is none at all.
    * `mem_meeting` — who is due for a round.
-/
import Federated.Barrier.Basic
import Mathlib

namespace Federated

/-! ## One worker -/

/-- The number of synchronizations that come between batches. -/
def syncs (every total : Nat) : Nat := (total - 1) / every

/-- The batches that the first `n` synchronizations come before. -/
def syncBatches (every n : Nat) : List Nat := (List.range n).map fun i => (i + 1) * every

/-- A synchronization comes before a batch, so there is a batch left behind each of them. -/
theorem le_syncs_iff {every total r : Nat} (hpos : 0 < every) (hr : 0 < r) :
    r ≤ syncs every total ↔ r * every < total := by
  have hmul : 0 < r * every := Nat.mul_pos hr hpos
  rw [syncs, Nat.le_div_iff_mul_le hpos]
  omega

theorem syncs_le_of_le {every total r : Nat} (hpos : 0 < every) (h : total ≤ (r + 1) * every) :
    syncs every total ≤ r := by
  apply Nat.le_of_not_lt
  intro hlt
  have hmore : (r + 1) * every < total := (le_syncs_iff hpos (Nat.succ_pos r)).1 hlt
  omega

theorem syncBatches_succ (every n : Nat) :
    syncBatches every (n + 1) = syncBatches every n ++ [(n + 1) * every] := by
  simp [syncBatches, List.range_succ]

/-! ## All workers -/

/-- The number of the last round before the stop signal: the most synchronizations that any
    worker has between its batches. -/
def lastRound (every : Nat) (totals : List Nat) : Nat := (totals.map (syncs every)).foldr max 0

/-- The workers of an epoch, in order. -/
def workersOf (totals : List Nat) : List WorkerId := (List.range totals.length).map WorkerId.mk

/-- The workers that meet in round `r`: those with as many synchronizations. -/
def meeting (every : Nat) (totals : List Nat) (r : Nat) : List WorkerId :=
  (workersOf totals).filter fun w => r ≤ syncs every (totals.getD w.index 0)

/-- The workers whose models are merged in round `r`. -/
def merging (scope : MergeScope) (every : Nat) (totals : List Nat) (r : Nat) : List WorkerId :=
  match scope with
  | .retained => workersOf totals
  | .waitingOnly => meeting every totals r

theorem syncs_le_lastRound {every : Nat} {totals : List Nat} {total : Nat} (h : total ∈ totals) :
    syncs every total ≤ lastRound every totals :=
  List.le_max_of_le (List.mem_map_of_mem h) (Nat.le_refl _)

theorem lastRound_le {every : Nat} {totals : List Nat} {r : Nat}
    (h : ∀ total ∈ totals, syncs every total ≤ r) : lastRound every totals ≤ r := by
  refine List.max_le_of_forall_le _ _ fun n hn => ?_
  obtain ⟨total, hmem, rfl⟩ := List.mem_map.1 hn
  exact h total hmem

/-- No round comes before the stop signal exactly if no worker has a batch behind its first
    `every` ones. -/
theorem lastRound_eq_zero_iff {every : Nat} {totals : List Nat} (hpos : 0 < every) :
    lastRound every totals = 0 ↔ ∀ total ∈ totals, total ≤ every := by
  constructor
  · intro hzero total hmem
    have hle : syncs every total ≤ lastRound every totals := syncs_le_lastRound hmem
    have hnot : ¬ 1 ≤ syncs every total := by omega
    rw [le_syncs_iff hpos Nat.one_pos, Nat.one_mul] at hnot
    omega
  · intro hall
    refine Nat.le_zero.1 (lastRound_le fun total hmem => syncs_le_of_le hpos ?_)
    rw [Nat.zero_add, Nat.one_mul]
    exact hall total hmem

theorem mem_meeting {every : Nat} {totals : List Nat} {r : Nat} {w : WorkerId} :
    w ∈ meeting every totals r ↔
      w.index < totals.length ∧ r ≤ syncs every (totals.getD w.index 0) := by
  unfold meeting workersOf
  rw [List.mem_filter, decide_eq_true_eq]
  refine and_congr_left fun _ => ?_
  constructor
  · intro hmem
    obtain ⟨i, hi, rfl⟩ := List.mem_map.1 hmem
    exact List.mem_range.1 hi
  · exact fun hlt => List.mem_map.2 ⟨w.index, List.mem_range.2 hlt, rfl⟩

end Federated
