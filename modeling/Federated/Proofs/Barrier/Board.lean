/-
  Federated.Proofs.Barrier.Board

  The progress board is written piece by piece: a worker's report after each of its messages,
  and one report for each worker that a round has released. It shows what the barrier would
  report all the same.

    * `Shown.apply`, `Shown.resolve` — after a message and after a round.
    * `shown_receive`, `shown_conclude` — through a session, failed rounds included.
    * `board_never_drifts` — at every point of every run.
-/
import Federated.Proofs.Barrier.InPlace
import Federated.Proofs.Barrier.Tickets

namespace Federated

variable {α τ : Type}

namespace Barrier

theorem getElem?_reports (b : Barrier α τ) (i : Nat) : b.reports[i]? = b.report? ⟨i⟩ := by
  simp only [reports, numbered, report?, record?, List.getElem?_map, List.getElem?_zipIdx,
    Array.getElem?_toList, Option.map_map, Nat.zero_add]
  rfl

theorem length_reports (b : Barrier α τ) : b.reports.length = b.size := by
  simp [reports, numbered, size]

/-- Every number below the size is that of a worker. -/
theorem report?_isSome {b : Barrier α τ} {w : WorkerId} :
    (b.report? w).isSome = true ↔ w.index < b.size := by
  simp [report?, record?, size]

/-- A round changes the reports of those it releases, and no others. -/
theorem report?_resolve [Scalar α] {b b' : Barrier α τ} {weights : Weights α}
    {scope : MergeScope} {round : Round} {replies : List (Reply α τ)}
    (h : b.resolve weights scope = .ok (b', round, replies)) :
    b'.size = b.size ∧ ∀ v, v ∉ round.released → b'.report? v = b.report? v := by
  -- whoever is not among the waiting workers has nothing to be released from
  have hrelease : ∀ v, v ∉ b.waiting.map (·.1) →
      ((b.record? v).map Record.release).map (reportOf v) = b.report? v := by
    intro v hv
    rw [report?]
    cases hr : b.record? v with
    | none => rfl
    | some r =>
      cases hs : r.status with
      | waiting ticket =>
        exact absurd (List.mem_map.2 ⟨(v, ticket), mem_waiting.2 ⟨r, hr, hs⟩, rfl⟩) hv
      | _ => simp [Record.release, hs, Status.isWaiting]
  cases average : Params.average (b.contributions scope) (some weights) with
  | error cause =>
    rw [resolve_of_error average] at h
    cases h
  | ok merged =>
    cases merged with
    | some model =>
      rw [resolve_of_merged average] at h
      cases h
      refine ⟨size_adopt b model, fun v hv => ?_⟩
      rw [report?, record?_adopt]
      exact hrelease v hv
    | none =>
      rw [resolve_of_none average] at h
      cases hm : b.merged with
      | none =>
        rw [hm] at h
        cases h
        exact ⟨rfl, fun v _ => rfl⟩
      | some model =>
        rw [hm] at h
        cases h
        refine ⟨by simp [release, size], fun v hv => ?_⟩
        rw [report?, record?_release]
        exact hrelease v hv

theorem worker_of_report? {b : Barrier α τ} {w : WorkerId} {r : Report α}
    (h : b.report? w = some r) : r.worker = w := by
  obtain ⟨record, -, rfl⟩ := Option.map_eq_some_iff.1 h
  rfl

end Barrier

/-! ## Single reports -/

namespace Board

/-- The number of places. -/
def size (b : Board α) : Nat := b.reports.size

theorem getElem?_toList (b : Board α) (i : Nat) : b.toList[i]? = b.find? ⟨i⟩ := by
  simp [toList, find?]

theorem update_of_lt {b : Board α} {r : Report α} (h : r.worker.index < b.size) :
    (b.update r).size = b.size ∧
      ∀ v, (b.update r).find? v = if r.worker = v then some r else b.find? v := by
  have hupdate : b.update r = ⟨b.reports.set! r.worker.index r⟩ := if_pos h
  rw [hupdate]
  refine ⟨by simp [size], fun v => ?_⟩
  by_cases hv : r.worker = v
  · subst hv
    have hlt : r.worker.index < b.reports.size := h
    simp [find?, hlt]
  · have hne : r.worker.index ≠ v.index := fun hi => hv (congrArg WorkerId.mk hi)
    simp [find?, hv, hne]

end Board

/-! ## The board of a coordinator -/

namespace Coordinator

/-- The board shows the barrier, but for the workers of a list. -/
structure ShownBut (ws : List WorkerId) (c : Coordinator α τ) : Prop where
  size : c.board.size = c.barrier.size
  shown : ∀ v, v ∉ ws → c.board.find? v = c.barrier.report? v

/-- The board shows the barrier. -/
abbrev Shown (c : Coordinator α τ) : Prop := c.ShownBut []

theorem Shown.toList {c : Coordinator α τ} (h : c.Shown) :
    c.board.toList = c.barrier.reports := by
  refine List.ext_getElem? fun i => ?_
  rw [Barrier.getElem?_reports, ← h.shown ⟨i⟩ List.not_mem_nil, Board.getElem?_toList]

theorem shown_ofTotals (totals : List Nat) (weights : Weights α) (scope : MergeScope) :
    (ofTotals totals weights scope : Coordinator α τ).Shown := by
  refine ⟨?_, fun v _ => ?_⟩
  · simp [ofTotals, Board.publish, Board.size, Barrier.length_reports]
  · simp [ofTotals, Board.publish, Board.find?, Barrier.getElem?_reports]

/-- Nothing is posted of an unknown worker. -/
theorem post_of_none {c : Coordinator α τ} {w : WorkerId} (h : c.barrier.report? w = none) :
    c.post w = c := by
  simp [Coordinator.post, h]

/-- What is posted of any other one takes its place on the board, and no other place. -/
theorem board_post {c : Coordinator α τ} {w : WorkerId} {r : Report α}
    (hsize : c.board.size = c.barrier.size) (hr : c.barrier.report? w = some r) :
    (c.post w).board.size = c.board.size ∧
      ∀ v, (c.post w).board.find? v = if w = v then some r else c.board.find? v := by
  have hpost : c.post w = { c with board := c.board.update r } := by
    simp [Coordinator.post, hr]
  have hw : r.worker = w := Barrier.worker_of_report? hr
  have hlt : r.worker.index < c.board.size := by
    rw [hw, hsize, ← Barrier.report?_isSome, hr]
    rfl
  rw [hpost, ← hw]
  exact Board.update_of_lt hlt

/-- A report that is posted shows its worker. -/
theorem ShownBut.post {c : Coordinator α τ} {w : WorkerId} {ws : List WorkerId}
    (h : c.ShownBut (w :: ws)) : (c.post w).ShownBut ws := by
  cases hr : c.barrier.report? w with
  | none =>
    rw [post_of_none hr]
    refine ⟨h.size, fun v hv => ?_⟩
    by_cases hvw : v = w
    · -- an unknown worker has no place on the board either
      subst hvw
      have hout : ¬ v.index < c.barrier.size := by
        rw [← Barrier.report?_isSome, hr]
        simp
      rw [hr, Board.find?, Array.getElem?_eq_none]
      have := h.size
      simp only [Board.size] at this
      omega
    · exact h.shown v (by simp [hvw, hv])
  | some r =>
    obtain ⟨hsize, hfind⟩ := board_post h.size hr
    have hbarrier := (c.post_barrier w).1
    refine ⟨by rw [hsize, hbarrier, h.size], fun v hv => ?_⟩
    rw [hfind v, hbarrier]
    by_cases hvw : w = v
    · subst hvw
      rw [if_pos rfl, hr]
    · rw [if_neg hvw]
      exact h.shown v (by simp [Ne.symm hvw, hv])

theorem ShownBut.postAll {c : Coordinator α τ} {ws : List WorkerId} (h : c.ShownBut ws) :
    (ws.foldl Coordinator.post c).Shown := by
  induction ws generalizing c with
  | nil => exact h
  | cons w ws ih => exact ih h.post

/-- A message leaves the reports of all workers but its sender. -/
theorem Shown.apply {c : Coordinator α τ} (h : c.Shown) (m : Message α τ) :
    (c.apply m).1.Shown := by
  have hbut : ({ c with barrier := (c.barrier.take m).1 } : Coordinator α τ).ShownBut
      [m.worker] := by
    refine ⟨h.size.trans (Barrier.size_take _ m).symm, fun v hv => ?_⟩
    have hne : m.worker ≠ v := fun hw => hv (by simp [hw])
    show c.board.find? v = ((c.barrier.take m).1.record? v).map (Barrier.reportOf v)
    rw [Barrier.record?_take_ne hne]
    exact h.shown v List.not_mem_nil
  exact hbut.post

theorem Shown.applyAll {c : Coordinator α τ} (h : c.Shown) (ms : List (Message α τ)) :
    (c.applyAll ms).1.Shown := by
  induction ms generalizing c with
  | nil => exact h
  | cons m ms ih => exact ih (h.apply m)

variable [Scalar α]

/-- A round reports every worker that it releases. -/
theorem Shown.resolve {c c' : Coordinator α τ} {round : Round} {replies : List (Reply α τ)}
    (h : c.Shown) (hc : c.resolve = .ok (c', round, replies)) : c'.Shown := by
  cases hb : c.barrier.resolve c.weights c.scope with
  | error cause =>
    rw [resolve_of_error hb] at hc
    cases hc
  | ok result =>
    obtain ⟨b, round', replies'⟩ := result
    simp only [Coordinator.resolve, hb] at hc
    cases hc
    obtain ⟨hsize, hreports⟩ := Barrier.report?_resolve hb
    have hbut : ({ c with barrier := b } : Coordinator α τ).ShownBut round'.released := by
      refine ⟨h.size.trans hsize.symm, fun v hv => ?_⟩
      exact (h.shown v List.not_mem_nil).trans (hreports v hv).symm
    exact hbut.postAll

end Coordinator

/-! ## Through a session -/

namespace Session

variable [Scalar α]

theorem shown_receive {s : Session α τ} (h : s.coordinator.Shown) (m : Message α τ) :
    (s.receive m).1.coordinator.Shown := by
  by_cases hs : s.stage = .serving
  · obtain ⟨c, stage⟩ := s
    cases hs
    have happly := Coordinator.Shown.apply h m
    cases due : (c.barrier.take m).1.roundReady with
    | false =>
      rw [receive_of_quiet due]
      exact happly
    | true =>
      cases hround : (c.apply m).1.resolve with
      | ok result =>
        obtain ⟨c', round, answers⟩ := result
        rw [receive_of_ok due hround]
        exact happly.resolve hround
      -- a round that fails leaves the board with the message that made it due
      | error cause =>
        rw [receive_of_error due hround]
        exact happly
  · rw [receive_of_not_serving hs]
    exact h

theorem shown_conclude {s : Session α τ} (h : s.coordinator.Shown)
    (queue : List (Message α τ)) : (s.conclude queue).1.coordinator.Shown := by
  by_cases hs : s.stage = .serving
  · obtain ⟨c, stage⟩ := s
    cases hs
    have happly := Coordinator.Shown.applyAll h queue
    cases hround : (c.applyAll queue).1.resolve with
    | ok result =>
      obtain ⟨c', round, answers⟩ := result
      rw [conclude_of_ok hround]
      exact happly.resolve hround
    | error cause =>
      rw [conclude_of_error hround]
      exact happly
  · rw [conclude_of_not_serving hs]
    exact h

/-! ## At every point of a run -/

theorem shown_receiveAll {s : Session α τ} (h : s.coordinator.Shown) (ms : List (Message α τ)) :
    (s.receiveAll ms).1.coordinator.Shown := by
  induction ms generalizing s with
  | nil => exact h
  | cons m ms ih => exact ih (shown_receive h m)

/-- The board shows what the barrier reports, worker by worker and in the same order: before the
    first message, behind each message and the round that it makes due, at each point of the drain
    at the stop signal, and behind the last round. This is so for any counts of batches and any
    messages, of unknown workers too, and goes on behind a round that could not be merged. -/
theorem board_never_drifts (totals : List Nat) (weights : Weights α) (scope : MergeScope)
    (received queued : List (Message α τ)) (n : Nat) :
    let s : Session α τ := ofTotals totals weights scope
    let served := (s.receiveAll (received.take n)).1.coordinator
    let drained := ((s.receiveAll received).1.coordinator.applyAll (queued.take n)).1
    let last := (s.run received queued).1.coordinator
    s.coordinator.board.toList = s.coordinator.barrier.reports ∧
      served.board.toList = served.barrier.reports ∧
      drained.board.toList = drained.barrier.reports ∧
      last.board.toList = last.barrier.reports := by
  intro s served drained last
  have hstart : s.coordinator.Shown := Coordinator.shown_ofTotals totals weights scope
  have hserved := shown_receiveAll hstart received
  refine ⟨hstart.toList, ?served, ?drained, ?last⟩
  case served => exact (shown_receiveAll hstart (received.take n)).toList
  case drained => exact (hserved.applyAll (queued.take n)).toList
  case last => exact (shown_conclude hserved queued).toList

end Session

end Federated
