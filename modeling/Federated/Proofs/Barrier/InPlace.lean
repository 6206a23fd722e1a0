/-
  Federated.Proofs.Barrier.InPlace

  A round as it is carried out on the barrier itself: the waiting workers are answered one after
  another, and a step that fails undoes nothing of what the steps before it have written.
  `Barrier.resolve` says in one go what such a round comes to.

    * `resolveInPlace` — the steps of a round.
    * `run_resolveInPlace` — they come to what `resolve` says. A refused round, in particular,
      has written nothing and answered nobody.
-/
import Federated.Proofs.Barrier.Session

namespace Federated

variable {α τ : Type}

namespace Barrier

/-! ## The steps of a round -/

/-- A barrier in use, and the answers that have gone out. -/
structure Site (α τ : Type) where
  barrier : Barrier α τ
  sent : List (Reply α τ)

/-- Steps on a barrier in use. A failure ends them and leaves the barrier as it is by then. -/
abbrev InPlace (α τ : Type) : Type → Type := EStateM (AggregationError α) (Site α τ)

/-- The ticket that a worker waits with. -/
def ticketOf? (b : Barrier α τ) (w : WorkerId) : Option τ :=
  (b.record? w).bind (·.status.ticket?)

/-- Answers a worker and sends it back to training, should it wait. -/
def releaseOne (model : Params α) (w : WorkerId) : InPlace α τ (List WorkerId) := do
  let s ← get
  match s.barrier.ticketOf? w with
  | none => return []
  | some ticket =>
    let b := s.barrier.modify w fun r => { r with status := .training }
    set (⟨b, s.sent ++ [⟨ticket, .merged model⟩]⟩ : Site α τ)
    return [w]

/-- Answers workers one after another, and says which of them waited. -/
def releaseEach (model : Params α) : List WorkerId → InPlace α τ (List WorkerId)
  | [] => return []
  | w :: ws => do
    let first ← releaseOne model w
    let rest ← releaseEach model ws
    return first ++ rest

/-- Answers whoever waits with the merged model, if there is one. -/
def releaseInPlace : InPlace α τ (List WorkerId) := do
  let b := (← get).barrier
  match b.merged with
  | none => return []
  | some model => releaseEach model ((List.range b.size).map WorkerId.mk)

/-- Resolves a round. The average is taken before anything is written. -/
def resolveInPlace [Scalar α] (weights : Weights α) (scope : MergeScope) :
    InPlace α τ Round := do
  let s ← get
  let models := s.barrier.contributions scope
  let average ← ofExcept (Params.average models (some weights))
  if let some model := average then
    let b := { s.barrier with merged := some model, rounds := s.barrier.rounds + 1 }
    set (⟨b, s.sent⟩ : Site α τ)
  let released ← releaseInPlace
  return ⟨models.map (·.1), released⟩

/-! ## One worker after another -/

theorem ticketOf?_modify_ne (b : Barrier α τ) {w v : WorkerId} (f : Record α τ → Record α τ)
    (h : w ≠ v) : (b.modify w f).ticketOf? v = b.ticketOf? v := by
  rw [ticketOf?, record?_modify_ne b f h, ticketOf?]

/-- A worker without a ticket has nothing to be released from. -/
theorem modify_release_of_none {b : Barrier α τ} {w : WorkerId} (h : b.ticketOf? w = none) :
    b.modify w Record.release = b := by
  refine modify_eq_self b w _ fun r hr => ?_
  rw [ticketOf?, hr, Option.bind_some] at h
  cases hs : r.status <;> simp_all [Record.release, Status.isWaiting, Status.ticket?]

theorem modify_release_of_some {b : Barrier α τ} {w : WorkerId} {ticket : τ}
    (h : b.ticketOf? w = some ticket) :
    b.modify w Record.release = b.modify w fun r => { r with status := .training } := by
  refine modify_congr b w fun r hr => ?_
  rw [ticketOf?, hr, Option.bind_some] at h
  cases hs : r.status <;> simp_all [Record.release, Status.isWaiting, Status.ticket?]

theorem run_releaseOne (model : Params α) (w : WorkerId) (s : Site α τ) :
    (releaseOne model w).run s =
      .ok ((s.barrier.ticketOf? w).map fun _ => w).toList
        ⟨s.barrier.modify w Record.release,
          s.sent ++ ((s.barrier.ticketOf? w).map fun t => ⟨t, .merged model⟩).toList⟩ := by
  cases ht : s.barrier.ticketOf? w with
  | none =>
    simp [releaseOne, ht, modify_release_of_none ht]
  | some ticket =>
    simp [releaseOne, ht, modify_release_of_some ht]

/-- Workers that are all different do not come in each other's way: each is answered with the
    ticket that it had at the start. -/
theorem run_releaseEach (model : Params α) {ws : List WorkerId} (hws : ws.Nodup)
    (s : Site α τ) :
    (releaseEach model ws).run s =
      .ok (ws.filterMap fun w => (s.barrier.ticketOf? w).map fun _ => w)
        ⟨ws.foldl (fun b w => b.modify w Record.release) s.barrier,
          s.sent ++ ws.filterMap fun w => (s.barrier.ticketOf? w).map fun t =>
            ⟨t, .merged model⟩⟩ := by
  induction ws generalizing s with
  | nil => simp [releaseEach]
  | cons w ws ih =>
    obtain ⟨hw, hrest⟩ := List.nodup_cons.1 hws
    -- releasing the first one leaves the tickets of the others
    have htickets : ∀ v ∈ ws,
        (s.barrier.modify w Record.release).ticketOf? v = s.barrier.ticketOf? v := by
      intro v hv
      exact ticketOf?_modify_ne _ _ fun h => hw (h ▸ hv)
    simp only [releaseEach, EStateM.run_bind, run_releaseOne, ih hrest]
    rw [List.filterMap_congr fun v hv => congrArg _ (htickets v hv)]
    rw [List.filterMap_congr fun v hv => congrArg _ (htickets v hv)]
    cases ht : s.barrier.ticketOf? w <;> simp [ht]

/-! ## The whole round -/

theorem waiting_eq (b : Barrier α τ) :
    b.waiting = ((List.range b.size).map WorkerId.mk).filterMap fun w =>
      (b.ticketOf? w).map (w, ·) := by
  rw [← numbered_map_fst, List.filterMap_map, waiting]
  refine List.filterMap_congr fun e he => ?_
  simp [ticketOf?, mem_numbered.1 he]

theorem release_release (r : Record α τ) : r.release.release = r.release := by
  rw [Record.release, if_neg (by simp [Record.isWaiting_release r])]

theorem record?_foldl_release (b : Barrier α τ) (ws : List WorkerId) (v : WorkerId) :
    (ws.foldl (fun b w => b.modify w Record.release) b).record? v =
      if v ∈ ws then (b.record? v).map Record.release else b.record? v := by
  induction ws generalizing b with
  | nil => simp
  | cons w ws ih =>
    rw [List.foldl_cons, ih, record?_modify]
    by_cases hv : w = v
    · -- a second release finds nothing left to do
      cases b.record? v <;> simp [hv, release_release]
    · simp [hv, Ne.symm hv]

theorem foldl_release_merged (b : Barrier α τ) (ws : List WorkerId) :
    (ws.foldl (fun b w => b.modify w Record.release) b).merged = b.merged ∧
      (ws.foldl (fun b w => b.modify w Record.release) b).rounds = b.rounds := by
  induction ws generalizing b with
  | nil => exact ⟨rfl, rfl⟩
  | cons w ws ih => exact ih (b.modify w Record.release)

/-- Released one after another, the workers are where a release of all of them takes them. -/
theorem foldl_release (b : Barrier α τ) :
    ((List.range b.size).map WorkerId.mk).foldl (fun b w => b.modify w Record.release) b =
      b.release := by
  obtain ⟨hmerged, hrounds⟩ := foldl_release_merged b ((List.range b.size).map WorkerId.mk)
  refine ext_record? (fun w => ?_) hmerged hrounds
  rw [record?_foldl_release, record?_release]
  split
  · rfl
  · next hw =>
    -- a number past the last record has none
    have hout : b.records.size ≤ w.index := by
      by_contra hlt
      exact hw (List.mem_map.2 ⟨w.index, List.mem_range.2 (by simpa [size] using hlt), rfl⟩)
    rw [record?, Array.getElem?_eq_none hout, Option.map_none]

theorem run_releaseInPlace (s : Site α τ) :
    releaseInPlace.run s =
      match s.barrier.merged with
      | none => .ok [] s
      | some model => .ok (s.barrier.waiting.map (·.1))
          ⟨s.barrier.release, s.sent ++ s.barrier.answers model⟩ := by
  have hnodup : ((List.range s.barrier.size).map WorkerId.mk).Nodup :=
    List.nodup_range.map fun i j h => WorkerId.mk.inj h
  cases hm : s.barrier.merged with
  | none => simp [releaseInPlace, hm]
  | some model =>
    simp [releaseInPlace, hm, run_releaseEach model hnodup, foldl_release, answers, waiting_eq,
      List.map_filterMap, Function.comp_def]

variable [Scalar α]

/-- A round without models leaves the merged model and the count. Should a model be left from an
    earlier round, it goes to whoever waits. -/
theorem resolve_of_none {b : Barrier α τ} {weights : Weights α} {scope : MergeScope}
    (h : Params.average (b.contributions scope) (some weights) = .ok none) :
    b.resolve weights scope =
      match b.merged with
      | none => .ok (b, ⟨b.participants scope, []⟩, [])
      | some model =>
        .ok (b.release, ⟨b.participants scope, b.waiting.map (·.1)⟩, b.answers model) := by
  simp only [resolve, h, bind, Except.bind]
  cases b.merged <;> rfl

/-- A round carried out in place comes to what `resolve` says. A refusal comes before anything
    has been written or sent. -/
theorem run_resolveInPlace (weights : Weights α) (scope : MergeScope) (s : Site α τ) :
    (resolveInPlace weights scope).run s =
      match s.barrier.resolve weights scope with
      | .ok (b, round, replies) => .ok round ⟨b, s.sent ++ replies⟩
      | .error cause => .error cause s := by
  cases average : Params.average (s.barrier.contributions scope) (some weights) with
  | error cause =>
    simp only [resolveInPlace, EStateM.run_bind, EStateM.run_get, average, ofExcept,
      resolve_of_error average]
    rfl
  | ok merged =>
    cases merged with
    | some model =>
      rw [resolve_of_merged average]
      simp only [resolveInPlace, EStateM.run_bind, EStateM.run_get, average, ofExcept,
        EStateM.run_pure, EStateM.run_set, run_releaseInPlace]
      rfl
    | none =>
      rw [resolve_of_none average]
      simp only [resolveInPlace, EStateM.run_bind, EStateM.run_get, average, ofExcept,
        EStateM.run_pure, run_releaseInPlace]
      cases s.barrier.merged with
      | none => simp [participants]
      | some model => rfl

end Barrier

end Federated
