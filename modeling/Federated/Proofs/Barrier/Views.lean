/-
  Federated.Proofs.Barrier.Views

  The states that a coordinator passes through. A message first changes a record and then the
  board; a round changes all records at once, and then the board worker by worker. Whoever reads
  the board meanwhile sees every one of these states.

    * `Way` — what lies between two states.
    * `Coordinator.Tick` — one change of a coordinator: of its records, or of its board.
    * `Session.receiveViews`, `Session.concludeViews` — the states on the way through a message and
      through the stop signal.
    * `Session.way_receive`, `Session.way_conclude` — each differs from the one before by one
      change, and the last one is what is left.
-/
import Federated.Proofs.Barrier.Calls
import Federated.Proofs.Barrier.Tickets

namespace Federated

/-! ## Ways -/

/-- A way from one state over those of a list, the last of which it ends in. -/
inductive Way {σ : Type} (R : σ → σ → Prop) : σ → List σ → σ → Prop
  | stay (a : σ) : Way R a [] a
  | step {a b c : σ} {way : List σ} (first : R a b) (rest : Way R b way c) : Way R a (b :: way) c

namespace Way

variable {σ : Type} {R S : σ → σ → Prop} {a b c : σ} {way way' : List σ}

theorem append (h : Way R a way b) (h' : Way R b way' c) : Way R a (way ++ way') c := by
  induction h with
  | stay a => exact h'
  | step first rest ih => exact .step first (ih h')

theorem getLast?_eq (h : Way R a way b) : (a :: way).getLast? = some b := by
  induction h with
  | stay a => rfl
  | step first rest ih => rwa [List.getLast?_cons_cons]

theorem imp (hRS : ∀ a b, R a b → S a b) (h : Way R a way b) : Way S a way b := by
  induction h with
  | stay a => exact .stay a
  | step first rest ih => exact .step (hRS _ _ first) ih

/-- What every step leads to holds of all states behind the first. -/
theorem forall_mem {P : σ → Prop} (hP : ∀ a b, R a b → P b) (h : Way R a way b) :
    ∀ x ∈ way, P x := by
  induction h with
  | stay a => exact fun x hx => nomatch hx
  | step first rest ih => exact List.forall_mem_cons.2 ⟨hP _ _ first, ih⟩

/-- A relation that passes from state to state holds of any two of them. -/
theorem pairwise (hRS : ∀ a b, R a b → S a b) (trans : ∀ a b c, S a b → S b c → S a c)
    (h : Way R a way b) : (a :: way).Pairwise S := by
  induction h with
  | stay a => exact List.pairwise_singleton _ _
  | @step a b c way first rest ih =>
    refine List.pairwise_cons.2 ⟨fun x hx => ?_, ih⟩
    rcases List.mem_cons.1 hx with rfl | hx
    · exact hRS _ _ first
    · exact trans _ _ _ (hRS _ _ first) ((List.pairwise_cons.1 ih).1 x hx)

end Way

variable {α τ : Type}

namespace Barrier

/-- A message is a call of the barrier. -/
theorem called_take (b : Barrier α τ) (m : Message α τ) :
    b.Called (.message m) (b.take m).1 [] := by
  rw [take_fst]
  exact .taken m

/-- So is a round. -/
theorem called_resolve [Scalar α] {b b' : Barrier α τ} {weights : Weights α} {scope : MergeScope}
    {round : Round} {replies : List (Reply α τ)}
    (h : b.resolve weights scope = .ok (b', round, replies)) :
    b.Called (.resolve weights scope) b' round.released := by
  have hcalled := b.perform_called (.resolve weights scope)
  rwa [perform, run_resolveInPlace, h] at hcalled

end Barrier

namespace Coordinator

/-! ## Single changes -/

/-- One change of a coordinator that takes some of the given messages. -/
inductive Tick (ms : List (Message α τ)) (c : Coordinator α τ) : Coordinator α τ → Prop
  /-- The records change by one call of the barrier. -/
  | write {call : Barrier.Call α τ} {b : Barrier α τ} {released : List WorkerId}
      (called : c.barrier.Called call b released) (given : ∀ m, call = .message m → m ∈ ms) :
      Tick ms c { c with barrier := b }
  /-- The report of a worker is copied to the board. -/
  | post (w : WorkerId) : Tick ms c (c.post w)

theorem Tick.mono {ms ms' : List (Message α τ)} (hms : ms ⊆ ms') {c c' : Coordinator α τ}
    (h : Tick ms c c') : Tick ms' c c' := by
  cases h with
  | write called given => exact .write called fun m hm => hms (given m hm)
  | post w => exact .post w

/-! ## Several changes -/

/-- The states of a coordinator that takes a message. -/
def applyViews (c : Coordinator α τ) (m : Message α τ) : List (Coordinator α τ) :=
  [{ c with barrier := (c.barrier.take m).1 }, (c.apply m).1]

/-- The states of a coordinator that takes messages one after another. -/
def applyAllViews (c : Coordinator α τ) : List (Message α τ) → List (Coordinator α τ)
  | [] => []
  | m :: ms => c.applyViews m ++ (c.apply m).1.applyAllViews ms

/-- The states of a coordinator that posts the reports of workers. -/
def postViews (c : Coordinator α τ) : List WorkerId → List (Coordinator α τ)
  | [] => []
  | w :: ws => c.post w :: (c.post w).postViews ws

theorem way_apply (c : Coordinator α τ) (m : Message α τ) :
    Way (Tick [m]) c (c.applyViews m) (c.apply m).1 := by
  refine .step (.write (c.barrier.called_take m) fun m' hm' => ?_)
    (.step (.post m.worker) (.stay _))
  cases hm'
  exact List.mem_singleton_self m

theorem way_applyAll (c : Coordinator α τ) (ms : List (Message α τ)) :
    Way (Tick ms) c (c.applyAllViews ms) (c.applyAll ms).1 := by
  induction ms generalizing c with
  | nil => exact .stay c
  | cons m ms ih =>
    refine ((c.way_apply m).imp fun _ _ => Tick.mono ?_).append ((ih _).imp fun _ _ => Tick.mono ?_)
    · exact List.cons_subset_cons m (List.nil_subset ms)
    · exact List.subset_cons_self m ms

theorem way_post (c : Coordinator α τ) (ws : List WorkerId) :
    Way (Tick []) c (c.postViews ws) (ws.foldl post c) := by
  induction ws generalizing c with
  | nil => exact .stay c
  | cons w ws ih => exact .step (.post w) (ih _)

variable [Scalar α]

/-- The states of a coordinator that resolves a round; if that is refused, there are none. -/
def resolveViews (c : Coordinator α τ) : List (Coordinator α τ) :=
  match c.barrier.resolve c.weights c.scope with
  | .error _ => []
  | .ok (barrier, round, _) =>
    let written : Coordinator α τ := { c with barrier }
    written :: written.postViews round.released

/-- A round that is refused changes nothing. -/
theorem resolveViews_of_error {c : Coordinator α τ} {cause : AggregationError α}
    (h : c.resolve = .error cause) : c.resolveViews = [] := by
  rw [resolveViews]
  cases hb : c.barrier.resolve c.weights c.scope with
  | error cause => rfl
  | ok out =>
    simp only [resolve, hb] at h
    cases h

theorem way_resolve {c c' : Coordinator α τ} {round : Round} {replies : List (Reply α τ)}
    (h : c.resolve = .ok (c', round, replies)) : Way (Tick []) c c.resolveViews c' := by
  rw [resolveViews]
  cases hb : c.barrier.resolve c.weights c.scope with
  | error cause =>
    rw [resolve_of_error hb] at h
    cases h
  | ok out =>
    obtain ⟨b, round', answers⟩ := out
    simp only [resolve, hb] at h
    cases h
    refine .step (.write (Barrier.called_resolve hb) fun m hm => ?_) (way_post _ _)
    cases hm

end Coordinator

/-! ## Through a session -/

namespace Session

variable [Scalar α]

/-- The states of a coordinator on the way through a message. -/
def receiveViews (s : Session α τ) (m : Message α τ) : List (Coordinator α τ) :=
  match s.stage with
  | .serving =>
    let c := (s.coordinator.apply m).1
    s.coordinator.applyViews m ++ if c.barrier.roundReady then c.resolveViews else []
  | _ => []

/-- The states of a coordinator on the way through the stop signal. -/
def concludeViews (s : Session α τ) (queue : List (Message α τ)) : List (Coordinator α τ) :=
  match s.stage with
  | .serving =>
    s.coordinator.applyAllViews queue ++ (s.coordinator.applyAll queue).1.resolveViews
  | _ => []

/-- A message is taken change by change. -/
theorem way_receive (s : Session α τ) (m : Message α τ) :
    Way (Coordinator.Tick [m]) s.coordinator (s.receiveViews m) (s.receive m).1.coordinator := by
  by_cases hs : s.stage = .serving
  · obtain ⟨c, stage⟩ := s
    cases hs
    have happly := c.way_apply m
    have hviews : receiveViews ⟨c, .serving⟩ m = c.applyViews m ++
        if (c.barrier.take m).1.roundReady = true then (c.apply m).1.resolveViews else [] := by
      rw [← c.apply_barrier m]
      rfl
    rw [hviews]
    cases due : (c.barrier.take m).1.roundReady with
    | false =>
      rw [receive_of_quiet due, if_neg (by simp), List.append_nil]
      exact happly
    | true =>
      rw [if_pos rfl]
      cases hround : (c.apply m).1.resolve with
      | ok result =>
        obtain ⟨c', round, answers⟩ := result
        rw [receive_of_ok due hround]
        exact happly.append ((Coordinator.way_resolve hround).imp fun _ _ =>
          Coordinator.Tick.mono (List.nil_subset _))
      | error cause =>
        rw [receive_of_error due hround, Coordinator.resolveViews_of_error hround, List.append_nil]
        exact happly
  · rw [receive_of_not_serving hs, receiveViews]
    split
    · next hserving => exact absurd hserving hs
    · exact .stay _

/-- So is the stop signal. -/
theorem way_conclude (s : Session α τ) (queue : List (Message α τ)) :
    Way (Coordinator.Tick queue) s.coordinator (s.concludeViews queue)
      (s.conclude queue).1.coordinator := by
  by_cases hs : s.stage = .serving
  · obtain ⟨c, stage⟩ := s
    cases hs
    have happly := c.way_applyAll queue
    show Way _ c (c.applyAllViews queue ++ (c.applyAll queue).1.resolveViews) _
    cases hround : (c.applyAll queue).1.resolve with
    | ok result =>
      obtain ⟨c', round, answers⟩ := result
      rw [conclude_of_ok hround]
      exact happly.append ((Coordinator.way_resolve hround).imp fun _ _ =>
        Coordinator.Tick.mono (List.nil_subset _))
    | error cause =>
      rw [conclude_of_error hround, Coordinator.resolveViews_of_error hround, List.append_nil]
      exact happly
  · rw [conclude_of_not_serving hs, concludeViews]
    split
    · next hserving => exact absurd hserving hs
    · exact .stay _

end Session

end Federated
