/-
  Federated.Proofs.Barrier.Served

  What a session makes of the waits that messages bring to it.

    * `Session.Served` — each ticket is answered or stays open, and if the run fails, then at a
      round that is refused, whose tickets are all closed.
    * `Sane.served_receive`, `Sane.served_conclude` — messages and the stop signal serve waits so.
    * `Served.trans` — and so does one of them behind the other.
-/
import Federated.Proofs.Barrier.Refusal

namespace Federated

variable {α τ : Type}

/-- The wait that a message starts. -/
def Message.wait? : Message α τ → Option (WorkerId × τ)
  | .submit w _ _ _ ticket => some (w, ticket)
  | _ => none

namespace Barrier

/-- Whoever waits after a message has waited before, or has come with it. -/
theorem mem_waiting_take {b : Barrier α τ} {m : Message α τ} {w : WorkerId} {t : τ}
    (h : (w, t) ∈ (b.take m).1.waiting) : (w, t) ∈ b.waiting ∨ m.wait? = some (w, t) := by
  obtain ⟨r, hr, hs⟩ := mem_waiting.1 h
  rw [record?_take] at hr
  split at hr
  · next hw =>
    obtain ⟨r', hr', rfl⟩ := Option.map_eq_some_iff.1 hr
    cases m with
    | progress v batch total => exact .inl (mem_waiting.2 ⟨r', hr', hs⟩)
    | finish v model loss total => cases hs
    | submit v batch model loss ticket =>
      by_cases hf : r'.status.isFinished
      · simp only [Record.absorb, hf, if_true] at hs
        exact .inl (mem_waiting.2 ⟨r', hr', hs⟩)
      · simp only [Record.absorb, hf] at hs
        cases hs
        cases hw
        exact .inr rfl
  · exact .inl (mem_waiting.2 ⟨r, hr, hs⟩)

end Barrier

namespace Session

/-- The waits that a session may still answer. -/
def openWaits (s : Session α τ) : List (WorkerId × τ) :=
  match s.stage with
  | .serving => s.coordinator.barrier.waiting
  | _ => []

theorem openWaits_tickets (s : Session α τ) : s.openWaits.map (·.2) = s.openTickets := by
  obtain ⟨c, stage⟩ := s
  cases stage <;> rfl

theorem mem_openWaits {s : Session α τ} {e : WorkerId × τ} (h : e ∈ s.openWaits) :
    e ∈ s.coordinator.barrier.waiting := by
  obtain ⟨c, stage⟩ := s
  cases stage with
  | serving => exact h
  | _ => cases h

theorem openTickets_of_not_serving {s : Session α τ} (hs : s.stage ≠ .serving) :
    s.openTickets = [] := by
  obtain ⟨c, stage⟩ := s
  cases stage with
  | serving => exact absurd rfl hs
  | _ => rfl

variable {weights : Weights α} {scope : MergeScope}

/-- A session that has ended, or whose coordinator is ready for the next message. -/
def Sane (weights : Weights α) (scope : MergeScope) (s : Session α τ) : Prop :=
  s.stage = .serving → Ready weights scope s.coordinator

variable [Scalar α]

/-- What becomes of a session that takes in the waits `brought`: it answers `replies`. -/
structure Served (weights : Weights α) (scope : MergeScope) (s : Session α τ)
    (brought : List (WorkerId × τ)) (s' : Session α τ) (replies : List (Reply α τ)) : Prop where
  sane : s'.Sane weights scope
  /-- A run that has ended stays as it is. -/
  ended : s.stage ≠ .serving → s' = s
  /-- A ticket is answered, or it stays open. -/
  tickets : (replies.map (·.ticket) ++ s'.openTickets).Perm
    (s.openTickets ++ brought.map (·.2))
  /-- Nobody waits who has not waited before or come in. -/
  waits : ∀ e ∈ s'.coordinator.barrier.waiting, e ∈ s.coordinator.barrier.waiting ++ brought
  /-- A run fails at a round that is refused, and tells whoever waits that there is no answer. -/
  closed : s.stage = .serving → ∀ cause, s'.stage = .failed cause →
    s'.coordinator.barrier.resolve weights scope = .error cause ∧
      ∀ w t, (w, t) ∈ s'.coordinator.barrier.waiting → (⟨t, .closed⟩ : Reply α τ) ∈ replies

theorem Served.refl {s : Session α τ} (h : s.Sane weights scope) :
    Served weights scope s [] s [] where
  sane := h
  ended := fun _ => rfl
  tickets := by simp
  waits := fun e he => by simpa using he
  closed := fun hs cause hfailed => by cases hs.symm.trans hfailed

theorem Served.trans {s₁ s₂ s₃ : Session α τ} {first second : List (WorkerId × τ)}
    {replies later : List (Reply α τ)} (h : Served weights scope s₁ first s₂ replies)
    (h' : Served weights scope s₂ second s₃ later) :
    Served weights scope s₁ (first ++ second) s₃ (replies ++ later) where
  sane := h'.sane
  ended := fun hs => by
    have heq := h.ended hs
    rw [h'.ended (heq ▸ hs), heq]
  tickets := by
    classical
    -- count one ticket on both ways
    have hfirst := List.perm_iff_count.1 h.tickets
    have hsecond := List.perm_iff_count.1 h'.tickets
    rw [List.perm_iff_count]
    intro t
    have hfirst' := hfirst t
    have hsecond' := hsecond t
    simp only [List.map_append, List.count_append] at *
    omega
  waits := fun e he => by
    rcases List.mem_append.1 (h'.waits e he) with he | he
    · rcases List.mem_append.1 (h.waits e he) with he | he
      · exact List.mem_append_left _ he
      · exact List.mem_append_right _ (List.mem_append_left _ he)
    · exact List.mem_append_right _ (List.mem_append_right _ he)
  closed := fun hs cause hfailed => by
    by_cases hs₂ : s₂.stage = .serving
    · obtain ⟨hrefused, hclosed⟩ := h'.closed hs₂ cause hfailed
      exact ⟨hrefused, fun w t hw => List.mem_append_right _ (hclosed w t hw)⟩
    · -- the run had failed by the first part, and the second one leaves it so
      rw [h'.ended hs₂] at hfailed ⊢
      obtain ⟨hrefused, hclosed⟩ := h.closed hs cause hfailed
      exact ⟨hrefused, fun w t hw => List.mem_append_left _ (hclosed w t hw)⟩

/-! ## One step of a session -/

theorem Sane.receive {s : Session α τ} (h : s.Sane weights scope) (m : Message α τ) :
    (s.receive m).1.Sane weights scope := by
  by_cases hs : s.stage = .serving
  · obtain ⟨c, stage⟩ := s
    cases hs
    rcases (h rfl).receive m with ⟨c', hc', hready, -⟩ | ⟨-, cause, hrefused⟩
    · rw [hc']
      exact fun _ => hready
    · intro hserving
      cases hrefused.stage.symm.trans hserving
  · rw [receive_of_not_serving hs]
    exact h

/-- A message leaves waiting at most those who have waited before, and the worker that it is
    of. -/
theorem Sane.waiting_receive {s : Session α τ} (h : s.Sane weights scope) {m : Message α τ}
    {w : WorkerId} {t : τ} (hw : (w, t) ∈ (s.receive m).1.coordinator.barrier.waiting) :
    (w, t) ∈ s.coordinator.barrier.waiting ∨ m.wait? = some (w, t) := by
  by_cases hs : s.stage = .serving
  · obtain ⟨c, stage⟩ := s
    cases hs
    have hturn := receive_turn (h rfl).published m
    generalize (Session.receive ⟨c, .serving⟩ m).1 = s at hw hturn
    generalize (Session.receive ⟨c, .serving⟩ m).2 = replies at hturn
    cases hturn with
    | quiet c' hb hweights hs due =>
      rw [hb] at hw
      exact Barrier.mem_waiting_take hw
    | refused c' cause average hb hweights hs due =>
      rw [hb] at hw
      exact Barrier.mem_waiting_take hw
    | merged c' model average hb hweights hs due =>
      rw [hb, Barrier.waiting_adopt] at hw
      cases hw
  · rw [receive_of_not_serving hs] at hw
    exact .inl hw

/-- The stop signal leaves nobody waiting who has not waited before. -/
theorem Sane.waiting_conclude {s : Session α τ} (h : s.Sane weights scope) {w : WorkerId} {t : τ}
    (hw : (w, t) ∈ (s.conclude []).1.coordinator.barrier.waiting) :
    (w, t) ∈ s.coordinator.barrier.waiting := by
  by_cases hs : s.stage = .serving
  · obtain ⟨c, stage⟩ := s
    cases hs
    have hstop := conclude_stop (h rfl).published []
    generalize (Session.conclude ⟨c, .serving⟩ []).1 = s at hw hstop
    generalize (Session.conclude ⟨c, .serving⟩ []).2 = replies at hstop
    cases hstop with
    | empty c' average hb hn =>
      rw [hb] at hw
      exact hw
    | refused c' cause average hb =>
      rw [hb] at hw
      exact hw
    | merged c' model average hb =>
      rw [hb, Barrier.waiting_adopt] at hw
      cases hw
  · rw [conclude_of_not_serving hs] at hw
    exact hw

theorem Sane.served_receive {s : Session α τ} (h : s.Sane weights scope) (m : Message α τ) :
    Served weights scope s m.wait?.toList (s.receive m).1 (s.receive m).2 where
  sane := h.receive m
  ended := fun hs => by rw [receive_of_not_serving hs]
  tickets := by
    have hbring : m.wait?.toList.map (·.2) = m.ticket?.toList := by cases m <;> rfl
    rw [hbring]
    by_cases hs : s.stage = .serving
    · exact receive_tickets (h hs).published m
    · rw [receive_of_not_serving hs, Message.abandon_tickets]
      exact List.perm_append_comm
  waits := fun e he => by
    rcases h.waiting_receive he with hw | hw
    · exact List.mem_append_left _ hw
    · exact List.mem_append_right _ (by simp [hw])
  closed := fun hs cause hfailed => by
    obtain ⟨c, stage⟩ := s
    cases hs
    rcases (h rfl).receive m with ⟨c', hc', -, -⟩ | ⟨-, cause', hrefused⟩
    · rw [hc'] at hfailed
      cases hfailed
    · cases hrefused.stage.symm.trans hfailed
      rw [hrefused.barrier]
      exact ⟨hrefused.refused, hrefused.closed⟩

/-- The stop signal ends the run. -/
theorem Sane.stage_conclude {s : Session α τ} (h : s.Sane weights scope) :
    (s.conclude []).1.stage ≠ .serving := by
  by_cases hs : s.stage = .serving
  · obtain ⟨c, stage⟩ := s
    cases hs
    rcases (h rfl).conclude [] with ⟨⟨outcome, hdone⟩, -⟩ | ⟨cause, hrefused⟩
    · rw [hdone]
      simp
    · rw [hrefused.stage]
      simp
  · rw [conclude_of_not_serving hs]
    exact hs

theorem Sane.served_conclude {s : Session α τ} (h : s.Sane weights scope) :
    Served weights scope s [] (s.conclude []).1 (s.conclude []).2 where
  sane := fun hserving => absurd hserving h.stage_conclude
  ended := fun hs => by rw [conclude_of_not_serving hs]
  tickets := by
    by_cases hs : s.stage = .serving
    · rw [openTickets_of_not_serving h.stage_conclude, List.append_nil]
      exact conclude_tickets (h hs).published []
    · rw [conclude_of_not_serving hs]
      simp
  waits := fun e he => by
    rw [List.append_nil]
    exact h.waiting_conclude he
  closed := fun hs cause hfailed => by
    obtain ⟨c, stage⟩ := s
    cases hs
    rcases (h rfl).conclude [] with ⟨⟨outcome, hdone⟩, -⟩ | ⟨cause', hrefused⟩
    · cases hdone.symm.trans hfailed
    · cases hrefused.stage.symm.trans hfailed
      rw [hrefused.barrier]
      exact ⟨hrefused.refused, hrefused.closed⟩

end Session

end Federated
