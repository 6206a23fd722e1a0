/-
  Federated.Proofs.Barrier.Tickets

  A run of the coordinator over whole lists of messages, and the tickets that go through it.

    * `Session.run` — a run, with what it did at each message and at the stop signal.
    * `receive_tickets`, `conclude_tickets` — tickets are neither lost nor doubled: those
      answered and those still waiting are those that came in.
-/
import Federated.Proofs.Barrier.Session

namespace Federated

variable {α τ : Type}

namespace Message

/-- The ticket that a message brings. -/
def ticket? : Message α τ → Option τ
  | .submit _ _ _ _ ticket => some ticket
  | _ => none

theorem abandon_tickets (m : Message α τ) :
    m.abandon.map (·.ticket) = m.ticket?.toList := by
  cases m <;> rfl

end Message

/-- The message that brought a ticket is the only one that did. -/
theorem Message.eq_of_ticket {ms : List (Message α τ)} (h : (ms.filterMap Message.ticket?).Nodup)
    {m m' : Message α τ} {t : τ} (hm : m ∈ ms) (hm' : m' ∈ ms) (ht : m.ticket? = some t)
    (ht' : m'.ticket? = some t) : m = m' := by
  have hpair : ms.Pairwise fun a b => ∀ t, a.ticket? = some t → ∀ t', b.ticket? = some t' →
      t ≠ t' := List.pairwise_filterMap.1 h
  induction ms with
  | nil => cases hm
  | cons a ms ih =>
    obtain ⟨hhead, htail⟩ := List.pairwise_cons.1 hpair
    have hrest : (ms.filterMap Message.ticket?).Nodup := List.pairwise_filterMap.2 htail
    rcases List.mem_cons.1 hm with rfl | hin
    · rcases List.mem_cons.1 hm' with rfl | hin'
      · rfl
      · exact absurd rfl (hhead m' hin' t ht t ht')
    · rcases List.mem_cons.1 hm' with rfl | hin'
      · exact absurd rfl (hhead m hin t ht' t ht)
      · exact ih hrest hin hin' htail

/-! ## The run of a session -/

namespace Session

/-- What a run did at one point: the barrier with the messages of that point taken, at which a
    round is resolved if one is due, and the answers given. -/
structure Event (α τ : Type) where
  barrier : Barrier α τ
  replies : List (Reply α τ)

/-- Whether a ticket is answered with a merged model. -/
def Event.Answers (e : Event α τ) (t : τ) : Prop :=
  ∃ model, (⟨t, .merged model⟩ : Reply α τ) ∈ e.replies

variable [Scalar α]

/-- A run over messages taken one by one, and what it did at each of them. -/
def receiveAll (s : Session α τ) : List (Message α τ) → Session α τ × List (Event α τ)
  | [] => (s, [])
  | m :: ms =>
    let next := s.receive m
    let rest := next.1.receiveAll ms
    (rest.1, ⟨(s.coordinator.barrier.take m).1, next.2⟩ :: rest.2)

/-- A whole run: messages are taken one by one, and then the stop signal finds others still in
    the queue. The last event is the one of the stop signal. -/
def run (s : Session α τ) (received queued : List (Message α τ)) :
    Session α τ × List (Event α τ) :=
  let served := s.receiveAll received
  let last := served.1.conclude queued
  (last.1, served.2 ++ [⟨served.1.coordinator.barrier.absorbAll queued, last.2⟩])

theorem receiveAll_cons (s : Session α τ) (m : Message α τ) (ms : List (Message α τ)) :
    s.receiveAll (m :: ms) = (((s.receive m).1.receiveAll ms).1,
      ⟨(s.coordinator.barrier.take m).1, (s.receive m).2⟩ ::
        ((s.receive m).1.receiveAll ms).2) := rfl

theorem run_cons (s : Session α τ) (m : Message α τ) (received queued : List (Message α τ)) :
    s.run (m :: received) queued = (((s.receive m).1.run received queued).1,
      ⟨(s.coordinator.barrier.take m).1, (s.receive m).2⟩ ::
        ((s.receive m).1.run received queued).2) := rfl

/-- A run falls into what it does before a message and what it does from then on. -/
theorem run_append (s : Session α τ) (before after queued : List (Message α τ)) :
    s.run (before ++ after) queued = (((s.receiveAll before).1.run after queued).1,
      (s.receiveAll before).2 ++ ((s.receiveAll before).1.run after queued).2) := by
  induction before generalizing s with
  | nil => rfl
  | cons m before ih => rw [List.cons_append, run_cons, ih, receiveAll_cons]; rfl

theorem length_receiveAll (s : Session α τ) (ms : List (Message α τ)) :
    (s.receiveAll ms).2.length = ms.length := by
  induction ms generalizing s with
  | nil => rfl
  | cons m ms ih => rw [receiveAll_cons, List.length_cons, List.length_cons, ih]

/-! ## A run that has ended -/

theorem receive_of_not_serving {s : Session α τ} (hs : s.stage ≠ .serving) (m : Message α τ) :
    s.receive m = (s, m.abandon) := by
  unfold receive
  split
  · next h => exact absurd h hs
  · rfl

theorem conclude_of_not_serving {s : Session α τ} (hs : s.stage ≠ .serving)
    (queue : List (Message α τ)) : s.conclude queue = (s, queue.flatMap Message.abandon) := by
  unfold conclude
  split
  · next h => exact absurd h hs
  · rfl

theorem run_of_not_serving {s : Session α τ} (hs : s.stage ≠ .serving)
    (received queued : List (Message α τ)) : (s.run received queued).1 = s := by
  induction received with
  | nil => exact congrArg Prod.fst (conclude_of_not_serving hs queued)
  | cons m received ih => rw [run_cons, receive_of_not_serving hs]; exact ih

/-- The stage of a session that neither serves nor failed is kept to the end. -/
theorem serving_of_completed {s : Session α τ} {received queued : List (Message α τ)}
    {outcome : Outcome α} (hne : ∀ o, s.stage ≠ .completed o)
    (h : (s.run received queued).1.stage = .completed outcome) :
    ∃ c, s = ⟨c, .serving⟩ := by
  obtain ⟨c, stage⟩ := s
  cases stage with
  | serving => exact ⟨c, rfl⟩
  | completed o => exact absurd rfl (hne o)
  | failed cause =>
    rw [run_of_not_serving (by simp)] at h
    cases h

end Session

/-! ## Tickets -/

namespace Barrier

/-- The tickets of the waiting workers. -/
def tickets (b : Barrier α τ) : List τ := b.waiting.map (·.2)

theorem tickets_eq (b : Barrier α τ) :
    b.tickets = b.records.toList.filterMap (·.status.ticket?) := by
  have hrecords : b.numbered.map (·.2) = b.records.toList := by
    unfold numbered
    rw [List.map_map]
    exact List.zipIdx_map_fst 0 _
  unfold tickets waiting
  rw [List.map_filterMap, ← hrecords, List.filterMap_map]
  congr 1
  funext e
  show (e.2.status.ticket?.map (e.1, ·)).map (·.2) = e.2.status.ticket?
  cases e.2.status.ticket? <;> rfl

/-- The tickets of all others stand where they stood when a record changes. -/
theorem tickets_modify {b : Barrier α τ} {w : WorkerId} {r : Record α τ}
    (hr : b.record? w = some r) :
    ∃ before after, b.tickets = before ++ r.status.ticket?.toList ++ after ∧
      ∀ f, (b.modify w f).tickets = before ++ (f r).status.ticket?.toList ++ after := by
  obtain ⟨hlt, hget⟩ := Array.getElem?_eq_some_iff.1 hr
  have hlt' : w.index < b.records.toList.length := by simpa using hlt
  have hget' : b.records.toList[w.index] = r := by simpa using hget
  -- cut the records at the one that changes
  have hsplit : b.records.toList =
      b.records.toList.take w.index ++ r :: b.records.toList.drop (w.index + 1) := by
    rw [← hget', ← List.drop_eq_getElem_cons hlt', List.take_append_drop]
  refine ⟨(b.records.toList.take w.index).filterMap (·.status.ticket?),
    (b.records.toList.drop (w.index + 1)).filterMap (·.status.ticket?), ?_, fun f => ?_⟩
  · rw [tickets_eq]
    conv => lhs; rw [hsplit]
    simp only [List.filterMap_append, List.filterMap_cons]
    cases r.status.ticket? <;> simp
  · rw [tickets_eq]
    simp only [modify, Array.toList_modify]
    rw [List.modify_eq_take_cons_drop hlt', hget']
    simp only [List.filterMap_append, List.filterMap_cons]
    cases (f r).status.ticket? <;> simp

theorem closing_tickets (r : Record α τ) :
    (closing r).map (·.ticket) = r.status.ticket?.toList := by
  unfold closing
  cases r.status.ticket? <;> rfl

theorem abandon_tickets (b : Barrier α τ) : b.abandon.map (·.ticket) = b.tickets := by
  unfold abandon tickets
  rw [List.map_map]
  rfl

theorem answers_tickets (b : Barrier α τ) (model : Params α) :
    (b.answers model).map (·.ticket) = b.tickets := by
  unfold answers tickets
  rw [List.map_map]
  rfl

/-- A message answers what its worker gives up, and its own ticket either waits or is answered
    at once. -/
theorem take_tickets (b : Barrier α τ) (m : Message α τ) :
    ((b.take m).2.map (·.ticket) ++ (b.take m).1.tickets).Perm (b.tickets ++ m.ticket?.toList) := by
  classical
  -- tickets are counted: where they stand among the records does not matter
  rw [List.perm_iff_count]
  intro t
  simp only [List.count_append]
  cases m with
  | progress w batch total =>
    -- progress moves no ticket, whether the worker is known or not
    have hsame : (b.progress w batch total).tickets = b.tickets := by
      cases hr : b.record? w with
      | none => exact congrArg tickets (modify_eq_self b w _ (by simp [hr]))
      | some r =>
        obtain ⟨before, after, htickets, hmodify⟩ := tickets_modify hr
        rw [htickets]
        exact hmodify _
    simp [take, hsame, Message.ticket?]
  | submit w batch model loss ticket =>
    simp only [take, submit, Message.ticket?, Option.toList_some]
    cases hr : b.record? w with
    | none => simp [Nat.add_comm]
    | some r =>
      -- a finished worker is not let in again, so its ticket is given up at once
      by_cases hf : r.status.isFinished
      · simp [hf, Nat.add_comm]
      · obtain ⟨before, after, htickets, hmodify⟩ := tickets_modify hr
        simp only [hf, htickets, hmodify, closing_tickets, Status.ticket?, List.count_append,
          Bool.false_eq_true, if_false, Option.toList_some]
        omega
  | finish w model loss total =>
    simp only [take, finish, Message.ticket?, Option.toList_none]
    cases hr : b.record? w with
    | none => simp
    | some r =>
      obtain ⟨before, after, htickets, hmodify⟩ := tickets_modify hr
      simp only [htickets, hmodify, closing_tickets, Status.ticket?, List.count_append,
        Option.toList_none, List.count_nil]
      omega

end Barrier

namespace Coordinator

theorem applyAll_tickets (c : Coordinator α τ) (queue : List (Message α τ)) :
    ((c.applyAll queue).2.map (·.ticket) ++ (c.barrier.absorbAll queue).tickets).Perm
      (c.barrier.tickets ++ queue.filterMap Message.ticket?) := by
  classical
  induction queue generalizing c with
  | nil => simp [applyAll]
  | cons m queue ih =>
    -- count one ticket before and after the first message, then before and after the rest
    have htake := List.perm_iff_count.1 (c.barrier.take_tickets m)
    have hrest := List.perm_iff_count.1 (ih (c.apply m).1)
    have hbring : (m :: queue).filterMap Message.ticket? =
        m.ticket?.toList ++ queue.filterMap Message.ticket? := by
      rw [List.filterMap_cons]
      cases m.ticket? <;> rfl
    rw [List.perm_iff_count]
    intro t
    have htake' := htake t
    have hrest' := hrest t
    rw [hbring, applyAll_cons]
    simp only [List.map_append, List.count_append, apply_barrier, Barrier.absorbAll_cons] at *
    omega

end Coordinator

namespace Session

/-- The tickets that a run may still answer: none, once it has ended. -/
def openTickets (s : Session α τ) : List τ :=
  match s.stage with
  | .serving => s.coordinator.barrier.tickets
  | _ => []

variable [Scalar α]

/-- Taking a message neither loses nor doubles a ticket. -/
theorem receive_tickets {s : Session α τ} (hp : s.coordinator.barrier.Published)
    (m : Message α τ) :
    ((s.receive m).2.map (·.ticket) ++ (s.receive m).1.openTickets).Perm
      (s.openTickets ++ m.ticket?.toList) := by
  by_cases hs : s.stage = .serving
  · obtain ⟨c, stage⟩ := s
    cases hs
    have htake := c.barrier.take_tickets m
    -- a round answers exactly the tickets that the message has left waiting
    have hturn := receive_turn hp m
    generalize (receive ⟨c, .serving⟩ m).1 = s' at hturn ⊢
    generalize (receive ⟨c, .serving⟩ m).2 = replies at hturn ⊢
    cases hturn with
    | quiet c' hb hw hs due => simpa only [openTickets, hb] using htake
    | merged c' model average hb hw hs due =>
      have hnone : (c'.barrier).tickets = [] := by
        rw [hb, Barrier.tickets, Barrier.waiting_adopt]
        rfl
      simpa only [openTickets, hnone, List.map_append, Barrier.answers_tickets,
        List.append_nil] using htake
    | refused c' cause average hb hw hs due =>
      simpa only [openTickets, List.map_append, Barrier.abandon_tickets,
        List.append_nil] using htake
  · have hopen : s.openTickets = [] := by
      unfold openTickets
      split
      · next h => exact absurd h hs
      · rfl
    -- a run that has ended gives up every ticket that comes in
    rw [receive_of_not_serving hs, hopen, List.append_nil, Message.abandon_tickets]
    exact List.Perm.refl _

/-- The stop signal answers every ticket that waits or is still queued. -/
theorem conclude_tickets {s : Session α τ} (hp : s.coordinator.barrier.Published)
    (queue : List (Message α τ)) :
    ((s.conclude queue).2.map (·.ticket)).Perm
      (s.openTickets ++ queue.filterMap Message.ticket?) := by
  by_cases hs : s.stage = .serving
  · obtain ⟨c, stage⟩ := s
    cases hs
    have hqueue := c.applyAll_tickets queue
    have hstop := conclude_stop hp queue
    generalize (conclude ⟨c, .serving⟩ queue).1 = s' at hstop
    generalize (conclude ⟨c, .serving⟩ queue).2 = replies at hstop ⊢
    cases hstop with
    | merged c' model average hb =>
      simpa only [openTickets, List.map_append, Barrier.answers_tickets] using hqueue
    | empty c' average hb hn =>
      -- with nobody waiting there is nobody left to answer
      have hnone : (c.barrier.absorbAll queue).tickets = [] := by
        rw [Barrier.tickets, Barrier.waiting_eq_nil hn]
        rfl
      simpa only [openTickets, hnone, List.append_nil] using hqueue
    | refused c' cause average hb =>
      simpa only [openTickets, List.map_append, Barrier.abandon_tickets] using hqueue
  · have hopen : s.openTickets = [] := by
      unfold openTickets
      split
      · next h => exact absurd h hs
      · rfl
    rw [conclude_of_not_serving hs, hopen, List.nil_append]
    induction queue with
    | nil => exact List.Perm.refl _
    | cons m queue ih =>
      rw [List.flatMap_cons, List.map_append, Message.abandon_tickets, List.filterMap_cons]
      cases m.ticket? with
      | none => exact ih
      | some t => exact ih.cons t

end Session

end Federated
