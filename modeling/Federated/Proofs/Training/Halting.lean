/-
  Federated.Proofs.Training.Halting

  Every execution of an epoch comes to an end, and the turns that an epoch takes by itself make
  one of them.

    * `movesLeft_step` — every step uses up one of the moves that are left.
    * `length_run_le` — so no run has more steps than there are moves at its start.
    * `Running.settle` — taking turns with fuel for these moves completes an execution.
    * `Epoch.run_complete` — an epoch leaves what a complete execution of it leaves.
-/
import Federated.Proofs.Training.Start

namespace Federated

variable {α : Type}

/-- The moves that the worker of a seat can still cause, and its being joined. -/
def Seat.moves (seat : Seat α) : Nat := seat.worker.budget + if seat.joined then 0 else 1

namespace System

/-! ## Moves -/

/-- The moves left at the seats. -/
def seatMoves (s : System α) : Nat := (s.seats.toList.map Seat.moves).sum

/-- The moves left: those at the seats, one for each message under way, and both moves of the
    stop signal. -/
def movesLeft (s : System α) : Nat :=
  s.seatMoves + s.queue.length + (if s.stopped then 0 else 1) +
    if s.session.isServing then 1 else 0

theorem sum_map_modify {β : Type} {l : List β} {i : Nat} {b : β} (h : l[i]? = some b) (f : β → β)
    (g : β → Nat) : ((l.modify i f).map g).sum + g b = (l.map g).sum + g (f b) := by
  induction l generalizing i with
  | nil => cases h
  | cons c l ih =>
    cases i with
    | zero =>
      cases h
      simp only [List.modify_zero_cons, List.map_cons, List.sum_cons]
      omega
    | succ i =>
      have hrest := ih h
      simp only [List.modify_succ_cons, List.map_cons, List.sum_cons]
      omega

theorem seatMoves_modify {s : System α} {w : WorkerId} {seat : Seat α}
    (hseat : s.seat? w = some seat) (f : Seat α → Seat α) :
    (s.modify w f).seatMoves + seat.moves = s.seatMoves + (f seat).moves := by
  unfold seatMoves modify
  rw [Array.toList_modify]
  exact sum_map_modify (by rw [Array.getElem?_toList]; exact hseat) f Seat.moves

/-- A worker that uses up moves of its own takes them from those at the seats. -/
theorem seatMoves_worker {s : System α} {w : WorkerId} {seat : Seat α} {f : Seat α → Seat α}
    {n : Nat} (hseat : s.seat? w = some seat) (hjoined : (f seat).joined = seat.joined)
    (hbudget : (f seat).worker.budget + n ≤ seat.worker.budget) :
    (s.modify w f).seatMoves + n ≤ s.seatMoves := by
  have hmodify := seatMoves_modify hseat f
  unfold Seat.moves at hmodify
  rw [hjoined] at hmodify
  omega

/-- Answers leave the moves at the seats as they are. -/
theorem seatMoves_deliverAll (s : System α) (rs : List (Reply α WorkerId)) :
    (s.deliverAll rs).seatMoves = s.seatMoves := by
  induction rs generalizing s with
  | nil => rfl
  | cons r rs ih =>
    rw [deliverAll_cons, ih]
    cases hseat : s.seat? r.ticket with
    | none =>
      -- an answer for nobody changes nothing
      have hsize : s.seats.size ≤ r.ticket.index := Array.getElem?_eq_none_iff.1 hseat
      unfold deliver seatMoves modify
      rw [Array.toList_modify, List.modify_eq_self (by simpa using hsize)]
    | some seat =>
      have hmodify := seatMoves_modify hseat fun seat => { seat with mail := some r.answer }
      exact Nat.add_right_cancel hmodify

/-- The coordinator's moves: what it does not serve any more is not left. -/
theorem movesLeft_withSession (s : System α) (session : Session α WorkerId)
    (queue : List (Message α WorkerId)) (replies : List (Reply α WorkerId)) :
    (s.withSession session queue replies).movesLeft ≤
      s.seatMoves + (if session.isServing then queue.length + 1 else 0) +
        if s.stopped then 0 else 1 := by
  unfold withSession
  split
  · next hserving =>
    obtain ⟨hqueue, hsession, -, hstopped, -, -⟩ :=
      deliverAll_frame ({ s with session, queue } : System α) replies
    unfold movesLeft
    rw [seatMoves_deliverAll, hqueue, hsession, hstopped]
    show s.seatMoves + queue.length + (if s.stopped then 0 else 1) +
      (if session.isServing then 1 else 0) ≤ _
    rw [if_pos hserving]
    omega
  · next hserving =>
    obtain ⟨hqueue, hsession, -, hstopped, -, -⟩ :=
      deliverAll_frame ({ s with session, queue := [] } : System α)
        (replies ++ queue.flatMap Message.abandon)
    unfold movesLeft
    rw [seatMoves_deliverAll, hqueue, hsession, hstopped]
    show s.seatMoves + 0 + (if s.stopped then 0 else 1) +
      (if session.isServing then 1 else 0) ≤ _
    rw [if_neg hserving]
    omega

variable [Scalar α]

/-- The stop signal ends the service of the coordinator. -/
theorem isServing_conclude {τ : Type} (s : Session α τ) (queue : List (Message α τ)) :
    (s.conclude queue).1.isServing = false := by
  unfold Session.conclude
  split
  · simp only
    split <;> rfl
  · next hstage =>
    exact Bool.eq_false_iff.2 fun h => hstage (Session.isServing_iff.1 h)

omit [Scalar α] in
/-- A step that leaves both signals alone uses up moves at the seats and in the queue. -/
theorem movesLeft_lt {s s' : System α} (hsession : s'.session = s.session)
    (hstopped : s'.stopped = s.stopped)
    (h : s'.seatMoves + s'.queue.length < s.seatMoves + s.queue.length) :
    s'.movesLeft < s.movesLeft := by
  unfold movesLeft
  rw [hsession, hstopped]
  omega

/-- A worker's move uses up one of its own, and one more for a message. -/
theorem Acted.movesLeft {s s' : System α} {w : WorkerId} {seat : Seat α}
    (hseat : s.seat? w = some seat) (h : Acted s w seat s') : s'.movesLeft < s.movesLeft := by
  cases h with
  | read answer waits mail =>
    have hseats := seatMoves_worker hseat rfl (Worker.budget_resume waits answer) (f :=
      fun seat => { seat with worker := seat.worker.resume answer, mail := none })
    exact movesLeft_lt rfl rfl (Nat.add_lt_add_right hseats _)
  | silent moved awake step =>
    have hseats := seatMoves_worker hseat rfl (Worker.budget_step step) (f :=
      fun seat => { seat with worker := moved })
    exact movesLeft_lt rfl rfl (Nat.add_lt_add_right hseats _)
  | send moved m awake step =>
    have hbudget := Worker.budget_step step
    rw [Option.toList_some, List.length_singleton, Nat.add_assoc] at hbudget
    unfold dispatch
    split
    · -- the message takes the move that the worker gives up for it
      have hseats := seatMoves_worker hseat rfl hbudget (f :=
        fun seat => { seat with worker := moved })
      refine movesLeft_lt rfl rfl ?_
      show (s.modify w _).seatMoves + (s.queue ++ [m]).length < _
      rw [List.length_append, List.length_singleton]
      omega
    · -- nobody takes the message, and the worker dies of that
      have hrefused : moved.refused.budget + 1 ≤ seat.worker.budget := by
        have hzero : moved.refused.budget = 0 := rfl
        omega
      have hseats := seatMoves_worker hseat rfl hrefused (f :=
        fun seat => { seat with worker := moved.refused })
      exact movesLeft_lt rfl rfl (Nat.add_lt_add_right hseats _)

omit [Scalar α] in
/-- Joining a worker uses up the move that was kept for it. -/
theorem Joined.movesLeft {s s' : System α} {w : WorkerId} {seat : Seat α}
    (hseat : s.seat? w = some seat) (fresh : seat.joined = false) (h : Joined s w seat s') :
    s'.movesLeft < s.movesLeft := by
  have hmodify := seatMoves_modify hseat fun seat => { seat with joined := true }
  have hmoves : seat.moves = Seat.moves { seat with joined := true } + 1 := by
    unfold Seat.moves
    rw [fresh]
    rfl
  have hseats : (s.modify w fun seat => { seat with joined := true }).seatMoves < s.seatMoves := by
    omega
  cases h with
  | finished loss point => exact movesLeft_lt rfl rfl (Nat.add_lt_add_right hseats _)
  | failed cause point =>
    -- the stop signal that comes with it has been counted, if it had not been given before
    unfold System.movesLeft
    show (s.modify w _).seatMoves + s.queue.length + 0 +
      (if s.session.isServing then 1 else 0) < _
    omega

/-- Every step uses up a move. -/
theorem movesLeft_step {s s' : System α} {choice : Choice} (h : s.step? choice = some s') :
    s'.movesLeft < s.movesLeft := by
  cases choice with
  | act w =>
    obtain ⟨-, seat, hseat, hacted⟩ := acted_of_step? h
    exact hacted.movesLeft hseat
  | receive =>
    simp only [step?] at h
    split at h
    · next m queue hstage hqueue =>
      cases h
      refine Nat.lt_of_le_of_lt (movesLeft_withSession _ _ _ _) ?_
      -- the message taken was one of the moves left
      have hserving : s.session.isServing = true := Session.isServing_iff.2 hstage
      unfold movesLeft
      rw [hqueue, hserving, List.length_cons]
      split
      · simp only [if_true]
        omega
      · simp only [if_true]
        omega
    · cases h
  | join w =>
    obtain ⟨-, seat, hseat, fresh, hjoined⟩ := joined_of_step? h
    exact hjoined.movesLeft hseat fresh
  | stop =>
    simp only [step?] at h
    split at h
    · next hstop =>
      cases h
      rw [Bool.and_eq_true, Bool.not_eq_true'] at hstop
      unfold movesLeft
      show s.seatMoves + s.queue.length + 0 + (if s.session.isServing then 1 else 0) < _
      rw [hstop.2, if_neg Bool.false_ne_true]
      omega
    · cases h
  | conclude =>
    simp only [step?] at h
    split at h
    · next hstage =>
      split at h
      · cases h
        refine Nat.lt_of_le_of_lt (movesLeft_withSession _ _ _ _) ?_
        rw [isServing_conclude]
        unfold movesLeft Session.isServing
        rw [hstage]
        simp only [Bool.false_eq_true, if_false, if_true]
        omega
      · cases h
    · cases h

/-- No run has more steps than there are moves at its start. -/
theorem length_run_le {s s' : System α} {choices : List Choice}
    (h : s.run? choices = some s') : choices.length + s'.movesLeft ≤ s.movesLeft := by
  induction choices generalizing s with
  | nil =>
    cases h
    simp
  | cons choice choices ih =>
    rw [run?_cons] at h
    obtain ⟨s₁, hstep, hrest⟩ := Option.bind_eq_some_iff.1 h
    have hlt := movesLeft_step hstep
    have hle := ih hrest
    rw [List.length_cons]
    omega

/-! ## Taking turns -/

theorem firstFrom_some {test : Nat → Bool} {size place count i : Nat}
    (h : firstFrom test size place count = some i) : test i = true := by
  induction count generalizing place with
  | zero => cases h
  | succ count ih =>
    rw [firstFrom] at h
    split at h
    · next htest =>
      rw [← Option.some.inj h]
      exact htest
    · exact ih h

theorem firstFrom_none {test : Nat → Bool} {size place count : Nat}
    (h : firstFrom test size place count = none) :
    ∀ k < count, test ((place + k) % size) = false := by
  induction count generalizing place with
  | zero => exact fun k hk => absurd hk (Nat.not_lt_zero k)
  | succ count ih =>
    rw [firstFrom] at h
    split at h
    · cases h
    · next htest =>
      intro k hk
      cases k with
      | zero => simpa using htest
      | succ k =>
        have hnext := ih h k (by omega)
        rwa [show place + (k + 1) = place + 1 + k by omega]

/-- Going around once passes every place. -/
theorem test_of_firstFrom_none {test : Nat → Bool} {size place i : Nat}
    (h : firstFrom test size place size = none) (hi : i < size) : test i = false := by
  have hlt : place % size < size := Nat.mod_lt place (by omega)
  -- `i` is as many places behind the first one as it takes, modulo the number of places
  have htest := firstFrom_none h ((i + size - place % size) % size) (Nat.mod_lt _ (by omega))
  have hdiv : size * (place / size) + place % size = place := Nat.div_add_mod place size
  have hsum : place + (i + size - place % size) = i + size * (place / size + 1) := by
    rw [Nat.mul_succ]
    omega
  rwa [Nat.add_mod_mod, hsum, Nat.add_mul_mod_self_left, Nat.mod_eq_of_lt hi] at htest

theorem step?_act_of_canAct {s : System α} {w : WorkerId}
    (h : s.failure.isNone = true → w.index < s.seats.size → s.canAct w.index = false) :
    s.step? (.act w) = none := by
  simp only [step?]
  split
  · rfl
  · next hf =>
    cases hseat : s.seats[w.index]? with
    | none => rfl
    | some seat =>
      have hidle := h (by simpa using hf) (Array.getElem?_eq_some_iff.1 hseat).1
      unfold canAct at hidle
      rw [hseat] at hidle
      show s.actWith w seat = none
      unfold actWith
      simp only at hidle
      split at hidle
      · next hwaits =>
        rw [if_pos hwaits, Option.isSome_eq_false_iff, Option.isNone_iff_eq_none] at *
        rw [hidle]
        rfl
      · next hwaits =>
        rw [Bool.not_eq_false'] at hidle
        rw [if_neg hwaits, Worker.step?_of_hasEnded hidle]

theorem step?_join_of_canJoin {s : System α} {w : WorkerId}
    (h : s.failure.isNone = true → w.index < s.seats.size → s.canJoin w.index = false) :
    s.step? (.join w) = none := by
  simp only [step?]
  split
  · rfl
  · next hf =>
    cases hseat : s.seats[w.index]? with
    | none => rfl
    | some seat =>
      have hidle := h (by simpa using hf) (Array.getElem?_eq_some_iff.1 hseat).1
      unfold canJoin at hidle
      rw [hseat] at hidle
      rw [Option.bind_some]
      split
      · rfl
      · next fresh =>
        have hruns : seat.worker.hasEnded = false := by simpa [fresh] using hidle
        unfold joinWith
        unfold Worker.hasEnded at hruns
        split
        · next hp => simp [hp] at hruns
        · next hp => simp [hp] at hruns
        · rfl

/-- What a choice is made for, and what it means that none is made. -/
inductive Chosen (s : System α) : Option Choice → Prop
  | receive (serving : s.session.isServing = true) (waits : s.queue.isEmpty = false) :
      Chosen s (some .receive)
  | join (i : Nat) (active : s.failure = none) (can : s.canJoin i = true) :
      Chosen s (some (.join ⟨i⟩))
  | act (i : Nat) (active : s.failure = none) (can : s.canAct i = true) :
      Chosen s (some (.act ⟨i⟩))
  | stop (can : (s.allJoined && !s.stopped) = true) : Chosen s (some .stop)
  | conclude (serving : s.session.isServing = true) (stopped : s.stopped = true) :
      Chosen s (some .conclude)
  | nobody (receive : ¬ (s.session.isServing && !s.queue.isEmpty) = true)
      (join : s.failure.isNone = true → ∀ i < s.seats.size, s.canJoin i = false)
      (act : s.failure.isNone = true → ∀ i < s.seats.size, s.canAct i = false)
      (stop : ¬ (s.allJoined && !s.stopped) = true)
      (conclude : ¬ (s.session.isServing && s.stopped) = true) : Chosen s none

omit [Scalar α] in
/-- Every turn is one of those. -/
theorem chosen (s : System α) (turn : Nat) : Chosen s (s.choose? turn) := by
  have hsome : ∀ {test : Nat → Bool} {i : Nat},
      (if s.failure.isNone = true then firstFrom test s.seats.size turn s.seats.size
        else none) = some i → s.failure = none ∧ test i = true := by
    intro test i hfirst
    split at hfirst
    · next active => exact ⟨Option.isNone_iff_eq_none.1 active, firstFrom_some hfirst⟩
    · cases hfirst
  have hnone : ∀ {test : Nat → Bool},
      (if s.failure.isNone = true then firstFrom test s.seats.size turn s.seats.size
        else none) = none → s.failure.isNone = true → ∀ i < s.seats.size, test i = false := by
    intro test hfirst active i hi
    rw [if_pos active] at hfirst
    exact test_of_firstFrom_none hfirst hi
  unfold choose?
  simp only
  split
  · next hreceive =>
    rw [Bool.and_eq_true, Bool.not_eq_true'] at hreceive
    exact .receive hreceive.1 hreceive.2
  · next hreceive =>
    split
    · next i hjoin => exact .join i (hsome hjoin).1 (hsome hjoin).2
    · next hjoin =>
      split
      · next i hact => exact .act i (hsome hact).1 (hsome hact).2
      · next hact =>
        split
        · next hstop => exact .stop hstop
        · next hstop =>
          split
          · next hconclude =>
            rw [Bool.and_eq_true] at hconclude
            exact .conclude hconclude.1 hconclude.2
          · next hconclude =>
            exact .nobody hreceive (hnone hjoin) (hnone hact) hstop hconclude

/-- If no turn is left to be taken, the epoch cannot go on. -/
theorem complete_of_choose? {s : System α} {turn : Nat} (h : s.choose? turn = none) :
    s.Complete := by
  have hchosen := s.chosen turn
  rw [h] at hchosen
  cases hchosen with
  | nobody hreceive hjoin hact hstop hconclude =>
    intro choice
    cases choice with
    | act w => exact step?_act_of_canAct fun active hlt => hact active w.index hlt
    | join w => exact step?_join_of_canJoin fun active hlt => hjoin active w.index hlt
    | receive =>
      simp only [step?]
      split
      · next hstage hqueue => simp [Session.isServing, hstage, hqueue] at hreceive
      · rfl
    | stop =>
      simp only [step?]
      rw [if_neg hstop]
    | conclude =>
      simp only [step?]
      split
      · next hstage =>
        split
        · next stopped => simp [Session.isServing, hstage, stopped] at hconclude
        · rfl
      · rfl

/-- As long as the coordinator serves, a turn that is chosen can be taken. -/
theorem Steady.step?_of_choose? {s : System α} (h : s.Steady) {turn : Nat} {choice : Choice}
    (hchoose : s.choose? turn = some choice) : (s.step? choice).isSome = true := by
  have hchosen := s.chosen turn
  rw [hchoose] at hchosen
  cases hchosen with
  | receive serving waits =>
    cases hq : s.queue with
    | nil => simp [hq] at waits
    | cons m queue => simp [step?, h.serving, hq]
  | join i active can =>
    unfold canJoin at can
    split at can
    · cases can
    · next seat hseat =>
      rw [Bool.and_eq_true, Bool.not_eq_true'] at can
      exact step?_join active hseat can.2 can.1
  | act i active can =>
    unfold canAct at can
    split at can
    · cases can
    · next seat hseat =>
      -- whoever can act is neither waiting in vain nor at its end
      rcases h.act_or_stand active (show s.seat? ⟨i⟩ = some seat from hseat) with
          hmoves | ⟨hp, hm⟩ | hend
      · exact hmoves
      · rw [if_pos (Worker.isWaiting_iff.2 hp), hm] at can
        cases can
      · rw [if_neg (by simp [Worker.isWaiting_of_hasEnded hend]), hend] at can
        cases can
  | stop can =>
    simp only [step?]
    rw [if_pos can]
    rfl
  | conclude serving stopped => simp [step?, h.serving, stopped]

/-- An epoch that cannot go on stays where it is. -/
theorem Complete.settle {s : System α} (h : s.Complete) (turn fuel : Nat) :
    s.settle turn fuel = s := by
  cases fuel with
  | zero => rfl
  | succ fuel =>
    unfold System.settle
    split
    · rfl
    · next choice _ => rw [h choice]

/-- Taking turns is one of the runs. -/
theorem exists_run_settle (s : System α) (turn fuel : Nat) :
    ∃ choices, s.run? choices = some (s.settle turn fuel) := by
  induction fuel generalizing s turn with
  | zero => exact ⟨[], rfl⟩
  | succ fuel ih =>
    unfold System.settle
    split
    · exact ⟨[], rfl⟩
    · next choice _ =>
      split
      · exact ⟨[], rfl⟩
      · next moved hstep =>
        obtain ⟨choices, hrun⟩ := ih moved _
        refine ⟨choice :: choices, ?_⟩
        rw [run?_cons, hstep]
        exact hrun

/-- Taking turns, with fuel for the moves that are left, leaves an epoch that cannot go on. -/
theorem Running.complete_settle {policy : SyncPolicy} {totals : List Nat}
    {layout : Dict String (List Nat)} {bank : Bank α} {s : System α}
    (h : s.Running policy totals layout bank) (turn : Nat) {fuel : Nat}
    (hfuel : s.movesLeft ≤ fuel) : (s.settle turn fuel).Complete := by
  induction fuel generalizing s turn with
  | zero =>
    -- a coordinator that serves still has its stop signal to take
    have hserving : s.session.isServing = true := Session.isServing_iff.2 h.steady.serving
    unfold movesLeft at hfuel
    rw [hserving, if_pos rfl] at hfuel
    omega
  | succ fuel ih =>
    unfold System.settle
    split
    · next hnone => exact complete_of_choose? hnone
    · next choice hchoose =>
      obtain ⟨next, hstep⟩ := Option.isSome_iff_exists.1 (h.steady.step?_of_choose? hchoose)
      have hlt := movesLeft_step hstep
      rw [hstep]
      rcases h.step hstep with hnext | hover
      · exact ih hnext _ (by omega)
      · -- the stop signal has just been taken, and whatever fuel is left is not used
        show (next.settle _ fuel).Complete
        rw [hover.settle]
        exact hover

/-- So it completes an execution. -/
theorem Running.settle {policy : SyncPolicy} {totals : List Nat}
    {layout : Dict String (List Nat)} {bank : Bank α} {s : System α}
    (h : s.Running policy totals layout bank) (turn : Nat) {fuel : Nat}
    (hfuel : s.movesLeft ≤ fuel) :
    ∃ choices, s.run? choices = some (s.settle turn fuel) ∧ (s.settle turn fuel).Complete := by
  obtain ⟨choices, hrun⟩ := s.exists_run_settle turn fuel
  exact ⟨choices, hrun, h.complete_settle turn hfuel⟩

end System

namespace Epoch

variable {config : FederatedConfig} {clock : Clock} {model : Affine Float32}
  {shards : List (List (Batch Float32))} {bank : Bank Float32}

/-- Fuel that counts more for each seat than its moves is enough for all of them. -/
theorem sum_moves_le_foldl {α : Type} {seats : List (Seat α)}
    (h : ∀ seat ∈ seats, seat.moves ≤ 6 * seat.worker.total + 4) (n : Nat) :
    n + (seats.map Seat.moves).sum ≤
      seats.foldl (fun n seat => n + 6 * seat.worker.total + 4) n := by
  induction seats generalizing n with
  | nil => exact Nat.le_refl n
  | cons seat seats ih =>
    have hrest := ih (fun seat hmem => h seat (List.mem_cons_of_mem _ hmem))
      (n + 6 * seat.worker.total + 4)
    have hseat := h seat List.mem_cons_self
    rw [List.map_cons, List.sum_cons, List.foldl_cons]
    omega

/-- The fuel of an epoch is enough for all its moves. -/
theorem movesLeft_initial : (initial config clock model shards bank).movesLeft ≤
    (initial config clock model shards bank).fuel := by
  have hseats : ∀ seat ∈ (initial config clock model shards bank).seats.toList,
      seat.moves ≤ 6 * seat.worker.total + 4 := by
    intro seat hmem
    obtain ⟨i, hi, rfl⟩ := List.mem_iff_getElem.1 hmem
    have hseat : (initial config clock model shards bank).seat? ⟨i⟩ =
        some (initial config clock model shards bank).seats.toList[i] := by
      show (initial config clock model shards bank).seats[i]? = _
      rw [← Array.getElem?_toList, List.getElem?_eq_getElem hi]
    obtain ⟨shard, optimizer, -, heq⟩ := seat?_initial hseat
    rw [heq]
    show 6 * shard.length + 2 + 1 ≤ 6 * shard.length + 4
    omega
  have hsum := sum_moves_le_foldl hseats 4
  rw [Array.foldl_toList] at hsum
  unfold System.movesLeft System.seatMoves System.fuel
  show _ + 0 + 1 + 1 ≤ _
  omega

/-- An epoch leaves what a complete execution of it leaves. -/
theorem run_complete (hne : shards ≠ []) (hfull : ∀ shard ∈ shards, shard ≠ [])
    (hcount : ∀ shard ∈ shards, shard.length ≤ countLimit) (board : Board Float32) :
    ∃ choices last, (initial config clock model shards bank).run? choices = some last ∧
      last.Complete ∧ run config model shards bank board clock = leave last := by
  have hrunning : (initial config clock model shards bank).Running (config.policy clock)
      (shards.map List.length) model.params.layout (initial config clock model shards bank).bank :=
    running_initial hfull hcount
  obtain ⟨choices, hrun, hover⟩ := hrunning.settle 0 movesLeft_initial
  refine ⟨choices, _, hrun, hover, ?_⟩
  unfold run
  rw [start_eq hne hfull]

end Epoch

end Federated
