/-
  Federated.Training.System

  The actors of an epoch in one state: the workers' programs, the queue of messages on their
  way, the coordinator, and the supervisor that joins the workers and gives the stop signal.
  A step lets one actor move; which one is a choice, so that an execution of the epoch is a
  list of choices.
-/
import Federated.Config.Basic
import Federated.Optimizer.Bank

namespace Federated

/-- A worker with the answer it has not read yet, and whether the supervisor has joined it. -/
structure Seat (α : Type) where
  worker : Worker α
  mail : Option (Answer α)
  joined : Bool

/-- The state of an epoch. -/
structure System (α : Type) where
  seats : Array (Seat α)
  queue : List (Message α WorkerId)
  session : Session α WorkerId
  bank : Bank α
  /-- The stop signal. -/
  stopped : Bool
  /-- The failure of a worker, which ends all other workers. -/
  failure : Option (FederatedError α)

/-- An actor and what it does next. -/
inductive Choice where
  /-- A worker takes its next step. -/
  | act (worker : WorkerId)
  /-- The coordinator takes the first message of the queue. -/
  | receive
  /-- The supervisor joins a worker that has ended. -/
  | join (worker : WorkerId)
  /-- The supervisor gives the stop signal, every worker being joined. -/
  | stop
  /-- The coordinator takes the stop signal. -/
  | conclude
  deriving DecidableEq

namespace System

variable {α : Type}

/-- Changes the seat of a worker. -/
def modify (s : System α) (w : WorkerId) (f : Seat α → Seat α) : System α :=
  { s with seats := s.seats.modify w.index f }

/-- Leaves an answer with the worker it is for. -/
def deliver (s : System α) (r : Reply α WorkerId) : System α :=
  s.modify r.ticket fun seat => { seat with mail := some r.answer }

/-- Leaves answers with the workers they are for. -/
def deliverAll (s : System α) (replies : List (Reply α WorkerId)) : System α :=
  replies.foldl deliver s

/-- Whether every worker has been joined. -/
def allJoined (s : System α) : Bool := s.seats.all (·.joined)

/-- The end of a worker, seen by the supervisor: its optimizer goes back to the bank, or its
    failure ends the epoch. -/
def joinWith (s : System α) (w : WorkerId) (seat : Seat α) : Option (System α) :=
  let s := s.modify w fun seat => { seat with joined := true }
  match seat.worker.point with
  | .finished _ => some { s with bank := s.bank.restore w seat.worker.learner.optimizer }
  | .failed cause => some { s with stopped := true, failure := some cause }
  | _ => none

variable [Scalar α]

/-- A message on its way to the coordinator, which takes none once its run has ended; a worker
    whose message is refused fails. -/
def dispatch (s : System α) (w : WorkerId) (moved : Worker α) (m : Message α WorkerId) :
    System α :=
  if s.session.isServing then
    { s.modify w fun seat => { seat with worker := moved } with queue := s.queue ++ [m] }
  else s.modify w fun seat => { seat with worker := moved.refused }

/-- A worker's move: it reads its answer if it waits, and else takes its next step. -/
def actWith (s : System α) (w : WorkerId) (seat : Seat α) : Option (System α) :=
  if seat.worker.isWaiting then
    seat.mail.map fun answer =>
      s.modify w fun seat => { seat with worker := seat.worker.resume answer, mail := none }
  else
    match seat.worker.step? with
    | none => none
    | some (moved, none) => some (s.modify w fun seat => { seat with worker := moved })
    | some (moved, some m) => some (s.dispatch w moved m)

/-- A session that moved, and the answers it gave. Once it has ended, what is queued is lost. -/
def withSession (s : System α) (session : Session α WorkerId) (queue : List (Message α WorkerId))
    (replies : List (Reply α WorkerId)) : System α :=
  if session.isServing then ({ s with session, queue } : System α).deliverAll replies
  else
    ({ s with session, queue := [] } : System α).deliverAll
      (replies ++ queue.flatMap Message.abandon)

/-- The state after a choice, or none if the actor cannot move. -/
def step? (s : System α) : Choice → Option (System α)
  | .act w =>
    if s.failure.isSome then none else s.seats[w.index]?.bind (s.actWith w)
  | .receive =>
    match s.session.stage, s.queue with
    | .serving, m :: queue =>
      let (session, replies) := s.session.receive m
      some (s.withSession session queue replies)
    | _, _ => none
  | .join w =>
    if s.failure.isSome then none
    else s.seats[w.index]?.bind fun seat => if seat.joined then none else s.joinWith w seat
  | .stop => if s.allJoined && !s.stopped then some { s with stopped := true } else none
  | .conclude =>
    match s.session.stage with
    | .serving =>
      if s.stopped then
        let (session, replies) := s.session.conclude s.queue
        some (s.withSession session [] replies)
      else none
    | _ => none

/-- The state after a list of choices, or none if one of them could not be made. -/
def run? (s : System α) (choices : List Choice) : Option (System α) := choices.foldlM step? s

/-! ## Taking turns -/

/-- Whether a worker can move. -/
def canAct (s : System α) (i : Nat) : Bool :=
  match s.seats[i]? with
  | none => false
  | some seat =>
    if seat.worker.isWaiting then seat.mail.isSome else !seat.worker.hasEnded

/-- Whether a worker can be joined. -/
def canJoin (s : System α) (i : Nat) : Bool :=
  match s.seats[i]? with
  | none => false
  | some seat => seat.worker.hasEnded && !seat.joined

/-- The first of `count` places from `place` on, around `size` of them, that passes a test. -/
def firstFrom (test : Nat → Bool) (size place : Nat) : Nat → Option Nat
  | 0 => none
  | count + 1 =>
    let i := place % size
    if test i then some i else firstFrom test size (place + 1) count

/-- A choice that can be made: first the coordinator takes its messages, then each worker has
    its turn, then those that ended are joined, and at last the stop signal is given and
    taken. -/
def choose? (s : System α) (turn : Nat) : Option Choice :=
  let n := s.seats.size
  let active := s.failure.isNone
  if s.session.isServing && !s.queue.isEmpty then some .receive
  else
    match if active then firstFrom s.canJoin n turn n else none with
    | some i => some (.join ⟨i⟩)
    | none =>
      match if active then firstFrom s.canAct n turn n else none with
      | some i => some (.act ⟨i⟩)
      | none =>
        if s.allJoined && !s.stopped then some .stop
        else if s.session.isServing && s.stopped then some .conclude
        else none

/-- Makes choices in turn until none can be made; `fuel` bounds their number. -/
def settle (s : System α) (turn : Nat) : Nat → System α
  | 0 => s
  | fuel + 1 =>
    match s.choose? turn with
    | none => s
    | some c =>
      match s.step? c with
      | none => s
      | some next =>
        settle next (match c with | .act w => w.index + 1 | _ => turn) fuel

/-- Steps enough for an epoch: each batch costs at most an announcement, a submission, an
    answer, the step itself and two messages taken; each worker an end, its message taken and
    a join; and two steps end the epoch. -/
def fuel (s : System α) : Nat :=
  s.seats.foldl (fun n seat => n + 6 * seat.worker.total + 4) 4

end System

end Federated
