/-
  Federated.Barrier.Hub

  A coordinator with its message queue, as the workers' side sees it: messages are sent, waits
  are started and end, and the coordinator is started, stopped or dropped. After every event
  all that can happen has happened.

  Two stop signals are kept apart: the coordinator's own, and the one that cancels waits.
-/
import Federated.Barrier.Coordinator
import Federated.Error

namespace Federated

/-- The life of a hub's coordinator. -/
inductive HubLife where
  /-- Not started; messages queue up. -/
  | idle
  | running
  /-- Ended or dropped; messages are refused. -/
  | gone
  deriving DecidableEq

/-- A coordinator and all that is connected to it. -/
structure Hub (α : Type) where
  session : Session α Nat
  life : HubLife
  queue : List (Message α Nat)
  /-- The coordinator's stop signal. -/
  stopped : Bool
  /-- The signal that cancels waits. -/
  cancelled : Bool
  /-- The waits that have not ended, by ticket. -/
  pending : Dict Nat WorkerId
  /-- The next ticket. -/
  next : Nat

/-- How a wait ended. -/
structure EndedWait (α : Type) where
  ticket : Nat
  result : Except (FederatedError α) (Params α)

namespace Hub

variable {α : Type}

/-- A hub whose coordinator is not started. -/
def ofCoordinator (c : Coordinator α Nat) : Hub α :=
  ⟨⟨c, .serving⟩, .idle, [], false, false, Dict.empty, 0⟩

/-- Ends the wait of an answered ticket, if it still waits. -/
def deliver (h : Hub α) (r : Reply α Nat) : Hub α × List (EndedWait α) :=
  match h.pending.find? r.ticket with
  | none => (h, [])
  | some w =>
    let result := match r.answer with
      | .merged model => .ok model
      | .closed => .error (.coordinatorGone w)
    ({ h with pending := h.pending.erase r.ticket }, [⟨r.ticket, result⟩])

/-- Ends the waits of all answered tickets. -/
def deliverAll (h : Hub α) : List (Reply α Nat) → Hub α × List (EndedWait α)
  | [] => (h, [])
  | r :: rs =>
    let (h, ended) := h.deliver r
    let (h, later) := h.deliverAll rs
    (h, ended ++ later)

/-- Ends every wait by cancellation. -/
def cancelPending (h : Hub α) : Hub α × List (EndedWait α) :=
  ({ h with pending := Dict.empty },
    h.pending.entries.map fun e => ⟨e.1, .error (.cancelled e.2)⟩)

/-- Drops the queue; nobody will answer its tickets. -/
def dropQueue (h : Hub α) : Hub α × List (EndedWait α) :=
  ({ h with queue := [], life := .gone } : Hub α).deliverAll (h.queue.flatMap Message.abandon)

/-- Cancels all waits, those to come included. -/
def cancel (h : Hub α) : Hub α × List (EndedWait α) :=
  ({ h with cancelled := true } : Hub α).cancelPending

/-- Drops a coordinator that was never started. -/
def drop (h : Hub α) : Hub α × List (EndedWait α) :=
  if h.life = .idle then h.dropQueue else (h, [])

variable [Scalar α]

/-- Lets the session take queued messages until it ends. -/
def serve (s : Session α Nat) :
    List (Message α Nat) → Session α Nat × List (Reply α Nat)
  | [] => (s, [])
  | m :: ms =>
    let (s, replies) := s.receive m
    let (s, later) := serve s ms
    (s, replies ++ later)

/-- Lets a running coordinator take all queued messages, and then its stop signal if that is
    set. -/
def settle (h : Hub α) : Hub α × List (EndedWait α) :=
  if h.life = .running then
    let (s, replies) := serve h.session h.queue
    let (s, last) := if h.stopped && s.isServing then s.conclude [] else (s, [])
    let life := if s.isServing then HubLife.running else .gone
    ({ h with session := s, queue := [], life } : Hub α).deliverAll (replies ++ last)
  else (h, [])

/-- Sends a message; nobody takes it once the coordinator is gone. -/
def send (h : Hub α) (m : Message α Nat) :
    Except (FederatedError α) (Hub α × List (EndedWait α)) :=
  if h.life = .gone then .error (.coordinatorGone m.worker)
  else .ok ({ h with queue := h.queue ++ [m] } : Hub α).settle

/-- Publishes a model and starts to wait for the merged one, under a new ticket. A cancelled wait
    ends at once, though its model counts. -/
def synchronize (h : Hub α) (w : WorkerId) (batch : Nat) (model : Params α) (loss : α) :
    Hub α × List (EndedWait α) :=
  let ticket := h.next
  let h := { h with next := h.next + 1, pending := h.pending.insert ticket w }
  if h.life = .gone then h.deliver ⟨ticket, .closed⟩
  else
    let h := { h with queue := h.queue ++ [Message.submit w batch model loss ticket] }
    let (h, ended) := if h.cancelled then h.cancelPending else (h, [])
    let (h, later) := h.settle
    (h, ended ++ later)

/-- Starts the coordinator. -/
def start (h : Hub α) : Hub α × List (EndedWait α) :=
  if h.life = .idle then ({ h with life := .running } : Hub α).settle else (h, [])

/-- Sets the coordinator's stop signal. -/
def stop (h : Hub α) : Hub α × List (EndedWait α) := ({ h with stopped := true } : Hub α).settle

end Hub

end Federated
