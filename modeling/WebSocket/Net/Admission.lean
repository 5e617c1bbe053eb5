import WebSocket.Lib.RefCount
import WebSocket.Lib.Transition
import WebSocket.Net.Link

/-!
# Admission

`queue.rs`, `accept.rs` and `serve.rs`: a server lets a connection in only with a permit from
each of two counters, and a permit is given back by whoever drops its last reference. The
references sit in the variables of the accept loop and of the connection's task, in the slot
that the clones of one `Events` handle share, in the envelope under construction and in every
envelope of the hub's queue.

A step is one atomic action of one thread: a load or a compare-exchange of a counter, a clone,
the locked part of `send_pending`, a channel operation, or one half of a drop. What the
handshake reads and writes, and what the link does between two events, does not touch a permit
and is left open: a task moves on, or returns, whenever its program point allows it.
-/

namespace WebSocket.Net.Admission

open Lib.RefCount

/-- The two counters of `Shared`. -/
inductive Gate where
  | connections
  | pending
  deriving DecidableEq

def MAX_PENDING : UInt64 := 256

/-- `Shared::max_connections` and `MAX_PENDING`. -/
def Gate.limit (max_connections : UInt64) : Gate → UInt64
  | .connections => max_connections
  | .pending => MAX_PENDING

/-- An upgrade request, or an event of a link; its `opened` is `Connection` and owns a `Conn`. -/
inductive Event where
  | request
  | link (event : Net.Event)
  deriving DecidableEq

def Event.isClose : Event → Bool
  | .link (.close _ _) => true
  | _ => false

/-- An envelope. `source` names the connection whose handle sent it; handles of clients and of
the hub itself have no slot and no number here. -/
structure Queued where
  source : Option Nat
  event : Event
  permit : Option Nat
  pending : Option Nat
  deriving DecidableEq

def Queued.slot (q : Queued) : Gate → Option Nat
  | .connections => q.permit
  | .pending => q.pending

/-- The accept loop, with what its variables hold. -/
inductive Acceptor where
  | waiting
  | acquiring (n : UInt64)
  | acquired (permit : Nat)
  | acquiringPending (permit : Nat) (n : UInt64)
  | spawning (permit pending : Nat)
  | finished
  deriving DecidableEq

/-- Where a `serve` task stands. -/
inductive Pc where
  | spawned
  | admitted
  | handshaking
  | requesting
  | deciding
  | accepted
  | leaving
  | starting
  | running
  | ended
  deriving DecidableEq

/-- The task still owns its parameter `permit`. -/
def Pc.runs : Pc → Bool
  | .ended => false
  | _ => true

/-- The handshake is not over: the task still owns its parameter `pending`. -/
def Pc.shakes : Pc → Bool
  | .spawned | .admitted | .handshaking | .requesting | .deciding | .accepted | .leaving => true
  | .starting | .running | .ended => false

/-- What the handshake does with the result of its send; other senders go on as they were. -/
def Pc.sent (ok : Bool) : Pc → Pc
  | .requesting => if ok then .deciding else .leaving
  | pc => pc

/-- `send_pending` past the lock on the slot; `checked` once the hub was seen open. -/
structure Sending where
  queued : Queued
  checked : Bool
  deriving DecidableEq

/-- One admitted connection: its task, the slot of its `Events` handle and its link. Sends are
made by the handshake or under the link's `flags`, so one at a time. -/
structure Worker where
  permit : Nat
  pending : Nat
  pc : Pc
  slot : Option Nat
  sending : Option Sending
  /-- The link is `Closed`. -/
  closed : Bool
  /-- The `Conn`s of the application. -/
  handles : Nat
  deriving DecidableEq

def Worker.new (permit pending : Nat) : Worker := ⟨permit, pending, .spawned, none, none, false, 0⟩

structure Server where
  pool : Gate → Pool
  acceptor : Acceptor
  workers : List Worker
  queue : List Queued
  stop : Bool
  closed : Bool
  receiver : Bool

def Server.new : Server := ⟨fun _ => .empty, .waiting, [], [], false, false, true⟩

inductive Label where
  | accept
  | turn (weak : Bool)
  | load
  | spawn
  | leave
  | admitted (c : Nat)
  | shake (c : Nat)
  | request (c : Nat)
  | decide (c : Nat)
  | start (c : Nat)
  | send (c : Nat) (event : Net.Event)
  | check (c : Nat)
  | push (c : Nat)
  | finish (c : Nat)
  | retain (c : Nat)
  | discard (c : Nat)
  | unlink (c : Nat)
  | plain (event : Event)
  | drain
  | purge
  | stop
  | closeHub
  | dropReceiver
  | release (g : Gate) (p : Nat)
  | settle (g : Gate) (p : Nat)

/-! ## `Permit::acquire` -/

/-- How one turn of the loop ends. -/
inductive Turn where
  | none
  | some
  | again (n : UInt64)

/-- One turn of the loop of `Permit::acquire`, `n` being the count last seen. A weak exchange may
fail though the count is still `n`. -/
def acquireTurn (pool : Pool) (limit n : UInt64) (weak : Bool) : Turn :=
  if n < limit then
    if pool.count = n ∧ weak = false then .some else .again pool.count
  else .none

namespace Server

def setPool (s : Server) (g : Gate) (P : Pool) : Server := { s with pool := Function.update s.pool g P }

def setWorker (s : Server) (c : Nat) (w : Worker) : Server := { s with workers := s.workers.set c w }

/-- Variables that go out of scope; their drops run later. -/
def abandon (s : Server) (gone : Gate → List Nat) : Server :=
  { s with pool := fun g => (s.pool g).abandon (gone g) }

/-- `permit.clone()` of an optional permit. -/
def cloned (s : Server) (g : Gate) : Option Nat → Server
  | none => s
  | some p => s.setPool g ((s.pool g).clone p)

/-! ## `accept.rs` -/

def acceptTurn (s : Server) (max_connections : UInt64) (weak : Bool) : Option Server :=
  match s.acceptor with
  | .acquiring n =>
    match acquireTurn (s.pool .connections) max_connections n weak with
    | .none => some { s with acceptor := .waiting }
    | .again m => some { s with acceptor := .acquiring m }
    | .some =>
      let P := s.pool .connections
      some { s.setPool .connections P.mint with acceptor := .acquired P.next }
  | .acquiringPending permit n =>
    match acquireTurn (s.pool .pending) MAX_PENDING n weak with
    | .none =>
      -- `continue` drops the connection's permit
      some { s.abandon (fun | .connections => [permit] | .pending => []) with acceptor := .waiting }
    | .again m => some { s with acceptor := .acquiringPending permit m }
    | .some =>
      let P := s.pool .pending
      some { s.setPool .pending P.mint with acceptor := .spawning permit P.next }
  | _ => none

/-! ## `send_pending` -/

/-- The locked part: a `Close` takes the permit out of the slot, any other event clones it. -/
def sendPending (s : Server) (c : Nat) (w : Worker) (event : Event) (pending : Option Nat) : Server :=
  let sending : Sending := ⟨⟨some c, event, w.slot, pending⟩, false⟩
  if event.isClose then s.setWorker c { w with slot := none, sending := some sending }
  else (s.cloned .connections w.slot).setWorker c { w with sending := some sending }

/-- The envelope is dropped: the hub is closed, or its receiver gone. -/
def refuse (s : Server) (c : Nat) (w : Worker) (q : Queued) : Server :=
  (s.abandon fun g => (q.slot g).toList).setWorker c { w with sending := none, pc := w.pc.sent false }

def check (s : Server) (c : Nat) (w : Worker) : Option Server :=
  match w.sending with
  | some ⟨q, false⟩ =>
    if s.closed then some (s.refuse c w q) else some (s.setWorker c { w with sending := some ⟨q, true⟩ })
  | _ => none

def push (s : Server) (c : Nat) (w : Worker) : Option Server :=
  match w.sending with
  | some ⟨q, true⟩ =>
    if s.receiver then
      some { s.setWorker c { w with sending := none, pc := w.pc.sent true } with queue := s.queue ++ [q] }
    else some (s.refuse c w q)
  | _ => none

/-! ## `serve.rs` and the link -/

/-- An event of the link: `start` sends `Connection`, then anyone with the link may send until it
is closed. -/
def send (s : Server) (c : Nat) (w : Worker) (event : Net.Event) : Option Server :=
  if w.sending = none ∧ w.closed = false then
    if w.pc = .starting ∧ event = .opened then
      some (s.sendPending c { w with pc := .running } (.link event) none)
    else if w.pc = .running ∧ event ≠ .opened then
      some (s.sendPending c { w with closed := (Event.link event).isClose } (.link event) none)
    else none
  else none

/-- The task returns. Before the link exists it takes the `Events` handle along; after that it
ends only through the lease, which sees `flags` free and the link closed. -/
def finish (s : Server) (c : Nat) (w : Worker) : Option Server :=
  match w.pc with
  | .spawned | .admitted | .handshaking | .deciding | .accepted | .leaving =>
    some <| (s.abandon fun
      | .connections => w.permit :: w.slot.toList
      | .pending => if w.pc = .handshaking then [w.pending, w.pending] else [w.pending]).setWorker c
        { w with pc := .ended, slot := none }
  | .running =>
    if w.closed ∧ w.sending = none then
      some <| (s.abandon fun | .connections => [w.permit] | .pending => []).setWorker c { w with pc := .ended }
    else none
  | .requesting | .starting | .ended => none

/-- The connection's `Conn` leaves the queue with its event. -/
def received (s : Server) (q : Queued) : List Worker :=
  match q.source, q.event with
  | some c, .link .opened => s.workers.modify c fun w => { w with handles := w.handles + 1 }
  | _, _ => s.workers

/-- Whether the queue owns a `Conn` of the connection. -/
def queuesConn (s : Server) (c : Nat) : Bool := s.queue.any fun q => q.source == some c && q.event == .link .opened

def step (max_connections : UInt64) (s : Server) : Label → Option Server
  | .accept =>
    if s.acceptor = .waiting then some { s with acceptor := .acquiring (s.pool .connections).count } else none
  | .turn weak => s.acceptTurn max_connections weak
  | .load =>
    match s.acceptor with
    | .acquired permit => some { s with acceptor := .acquiringPending permit (s.pool .pending).count }
    | _ => none
  | .spawn =>
    match s.acceptor with
    | .spawning permit pending =>
      some { s with acceptor := .waiting, workers := s.workers ++ [.new permit pending] }
    | _ => none
  | .leave =>
    if s.acceptor = .waiting ∧ (s.stop ∨ s.closed) then some { s with acceptor := .finished } else none
  | .admitted c => s.workers[c]?.bind fun w =>
    if w.pc = .spawned then
      some ((s.cloned .connections (some w.permit)).setWorker c { w with pc := .admitted, slot := some w.permit })
    else none
  | .shake c => s.workers[c]?.bind fun w =>
    if w.pc = .admitted then
      some ((s.cloned .pending (some w.pending)).setWorker c { w with pc := .handshaking })
    else none
  | .request c => s.workers[c]?.bind fun w =>
    if w.pc = .handshaking then
      some (s.sendPending c { w with pc := .requesting } .request (some w.pending))
    else none
  | .decide c => s.workers[c]?.bind fun w =>
    if w.pc = .deciding then some (s.setWorker c { w with pc := .accepted }) else none
  | .start c => s.workers[c]?.bind fun w =>
    if w.pc = .accepted ∧ s.stop = false ∧ s.closed = false then
      some ((s.abandon fun | .connections => [] | .pending => [w.pending]).setWorker c { w with pc := .starting })
    else none
  | .send c event => s.workers[c]?.bind fun w => s.send c w event
  | .check c => s.workers[c]?.bind fun w => s.check c w
  | .push c => s.workers[c]?.bind fun w => s.push c w
  | .finish c => s.workers[c]?.bind fun w => s.finish c w
  | .retain c => s.workers[c]?.bind fun w =>
    if 0 < w.handles then some (s.setWorker c { w with handles := w.handles + 1 }) else none
  | .discard c => s.workers[c]?.bind fun w =>
    if 0 < w.handles then some (s.setWorker c { w with handles := w.handles - 1 }) else none
  | .unlink c => s.workers[c]?.bind fun w =>
    if w.pc = .ended ∧ w.handles = 0 ∧ s.queuesConn c = false then
      some ((s.abandon fun | .connections => w.slot.toList | .pending => []).setWorker c { w with slot := none })
    else none
  | .plain event =>
    if s.closed = false ∧ s.receiver then some { s with queue := s.queue ++ [⟨none, event, none, none⟩] } else none
  | .drain =>
    match s.queue with
    | q :: rest =>
      if s.closed = false then
        some { s.abandon (fun g => (q.slot g).toList) with queue := rest, workers := s.received q }
      else none
    | [] => none
  | .purge =>
    match s.queue with
    | q :: rest => if s.closed then some { s.abandon (fun g => (q.slot g).toList) with queue := rest } else none
    | [] => none
  | .stop => some { s with stop := true }
  | .closeHub => some { s with closed := true }
  | .dropReceiver => if s.closed then some { s with receiver := false } else none
  | .release g p => if p ∈ (s.pool g).dying then some (s.setPool g ((s.pool g).release p)) else none
  | .settle g p => if p ∈ (s.pool g).falling then some (s.setPool g ((s.pool g).settle p)) else none

end Server

/-- The states of a server with the given limit, from its first accept on. -/
def Reachable (max_connections : UInt64) (s : Server) : Prop :=
  Lib.Transition.Reachable (Server.step max_connections) .new s

end WebSocket.Net.Admission
