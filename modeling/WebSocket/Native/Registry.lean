import Mathlib.Logic.Function.Basic
import WebSocket.Lib.Transition
import WebSocket.Native.Request

/-!
# The handle registry

`Registry` of `native/src/ffi.rs` and the calls on it: `ws_hub`, `ws_connect`, `ws_listen`,
`ws_unlisten`, `ws_reply`, `ws_wait` with `flatten`, and `ws_shutdown`. A hash map is a partial
function, and the two counters are natural numbers: at one handle per nanosecond a `u64` lasts
for centuries.

The registry is locked section by section. A call that needs more than one section stops between
them (`Call`), where calls on other hubs and the connections' tasks go on; calls on one hub follow
each other. The tasks are seen through the channels of the hubs only: a connection's events arrive
in the order of its life, `Connection` first where a server made it and `Close` last.
-/

namespace WebSocket.Native

open Proto

abbrev Id := Nat

/-- A handle to a connection. -/
structure Conn where
  id : Id
  deriving DecidableEq

structure Server where
  id : Id
  deriving DecidableEq

/-- The way back to a task that waits for an upgrade decision, by the task's number. -/
structure ReplySender where
  task : Nat
  deriving DecidableEq

inductive Event where
  | opened (id : Id)
  | request (server : Id) (req : Request) (reply : ReplySender)
  | connection (server : Id) (conn : Conn) (req : Request)
  | message (id : Id) (data : Bytes) (binary : Bool)
  | ping (id : Id) (data : Bytes)
  | pong (id : Id) (data : Bytes)
  | error (id : Id) (error : Bytes)
  | drain (id : Id)
  | close (id : Id) (code : UInt16) (reason : Bytes)
  deriving DecidableEq

namespace Event

/-- The connection that an event is about. -/
def about : Event → Option Id
  | opened id | message id _ _ | ping id _ | pong id _ | error id _ | drain id | close id _ _ => some id
  | connection _ conn _ => some conn.id
  | request _ _ _ => none

def isConnection : Event → Bool
  | connection _ _ _ => true
  | _ => false

def isClose : Event → Bool
  | close _ _ _ => true
  | _ => false

/-- The data that counts against the reader of a connection until it is consumed. -/
def inbound : Event → Option (Id × Bytes)
  | message id data _ | ping id data | pong id data => some (id, data)
  | _ => none

end Event

/-- The hubs by their ids, which is all that matters of them here; what each one received is in
`Sys.queues`. -/
structure Registry where
  hubs : Id → Bool
  conns : Id → Option Conn
  servers : Id → Option Server
  owners : Id → Option Id
  replies : Id → Option (Id × ReplySender)
  next : Id

namespace Registry

def default : Registry := ⟨fun _ => false, fun _ => none, fun _ => none, fun _ => none, fun _ => none, 0⟩

def token (reg : Registry) : Registry × Id := ({ reg with next := reg.next + 1 }, reg.next + 1)

def wsHub (reg : Registry) : Registry × Id :=
  let (reg, id) := reg.token
  ({ reg with hubs := Function.update reg.hubs id true }, id)

/-- The last section of `ws_connect`. -/
def insertConn (reg : Registry) (hub : Id) (conn : Conn) : Registry :=
  { reg with
    conns := Function.update reg.conns conn.id (some conn)
    owners := Function.update reg.owners conn.id (some hub) }

/-- The last section of `ws_listen`. -/
def insertServer (reg : Registry) (hub : Id) (server : Server) : Registry :=
  { reg with
    servers := Function.update reg.servers server.id (some server)
    owners := Function.update reg.owners server.id (some hub) }

def wsUnlisten (reg : Registry) (server : Id) : Registry :=
  { reg with
    owners := Function.update reg.owners server none
    servers := Function.update reg.servers server none }

/-- `ws_reply`, as far as the registry goes; what it sends is `wsReply`. -/
def takeReply (reg : Registry) (token : Id) : Registry × Option ReplySender :=
  ({ reg with replies := Function.update reg.replies token none }, (reg.replies token).map (·.2))

/-- The section of `ws_shutdown`. The hub, servers and connections it takes out are dropped or
terminated after it. -/
def wsShutdown (reg : Registry) (hub : Id) : Registry :=
  { reg with
    owners := fun id => if reg.owners id = some hub then none else reg.owners id
    conns := fun id => if reg.owners id = some hub then none else reg.conns id
    servers := fun id => if reg.owners id = some hub then none else reg.servers id
    replies := fun token => (reg.replies token).filter fun r => r.1 ≠ hub
    hubs := Function.update reg.hubs hub false }

def OPEN : Nat := 1
def MESSAGE : Nat := 2
def PING : Nat := 3
def PONG : Nat := 4
def ERROR : Nat := 5
def CLOSE : Nat := 6
def REQUEST : Nat := 7
def CONNECTION : Nat := 8
def DRAIN : Nat := 9

/-- The fields of a `WsEvent`. -/
structure Flat where
  kind : Nat
  id : Id
  server : Id
  code : Nat
  data : Bytes
  deriving DecidableEq

/-- The closure `take`: the connection that `consumed` is called on, and with how many bytes. -/
def take (reg : Registry) (id : Id) (data : Bytes) : Option (Conn × Nat) :=
  (reg.conns id).map fun c => (c, data.length)

/-- The registry after it, the flat event, and what was consumed. -/
def flatten (reg : Registry) (hub : Id) : Event → Registry × Flat × Option (Conn × Nat)
  | .opened id => (reg, ⟨OPEN, id, 0, 0, []⟩, none)
  | .message id data binary => (reg, ⟨MESSAGE, id, 0, binary.toNat, data⟩, reg.take id data)
  | .ping id data => (reg, ⟨PING, id, 0, 0, data⟩, reg.take id data)
  | .pong id data => (reg, ⟨PONG, id, 0, 0, data⟩, reg.take id data)
  | .error id error => (reg, ⟨ERROR, id, 0, 0, error⟩, none)
  | .drain id => (reg, ⟨DRAIN, id, 0, 0, []⟩, none)
  | .close id code reason =>
    ({ reg with
        conns := Function.update reg.conns id none
        owners := Function.update reg.owners id none },
      ⟨CLOSE, id, 0, code.toNat, reason⟩, none)
  | .request server req reply =>
    let (reg, token) := reg.token
    ({ reg with replies := Function.update reg.replies token (some (hub, reply)) },
      ⟨REQUEST, token, server, 0, pack req⟩, none)
  | .connection server conn req =>
    (reg.insertConn hub conn, ⟨CONNECTION, conn.id, server, 0, pack req⟩, none)

end Registry

/-! ## Everything that can happen -/

/-- How far a connection's events have come. -/
inductive Stage where
  | unannounced
  | live
  | closed
  deriving DecidableEq

/-- The stage after an event, if the connection may send it. -/
def Stage.after (stage : Stage) (event : Event) : Option Stage :=
  match stage with
  | .unannounced => if event.isConnection then some .live else none
  | .live => if event.isConnection then none else if event.isClose then some .closed else some .live
  | .closed => none

/-- What `next_id` has numbered: a server or a connection, with the hub that hears of it. -/
inductive Object where
  | server (hub : Id)
  | link (hub : Id) (stage : Stage)
  deriving DecidableEq

def Object.hub : Object → Id
  | server hub => hub
  | link hub _ => hub

/-- Where the calls on a hub stand: between two of them, or between two sections of one. -/
inductive Call where
  | idle
  | waiting
  | waited (event : Event)
  | connecting
  | connected (conn : Conn)
  | listening
  | listened (server : Server)
  deriving DecidableEq

/-- The event that was received and is not flattened yet. -/
def Call.event : Call → List Event
  | waited event => [event]
  | _ => []

structure Sys where
  reg : Registry
  nextId : Id
  objects : Id → Option Object
  queues : Id → List Event
  calls : Id → Call

/-- A section of a call, or something that a task does. -/
inductive Label where
  | hub
  /-- `ws_wait` looks its hub up, times out or receives, and flattens. -/
  | wait (h : Id)
  | timeout (h : Id)
  | recv (h : Id)
  | flatten (h : Id)
  /-- `ws_connect` looks its hub up, is refused with or without a call of `connect`, or connects
  and inserts. -/
  | connect (h : Id)
  | refused (h : Id) (called : Bool)
  | connected (h : Id)
  | insertConn (h : Id)
  /-- `ws_listen`, likewise. -/
  | listen (h : Id)
  | failed (h : Id) (called : Bool)
  | listened (h : Id)
  | insertServer (h : Id)
  | unlisten (server : Id)
  | reply (token : Id)
  | shutdown (h : Id)
  /-- A task of a server asks for a decision, or starts a connection. -/
  | ask (server : Id) (req : Request) (reply : ReplySender)
  | accepted (server : Id)
  /-- A connection sends an event. -/
  | emit (id : Id) (event : Event)
  deriving DecidableEq

namespace Sys

def init : Sys := ⟨.default, 1, fun _ => none, fun _ => [], fun _ => .idle⟩

def call (s : Sys) (h : Id) (c : Call) : Sys := { s with calls := Function.update s.calls h c }

def push (s : Sys) (h : Id) (event : Event) : Sys :=
  { s with queues := Function.update s.queues h (s.queues h ++ [event]) }

/-- `next_id` for a new object. -/
def number (s : Sys) (o : Object) : Sys :=
  { s with nextId := s.nextId + 1, objects := Function.update s.objects s.nextId (some o) }

/-- `next_id` for nothing. -/
def skip (s : Sys) (called : Bool) : Sys := { s with nextId := s.nextId + called.toNat }

@[simp] theorem calls_call (s : Sys) (h : Id) (c : Call) : (s.call h c).calls = Function.update s.calls h c := rfl

@[simp] theorem queues_call (s : Sys) (h : Id) (c : Call) : (s.call h c).queues = s.queues := rfl

@[simp] theorem calls_skip (s : Sys) (called : Bool) : (s.skip called).calls = s.calls := rfl

@[simp] theorem queues_number (s : Sys) (o : Object) : (s.number o).queues = s.queues := rfl

@[simp] theorem calls_number (s : Sys) (o : Object) : (s.number o).calls = s.calls := rfl

/-- The first section of a call on a hub; an unknown hub is a fatal error. -/
def begin (s : Sys) (h : Id) (c : Call) : Option Sys :=
  if s.calls h = .idle then some (if s.reg.hubs h then s.call h c else s) else none

def step (s : Sys) : Label → Option Sys
  | .hub => some { s with reg := s.reg.wsHub.1 }
  | .wait h => s.begin h .waiting
  | .timeout h => if s.calls h = .waiting then some (s.call h .idle) else none
  | .recv h =>
    if s.calls h = .waiting then
      match s.queues h with
      | [] => none
      | event :: rest => some { s.call h (.waited event) with queues := Function.update s.queues h rest }
    else none
  | .flatten h =>
    match s.calls h with
    | .waited event => some { s.call h .idle with reg := (s.reg.flatten h event).1 }
    | _ => none
  | .connect h => s.begin h .connecting
  | .refused h called => if s.calls h = .connecting then some ((s.skip called).call h .idle) else none
  | .connected h =>
    if s.calls h = .connecting then some ((s.number (.link h .live)).call h (.connected ⟨s.nextId⟩)) else none
  | .insertConn h =>
    match s.calls h with
    | .connected conn => some { s.call h .idle with reg := s.reg.insertConn h conn }
    | _ => none
  | .listen h => s.begin h .listening
  | .failed h called => if s.calls h = .listening then some ((s.skip called).call h .idle) else none
  | .listened h =>
    if s.calls h = .listening then some ((s.number (.server h)).call h (.listened ⟨s.nextId⟩)) else none
  | .insertServer h =>
    match s.calls h with
    | .listened server => some { s.call h .idle with reg := s.reg.insertServer h server }
    | _ => none
  | .unlisten server => some { s with reg := s.reg.wsUnlisten server }
  | .reply token => some { s with reg := (s.reg.takeReply token).1 }
  | .shutdown h => if s.calls h = .idle then some { s with reg := s.reg.wsShutdown h } else none
  | .ask server req reply =>
    match s.objects server with
    | some (.server h) => some (s.push h (.request server req reply))
    | _ => none
  | .accepted server =>
    match s.objects server with
    | some (.server h) => some (s.number (.link h .unannounced))
    | _ => none
  | .emit id event =>
    match s.objects id with
    | some (.link h stage) =>
      if event.about = some id then
        (stage.after event).map fun stage' =>
          { s.push h event with objects := Function.update s.objects id (some (.link h stage')) }
      else none
    | _ => none

end Sys

end WebSocket.Native
