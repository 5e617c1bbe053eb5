import WebSocket.Native.Channels

/-!
# The event loop

`ws/loop.lua` with the handlers of `ws/server.lua` and `ws/socket.lua`, over the registry and the channels of
`Native.Registry`. One Lua state with its hub runs here; the tasks of its connections and servers, and
whatever other hubs do, come in between (`native`, `ask`).

Application code is the main program and every callback: listeners, timers, `accept`. It connects, listens,
closes servers, starts the loop and raises errors as it likes. What Lua is in the middle of is a stack of
layers, with application code below the loop and above what calls it back. Each call of the
library up to its next callback or wait is one step. Which listeners an `emit` calls, and which
timers are due, is left open. Finalizers and hooks that use the library are left out, and so are
coroutines that leave a callback, and the end of the Lua state. `accept` may write to the request that it
is given, as long as its subprotocols stay a list of strings.

What came of it is recorded beside the tables: what each connection of the hub has sent, what of it the loop
has taken and what reached a socket, whom `core.close` was called on with 1001, and how the
requests were answered.
-/

namespace WebSocket.Lua

open Proto Lib Lib.Transition Native

/-- A server of `loop.servers`: whether it has a callback `accept`, and its subprotocols. -/
structure Server where
  accept : Bool
  protocols : Bytes → Bool

/-- A socket of `loop.sockets`. -/
structure Socket where
  server : Option Id
  opened : Bool

/-- Where `step` is: in one of the calls of `timer.fire`, or before the wait number `n + 1`. -/
inductive Phase where
  | before
  | wait (n : Nat)
  | after

/-- What Lua is in the middle of. `poll` is `loop.run` or `loop.poll`, `request` the handler while its
callback runs, `emit` one of the other handlers; `fatal` if it raises an error that nobody listens for. -/
inductive Layer where
  | app
  | connecting
  | listening (server : Server)
  | poll (run : Bool) (phase : Phase)
  | request (token server : Id)
  | emit (fatal : Bool)

def Layer.token : Layer → Option Id
  | .request token _ => some token
  | _ => none

/-- A status that the handler raises an error for. -/
def invalid : LuaStatus → Bool
  | .absent => false
  | .whole n => n < 400 || n > 599
  | .other => true

/-- Events handled per wait. -/
def BATCH : Nat := 256

structure Loop where
  native : Sys
  hub : Id
  sockets : Id → Option Socket
  servers : Id → Option Server
  running : Bool
  stack : List Layer
  /-- The events of each connection, those that were taken from the hub, and those that were emitted. -/
  sent : Id → List Event
  taken : Id → List Event
  heard : Id → List Event
  /-- Connections of a server that was closed before they came. -/
  declined : Id → Bool
  /-- `core.close(id, 1001)` found the connection. -/
  told : Id → Bool
  /-- Who asked the hub for a decision, and the replies, each with the sender it went to. -/
  asked : List ReplySender
  replies : List (ReplySender × ReplyCall)

inductive Step where
  | native (lab : Native.Label)
  /-- A server's task has read a head, and asks; or it announces its connection. -/
  | ask (server : Id) (head : Bytes) (addr : SocketAddr) (reply : ReplySender)
  | announce (id server : Id) (head : Bytes) (addr : SocketAddr)
  | start
  /-- Calls of application code. -/
  | connect
  | refused (called : Bool)
  | connected
  | insertConn
  | listen (server : Server)
  | failed (called : Bool)
  | listened
  | insertServer
  | close (server : Id)
  | poll (run : Bool)
  /-- A callback is called, returns, or raises an error. -/
  | callback
  | returns
  | raise
  /-- `accept` returned, and left the table so. -/
  | decide (refused : Option LuaStatus) (req : LuaRequest)
  /-- The loop goes on; `pending` is what `timer.pending` says. -/
  | go (pending : Bool)
  | wait
  | timeout
  | recv
  | dispatch

namespace Loop

variable (l : Loop)

/-- The Lua state has just made its hub. -/
def init (native : Sys) : Loop where
  native := { native with reg := native.reg.wsHub.1 }
  hub := native.reg.wsHub.2
  sockets _ := none
  servers _ := none
  running := false
  stack := [.app]
  sent _ := []
  taken _ := []
  heard _ := []
  declined _ := false
  told _ := false
  asked := []
  replies := []

/-! ## Handlers -/

/-- `core.reply`. -/
def reply (token : Id) (call : ReplyCall) : Loop :=
  { l with
    native := { l.native with reg := (l.native.reg.takeReply token).1 }
    replies := l.replies ++ (l.native.reg.takeReply token).2.toList.map fun x => (x, call) }

/-- The end of `handlers.request`, if the request is accepted. -/
def accepts (token server : Id) (req : LuaRequest) : Loop :=
  match l.servers server with
  | none => l.reply token ⟨503, none⟩
  | some s => l.reply token ⟨0, req.protocols.find? s.protocols⟩

/-- An error ends handlers and the loop, until it arrives in application code. -/
def unwind (l : Loop) : List Layer → Loop
  | .emit _ :: rest => unwind l rest
  | .request token _ :: rest => unwind (l.reply token ⟨500, none⟩) rest
  | .poll _ _ :: rest => { l with running := false, stack := rest }
  | rest => { l with stack := rest }

/-- `emitter.emit` for an event. -/
def emit (e : Event) (fatal : Bool) : Loop :=
  { l with heard := e.onto l.heard, stack := .emit fatal :: l.stack }

def list (id : Id) (s : Option Socket) : Loop := { l with sockets := Function.update l.sockets id s }

/-- `emit(name)` of `ws/socket.lua`. -/
def emitListed (id : Id) (e : Event) : Loop := if (l.sockets id).isSome then l.emit e false else l

/-- The handler of an event that `flatten` has just given to Lua, with the token of a request. -/
def handle (token : Id) (e : Event) : Loop :=
  match e with
  | .opened id =>
    match l.sockets id with
    | some s => (l.list id (some { s with opened := true })).emit e false
    | none => l
  | .request server req _ =>
    match l.servers server with
    | none => l.reply token ⟨503, none⟩
    | some s =>
      match luaRequest (pack req) with
      | none => l.unwind l.stack
      | some req => if s.accept then { l with stack := .app :: .request token server :: l.stack } else l.accepts token server req
  | .connection server conn req =>
    match l.servers server with
    | none =>
      { l with
        declined := Function.update l.declined conn.id true
        told := Function.update l.told conn.id (l.told conn.id || (l.native.reg.conns conn.id).isSome) }
    | some _ =>
      let l := l.list conn.id (some ⟨some server, true⟩)
      if (luaRequest (pack req)).isSome then l.emit e false else l.unwind l.stack
  | .close id _ _ => if (l.sockets id).isSome then (l.list id none).emit e false else l
  | .error id _ =>
    match l.sockets id with
    | some s => l.emit e s.server.isNone
    | none => l
  | .message id _ _ | .ping id _ | .pong id _ | .drain id => l.emitListed id e

/-! ## Steps -/

/-- A task's step, or one of another hub. -/
def foreign (lab : Native.Label) : Bool :=
  match lab with
  | .ask .. | .emit _ (.connection ..) => false
  | lab => l.native.actor lab ≠ some l.hub && l.native.proper lab

def tasks (lab : Native.Label) : Option Loop :=
  (l.native.step lab).map fun native =>
    { l with
      native := native
      sent := (l.native.arrives l.hub lab).elim l.sent (·.onto l.sent)
      asked := l.asked ++ ((l.native.arrives l.hub lab).bind Event.sender).toList }

/-- `next(loop.sockets) ~= nil or next(loop.servers) ~= nil`, for the ids given out so far. -/
def listed : Bool :=
  (List.range l.native.nextId).any fun id => (l.sockets id).isSome || (l.servers id).isSome

def active (pending : Bool) : Bool := l.listed || pending

/-- A native call of this thread goes on. -/
def calls (lab : Native.Label) (stack : List Layer) : Option Loop :=
  (l.native.step lab).map fun native => { l with native := native, stack := stack }

/-- `Server:close`. -/
def close (server : Id) : Loop :=
  match l.servers server with
  | none => l
  | some _ =>
    { l with
      native := { l.native with reg := l.native.reg.wsUnlisten server }
      servers := Function.update l.servers server none
      told := fun id => l.told id ||
        ((l.sockets id).any fun s => s.server = some server) && (l.native.reg.conns id).isSome }

/-- `step` returned, and so do `loop.poll` and, unless something is active, `loop.run`. -/
def ends (run active : Bool) (rest : List Layer) : Loop :=
  if run && active then { l with stack := .poll run .before :: rest } else { l with running := false, stack := rest }

def goOn (pending : Bool) : List Layer → Option Loop
  | .poll run .before :: rest =>
    if l.active pending then some { l with stack := .poll run (.wait 0) :: rest } else some (l.ends run false rest)
  | .poll run (.wait n) :: rest => if n = BATCH then some { l with stack := .poll run .after :: rest } else none
  | .poll run .after :: rest => some (l.ends run (l.active pending) rest)
  | .emit _ :: rest => some { l with stack := rest }
  | _ => none

/-- `accept` returned; a status out of range is answered and then raised. -/
def decided (token server : Id) (req : LuaRequest) (rest : List Layer) : Option LuaStatus → Loop
  | none => { l with stack := rest }.accepts token server req
  | some status =>
    let answered := { l with stack := rest }.reply token ⟨refusal status, none⟩
    if invalid status then answered.unwind rest else answered

def step : Step → Option Loop
  | .native lab => if l.foreign lab then l.tasks lab else none
  | .ask server head addr reply => (readRequest head addr).bind fun req => l.tasks (.ask server req reply)
  | .announce id server head addr =>
    (readRequest head addr).bind fun req => l.tasks (.emit id (.connection server ⟨id⟩ req))
  | .start =>
    match l.stack with
    | [] => some { l with stack := [.app] }
    | _ => none
  | .connect =>
    match l.stack with
    | .app :: _ => l.calls (.connect l.hub) (.connecting :: l.stack)
    | _ => none
  | .refused called =>
    match l.stack with
    | .connecting :: rest => l.calls (.refused l.hub called) rest
    | _ => none
  | .connected =>
    match l.stack with
    | .connecting :: _ => l.calls (.connected l.hub) l.stack
    | _ => none
  | .insertConn =>
    match l.stack, l.native.calls l.hub with
    | .connecting :: rest, .connected conn =>
      { l with sockets := Function.update l.sockets conn.id (some ⟨none, false⟩) }.calls (.insertConn l.hub) rest
    | _, _ => none
  | .listen server =>
    match l.stack with
    | .app :: _ => l.calls (.listen l.hub) (.listening server :: l.stack)
    | _ => none
  | .failed called =>
    match l.stack with
    | .listening _ :: rest => l.calls (.failed l.hub called) rest
    | _ => none
  | .listened =>
    match l.stack with
    | .listening _ :: _ => l.calls (.listened l.hub) l.stack
    | _ => none
  | .insertServer =>
    match l.stack, l.native.calls l.hub with
    | .listening s :: rest, .listened server =>
      { l with servers := Function.update l.servers server.id (some s) }.calls (.insertServer l.hub) rest
    | _, _ => none
  | .close server =>
    match l.stack with
    | .app :: _ => some (l.close server)
    | _ => none
  | .poll run =>
    match l.stack with
    | .app :: _ =>
      -- inside of a callback it is an error
      if l.running then some l else some { l with running := true, stack := .poll run .before :: l.stack }
    | _ => none
  | .callback =>
    match l.stack with
    | .poll _ .before :: _ | .poll _ .after :: _ | .emit _ :: _ => some { l with stack := .app :: l.stack }
    | _ => none
  | .returns =>
    match l.stack with
    | .app :: rest => some { l with stack := rest }
    | _ => none
  | .raise =>
    match l.stack with
    | .app :: rest | .emit true :: rest => some (l.unwind rest)
    | _ => none
  | .decide refused req =>
    match l.stack with
    | .request token server :: rest => some (l.decided token server req rest refused)
    | _ => none
  | .go pending => l.goOn pending l.stack
  | .wait =>
    match l.stack with
    | .poll _ (.wait n) :: _ => if n < BATCH then l.calls (.wait l.hub) l.stack else none
    | _ => none
  | .timeout =>
    match l.stack with
    | .poll run (.wait _) :: rest => l.calls (.timeout l.hub) (.poll run .after :: rest)
    | _ => none
  | .recv =>
    match l.stack with
    | .poll _ (.wait _) :: _ => l.calls (.recv l.hub) l.stack
    | _ => none
  | .dispatch =>
    match l.stack, l.native.calls l.hub with
    | .poll run (.wait n) :: rest, .waited e =>
      ({ l with taken := e.onto l.taken }.calls (.flatten l.hub) (.poll run (.wait (n + 1)) :: rest)).map fun l : Loop =>
        l.handle l.native.reg.next e
    | _, _ => none

end Loop

end WebSocket.Lua
