import WebSocket.Net.Outbox
import WebSocket.Proto.Reader

/-!
# The shared state of a connection

`Link` is everything the threads of one connection share. The code splits its work into
sections: pieces that run under one lock, or touch one atomic. An `Op` is such a section
together with what the calling function does after it, so a call is a list of `Op`s and
threads interleave between them.

Several functions keep `flags` locked over more than one section of `queue`. The sections
still to come are in `hold`; while it is not empty `flags` is taken, and only the writer's
`queue` sections may run in between.

`trace` is history: what the application and the hub see, in order.
-/

namespace WebSocket.Net

open Proto

/-! ## Data -/

inductive State where
  | connecting
  | opened
  | closing
  | closed
  deriving DecidableEq

/-- The order in which the states come. -/
def State.rank : State → Nat
  | .connecting => 0
  | .opened => 1
  | .closing => 2
  | .closed => 3

structure Flags where
  state : State
  sentClose : Bool
  received : Option (UInt16 × Str)
  failed : Option UInt16
  deadline : Option Instant
  deriving DecidableEq

def Flags.new : Flags := ⟨.connecting, false, none, none, none⟩

/-- Five seconds. -/
def CLOSE_TIMEOUT : Nat := 5000000000
def EVENT_COST : Nat := 64
def INBOX_LIMIT : Nat := 2 ^ 20
def PONG_LIMIT : Nat := 2 ^ 20

/-- The events of one connection; `opened` is `Open` for a client, `Connection` for a server. -/
inductive Event where
  | opened
  | message (data : Bytes) (binary : Bool)
  | ping (data : Bytes)
  | pong (data : Bytes)
  | error (error : String)
  | drain
  | close (code : UInt16) (reason : Str)
  deriving DecidableEq

/-- The bytes `deliver` charges for an event. -/
def Event.size : Event → Nat
  | .message data _ => data.length
  | .ping data => data.length
  | .pong data => data.length
  | _ => 0

/-- Sections of `queue` run while `flags` is held. -/
inductive Section where
  | pushFrame (kind : Kind) (op : UInt8) (payload : Bytes)
  | recheck (op : UInt8) (payload : Bytes)
  | pushHeartbeat (sent : Nat)
  | pushShutdown
  | clearPong
  | deferPong (data : Bytes)
  deriving DecidableEq

/-- What can be seen from outside. -/
inductive Obs where
  | returned (op : UInt8) (payload : Bytes) (result : Except String Unit)
  | closeCalled (code : UInt16) (reason : Str)
  | event (e : Event) (accepted : Bool)
  | cleared (len left : Nat)
  | decoded (m : Msg)
  deriving DecidableEq

structure Link where
  flags : Flags
  hold : List Section
  out : Out
  inbox : Nat
  stopped : Bool
  ioShut : Bool
  hubClosed : Bool
  now : Instant
  written : Nat
  received : Nat
  cells : List (Option Instant)
  trace : List Obs

/-- Sections that do not hold a lock when they end. -/
inductive Op where
  | emit (e : Event)
  | checkHub
  | finish (code : UInt16) (reason : Str)
  | stopWriter
  | setStopped
  | shutdownIo
  | endLink
  | released
  | handle (m : Msg)
  | deliver (e : Event)
  | deliverOpen (e : Event)
  | deliverNow (e : Event)
  | violation (f : Fail)
  deriving DecidableEq

/-- Whether the section takes `flags`. -/
def Op.locks : Op → Bool
  | .emit _ | .finish _ _ | .endLink | .released | .handle _ | .deliverOpen _ | .violation _ => true
  | .checkHub | .stopWriter | .setStopped | .shutdownIo | .deliver _ | .deliverNow _ => false

namespace Link

def new (now : Instant) : Link :=
  ⟨.new, [], .empty, 0, false, false, false, now, 0, 0, [], []⟩

def note (l : Link) (o : Obs) : Link := { l with trace := l.trace ++ [o] }

/-- `events.send`: refused once the hub is gone. -/
def sendEvent (l : Link) (e : Event) : Link := l.note (.event e (!l.hubClosed))

/-! ## `state.rs` and `close.rs` -/

def terminate : List Op := [.finish 1006 .empty]

def fail (error : String) : List Op := [.emit (.error error), .finish 1006 .empty]

/-- The code and reason `end` finishes with. -/
def endStatus (f : Flags) : UInt16 × Str :=
  match f.received, f.failed with
  | some (code, reason), _ => (code, reason)
  | none, some code => (code, .empty)
  | none, none => (1006, .empty)

/-- Starts the closing handshake, or aborts a pending connection. -/
def close (l : Link) (code : UInt16) (reason : Str) : Link × List Op :=
  let l := l.note (.closeCalled code reason)
  match l.flags.state with
  | .connecting => (l, fail "connection closed before it was established")
  | .opened =>
    ({ l with
      flags := { l.flags with
        sentClose := true, state := .closing, deadline := some (l.now + CLOSE_TIMEOUT) }
      hold := [.pushFrame .close CLOSE (closePayload code reason)] }, [])
  | _ => (l, [])

/-! ## `send.rs` -/

/-- The first section of `send`: the state check and the unlocked `fits`. -/
def send (cfg : Config) (l : Link) (op : UInt8) (payload : Bytes) : Link :=
  if l.flags.state ≠ .opened ∨ l.flags.sentClose = true then
    l.note (.returned op payload (.error (if l.flags.state = .connecting then "not open yet" else "closed")))
  else if l.out.box.fits cfg (encodedLen payload.length (!cfg.server)) then
    { l with hold := [.pushFrame .app op payload] }
  else { l with hold := [.recheck op payload] }

/-- One section under `flags`; the sections it puts before the remaining ones. -/
def execSection (cfg : Config) (l : Link) (key : Key) : Section → Link × List Section
  | .pushFrame kind op payload =>
    let l' := { l with out := l.out.pushFrame cfg kind op payload key }
    (if kind = .app then l'.note (.returned op payload (.ok ())) else l', [])
  | .recheck op payload =>
    let len := encodedLen payload.length (!cfg.server)
    if l.out.box.fits cfg len then (l, [.pushFrame .app op payload])
    else
      ({ l with out := l.out.register len }.note (.returned op payload (.error "send buffer is full")), [])
  | .pushHeartbeat sent => ({ l with out := l.out.pushHeartbeat cfg sent key }, [])
  | .pushShutdown => ({ l with out := l.out.pushShutdown }, [])
  | .clearPong => ({ l with out := l.out.setPong none }, [])
  | .deferPong data => ({ l with out := l.out.setPong (some data) }, [])

/-- The next section of whoever holds `flags`. -/
def holdStep (cfg : Config) (l : Link) (key : Key) : Option Link :=
  match l.hold with
  | [] => none
  | s :: rest =>
    let (l', more) := l.execSection cfg key s
    some { l' with hold := more ++ rest }

theorem holdStep_some {cfg : Config} {l l' : Link} {key : Key} (h : l.holdStep cfg key = some l') :
    ∃ x rest, l.hold = x :: rest ∧
      l' = { (l.execSection cfg key x).1 with hold := (l.execSection cfg key x).2 ++ rest } := by
  rw [holdStep] at h
  split at h
  · cases h
  · rename_i x rest hhold
    cases h
    exact ⟨x, rest, hhold, rfl⟩

/-- Neither the peer's close nor a violation ended the conversation. -/
def answers (f : Flags) : Bool := decide (f.state ≠ .closed) && f.received.isNone && f.failed.isNone

def flushPong (l : Link) : Link :=
  let pong := l.out.box.queue.pong
  let l := { l with out := l.out.setPong none }
  match pong with
  | some data => if answers l.flags then { l with hold := [.pushFrame .deferred PONG data] } else l
  | none => l

/-! ## `handle.rs` -/

/-- The close frame a closing link still owes, and the `Shutdown` behind it. -/
def closeSections (sentClose : Bool) (payload : Bytes) (shutdown : Bool) : List Section :=
  (if sentClose then [] else [.pushFrame .close CLOSE payload]) ++ (if shutdown then [.pushShutdown] else [])

/-- The second half of `violation`, after the error event. -/
def violate (l : Link) (f : Fail) : Link :=
  if l.flags.state = .closed then l else
  { l with
    flags := { l.flags with
      failed := some f.code, state := .closing, sentClose := true
      deadline := some (l.flags.deadline.getD (l.now + CLOSE_TIMEOUT)) }
    hold := closeSections l.flags.sentClose (closePayload f.code .empty) true }

/-- An echo carries the peer's code and no reason. -/
def echo (status : Option (UInt16 × Str)) : Bytes :=
  match status with
  | some (code, _) => closePayload code .empty
  | none => []

def closing (cfg : Config) (l : Link) (status : Option (UInt16 × Str)) : Link :=
  if l.flags.state = .closed ∨ l.flags.received.isSome then l else
  { l with
    flags := { l.flags with
      received := some (status.getD (1005, .empty)), state := .closing, sentClose := true
      deadline := some (l.flags.deadline.getD (l.now + CLOSE_TIMEOUT)) }
    hold := closeSections l.flags.sentClose (echo status) cfg.server }

/-- The `flags` section of the ping arm: reply now, or leave the reply to the writer. -/
def handlePing (l : Link) (data : Bytes) : Link :=
  if answers l.flags then
    { l with hold :=
      if l.out.box.buffered < PONG_LIMIT then [.clearPong, .pushFrame .pong PONG data] else [.deferPong data] }
  else l

/-- The first section of `handle` and what it calls next. -/
def handle (cfg : Config) (l : Link) : Msg → Link × List Op
  | .text data => (l, if l.flags.received.isSome then [] else [.deliver (.message data false)])
  | .binary data => (l, if l.flags.received.isSome then [] else [.deliver (.message data true)])
  | .ping data => (l.handlePing data, [.released, .deliver (.ping data)])
  | .pong data => (l, if data = cfg.token then [] else [.deliver (.pong data)])
  | .close status => (l.closing cfg status, [.released])

/-- What the section does, and the sections its function runs next. -/
def exec (cfg : Config) (l : Link) : Op → Link × List Op
  | .emit e => (if l.flags.state = .closed then l else l.sendEvent e, [.checkHub])
  | .checkHub => (l, if l.hubClosed then terminate else [])
  | .finish code reason =>
    if l.flags.state = .closed then (l, [])
    else
      ({ l with flags := { l.flags with state := .closed } }.sendEvent (.close code reason),
        [.stopWriter, .setStopped, .shutdownIo])
  | .stopWriter => ({ l with out := l.out.stopWriter }, [])
  | .setStopped => ({ l with stopped := true }, [])
  | .shutdownIo => ({ l with ioShut := l.ioShut || l.out.box.io }, [])
  | .endLink => (l, [.finish (endStatus l.flags).1 (endStatus l.flags).2])
  | .released => (l, [])
  | .handle m => l.handle cfg m
  | .deliver e => (l, if INBOX_LIMIT ≤ l.inbox then [.deliverOpen e] else [.deliverNow e])
  | .deliverOpen e => (l, if l.flags.state = .opened then [.deliverNow e] else [])
  | .deliverNow e => ({ l with inbox := (l.inbox + (e.size + EVENT_COST)) % 2 ^ 64 }, [.emit e])
  | .violation f => (l.violate f, [.released])

/-- The next section of a call: it waits for `flags` if it takes them. -/
def opStep (cfg : Config) (l : Link) : List Op → Option (Link × List Op)
  | [] => none
  | op :: rest =>
    if op.locks && !l.hold.isEmpty then none
    else
      let (l', more) := l.exec cfg op
      some (l', more ++ rest)

end Link

end WebSocket.Net
