import WebSocket.Net.Link
import WebSocket.Lib.Transition

/-!
# The threads of a connection

A connection is run by its network task (the handshake, then `read_loop` and `write_loop`
side by side), by the application's calls, and by time. `step` lets any of them take its
next section; a label says which, and carries what the environment decides: the bytes of
a read, the size of a write, a random mask, the passing of time.

Waits are modelled by what ends them. A notification may come at any time, so every wait
on one may also end without cause; the loops check their condition again in any case.
`budget` only yields and has no part here.
-/

namespace WebSocket.Net

open Proto

/-! ## `heartbeat.rs` -/

inductive Action where
  | wait
  | ping
  | dead
  deriving DecidableEq

structure Probe where
  queued : Instant
  sent : Nat
  deriving DecidableEq

structure Alive where
  seen : Instant
  ping : Option Probe
  deriving DecidableEq

namespace Alive

/-- What to do after `last`, the latest sign of life, given the time of the last ping. -/
def decide (interval : Nat) (now last : Instant) (ping : Option Instant) : Action :=
  let quiet := if interval ≤ now - last then Action.ping else .wait
  match ping with
  | some sent => if last ≤ sent then (if interval ≤ now - sent then .dead else .wait) else quiet
  | none => quiet

/-- `seen`, brought up to the last inbound activity of the transport. -/
def refresh (cfg : Config) (received : Nat) (a : Alive) : Alive :=
  if received = 0 then a else { a with seen := max a.seen (cfg.born + (received - 1)) }

/-- When the current probe was transmitted. -/
def transmitted (cells : List (Option Instant)) (a : Alive) : Option Instant :=
  a.ping.bind fun p => cells.getD p.sent none

/-- The verdict of `heartbeat`, with `seen` up to date. -/
def verdict (cfg : Config) (l : Link) (interval : Nat) (a : Alive) : Action :=
  match a.ping, a.transmitted l.cells with
  | some p, none =>
    if l.now - max (max a.seen (cfg.born + l.written)) p.queued < interval then .wait else .dead
  | _, sent => decide interval l.now a.seen sent

end Alive

/-! ## Threads -/

/-- Where `read_loop` stands. `last` marks the dispatch after the loop. -/
inductive ReadPc where
  | top
  | dispatch (last : Bool)
  | handled (stop last : Bool)
  | check
  | checkInbox (state : State)
  | throttled
  | read
  | beat (interval : Nat)
  | pinging
  | leave
  | flush
  | flushing (deadline : Instant)
  | ending
  | finished
  deriving DecidableEq

/-- The reader's locals and the rest of the call it is in. `inn` is history: all input so far. -/
structure ReadLoop where
  pc : ReadPc
  ops : List Op
  reader : Reader
  ok : Bool
  alive : Alive
  inn : Bytes

/-- Where `write_loop` stands. -/
inductive WritePc where
  | idle
  | flushPong
  | next
  | writing
  | wrote
  | stamp (transmitted : Instant)
  | shutting
  | shut
  | finished
  deriving DecidableEq

/-- The waits of `write_loop`: a write, a flush, a shutdown, or an empty queue. -/
def WritePc.waits : WritePc → Bool
  | .idle | .writing | .wrote | .shutting => true
  | _ => false

/-- `outShut` is the transport's: its sending side was shut down. -/
structure WriteLoop where
  pc : WritePc
  ops : List Op
  outShut : Bool
  deriving DecidableEq

/-- Where the network task stands; the reader and the writer move only while it is running. -/
inductive Task where
  | connecting
  | starting (rest : Bytes)
  | opening (rest : Bytes)
  | running
  | finished
  deriving DecidableEq

/-- `pool` holds the calls in progress outside the reader and the writer. -/
structure Sys where
  link : Link
  task : Task
  rd : ReadLoop
  wr : WriteLoop
  pool : List (List Op)

/-! ## Labels -/

/-- Calls of `Conn`. -/
inductive Call where
  | send (data : Slice) (binary : Bool)
  | sendText (data : Str) (bound : data.bytes.length ≤ isizeMax)
  | ping (data : Slice)
  | close (code : UInt16) (reason : Str)
  | terminate
  | consumed (bytes : Nat)

inductive Label where
  | call (c : Call)
  | closeHub
  | tick (d : Nat)
  | activity (inbound : Bool)
  | hold (key : Key)
  | pool (i : Nat)
  | establish (rest : Bytes)
  | refuse (error : String)
  | task
  | abandon
  | reader
  | input (bytes : Bytes)
  | eof
  | readError (tls : Option String)
  | wake
  | timer
  | haltReader
  | writer
  | write (n : Nat)
  | writeError
  | shutOut
  | haltWriter

def READ_CHUNK : Nat := 16 * 1024

namespace Sys

/-- A link before its handshake; the reader and the writer are as they start. -/
def init (cfg : Config) : Sys where
  link := .new cfg.born
  task := .connecting
  rd := ⟨.top, [], .new cfg.server cfg.max, true, ⟨cfg.born, none⟩, []⟩
  wr := ⟨.idle, [], false⟩
  pool := []

/-! ## The application -/

def spawn (s : Sys) (ops : List Op) : Sys := { s with pool := s.pool ++ [ops] }

/-- `Link::send`, once `flags` is free. -/
def sendOp (cfg : Config) (s : Sys) (op : UInt8) (payload : Bytes) : Option Sys :=
  if s.link.hold.isEmpty then some { s with link := s.link.send cfg op payload } else none

def refused (s : Sys) (op : UInt8) (payload : Bytes) (why : String) : Sys :=
  { s with link := s.link.note (.returned op payload (.error why)) }

/-- A `Conn` call up to the end of its first section. Arguments are checked before any lock. -/
def call (cfg : Config) (s : Sys) : Call → Option Sys
  | .send data binary =>
    if binary then s.sendOp cfg BINARY data.bytes
    else match Str.fromUtf8 data.bytes with
      | some text => s.sendOp cfg TEXT text.bytes
      | none => some (s.refused TEXT data.bytes "text must be valid UTF-8; use send(data, true) for binary")
  | .sendText data _ => s.sendOp cfg TEXT data.bytes
  | .ping data =>
    if 125 < data.bytes.length then some (s.refused PING data.bytes "ping data must be at most 125 bytes")
    else s.sendOp cfg PING data.bytes
  | .close code reason =>
    -- a rejected argument returns before anything happens
    if !validCloseCode code || decide (123 < reason.bytes.length) then some s
    else if !s.link.hold.isEmpty then none
    else
      let (l, ops) := s.link.close code reason
      some ({ s with link := l }.spawn ops)
  | .terminate => some (s.spawn Link.terminate)
  | .consumed bytes =>
    -- `fetch_sub` wraps around
    let inbox := (s.link.inbox + (2 ^ 64 - (bytes + EVENT_COST) % 2 ^ 64)) % 2 ^ 64
    some { s with link := { s.link with inbox := inbox } }

def poolStep (cfg : Config) (s : Sys) (i : Nat) : Option Sys :=
  match s.link.opStep cfg (s.pool.getD i []) with
  | some (l, ops) => some { s with link := l, pool := s.pool.set i ops }
  | none => none

/-! ## The network task -/

/-- The task ends and its lease is dropped, after `ops`. -/
def leave (s : Sys) (ops : List Op) : Sys := { s with task := .finished }.spawn (ops ++ Link.terminate)

/-- `start` from the lock of `flags` on, and the end of the join. -/
def taskStep (s : Sys) : Option Sys :=
  match s.task with
  | .starting rest =>
    if !s.link.hold.isEmpty then none
    else if s.link.flags.state = .connecting then
      let l := { s.link with flags := { s.link.flags with state := .opened } }.sendEvent .opened
      some { s with link := l, task := .opening rest }
    else some ({ s with link := { s.link with ioShut := true } }.leave [])
  | .opening rest =>
    if s.link.hubClosed then some (s.leave Link.terminate)
    else
      some { s with
        task := .running
        rd := { s.rd with
          reader := s.rd.reader.push rest, alive := { s.rd.alive with seen := s.link.now }, inn := rest } }
  | .running =>
    if s.rd.pc = .finished ∧ s.rd.ops = [] ∧ s.wr.pc = .finished ∧ s.wr.ops = [] then some (s.leave [])
    else none
  | _ => none

/-! ## `read.rs` -/

/-- Where `read_loop` goes once `dispatch` returned. -/
def afterDispatch (last : Bool) : ReadPc := if last then .flush else .check

def isClose : Msg → Bool
  | .close _ => true
  | _ => false

/-- One turn of `dispatch`'s loop: the next message, handed to `handle` or `violation`. -/
def dispatch (s : Sys) (last : Bool) : Sys :=
  match s.rd.reader.message with
  | (r, .ok none) => { s with rd := { s.rd with reader := r, pc := afterDispatch last } }
  | (r, .ok (some m)) =>
    { s with
      link := s.link.note (.decoded m)
      rd := { s.rd with reader := r, ops := [.handle m], pc := .handled (isClose m) last } }
  | (r, .error f) =>
    { s with rd := { s.rd with
      reader := r, ops := [.emit (.error f.why), .violation f], pc := .handled true last } }

/-- `flush_close` still has something to wait for. -/
def pending (l : Link) : Bool :=
  !l.out.box.queue.done && (decide (0 < l.out.box.buffered) || l.out.box.queue.shutdown)

/-- The ping arm of `heartbeat`. -/
def sendPing (s : Sys) : Sys :=
  if s.link.flags.state ≠ .opened then { s with rd := { s.rd with pc := .top } }
  else
    { s with
      link := { s.link with
        hold := [.pushHeartbeat s.link.cells.length], cells := s.link.cells ++ [none] }
      rd := { s.rd with
        alive := { s.rd.alive with ping := some ⟨s.link.now, s.link.cells.length⟩ }
        ops := [.released], pc := .top } }

def beat (cfg : Config) (s : Sys) (interval : Nat) : Sys :=
  let alive := s.rd.alive.refresh cfg s.link.received
  match alive.verdict cfg s.link interval with
  | .wait => { s with rd := { s.rd with alive := alive, pc := .top } }
  | .ping => { s with rd := { s.rd with alive := alive, pc := .pinging } }
  | .dead => { s with rd := { s.rd with alive := alive, ops := Link.fail "heartbeat timed out", pc := .leave } }

/-- The next section of `read_loop` between two calls. -/
def readPc (cfg : Config) (s : Sys) : Option Sys :=
  let goto := fun pc => some { s with rd := { s.rd with pc := pc } }
  let free := s.link.hold.isEmpty
  match s.rd.pc with
  | .top =>
    if s.link.hubClosed then some { s with rd := { s.rd with ops := Link.terminate, pc := .leave } }
    else goto (if s.rd.ok then .dispatch false else .check)
  | .dispatch last => some (s.dispatch last)
  | .handled stop last =>
    if stop then some { s with rd := { s.rd with ok := false, pc := afterDispatch last } }
    else if !free then none
    else if s.link.flags.state = .closed then
      some { s with rd := { s.rd with ok := false, pc := afterDispatch last } }
    else goto (.dispatch last)
  | .check =>
    if !free then none
    else if s.link.flags.state = .closed ∨ s.link.flags.deadline.any (· ≤ s.link.now) then goto .leave
    else goto (.checkInbox s.link.flags.state)
  | .checkInbox state =>
    goto (if state = .opened ∧ INBOX_LIMIT ≤ s.link.inbox then .throttled else .read)
  | .beat interval => some (s.beat cfg interval)
  | .pinging => if free then some s.sendPing else none
  | .leave => goto (if s.rd.ok then .dispatch true else .flush)
  | .flush =>
    if !free then none
    else if s.link.flags.received.isNone ∧ s.link.flags.failed.isNone then goto .ending
    else match s.link.flags.deadline with
      | none => goto .ending
      | some d => goto (.flushing d)
  | .flushing _ => if pending s.link then none else goto .ending
  | .ending => some { s with rd := { s.rd with ops := [.endLink], pc := .finished } }
  | .throttled | .read | .finished => none

def readerStep (cfg : Config) (s : Sys) : Option Sys :=
  match s.rd.ops with
  | [] => s.readPc cfg
  | ops =>
    match s.link.opStep cfg ops with
    | some (l, ops) => some { s with link := l, rd := { s.rd with ops := ops } }
    | none => none

/-- `read_chunk` returned `bytes`; they are kept while frames are parsed and dropped after. -/
def input (s : Sys) (bytes : Bytes) : Option Sys :=
  if s.rd.ops = [] ∧ s.rd.pc = .read ∧ 1 ≤ bytes.length ∧ bytes.length ≤ READ_CHUNK then
    some { s with rd := { s.rd with
      reader := if s.rd.ok then s.rd.reader.push bytes else s.rd.reader
      alive := { s.rd.alive with seen := s.link.now }
      inn := s.rd.inn ++ bytes
      pc := .top } }
  else none

def readError (s : Sys) (tls : Option String) : Option Sys :=
  if s.rd.ops = [] ∧ s.rd.pc = .read then
    let ops := match tls with
      | some e => Link.fail ("TLS error: " ++ e)
      | none => []
    some { s with rd := { s.rd with ops := ops, pc := .leave } }
  else none

/-- The timer of the read, or the deadline of `flush_close`. -/
def timer (cfg : Config) (s : Sys) : Option Sys :=
  if s.rd.ops ≠ [] then none else
  match s.rd.pc with
  | .read =>
    match cfg.heartbeat with
    | none => some { s with rd := { s.rd with pc := .top } }
    | some interval =>
      if !s.link.hold.isEmpty then none
      else some { s with rd := { s.rd with
        pc := if s.link.flags.state = .opened then .beat interval else .top } }
  | .flushing d => if d ≤ s.link.now then some { s with rd := { s.rd with pc := .ending } } else none
  | _ => none

/-- The reader sees `stopped`, or a closed hub. -/
def haltReader (s : Sys) : Option Sys :=
  if s.rd.ops ≠ [] then none else
  match s.rd.pc with
  | .throttled | .read =>
    if s.link.stopped then some { s with rd := { s.rd with pc := .leave } }
    else if s.link.hubClosed then some { s with rd := { s.rd with ops := Link.terminate, pc := .leave } }
    else none
  | .flushing _ => if s.link.stopped then some { s with rd := { s.rd with pc := .ending } } else none
  | _ => none

/-! ## `write.rs` -/

/-- The head of `write_pending`'s loop. An empty turn waits and comes back here. -/
def swapBatch (s : Sys) : Option Sys :=
  if s.link.out.box.queue.done then some { s with wr := { s.wr with pc := .finished } }
  else
    match s.link.out.swap with
    | some out =>
      let pong := s.link.out.box.queue.pong.isSome
      some { s with
        link := { s.link with out := out }
        wr := { s.wr with pc := if pong then .flushPong else if out.batch.isEmpty then .idle else .next } }
    | none => none

/-- `at += n`, the probe's stamp and `progress(n)`, with the report of a cleared registration. -/
def progress (cfg : Config) (s : Sys) : Option Sys :=
  match s.link.out.progress cfg with
  | some (out, cleared) =>
    let stamp := cfg.born + s.link.written
    let l := { s.link with out := out }
    match cleared with
    | some len =>
      some { s with
        link := l.note (.cleared len out.box.buffered)
        wr := { s.wr with ops := [.emit .drain], pc := .stamp stamp } }
    | none => some { s with link := l, wr := { s.wr with pc := .stamp stamp } }
  | none => none

/-- A heartbeat that is all written gets its time. -/
def stampProbe (s : Sys) (transmitted : Instant) : Sys :=
  let cells := match s.link.out.cur with
    | some ⟨data, pos, _, some sent⟩ =>
      if pos = data.length then s.link.cells.set sent (some transmitted) else s.link.cells
    | _ => s.link.cells
  { s with link := { s.link with cells := cells }, wr := { s.wr with pc := .writing } }

/-- The next section of `write_pending` between two calls. -/
def writePc (cfg : Config) (s : Sys) : Option Sys :=
  let onOut := fun (out : Option Out) pc =>
    out.map fun out => { s with link := { s.link with out := out }, wr := { s.wr with pc := pc } }
  match s.wr.pc with
  | .idle => s.swapBatch
  | .flushPong =>
    if !s.link.hold.isEmpty then none
    else some { s with link := s.link.flushPong, wr := { s.wr with ops := [.released], pc := .next } }
  | .next =>
    match s.link.out.batch with
    | [] => some { s with wr := { s.wr with pc := .idle } }
    | .shutdown :: _ => onOut s.link.out.pop .shutting
    | _ => onOut s.link.out.pop .writing
  | .writing => onOut s.link.out.finish .next
  | .wrote => s.progress cfg
  | .stamp transmitted => some (s.stampProbe transmitted)
  | .shut => onOut (some s.link.out.endShutdown) .next
  | .shutting | .finished => none

def writerStep (cfg : Config) (s : Sys) : Option Sys :=
  match s.wr.ops with
  | [] => s.writePc cfg
  | ops =>
    match s.link.opStep cfg ops with
    | some (l, ops) => some { s with link := l, wr := { s.wr with ops := ops } }
    | none => none

def write (cfg : Config) (s : Sys) (n : Nat) : Option Sys :=
  if s.wr.ops = [] ∧ s.wr.pc = .writing then
    match s.link.out.write cfg n with
    | some out => some { s with link := { s.link with out := out }, wr := { s.wr with pc := .wrote } }
    | none => none
  else none

/-- A failed write, flush or shutdown ends the link. -/
def writeError (s : Sys) : Option Sys :=
  if s.wr.ops = [] ∧ s.wr.pc.waits = true then
    some { s with wr := { s.wr with ops := [.endLink], pc := .finished } }
  else none

def shutOut (s : Sys) : Option Sys :=
  if s.wr.ops = [] ∧ s.wr.pc = .shutting then
    some { s with wr := { s.wr with outShut := true, pc := .shut } }
  else none

def haltWriter (s : Sys) : Option Sys :=
  if s.wr.ops = [] ∧ s.wr.pc.waits = true then
    if s.link.stopped then some { s with wr := { s.wr with pc := .finished } }
    else if s.link.hubClosed then some { s with wr := { s.wr with ops := Link.terminate, pc := .finished } }
    else none
  else none

/-! ## The whole connection -/

/-- Transport activity reaches the link's clocks once they are bound. -/
def activity (cfg : Config) (s : Sys) (inbound : Bool) : Option Sys :=
  if cfg.heartbeat.isSome ∧ s.link.out.box.io = true then
    let ns := s.link.now - cfg.born
    some { s with link :=
      if inbound then { s.link with received := ns + 1 } else { s.link with written := ns } }
  else none

def onRunning (s : Sys) (t : Option Sys) : Option Sys := if s.task = .running then t else none

def step (cfg : Config) (s : Sys) : Label → Option Sys
  | .call c => s.call cfg c
  | .closeHub => some { s with link := { s.link with hubClosed := true } }
  | .tick d => some { s with link := { s.link with now := s.link.now + d } }
  | .activity inbound => s.activity cfg inbound
  | .hold key => (s.link.holdStep cfg key).map fun l => { s with link := l }
  | .pool i => s.poolStep cfg i
  | .establish rest =>
    if s.task = .connecting then
      some { s with task := .starting rest, link := { s.link with out := s.link.out.setIo } }
    else none
  | .refuse error => if s.task = .connecting then some (s.leave (Link.fail error)) else none
  | .task => s.taskStep
  | .abandon =>
    -- the task stops at one of its waits and only its lease is left
    if s.task = .connecting ∨ (s.task = .running ∧ s.rd.ops = [] ∧ s.wr.ops = []) then some (s.leave [])
    else none
  | .reader => s.onRunning (s.readerStep cfg)
  | .input bytes => s.onRunning (s.input bytes)
  | .eof =>
    s.onRunning <| if s.rd.ops = [] ∧ s.rd.pc = .read then some { s with rd := { s.rd with pc := .leave } } else none
  | .readError tls => s.onRunning (s.readError tls)
  | .wake =>
    s.onRunning <|
      if s.rd.ops = [] ∧ (s.rd.pc = .read ∨ s.rd.pc = .throttled) then
        some { s with rd := { s.rd with pc := .top } }
      else none
  | .timer => s.onRunning (s.timer cfg)
  | .haltReader => s.onRunning s.haltReader
  | .writer => s.onRunning (s.writerStep cfg)
  | .write n => s.onRunning (s.write cfg n)
  | .writeError => s.onRunning s.writeError
  | .shutOut => s.onRunning s.shutOut
  | .haltWriter => s.onRunning s.haltWriter

theorem onRunning_some {s s' : Sys} {t : Option Sys} (h : s.onRunning t = some s') : t = some s' :=
  (Option.ite_none_right_eq_some.mp h).2

/-- What holds after a move holds after the move under a guard. -/
theorem of_guarded {P : Sys → Prop} {s s' : Sys} {c : Prop} [Decidable c] (h : (if c then some s else none) = some s')
    (hs : P s) : P s' := by
  obtain ⟨-, h⟩ := Option.ite_none_right_eq_some.mp h
  cases h
  exact hs

end Sys

/-! ## A small connection -/

/-- A server's link with small limits. -/
def Config.small : Config where
  server := true
  max := 1000
  buffer := 6
  heartbeat := none
  heartbeat_pos := nofun
  token := [1, 2, 3, 4, 5, 6, 7, 8]
  token_length := rfl
  chunk := 16
  born := 0

/-- A client's link with small limits. -/
def Config.smallClient : Config := { Config.small with server := false }

/-- The steps that open a link. -/
def openRun : List Label := [.establish [], .task, .task]

/-- A send of two bytes that is accepted. -/
def sendRun : List Label := [.call (.send ⟨[7, 8], by decide⟩ true), .hold ⟨0, 0, 0, 0⟩]

end WebSocket.Net
