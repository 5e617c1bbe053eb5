import WebSocket.Proto.Wire

/-!
# The outbound queue and the writer

`Outbox` is what the `queue` lock and the `buffered` counter protect, with the functions
of `send.rs` and `write.rs` on it. `Out` adds the writer's locals: the batch it swapped
out, the entry it is writing and the bytes the transport has taken.

A write and its `progress` are two steps. Between them the transport holds `flying` bytes
that `write_out` has not counted yet: its cursor `pos` moves with `progress`.

Three lists are history, not program state: the entries whose bytes are all written, those
of the writer's batch and those still queued. Together they are every frame and `Shutdown`
ever enqueued.
-/

namespace WebSocket.Net

open Proto

/-- A time of the monotonic clock, in nanoseconds. -/
abbrev Instant := Nat

/-! ## Queue entries -/

/-- `sent` names the cell that receives the time a heartbeat was transmitted. -/
inductive Item where
  | data (bytes : Bytes)
  | heartbeat (bytes : Bytes) (sent : Nat)
  | shutdown
  deriving DecidableEq

def Item.bytes : Item → Bytes
  | .data b => b
  | .heartbeat b _ => b
  | .shutdown => []

def itemBytes (items : List Item) : Bytes := items.flatMap Item.bytes

/-- Queue entries shorter than this take the next frame in. -/
def JOIN : Nat := 16 * 1024

structure Queue where
  items : List Item
  done : Bool
  shutdown : Bool
  drain : Option Nat
  pong : Option Bytes
  deriving DecidableEq

def Queue.empty : Queue := ⟨[], false, false, none, none⟩

/-- The part of a link that never changes after `Link::new`. `chunk` is the stream's. -/
structure Config where
  server : Bool
  max : Nat
  buffer : Nat
  heartbeat : Option Nat
  heartbeat_pos : ∀ interval, heartbeat = some interval → 0 < interval
  token : Bytes
  token_length : token.length = 8
  chunk : Nat
  born : Instant

/-! ## `send.rs` -/

/-- Clients mask every frame with a fresh random key; servers never mask. -/
def Config.mask (cfg : Config) (key : Key) : Option Key := if cfg.server then none else some key

structure Outbox where
  io : Bool
  queue : Queue
  buffered : Nat
  deriving DecidableEq

namespace Outbox

/-- An enqueue takes effect: the transport is set and the writer not stopped. -/
def live (o : Outbox) : Bool := o.io && !o.queue.done

/-- Whether `len` more bytes may join `buffered` ones: alone, or within the limit. -/
def room (buffer buffered len : Nat) : Bool :=
  buffered == 0 || decide (saturatingAdd buffered len ≤ buffer)

def fits (cfg : Config) (o : Outbox) (len : Nat) : Bool := room cfg.buffer o.buffered len

def frame (cfg : Config) (op : UInt8) (payload : Bytes) (key : Key) : Bytes :=
  encode op payload (cfg.mask key)

/-- `items.back_mut()`: extend the last entry if it is data that may grow, else append one. -/
def pushBack (items : List Item) (joins : Bytes → Bool) (extend : Bytes → Bytes) (fresh : Bytes) : List Item :=
  match items.getLast? with
  | some (.data last) =>
    if joins last then items.dropLast ++ [.data (extend last)] else items ++ [.data fresh]
  | _ => items ++ [.data fresh]

def enqueue (o : Outbox) (item : Item) : Outbox :=
  if o.queue.done then o else
  match item with
  | .data data =>
    if data.isEmpty then o else
    let joins := fun last : Bytes => decide (data.length < JOIN) && decide (last.length < JOIN)
    { o with
      buffered := o.buffered + data.length
      queue := { o.queue with items := pushBack o.queue.items joins (· ++ data) data } }
  | .heartbeat data sent =>
    { o with
      buffered := o.buffered + data.length
      queue := { o.queue with items := o.queue.items ++ [.heartbeat data sent] } }
  | .shutdown =>
    { o with queue := { o.queue with
      pong := none, shutdown := true, items := o.queue.items ++ [.shutdown] } }

def push (o : Outbox) (data : Bytes) : Outbox := if o.io then o.enqueue (.data data) else o

/-- Small frames are encoded into the queue under its lock, large ones outside it. -/
def pushFrame (cfg : Config) (o : Outbox) (op : UInt8) (payload : Bytes) (key : Key) : Outbox :=
  let len := encodedLen payload.length (!cfg.server)
  if JOIN ≤ len then o.push (frame cfg op payload key)
  else if !o.io then o
  else if o.queue.done then o
  else
    let mask := cfg.mask key
    let joins := fun last : Bytes => decide (last.length < JOIN)
    let extend := fun last => encodeInto last op payload mask
    { o with
      queue := { o.queue with items := pushBack o.queue.items joins extend (encode op payload mask) }
      buffered := o.buffered + len }

def pushHeartbeat (cfg : Config) (o : Outbox) (sent : Nat) (key : Key) : Outbox :=
  if o.io then o.enqueue (.heartbeat (frame cfg PING cfg.token key) sent) else o

def pushShutdown (o : Outbox) : Outbox := if o.io then o.enqueue .shutdown else o

def stopWriter (o : Outbox) : Outbox :=
  { o with queue := { o.queue with done := true, items := [], pong := none, shutdown := false } }

/-- The locked part of `progress`: the registration it clears, if any. -/
def progress (cfg : Config) (o : Outbox) (n : Nat) : Outbox × Option Nat :=
  let left := o.buffered - n
  match o.queue.drain with
  | some len =>
    if room cfg.buffer left len then
      ({ o with buffered := left, queue := { o.queue with drain := none } }, some len)
    else ({ o with buffered := left }, none)
  | none => ({ o with buffered := left }, none)

end Outbox

/-! ## The writer's locals -/

/-- Which of the code's producers a frame came from. -/
inductive Kind where
  | app
  | pong
  | deferred
  | heartbeat
  | close
  deriving DecidableEq

/-- One thing put in the queue. -/
inductive Entry where
  | frame (kind : Kind) (wire : Wire)
  | shutdown
  deriving DecidableEq

def Entry.bytes : Entry → Bytes
  | .frame _ w => w.bytes
  | .shutdown => []

def entryBytes (es : List Entry) : Bytes := es.flatMap Entry.bytes

/-- The item `write_out` is working on. `flying` bytes after `pos` are with the transport. -/
structure Cur where
  data : Bytes
  pos : Nat
  flying : Nat
  sent : Option Nat
  deriving DecidableEq

/-- `write_out` at the start of an item; a `Shutdown` has no bytes to write. -/
def Item.start : Item → Option Cur
  | .data b => some ⟨b, 0, 0, none⟩
  | .heartbeat b s => some ⟨b, 0, 0, some s⟩
  | .shutdown => none

/-- What of it the transport has not taken. -/
def Cur.rest (c : Cur) : Bytes := c.data.drop (c.pos + c.flying)

structure Out where
  box : Outbox
  batch : List Item
  cur : Option Cur
  wire : Bytes
  gone : List Entry
  inBatch : List Entry
  queued : List Entry
  deriving DecidableEq

namespace Out

def empty : Out := ⟨⟨false, .empty, 0⟩, [], none, [], [], [], []⟩

/-- Everything enqueued so far, in order. -/
def log (o : Out) : List Entry := o.gone ++ o.inBatch ++ o.queued

/-- The bytes of the writer's batch that the transport has not taken. -/
def unwritten (o : Out) : Bytes := (o.cur.map Cur.rest).getD [] ++ itemBytes o.batch

/-- Bytes the transport has taken and `progress` has not counted. -/
def flying (o : Out) : Nat := (o.cur.map Cur.flying).getD 0

def record (o : Out) (e : Entry) : List Entry := if o.box.live then o.queued ++ [e] else o.queued

def pushFrame (cfg : Config) (o : Out) (kind : Kind) (op : UInt8) (payload : Bytes) (key : Key) : Out :=
  { o with
    box := o.box.pushFrame cfg op payload key
    queued := o.record (.frame kind ⟨true, op, payload, cfg.mask key⟩) }

def pushHeartbeat (cfg : Config) (o : Out) (sent : Nat) (key : Key) : Out :=
  { o with
    box := o.box.pushHeartbeat cfg sent key
    queued := o.record (.frame .heartbeat ⟨true, PING, cfg.token, cfg.mask key⟩) }

def pushShutdown (o : Out) : Out :=
  { o with box := o.box.pushShutdown, queued := o.record .shutdown }

def stopWriter (o : Out) : Out := { o with box := o.box.stopWriter }

def setPong (o : Out) (pong : Option Bytes) : Out :=
  { o with box := { o.box with queue := { o.box.queue with pong := pong } } }

/-- A refused `send` leaves its length for `progress`. -/
def register (o : Out) (len : Nat) : Out :=
  { o with box := { o.box with queue := { o.box.queue with drain := some len } } }

def setIo (o : Out) : Out := { o with box := { o.box with io := true } }

/-- The batch swap at the head of `write_pending`'s loop, done with an empty batch. -/
def swap (o : Out) : Option Out :=
  if o.batch.isEmpty && o.cur.isNone then
    some { o with
      box := { o.box with queue := { o.box.queue with items := [] } }
      batch := o.box.queue.items
      gone := o.gone ++ o.inBatch
      inBatch := o.queued
      queued := [] }
  else none

/-- `items.pop_front()`, and the item starts to be written. -/
def pop (o : Out) : Option Out :=
  match o.cur, o.batch with
  | none, item :: t => some { o with batch := t, cur := item.start }
  | _, _ => none

/-- `stream.write` takes `n` bytes of the next chunk. -/
def write (cfg : Config) (o : Out) (n : Nat) : Option Out :=
  match o.cur with
  | some c =>
    if c.flying = 0 ∧ 1 ≤ n ∧ n ≤ min cfg.chunk (c.data.length - c.pos) then
      some { o with
        wire := o.wire ++ (c.data.drop c.pos).take n
        cur := some { c with flying := n } }
    else none
  | none => none

/-- `at += n` and the locked part of `progress(n)`. -/
def progress (cfg : Config) (o : Out) : Option (Out × Option Nat) :=
  match o.cur with
  | some c =>
    if c.flying = 0 then none else
    let (box, cleared) := o.box.progress cfg c.flying
    some ({ o with box := box, cur := some { c with pos := c.pos + c.flying, flying := 0 } }, cleared)
  | none => none

/-- `write_out` returns once the cursor is at the end. -/
def finish (o : Out) : Option Out :=
  match o.cur with
  | some c => if c.flying = 0 ∧ c.data.length ≤ c.pos then some { o with cur := none } else none
  | none => none

def endShutdown (o : Out) : Out :=
  { o with box := { o.box with queue := { o.box.queue with shutdown := false } } }

/-! ### The log -/

theorem log_record (o : Out) (e : Entry) :
    o.gone ++ o.inBatch ++ o.record e = if o.box.live then o.log ++ [e] else o.log := by
  rw [record]
  split
  · rw [← List.append_assoc, log]
  · rfl

theorem log_pushFrame (cfg : Config) (o : Out) (kind : Kind) (op : UInt8) (payload : Bytes) (key : Key) :
    (o.pushFrame cfg kind op payload key).log =
      if o.box.live then o.log ++ [.frame kind ⟨true, op, payload, cfg.mask key⟩] else o.log :=
  o.log_record _

theorem log_pushHeartbeat (cfg : Config) (o : Out) (sent : Nat) (key : Key) :
    (o.pushHeartbeat cfg sent key).log =
      if o.box.live then o.log ++ [.frame .heartbeat ⟨true, PING, cfg.token, cfg.mask key⟩] else o.log :=
  o.log_record _

theorem log_pushShutdown (o : Out) :
    o.pushShutdown.log = if o.box.live then o.log ++ [.shutdown] else o.log :=
  o.log_record _

/-! ### What the partial operations did -/

section Spec

variable {cfg : Config} {o o' : Out}

theorem swap_some (h : o.swap = some o') :
    o.batch = [] ∧ o.cur = none ∧ o' = { o with
      box := { o.box with queue := { o.box.queue with items := [] } }
      batch := o.box.queue.items
      gone := o.gone ++ o.inBatch
      inBatch := o.queued
      queued := [] } := by
  rw [swap] at h
  split at h
  · rename_i hidle
    rw [Bool.and_eq_true, List.isEmpty_iff, Option.isNone_iff_eq_none] at hidle
    cases h
    exact ⟨hidle.1, hidle.2, rfl⟩
  · cases h

theorem pop_some (h : o.pop = some o') :
    o.cur = none ∧ ∃ item t, o.batch = item :: t ∧ o' = { o with batch := t, cur := item.start } := by
  rw [pop] at h
  split at h
  · rename_i item t hc hb
    cases h
    exact ⟨hc, item, t, hb, rfl⟩
  · cases h

theorem write_some {n : Nat} (h : o.write cfg n = some o') :
    ∃ c, o.cur = some c ∧ c.flying = 0 ∧ 1 ≤ n ∧ c.pos + n ≤ c.data.length ∧
      o' = { o with wire := o.wire ++ (c.data.drop c.pos).take n, cur := some { c with flying := n } } := by
  rw [write] at h
  split at h
  · rename_i c hc
    split at h
    · rename_i hn
      cases h
      have hlen := Nat.le_trans hn.2.2 (Nat.min_le_right _ _)
      exact ⟨c, hc, hn.1, hn.2.1, by omega, rfl⟩
    · cases h
  · cases h

theorem progress_some {cleared : Option Nat} (h : o.progress cfg = some (o', cleared)) :
    ∃ c, o.cur = some c ∧ c.flying ≠ 0 ∧ cleared = (o.box.progress cfg c.flying).2 ∧
      o' = { o with
        box := (o.box.progress cfg c.flying).1, cur := some { c with pos := c.pos + c.flying, flying := 0 } } := by
  rw [progress] at h
  split at h
  · rename_i c hc
    split at h
    · cases h
    · rename_i hf
      cases h
      exact ⟨c, hc, hf, rfl, rfl⟩
  · cases h

theorem finish_some (h : o.finish = some o') :
    ∃ c, o.cur = some c ∧ c.flying = 0 ∧ c.data.length ≤ c.pos ∧ o' = { o with cur := none } := by
  rw [finish] at h
  split at h
  · rename_i c hc
    split at h
    · rename_i hf
      cases h
      exact ⟨c, hc, hf.1, hf.2, rfl⟩
    · cases h
  · cases h

end Spec

end Out

end WebSocket.Net
