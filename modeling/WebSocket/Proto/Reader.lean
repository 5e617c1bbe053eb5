import WebSocket.Lib.Incremental
import WebSocket.Proto.Frame

/-!
# An incremental reader that validates frames and assembles messages

`core/src/proto/reader.rs`. The reader owns a buffer of which `pos` bytes are
consumed, unmasks each payload in place, and keeps the message that is being
assembled from fragments. A method with `&mut self` returns the reader it leaves
behind, also when it fails.

`Reader.frame` is cut where its checks are: what the first two bytes decide
(`checkFirst`), where the length field is (`lenAt`), what the length decides
(`checkLen`), and the key (`maskAt`). `message` loops until a message is complete;
its fuel is the number of unread bytes, and every frame consumes at least two.
-/

namespace WebSocket.Proto

open Lib

structure Frame where
  fin : Bool
  op : UInt8
  /-- The payload's range in the buffer. -/
  start : Nat
  stop : Nat
  deriving DecidableEq, Repr

structure Partial where
  op : UInt8
  data : Bytes
  /-- Bytes of `data` known to be valid UTF-8 so far (text only). -/
  checked : Nat
  deriving DecidableEq, Repr

structure Reader where
  buf : Bytes
  pos : Nat
  server : Bool
  max : Nat
  partialMsg : Option Partial
  deriving DecidableEq, Repr

/-- `matches!(op, CONTINUATION | TEXT | BINARY | CLOSE | PING | PONG)`. -/
def knownOp (op : UInt8) : Bool :=
  op == CONTINUATION || op == TEXT || op == BINARY || op == CLOSE || op == PING || op == PONG

/-- What the first two bytes of a frame decide: reserved bits, opcode, masking and sequencing. -/
def checkFirst (server isOpen : Bool) (b0 b1 : UInt8) : Option Fail :=
  let op := b0 &&& 0x0F
  let masked := b1 &&& 0x80 != 0
  if b0 &&& 0x70 != 0 then some ⟨1002, "reserved bits set"⟩
  else if !knownOp op then some ⟨1002, "unknown opcode"⟩
  else if masked != server then
    some ⟨1002, if server then "unmasked client frame" else "masked server frame"⟩
  else if op < CLOSE then
    -- Reject invalid sequencing before buffering an attacker-chosen payload.
    if op == CONTINUATION && !isOpen then some ⟨1002, "unexpected continuation frame"⟩
    else if (op == TEXT || op == BINARY) && isOpen then some ⟨1002, "expected continuation frame"⟩
    else none
  else none

/-- The payload length and where the length field ends, once it is complete. -/
def lenAt (b : Bytes) : Option (Nat × Nat) :=
  let n := (b.getD 1 0 &&& 0x7F).toNat
  if n = 126 ∧ 4 ≤ b.length then some (BigEndian.ofBytes ((b.drop 2).take 2), 4)
  else if n = 127 ∧ 10 ≤ b.length then some (BigEndian.ofBytes ((b.drop 2).take 8), 10)
  else if n = 126 ∨ n = 127 then none
  else some (n, 2)

/-- What the length decides: its encoding is minimal, a control frame is short and whole, a
message stays within `max`. `pending` is the size of the open message so far. -/
def checkLen (max pending : Nat) (fin : Bool) (op : UInt8) (len at_ : Nat) : Option Fail :=
  if (at_ = 4 ∧ len < 126) ∨ (at_ = 10 ∧ (len < 65536 ∨ len >>> 63 ≠ 0)) then
    some ⟨1002, "invalid payload length encoding"⟩
  else if CLOSE ≤ op then
    if !fin || decide (125 < len) then some ⟨1002, "invalid control frame"⟩ else none
  else if max < saturatingAdd len pending then some ⟨1009, "message too big"⟩
  else none

/-- The key at `at_` and where the payload starts, once the key is complete. -/
def maskAt (masked : Bool) (b : Bytes) (at_ : Nat) : Option (Option Key × Nat) :=
  if masked then
    if b.length < at_ + 4 then none
    else some (some ⟨b.getD at_ 0, b.getD (at_ + 1) 0, b.getD (at_ + 2) 0, b.getD (at_ + 3) 0⟩, at_ + 4)
  else some (none, at_)

/-- A checked header: the key, where the payload starts and how long it is. -/
structure Head where
  fin : Bool
  op : UInt8
  mask : Option Key
  start : Nat
  len : Nat
  deriving DecidableEq, Repr

/-- The checks of `Reader::frame` on the unread bytes, in the order the fields arrive. -/
def head (server : Bool) (max : Nat) (p : Option Partial) (b : Bytes) : Except Fail (Option Head) :=
  if b.length < 2 then .ok none
  else
    let b0 := b.getD 0 0
    let b1 := b.getD 1 0
    let fin := b0 &&& 0x80 != 0
    let op := b0 &&& 0x0F
    let masked := b1 &&& 0x80 != 0
    match checkFirst server p.isSome b0 b1 with
    | some f => .error f
    | none =>
      match lenAt b with
      | none => .ok none
      | some (len, at_) =>
        match checkLen max ((p.map (·.data.length)).getD 0) fin op len at_ with
        | some f => .error f
        | none =>
          match maskAt masked b at_ with
          | none => .ok none
          | some (mask, start) => .ok (some ⟨fin, op, mask, start, len⟩)

/-- The status a close payload carries. -/
def close : Bytes → Except Fail Msg
  | [] => .ok (.close none)
  | [_] => .error ⟨1002, "invalid close frame"⟩
  | a :: b :: reason =>
    let code := UInt16.ofNat (BigEndian.ofBytes [a, b])
    if !validCloseCode code then .error ⟨1002, "invalid close code"⟩
    else
      match Str.fromUtf8 reason with
      | none => .error ⟨1007, "invalid UTF-8 in close reason"⟩
      | some reason => .ok (.close (some (code, reason)))

/-- The open message with one more fragment. -/
def extendPartial (p : Option Partial) (op : UInt8) (payload : Bytes) : Partial :=
  match p with
  | some p => { p with data := p.data ++ payload }
  | none => ⟨op, payload, 0⟩

/-- The UTF-8 check after a fragment: validation resumes at `checked` and may end inside a
character only if more fragments follow. -/
def checkText (fin : Bool) (p : Partial) : Option Partial :=
  if p.op = TEXT then
    match Utf8.fromUtf8 (p.data.drop p.checked) with
    | .ok () => some { p with checked := p.data.length }
    | .error e => if e.errorLen.isNone && !fin then some { p with checked := p.checked + e.validUpTo } else none
  else some p

/-- `Reader::assemble` on the payload's bytes: the open message it leaves and the message it
completes. -/
def assemblePayload (p : Option Partial) (fin : Bool) (op : UInt8) (payload : Bytes) :
    Option Partial × Except Fail (Option Msg) :=
  if op = PING then (p, .ok (some (.ping payload)))
  else if op = PONG then (p, .ok (some (.pong payload)))
  else if op = CLOSE then (p, (close payload).map some)
  else
    -- `frame` validated sequencing before accepting the payload.
    let q := extendPartial p op payload
    match checkText fin q with
    | none => (some q, .error ⟨1007, "invalid UTF-8 in text message"⟩)
    | some q =>
      if !fin then (some q, .ok none)
      else (none, .ok (some (if q.op = TEXT then .text q.data else .binary q.data)))

namespace Reader

/-- `server` expects masked frames; `max` bounds a whole message. -/
def new (server : Bool) (max : Nat) : Reader := ⟨[], 0, server, max, none⟩

/-- Compact before borrowing the destination for a bounded transport read. -/
def input (r : Reader) : Reader :=
  if 0 < r.pos then { r with buf := r.buf.drop r.pos, pos := 0 } else r

def push (r : Reader) (data : Bytes) : Reader :=
  { r.input with buf := r.input.buf ++ data }

/-- The bytes not consumed yet. -/
def unread (r : Reader) : Bytes := r.buf.drop r.pos

/-- Unmask the bytes from `start` to `stop` in place. -/
def unmask (buf : Bytes) (start stop : Nat) (key : Key) : Bytes :=
  buf.take start ++ applyMask ((buf.take stop).drop start) key ++ buf.drop stop

def frame (r : Reader) : Reader × Except Fail (Option Frame) :=
  let b := r.buf.drop r.pos
  match head r.server r.max r.partialMsg b with
  | .error f => (r, .error f)
  | .ok none => (r, .ok none)
  | .ok (some h) =>
    if b.length - h.start < h.len then (r, .ok none)
    else
      let start := r.pos + h.start
      let stop := start + h.len
      let buf := match h.mask with
        | some key => unmask r.buf start stop key
        | none => r.buf
      ({ r with buf, pos := stop }, .ok (some ⟨h.fin, h.op, start, stop⟩))

def assemble (r : Reader) (f : Frame) : Reader × Except Fail (Option Msg) :=
  let payload := (r.buf.take f.stop).drop f.start
  let res := assemblePayload r.partialMsg f.fin f.op payload
  ({ r with partialMsg := res.1 }, res.2)

def messageWith : Nat → Reader → Reader × Except Fail (Option Msg)
  | 0, r => (r, .ok none)
  | fuel + 1, r =>
    match r.frame with
    | (r, .error f) => (r, .error f)
    | (r, .ok none) => (r, .ok none)
    | (r, .ok (some f)) =>
      match r.assemble f with
      | (r, .error f) => (r, .error f)
      | (r, .ok (some m)) => (r, .ok (some m))
      | (r, .ok none) => messageWith fuel r

/-- The next complete message, `none` if more input is needed. -/
def message (r : Reader) : Reader × Except Fail (Option Msg) := messageWith (r.unread.length + 1) r

end Reader

end WebSocket.Proto
