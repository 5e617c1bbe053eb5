import WebSocket.Lib.Transition
import WebSocket.Native.Values

/-!
# The calls of `ws.core`

`native/calls.c`, `native/values.c` and the strings of `native/src/ffi.rs`, on one thread. A string that Rust
returns belongs to the C function that called, until `push_str` has copied it and called `ws_free`. To
copy it Lua may allocate, and so run finalizers; functions are called and return under hooks. This is Lua
code like any other: it may call `ws.core` again, raise an error that unwinds the C stack, collect
strings that no stack holds, replace what the stack of a waiting function holds (with the debug
library), and call the converter itself.

The stack holds the frames of one thread, innermost first. The other functions of Lua's C API neither
allocate nor raise, so no Lua code runs in them (`interruptible`).

What C would not survive is a `Fault`: a string used or released after its release, a conversion context of
a function that has returned, an argument that was collected before Rust read it, and a protected call
of something else than the converter.
-/

namespace WebSocket.Native.Glue

open Proto Lib Lib.Transition

/-! ## Strings -/

/-- An empty `Box` has no memory: its pointer dangles. -/
inductive Ptr where
  | null
  | dangling
  | box (a : Nat)
  deriving DecidableEq

structure WsStr where
  ptr : Ptr
  len : Nat
  deriving DecidableEq

namespace WsStr

def NONE : WsStr := ⟨.null, 0⟩

/-- The bytes that `copy_str` reads, if they are there. -/
def bytes (heap : Heap Bytes) (s : WsStr) : Option Bytes :=
  if s.len = 0 then some []
  else
    match s.ptr with
    | .box a => heap.read a
    | _ => none

end WsStr

def out (heap : Heap Bytes) (bytes : Bytes) : Heap Bytes × WsStr :=
  if bytes.isEmpty then (heap, ⟨.dangling, 0⟩) else (heap.alloc bytes, ⟨.box heap.next, bytes.length⟩)

def wsFree (heap : Heap Bytes) (s : WsStr) : Option (Heap Bytes) :=
  match s.ptr with
  | .null | .dangling => some heap
  | .box a => if heap.live a then some (heap.free a) else none

/-! ## The functions -/

inductive Fn where
  | wait
  | connect
  | listen
  | reply
  | send
  | ping
  | close
  | protocol
  | port
  | unlisten
  | terminate
  | shutdown
  | state
  | buffered
  | now
  deriving DecidableEq

/-- What a function does before it enters Rust. -/
inductive Act where
  | settop (n : Nat)
  /-- `prepare_str`. -/
  | prepare
  | id (i : Nat)
  | str (i : Nat)
  | number (i : Nat)
  | port (i : Nat)
  | status (i : Nat)
  | code (i : Nat)
  | size (i : Nat)
  | heartbeat (i : Nat)
  deriving DecidableEq

def prepareArgs (args : Nat) (acts : List Act) : List Act := .settop args :: .prepare :: acts

def Fn.acts : Fn → List Act
  | .wait => [.id 1, .number 2, .prepare]
  | .connect =>
    prepareArgs 9 [.id 1, .str 2, .str 3, .str 4, .str 5, .number 6, .size 7, .size 8, .heartbeat 9]
  | .listen => prepareArgs 9 [.id 1, .str 2, .str 4, .str 5, .port 3, .size 6, .size 7, .size 8, .heartbeat 9]
  | .reply => prepareArgs 3 [.id 1, .status 2, .str 3]
  | .send => prepareArgs 3 [.id 1, .str 2]
  | .ping => prepareArgs 2 [.id 1, .str 2]
  | .close => prepareArgs 3 [.id 1, .code 2, .str 3]
  | .protocol => [.id 1, .prepare]
  | .port | .unlisten | .terminate | .shutdown | .state | .buffered => [.id 1]
  | .now => []

/-- What Rust returns. A failure has called `fail` with its message. -/
inductive Answer where
  | ok
  | handle (id : Nat)
  | failed (fatal : Bool) (message : Bytes)
  | timeout
  | event (kind id code server : Nat) (data : Bytes)
  | text (protocol : Option Bytes)
  | number (x : Number)
  | named (state : Bytes)
  | nothing

/-- `ws_wait` and the calls that return a status; the rest cannot fail. -/
def Answer.fits : Fn → Answer → Bool
  | .wait, .timeout | .wait, .event .. | .wait, .failed .. => true
  | .connect, .handle _ | .connect, .failed .. | .listen, .handle _ | .listen, .failed .. => true
  | .reply, .ok | .reply, .failed .. | .send, .ok | .send, .failed .. => true
  | .ping, .ok | .ping, .failed .. | .close, .ok | .close, .failed .. => true
  | .protocol, .text _ => true
  | .port, .number _ | .buffered, .number _ | .now, .number _ | .state, .named _ => true
  | .unlisten, .nothing | .terminate, .nothing | .shutdown, .nothing => true
  | _, _ => false

/-- What is pushed once the string is. -/
inductive Next where
  | failure (fatal : Bool)
  | event (kind id code server : Nat)
  | value

inductive Pc where
  /-- Called; Lua's hook runs first. -/
  | entry
  | acts (todo : List Act)
  /-- `luaL_argerror`. -/
  | refused
  /-- Rust returned a failure, and `ws_error` is next. -/
  | failed (fatal : Bool)
  /-- The string is here, and `push_str` is next. -/
  | holding (next : Next)
  /-- In the protected call of `push_str`. -/
  | converting (next : Next)
  | converted (next : Next) (ok : Bool)
  /-- `lua_pushstring` in `l_state`. -/
  | naming (state : Bytes)
  | ret (n : Nat)

/-- `struct Copy`; its `string` is the `s` of the function. -/
structure Copy where
  lua : Nat
  previous : Option Nat
  entered : Bool

/-- A C function on the stack; `id` is the address of its locals. `answer` is what Rust said, for the record. -/
structure Call where
  id : Nat
  lua : Nat
  fn : Fn
  slots : List Value
  pc : Pc
  s : WsStr
  copy : Option Copy
  borrowed : List Nat
  answer : Option Answer

inductive CopyPc where
  | called
  /-- The context is not for this call. -/
  | refusing
  /-- `lua_pushlstring` of the string of the context. -/
  | pushing (owner : Nat)
  | returning (v : Value)

/-- Lua code (a function, a finalizer, a hook; `guard` if errors stop there), a function of `ws.core`, or
`copy_str`. -/
inductive Frame where
  | code (lua : Nat) (guard : Bool)
  | call (c : Call)
  | copying (lua : Nat) (pc : CopyPc)

inductive Fault where
  | freed
  | context
  | argument
  | converter
  deriving DecidableEq

/-- A value as Lua sees it. -/
inductive Shown where
  | nil
  | boolean (b : Bool)
  | number (x : Number)
  | string (b : Bytes)
  | converter
  | other (tag : Nat)
  deriving DecidableEq

/-- What a function returned, and what Rust had answered. -/
structure Returned where
  fn : Fn
  answer : Answer
  values : List (Option Shown)

structure State where
  /-- Rust's strings. -/
  heap : Heap Bytes
  /-- Lua's strings. -/
  strings : Heap Bytes
  /-- `ERROR`. -/
  error : Bytes
  /-- `COPY`. -/
  context : Option Nat
  stack : List Frame
  nextId : Nat
  fault : Option Fault
  /-- The debug library was used on what `copy_str` returns. -/
  tampered : Bool
  log : List Returned

inductive Label where
  | go
  | answer (a : Answer)
  /-- Lua code is entered: a function is called, or a finalizer or a hook runs. -/
  | enter (lua : Nat) (guard : Bool)
  | leave
  | raise
  | invoke (fn : Fn) (args : List Value)
  | convert
  /-- `debug.setlocal` on the frame at depth `k`. -/
  | replace (k i : Nat) (v : Value)
  | make (b : Bytes)
  | collect (a : Nat)

/-! ## The stack -/

def CopyPc.strings : CopyPc → List Nat
  | .returning v => v.strings
  | _ => []

/-- The strings that a frame keeps from being collected. -/
def Frame.strings : Frame → List Nat
  | .call c => c.slots.flatMap Value.strings
  | .copying _ pc => pc.strings
  | .code .. => []

/-- Where Lua code may run. -/
def Pc.interruptible : Pc → Bool
  | .entry | .acts (.prepare :: _) | .refused | .naming _ | .ret _ => true
  | _ => false

def Frame.interruptible : Frame → Bool
  | .call c => c.pc.interruptible
  | _ => true

/-- An error unwinds to the protected call of a conversion or to the Lua code that stops it. -/
def unwind : List Frame → List Frame
  | [] => []
  | .code _ guard :: rest => if guard then rest else unwind rest
  | .copying .. :: rest => unwind rest
  | .call c :: rest =>
    match c.pc with
    | .converting next =>
      .call { c with pc := .converted next false, slots := c.slots.dropLast ++ [.other 0] } :: rest
    | _ => unwind rest

/-- The function whose context is at an address, if there is one. -/
def owner (id : Nat) : List Frame → Option (Call × Copy)
  | [] => none
  | .call c :: rest =>
    match c.copy with
    | some copy => if c.id = id then some (c, copy) else owner id rest
    | none => owner id rest
  | _ :: rest => owner id rest

/-- `current->entered = 1`. -/
def enterCopy (id : Nat) : Frame → Frame
  | .call c => .call (if c.id = id then { c with copy := c.copy.map fun k => { k with entered := true } } else c)
  | f => f

/-- The result of `copy_str` goes to the protected call, or to the Lua code that called it. -/
def deliver (v : Value) : List Frame → List Frame
  | .call c :: rest =>
    match c.pc with
    | .converting next => .call { c with pc := .converted next true, slots := c.slots.dropLast ++ [v] } :: rest
    | _ => .call c :: rest
  | rest => rest

def replaceSlot (i : Nat) (v : Value) : Frame → Frame
  | .call c => .call { c with slots := c.slots.set i v }
  | .copying lua (.returning _) => .copying lua (.returning v)
  | f => f

def Frame.copies : Frame → Bool
  | .copying .. => true
  | _ => false

namespace State

variable (rt : Runtime) (s : State)

def init : State := ⟨.empty, .empty, [], none, [], 0, none, false, []⟩

def top (c : Call) (rest : List Frame) : State := { s with stack := .call c :: rest }

def shown : Value → Option Shown
  | .nil => some .nil
  | .boolean b => some (.boolean b)
  | .number x => some (.number x)
  | .string a => (s.strings.read a).map .string
  | .converter => some .converter
  | .other tag => some (.other tag)

/-- The function returns its last `n` slots. -/
def returns (c : Call) (n : Nat) (rest : List Frame) : State :=
  { s.top { c with pc := .ret n } rest with
    log := s.log ++ c.answer.toList.map fun a => ⟨c.fn, a, (c.slots.drop (c.slots.length - n)).map s.shown⟩ }

/-! ## Arguments -/

def passes (slots : List Value) : Act → Bool
  | .id i => (rt.checkId s.strings (slots.getD (i - 1) .nil)).isSome
  | .number i => (rt.optNumber s.strings .nan (slots.getD (i - 1) .nil)).isSome
  | .port i => (rt.checkInteger s.strings (slots.getD (i - 1) .nil)).any fun n => decide (0 ≤ n ∧ n ≤ 65535)
  | .status i => (rt.optInteger s.strings 0 (slots.getD (i - 1) .nil)).any fun n => decide (0 ≤ n ∧ n ≤ 65535)
  | .code i => (rt.optInteger s.strings 1000 (slots.getD (i - 1) .nil)).isSome
  | .size i => (rt.optSize s.strings (slots.getD (i - 1) .nil)).isSome
  | .heartbeat i => (rt.optHeartbeat s.strings (slots.getD (i - 1) .nil)).isSome
  | .str i => (optStr (slots.getD (i - 1) .nil)).isSome
  | .settop _ | .prepare => true

/-- The slots after an act; `settop` fills up with `nil`. -/
def slotsAfter (slots : List Value) : Act → List Value
  | .settop n => slots.take n ++ List.replicate (n - slots.length) .nil
  | .prepare => slots ++ [.converter]
  | _ => slots

def borrows (slots : List Value) : Act → List Nat
  | .str i => (slots.getD (i - 1) .nil).strings
  | _ => []

def act (c : Call) (a : Act) (todo : List Act) (rest : List Frame) : State :=
  if s.passes rt c.slots a then
    s.top
      { c with
        pc := .acts todo
        slots := slotsAfter c.slots a
        s := if a = .prepare then .NONE else c.s
        borrowed := c.borrowed ++ borrows c.slots a } rest
  else s.top { c with pc := .refused, borrowed := [] } rest

/-! ## Rust's answer -/

/-- The string that Rust returned is here. -/
def holds (c : Call) (bytes : Bytes) (next : Next) (rest : List Frame) : State :=
  let (heap, str) := out s.heap bytes
  { s.top { c with s := str, pc := .holding next } rest with heap := heap }

def answer (c : Call) (a : Answer) (rest : List Frame) : State :=
  if c.borrowed.all s.strings.live then
    let c := { c with borrowed := [], answer := some a }
    match a with
    | .ok => s.returns { c with slots := c.slots.dropLast ++ [.boolean true] } 1 rest
    | .handle id => s.returns { c with slots := c.slots.dropLast ++ [.number (.finite id)] } 1 rest
    | .failed fatal message => { s.top { c with pc := .failed fatal } rest with error := message }
    | .timeout | .nothing => s.returns c 0 rest
    | .event kind id code server data => s.holds c data (.event kind id code server) rest
    | .text (some p) => s.holds c p .value rest
    | .text none => s.top { c with s := .NONE, pc := .holding .value } rest
    | .number x => s.returns { c with slots := c.slots ++ [.number x] } 1 rest
    | .named state => s.top { c with pc := .naming state } rest
  else { s with fault := some .argument }

/-! ## `push_str` -/

def beginCopy (c : Call) (next : Next) (rest : List Frame) : State :=
  if c.slots.getLast? = some .converter then
    { s with
      context := some c.id
      stack := .copying c.lua .called ::
        .call { c with pc := .converting next, copy := some ⟨c.lua, s.context, false⟩ } :: rest }
  else { s with fault := some .converter }

/-- What `result`, `l_wait` and `l_protocol` return with the string. -/
def pushes (c : Call) (next : Next) (rest : List Frame) : State :=
  let string := c.slots.getLastD .nil
  let number := fun n : Nat => Value.number (.finite n)
  match next with
  | .failure fatal => s.returns { c with slots := c.slots ++ [.nil, string, .boolean fatal] } 3 rest
  | .event kind id code server =>
    s.returns { c with slots := c.slots ++ [number kind, number id, string, number code, number server] } 5 rest
  | .value => s.returns c 1 rest

def endCopy (c : Call) (next : Next) (ok : Bool) (rest : List Frame) : State :=
  match wsFree s.heap c.s with
  | some heap =>
    let s := { s with heap := heap, context := c.copy.bind Copy.previous }
    let c := { c with s := .NONE, copy := none }
    if ok then s.pushes c next rest else { s with stack := unwind rest }
  | none => { s with fault := some .freed }

def goCall (c : Call) (rest : List Frame) : Option State :=
  match c.pc with
  | .entry => some (s.top { c with pc := .acts c.fn.acts } rest)
  | .acts (a :: todo) => some (s.act rt c a todo rest)
  | .refused => some { s with stack := unwind rest }
  | .failed fatal => some ({ s with error := [] }.holds c s.error (.failure fatal) rest)
  | .holding next => some (s.beginCopy c next rest)
  | .converted next ok => some (s.endCopy c next ok rest)
  | .naming state =>
    let named := { c with slots := c.slots ++ [.string s.strings.next] }
    some ({ s with strings := s.strings.alloc state }.returns named 1 rest)
  | .ret _ => some { s with stack := rest }
  | .acts [] | .converting _ => none

/-! ## `copy_str` -/

def copying (lua : Nat) (pc : CopyPc) (rest : List Frame) : State := { s with stack := .copying lua pc :: rest }

def enterContext (lua : Nat) (rest : List Frame) : State :=
  match s.context with
  | none => s.copying lua .refusing rest
  | some id =>
    match owner id rest with
    | none => { s with fault := some .context }
    | some (c, copy) =>
      if copy.lua ≠ lua ∨ copy.entered then s.copying lua .refusing rest
      else s.copying lua (if c.s.ptr = .null then .returning .nil else .pushing id) (rest.map (enterCopy id))

def pushString (lua id : Nat) (rest : List Frame) : State :=
  match owner id rest with
  | none => { s with fault := some .context }
  | some (c, _) =>
    match c.s.bytes s.heap with
    | none => { s with fault := some .freed }
    | some b => { s with strings := s.strings.alloc b }.copying lua (.returning (.string s.strings.next)) rest

def goCopy (lua : Nat) (pc : CopyPc) (rest : List Frame) : State :=
  match pc with
  | .called => s.enterContext lua rest
  | .refusing => { s with stack := unwind rest }
  | .pushing id => s.pushString lua id rest
  | .returning v => { s with stack := deliver v rest }

/-! ## Lua code -/

def interruptible : Bool := s.stack.head?.all Frame.interruptible

def isLive (v : Value) : Bool := v.strings.all s.strings.live

def invoke (lua : Nat) (fn : Fn) (args : List Value) : State :=
  { s with
    stack := .call ⟨s.nextId, lua, fn, args, .entry, .NONE, none, [], none⟩ :: s.stack
    nextId := s.nextId + 1 }

def step : Label → Option State
  | .go =>
    match s.stack with
    | .call c :: rest => s.goCall rt c rest
    | .copying lua pc :: rest => some (s.goCopy lua pc rest)
    | _ => none
  | .answer a =>
    match s.stack with
    | .call c :: rest =>
      match c.pc with
      | .acts [] => if a.fits c.fn then some (s.answer c a rest) else none
      | _ => none
    | _ => none
  | .enter lua guard => if s.interruptible then some { s with stack := .code lua guard :: s.stack } else none
  | .leave =>
    match s.stack with
    | .code .. :: rest => some { s with stack := rest }
    | _ => none
  | .raise => if s.interruptible then some { s with stack := unwind s.stack } else none
  | .invoke fn args =>
    match s.stack with
    | .code lua _ :: _ => if args.all s.isLive then some (s.invoke lua fn args) else none
    | _ => none
  | .convert =>
    match s.stack with
    | .code lua _ :: _ => some (s.copying lua .called s.stack)
    | _ => none
  | .replace k i v =>
    match s.stack with
    | .code .. :: _ =>
      if s.isLive v then
        some { s with
          stack := s.stack.modify k (replaceSlot i v)
          tampered := s.tampered || (s.stack[k]?).any Frame.copies }
      else none
    | _ => none
  | .make b => if s.interruptible then some { s with strings := s.strings.alloc b } else none
  | .collect a =>
    if s.interruptible ∧ a ∉ s.stack.flatMap Frame.strings then some { s with strings := s.strings.free a } else none

end State

end WebSocket.Native.Glue
