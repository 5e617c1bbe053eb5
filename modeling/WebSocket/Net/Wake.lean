import WebSocket.Lib.Notify
import WebSocket.Net.Clock
import WebSocket.Net.Threads

/-!
# The waits of the loops

`System` lets a wait end at any time. Here each wait ends only for its reason: a permit of the
`Notify` it listens to, its timer, or one of the permanent signals. `ready` wakes the writer,
`changed` and `consumed` the reader, `drained` the end of `flush_close`.

A call of `notify_one` stands behind the section that gives cause for it, and other threads may
run in between: `notifies` says which cells a step is about to notify, and the permit lands
later. What the loops remember over a wait is here too: the deadline read together with the
state, and the timer.

Forgetting all this gives a run of `System` (`Loops.sys_reachable`), so what was shown
there holds here.
-/

namespace WebSocket.Net

open Proto Lib Lib.Transition

/-! ## `timer.rs` -/

/-- `armed` is the target the sleep was last set to, and the sleep's own deadline. -/
structure Timer where
  target : Option Instant
  armed : Option (Instant × Instant)
  same : ∀ a, armed = some a → a.1 = a.2

namespace Timer

def new : Timer := ⟨none, none, nofun⟩

def set (t : Timer) (deadline : Option Instant) : Timer := { t with target := deadline }

/-- The sleep after a poll: made at the first one, and reset if the target has moved. -/
def sleep (t : Timer) (target : Instant) : Instant × Instant :=
  match t.armed with
  | none => (target, target)
  | some a => if a.1 ≠ target then (target, target) else a

theorem sleep_eq (t : Timer) (target : Instant) : t.sleep target = (target, target) := by
  rw [sleep]
  split
  · rfl
  · rename_i a ha
    split
    · rfl
    · rename_i hne
      have hd := t.same a ha
      rw [Decidable.not_not] at hne
      exact Prod.ext hne (hd.symm.trans hne)

/-- One poll of `wait`, and whether it is over. -/
def poll (t : Timer) (now : Instant) : Timer × Bool :=
  match t.target with
  | none => (t, false)
  | some target =>
    ({ t with armed := some (t.sleep target), same := by simp [sleep_eq] }, decide ((t.sleep target).2 ≤ now))

/-- However often the sleep was used before, it ends at the target. -/
theorem poll_iff {t : Timer} {now : Instant} : (t.poll now).2 = true ↔ ∃ d, t.target = some d ∧ d ≤ now := by
  rw [poll]
  split
  · rename_i h
    simp [h]
  · rename_i target h
    simp [h, sleep_eq]

end Timer

/-! ## Who is notified -/

inductive Cell where
  | ready
  | changed
  | consumed
  | drained
  deriving DecidableEq

/-- An enqueue that takes effect, and a pong left to the writer, call the writer. -/
def Section.notifies (l : Link) : Section → List Cell
  | .pushFrame .. | .pushHeartbeat _ | .pushShutdown => if l.out.box.live then [.ready] else []
  | .deferPong _ => [.ready]
  | .recheck .. | .clearPong => []

/-- `stop_writer` calls the writer; `finish` sets `stopped` and then calls `flush_close`. -/
def Op.notifies : Op → List Cell
  | .stopWriter => [.ready]
  | .setStopped => [.drained]
  | _ => []

def nextNotifies : List Op → List Cell
  | [] => []
  | op :: _ => op.notifies

/-- `progress` and the end of a shutdown call `flush_close`; a transmitted probe moves the timer. -/
def WritePc.notifies (o : Out) : WritePc → List Cell
  | .wrote | .shut => [.drained]
  | .stamp _ =>
    match o.cur with
    | some ⟨data, pos, _, some _⟩ => if pos = data.length then [.changed] else []
    | _ => []
  | _ => []

namespace Sys

def notifies (s : Sys) : Label → List Cell
  | .call (.close code reason) =>
    if !validCloseCode code || decide (123 < reason.bytes.length) then [] else [.changed]
  | .call (.consumed _) => [.consumed]
  | .hold _ =>
    match s.link.hold with
    | [] => []
    | x :: _ => x.notifies s.link
  | .pool i => nextNotifies (s.pool.getD i [])
  | .reader => nextNotifies s.rd.ops
  | .writer =>
    match s.wr.ops with
    | [] => s.wr.pc.notifies s.link.out
    | ops => nextNotifies ops
  | _ => []

end Sys

/-! ## The loops -/

/-- `parked` is the writer's wait on an empty queue and `awaits` the wait of `flush_close`;
`deadline` is what `read_loop` read of `flags` before it waits. -/
structure Loops where
  sys : Sys
  cells : Cell → Notify
  parked : Bool
  awaits : Bool
  deadline : Option Instant
  timer : Timer

/-- `ready` and `drained` are the ends of the two waits on these cells, `flushed` is the writer's
other reason to go on: the transport asked for a flush. `pend` is `flush_close` finding
something to wait for. -/
inductive Move where
  | step (lab : Label)
  | lands (cell : Cell)
  | ready
  | flushed
  | pend
  | drained

namespace Loops

def init (cfg : Config) : Loops := ⟨.init cfg, fun _ => .new, false, false, none, .new⟩

/-- What ends the wait that the label stands for. -/
def allows (s : Loops) : Label → Bool
  | .reader => !s.awaits
  | .wake =>
    match s.sys.rd.pc with
    | .read => (s.cells .changed).permit
    | _ => (s.cells .changed).permit || (s.cells .consumed).permit
  | .timer =>
    match s.sys.rd.pc with
    | .read => (s.timer.poll s.sys.link.now).2
    | _ => s.awaits
  | .haltReader =>
    match s.sys.rd.pc with
    | .flushing _ => s.awaits
    | _ => true
  | .writer => !s.parked
  | _ => true

/-- `select!` is biased: a permit of `changed` is taken first. -/
def woken (s : Loops) : Cell := if (s.cells .changed).permit then .changed else .consumed

def setCell (s : Loops) (c : Cell) (n : Notify) : Cell → Notify := fun d => if d = c then n else s.cells d

def cellsAfter (s : Loops) : Label → Cell → Notify
  | .wake => s.setCell s.woken { s.cells s.woken with permit := false }
  | lab => fun c => if c ∈ s.sys.notifies lab then (s.cells c).call else s.cells c

/-- An empty turn of `write_pending` parks the writer, its other steps leave it awake. -/
def parkedAfter (s : Loops) (s' : Sys) : Label → Bool
  | .writer => decide (s.sys.wr.ops = [] ∧ s.sys.wr.pc = .idle ∧ s'.wr.pc = .idle)
  | .writeError | .haltWriter => false
  | _ => s.parked

/-- `timer.set`, and the poll that found the timer expired. The loads of `heartbeat_deadline` are one
section with the load of the inbox. -/
def timerAfter (cfg : Config) (limit : Instant) (s : Loops) (s' : Sys) : Label → Timer
  | .reader =>
    match s.sys.rd.pc, s'.rd.pc with
    | .checkInbox _, .read =>
      s.timer.set (s.deadline.or (s.sys.rd.alive.heartbeatDeadline cfg limit s.sys.link))
    | _, _ => s.timer
  | .timer =>
    match s.sys.rd.pc with
    | .read => (s.timer.poll s.sys.link.now).1
    | _ => s.timer
  | _ => s.timer

def deadlineAfter (s : Loops) : Label → Option Instant
  | .reader => if s.sys.rd.ops = [] ∧ s.sys.rd.pc = .check then s.sys.link.flags.deadline else s.deadline
  | _ => s.deadline

def after (cfg : Config) (limit : Instant) (s : Loops) (lab : Label) (s' : Sys) : Loops where
  sys := s'
  cells := s.cellsAfter lab
  parked := s.parkedAfter s' lab
  awaits := s.awaits && !lab.reads
  deadline := s.deadlineAfter lab
  timer := s.timerAfter cfg limit s' lab

/-- Where `flush_close` looks at the queue and finds it busy. -/
def pends (s : Loops) : Bool :=
  match s.sys.rd.pc with
  | .flushing _ => decide (s.sys.task = .running) && s.sys.rd.ops.isEmpty && !s.awaits && Sys.pending s.sys.link
  | _ => false

def step (cfg : Config) (limit : Instant) (s : Loops) : Move → Option Loops
  | .step lab => if s.allows lab then (s.sys.step cfg lab).map (s.after cfg limit lab) else none
  | .lands c => (s.cells c).land.map fun n => { s with cells := s.setCell c n }
  | .ready =>
    if s.parked then (s.cells .ready).take.map fun n => { s with cells := s.setCell .ready n, parked := false }
    else none
  | .flushed => if s.parked then some { s with parked := false } else none
  | .pend => if s.pends then some { s with awaits := true } else none
  | .drained =>
    if s.awaits then (s.cells .drained).take.map fun n => { s with cells := s.setCell .drained n, awaits := false }
    else none

/-! ## What a move does -/

/-- The moves of `step`, with their guards. -/
inductive Moved (cfg : Config) (limit : Instant) (s : Loops) : Move → Loops → Prop where
  | step {lab s'} (allowed : s.allows lab = true) (h : s.sys.step cfg lab = some s') :
      Moved cfg limit s (.step lab) (s.after cfg limit lab s')
  | lands {c n} (h : (s.cells c).land = some n) : Moved cfg limit s (.lands c) { s with cells := s.setCell c n }
  | ready (parked : s.parked = true) (permit : (s.cells .ready).permit = true) :
      Moved cfg limit s .ready
        { s with cells := s.setCell .ready { s.cells .ready with permit := false }, parked := false }
  | flushed (parked : s.parked = true) : Moved cfg limit s .flushed { s with parked := false }
  | pend (h : s.pends = true) : Moved cfg limit s .pend { s with awaits := true }
  | drained (awaits : s.awaits = true) (permit : (s.cells .drained).permit = true) :
      Moved cfg limit s .drained
        { s with cells := s.setCell .drained { s.cells .drained with permit := false }, awaits := false }

variable {cfg : Config} {limit : Instant} {s t : Loops} {m : Move}

theorem moved (h : s.step cfg limit m = some t) : Moved cfg limit s m t := by
  cases m with
  | step lab =>
    obtain ⟨allowed, h⟩ := Option.ite_none_right_eq_some.mp h
    obtain ⟨s', hs, rfl⟩ := Option.map_eq_some_iff.mp h
    exact .step allowed hs
  | lands c =>
    obtain ⟨n, hn, rfl⟩ := Option.map_eq_some_iff.mp h
    exact .lands hn
  | ready =>
    obtain ⟨parked, h⟩ := Option.ite_none_right_eq_some.mp h
    obtain ⟨n, hn, rfl⟩ := Option.map_eq_some_iff.mp h
    obtain ⟨permit, hn⟩ := Option.ite_none_right_eq_some.mp hn
    cases hn
    exact .ready parked permit
  | flushed =>
    obtain ⟨parked, h⟩ := Option.ite_none_right_eq_some.mp h
    cases h
    exact .flushed parked
  | pend =>
    obtain ⟨pends, h⟩ := Option.ite_none_right_eq_some.mp h
    cases h
    exact .pend pends
  | drained =>
    obtain ⟨awaits, h⟩ := Option.ite_none_right_eq_some.mp h
    obtain ⟨n, hn, rfl⟩ := Option.map_eq_some_iff.mp h
    obtain ⟨permit, hn⟩ := Option.ite_none_right_eq_some.mp hn
    cases hn
    exact .drained awaits permit

/-- The loops without their waits are the system. -/
theorem sys_reachable (h : Reachable (step cfg limit) (init cfg) s) : Reachable (Sys.step cfg) (.init cfg) s.sys := by
  apply h.invariant (I := fun u => Reachable (Sys.step cfg) (.init cfg) u.sys) (.refl _)
  intro u m v _ hu hv
  cases moved hv with
  | step allowed h => exact hu.next h
  | _ => exact hu

end Loops

end WebSocket.Net
