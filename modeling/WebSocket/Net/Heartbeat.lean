import WebSocket.Net.Probes
import WebSocket.Net.Timeline

/-!
# The heartbeat of a connection

A connection's clocks, cells and pings are a `Pulse`, and each of its steps is a `Beat`
(`beat_of_step`). So every drop and every ping of a run is justified by the run before it, and
at most one ping is outstanding (`heartbeat_sound`).

A run here is watched: `Watch` adds the history to a connection. Two things are asked of the
transport that the steps of a connection leave open. The reader, the writer and the transport
run in one task, so no activity is noted inside `heartbeat` or between a finished write and its
stamp. And a write that is finished has moved bytes: the activity was noted since the writer
took the item.
-/

namespace WebSocket.Net

open Proto Lib.Transition Lib.History

/-! ## What no function under `flags` touches -/

section Still

variable {cfg : Config}

/-- The clocks, and the item that is being written. -/
structure Link.Still (l l' : Link) : Prop where
  now : l'.now = l.now
  written : l'.written = l.written
  received : l'.received = l.received
  cur : l'.out.cur = l.out.cur

theorem Link.Still.refl (l : Link) : l.Still l := ⟨rfl, rfl, rfl, rfl⟩

theorem still_exec (l : Link) (op : Op) : l.Still (l.exec cfg op).1 := by
  cases op with
  | emit e => rw [Link.exec]; dsimp only; split <;> exact ⟨rfl, rfl, rfl, rfl⟩
  | finish code reason => rw [Link.exec]; split <;> exact ⟨rfl, rfl, rfl, rfl⟩
  | handle m =>
    cases m with
    | ping data => rw [Link.exec, Link.handle, Link.handlePing]; dsimp only; split <;> exact ⟨rfl, rfl, rfl, rfl⟩
    | close status => rw [Link.exec, Link.handle, Link.closing]; dsimp only; split <;> exact ⟨rfl, rfl, rfl, rfl⟩
    | _ => exact .refl l
  | violation f => rw [Link.exec, Link.violate]; dsimp only; split <;> exact ⟨rfl, rfl, rfl, rfl⟩
  | _ => exact ⟨rfl, rfl, rfl, rfl⟩

theorem still_send (l : Link) (op : UInt8) (payload : Bytes) : l.Still (l.send cfg op payload) := by
  rw [Link.send]
  split
  · exact ⟨rfl, rfl, rfl, rfl⟩
  · split <;> exact ⟨rfl, rfl, rfl, rfl⟩

theorem still_close (l : Link) (code : UInt16) (reason : Str) : l.Still (l.close code reason).1 := by
  unfold Link.close
  dsimp only
  split <;> exact ⟨rfl, rfl, rfl, rfl⟩

theorem still_holdStep {l l' : Link} {key : Key} (h : l.holdStep cfg key = some l') : l.Still l' := by
  obtain ⟨x, rest, -, rfl⟩ := Link.holdStep_some h
  cases x with
  | pushFrame => rw [Link.execSection]; dsimp only; split <;> exact ⟨rfl, rfl, rfl, rfl⟩
  | recheck => rw [Link.execSection]; dsimp only; split <;> exact ⟨rfl, rfl, rfl, rfl⟩
  | _ => exact ⟨rfl, rfl, rfl, rfl⟩

theorem still_flushPong (l : Link) : l.Still l.flushPong := by
  unfold Link.flushPong
  dsimp only
  split
  · split <;> exact ⟨rfl, rfl, rfl, rfl⟩
  · exact ⟨rfl, rfl, rfl, rfl⟩

end Still

/-! ## Only time and the transport move the clocks -/

section Clock

variable {cfg : Config} {s s' : Sys} {lab : Label}

/-- The three clocks of the link. -/
def Link.clock (l : Link) : Instant × Nat × Nat := (l.now, l.written, l.received)

theorem Link.Still.clock {l l' : Link} (h : l.Still l') : l'.clock = l.clock := by
  rw [Link.clock, h.now, h.written, h.received, Link.clock]

/-- The steps outside the writer. -/
structure Apart (s s' : Sys) : Prop where
  clock : s'.link.clock = s.link.clock
  wr : s'.wr = s.wr

theorem apart_opStep {l : Link} {ops ops' : List Op} (h : s.link.opStep cfg ops = some (l, ops')) :
    l.clock = s.link.clock := by
  obtain ⟨op, rest, -, -, rfl, -⟩ := opStep_some h
  exact (still_exec s.link op).clock

theorem apart_call {c : Call} (h : s.call cfg c = some s') : Apart s s' := by
  have sendOp {op payload} (h : s.sendOp cfg op payload = some s') : Apart s s' := by
    rw [Sys.sendOp] at h
    split at h
    · cases h
      exact ⟨(still_send s.link op payload).clock, rfl⟩
    · cases h
  cases c with
  | send data binary =>
    rw [Sys.call] at h
    split at h
    · exact sendOp h
    · split at h
      · exact sendOp h
      · cases h
        exact ⟨rfl, rfl⟩
  | sendText data bound => exact sendOp h
  | ping data =>
    rw [Sys.call] at h
    split at h
    · cases h
      exact ⟨rfl, rfl⟩
    · exact sendOp h
  | close code reason =>
    rw [Sys.call] at h
    split at h
    · cases h
      exact ⟨rfl, rfl⟩
    · split at h
      · cases h
      · cases h
        exact ⟨(still_close s.link code reason).clock, rfl⟩
  | terminate =>
    cases h
    exact ⟨rfl, rfl⟩
  | consumed bytes =>
    cases h
    exact ⟨rfl, rfl⟩

theorem apart_taskStep (h : s.taskStep = some s') : Apart s s' := by
  unfold Sys.taskStep at h
  repeat' split at h
  all_goals first | (cases h; exact ⟨rfl, rfl⟩) | cases h

theorem apart_readPc (h : s.readPc cfg = some s') : Apart s s' := by
  unfold Sys.readPc Sys.dispatch Sys.sendPing Sys.beat at h
  dsimp only at h
  split at h
  all_goals repeat' split at h
  all_goals first | (cases h; exact ⟨rfl, rfl⟩) | cases h

theorem apart_readerStep (h : s.readerStep cfg = some s') : Apart s s' := by
  unfold Sys.readerStep at h
  split at h
  · exact apart_readPc h
  · split at h
    · rename_i hstep
      cases h
      exact ⟨apart_opStep hstep, rfl⟩
    · cases h

theorem apart_timer (h : s.timer cfg = some s') : Apart s s' := by
  unfold Sys.timer at h
  repeat' split at h
  all_goals first | (cases h; exact ⟨rfl, rfl⟩) | cases h

theorem apart_haltReader (h : s.haltReader = some s') : Apart s s' := by
  unfold Sys.haltReader at h
  repeat' split at h
  all_goals first | (cases h; exact ⟨rfl, rfl⟩) | cases h

/-- What a step without `tick` and `activity` does to time: the stamp of a write is taken from the clock. -/
structure Timing (cfg : Config) (s s' : Sys) : Prop where
  clock : s'.link.clock = s.link.clock
  stamp : ∀ t, s'.wr.pc = .stamp t → s.wr.pc = .stamp t ∨ t = cfg.born + s.link.written

theorem Apart.timing (h : Apart s s') : Timing cfg s s' := ⟨h.clock, fun _ ht => .inl (h.wr ▸ ht)⟩

theorem writePc_timing (h : s.writePc cfg = some s') : Timing cfg s s' := by
  unfold Sys.writePc at h
  cases hpc : s.wr.pc with
  | idle =>
    simp only [hpc, Sys.swapBatch] at h
    split at h
    · cases h
      exact ⟨rfl, by simp⟩
    · split at h
      · cases h
        refine ⟨rfl, fun t ht => ?_⟩
        dsimp only at ht
        split at ht
        · cases ht
        · split at ht <;> cases ht
      · cases h
  | flushPong =>
    simp only [hpc] at h
    split at h
    · cases h
    · cases h
      exact ⟨(still_flushPong s.link).clock, by simp⟩
  | next =>
    simp only [hpc] at h
    split at h
    · cases h
      exact ⟨rfl, by simp⟩
    · obtain ⟨out, -, rfl⟩ := Option.map_eq_some_iff.mp h
      exact ⟨rfl, by simp⟩
    · obtain ⟨out, -, rfl⟩ := Option.map_eq_some_iff.mp h
      exact ⟨rfl, by simp⟩
  | writing =>
    simp only [hpc] at h
    obtain ⟨out, -, rfl⟩ := Option.map_eq_some_iff.mp h
    exact ⟨rfl, by simp⟩
  | wrote =>
    simp only [hpc, Sys.progress] at h
    split at h
    · split at h
      · cases h
        exact ⟨rfl, fun t ht => by cases ht; exact .inr rfl⟩
      · cases h
        exact ⟨rfl, fun t ht => by cases ht; exact .inr rfl⟩
    · cases h
  | stamp transmitted =>
    simp only [hpc] at h
    cases h
    exact ⟨rfl, by simp [Sys.stampProbe]⟩
  | shut =>
    simp only [hpc] at h
    cases h
    exact ⟨rfl, by simp⟩
  | shutting => simp [hpc] at h
  | finished => simp [hpc] at h

/-- Time passes, or the transport notes its activity. -/
def Label.passes : Label → Bool
  | .tick _ | .activity _ => true
  | _ => false

theorem step_timing (h : s.step cfg lab = some s') (hlab : lab.passes = false) : Timing cfg s s' := by
  cases lab with
  | tick d => cases hlab
  | activity inbound => cases hlab
  | call c => exact (apart_call h).timing
  | closeHub =>
    cases h
    exact ⟨rfl, fun _ => .inl⟩
  | hold key =>
    obtain ⟨l, hl, rfl⟩ := Option.map_eq_some_iff.mp h
    exact ⟨(still_holdStep hl).clock, fun _ => .inl⟩
  | pool i =>
    rw [Sys.step, Sys.poolStep] at h
    split at h
    · rename_i hstep
      cases h
      exact ⟨apart_opStep hstep, fun _ => .inl⟩
    · cases h
  | establish rest => exact Sys.of_guarded (P := Timing cfg s) h ⟨rfl, fun _ => .inl⟩
  | refuse error => exact Sys.of_guarded (P := Timing cfg s) h ⟨rfl, fun _ => .inl⟩
  | task => exact (apart_taskStep h).timing
  | abandon => exact Sys.of_guarded (P := Timing cfg s) h ⟨rfl, fun _ => .inl⟩
  | reader => exact (apart_readerStep (Sys.onRunning_some h)).timing
  | input bytes => exact Sys.of_guarded (P := Timing cfg s) (Sys.onRunning_some h) ⟨rfl, fun _ => .inl⟩
  | eof => exact Sys.of_guarded (P := Timing cfg s) (Sys.onRunning_some h) ⟨rfl, fun _ => .inl⟩
  | readError tls => exact Sys.of_guarded (P := Timing cfg s) (Sys.onRunning_some h) ⟨rfl, fun _ => .inl⟩
  | wake => exact Sys.of_guarded (P := Timing cfg s) (Sys.onRunning_some h) ⟨rfl, fun _ => .inl⟩
  | timer => exact (apart_timer (Sys.onRunning_some h)).timing
  | haltReader => exact (apart_haltReader (Sys.onRunning_some h)).timing
  | writer =>
    have h := Sys.onRunning_some h
    unfold Sys.writerStep at h
    split at h
    · exact writePc_timing h
    · split at h
      · rename_i hstep
        cases h
        exact ⟨apart_opStep hstep, fun _ => .inl⟩
      · cases h
  | write n =>
    obtain ⟨-, h⟩ := Option.ite_none_right_eq_some.mp (Sys.onRunning_some h)
    split at h
    · cases h
      exact ⟨rfl, by simp⟩
    · cases h
  | writeError => exact Sys.of_guarded (P := Timing cfg s) (Sys.onRunning_some h) ⟨rfl, by simp⟩
  | shutOut => exact Sys.of_guarded (P := Timing cfg s) (Sys.onRunning_some h) ⟨rfl, by simp⟩
  | haltWriter =>
    obtain ⟨-, h⟩ := Option.ite_none_right_eq_some.mp (Sys.onRunning_some h)
    split at h
    · cases h
      exact ⟨rfl, by simp⟩
    · split at h
      · cases h
        exact ⟨rfl, by simp⟩
      · cases h

end Clock

/-! ## A watched connection -/

/-- The time on its way to a cell. -/
def WritePc.stamp? : WritePc → Option Instant
  | .stamp t => some t
  | _ => none

namespace Sys

/-- Bytes that arrive, at the transport or at the reader, and bytes that leave. -/
def traffic (s : Sys) : Label → List Sign
  | .activity true | .input _ => [.arrived s.link.now]
  | .activity false => [.progressed s.link.now]
  | _ => []

/-- A new cell is a new ping. -/
def asks (s s' : Sys) : List Sign :=
  if s.link.cells.length < s'.link.cells.length then [.queued s.link.cells.length s.link.now] else []

/-- The writer stamps a heartbeat that it has written. -/
def completes (s s' : Sys) : List Sign :=
  match s.wr.pc, s'.wr.pc, s.link.out.cur with
  | .stamp t, .writing, some c =>
    if c.pos = c.data.length then c.sent.toList.map (Sign.transmitted · t) else []
  | _, _, _ => []

/-- The check drops the peer. -/
def drops (s s' : Sys) : List Sign :=
  match s.rd.pc, s'.rd.pc with
  | .beat _, .leave => [.dropped s.link.now]
  | _, _ => []

/-- What a step shows of the heartbeat. -/
def signs (s s' : Sys) (lab : Label) : List Sign := s.traffic lab ++ s.asks s' ++ s.completes s' ++ s.drops s'

/-- Inside `heartbeat`, or between a finished write and its stamp: the task polls nothing. -/
def busy (s : Sys) : Bool := decide (s.rd.pc = .pinging) || s.wr.pc.stamp?.isSome

end Sys

/-- A connection with the history of its heartbeat. `moved` says that bytes left since the writer
took its item. -/
structure Watch where
  sys : Sys
  log : List Sign
  moved : Bool

namespace Watch

def init (cfg : Config) : Watch := ⟨.init cfg, [], false⟩

/-- What the transport and the task keep to, at a step to `s'`. -/
def fair (w : Watch) (s' : Sys) : Label → Bool
  | .activity _ => !w.sys.busy
  | _ => !(decide (w.sys.wr.pc = .wrote) && s'.wr.pc.stamp?.isSome) || w.moved

def moves (w : Watch) (s' : Sys) : Label → Bool
  | .activity false => true
  | _ => w.moved && !(decide (w.sys.wr.pc = .next) && decide (s'.wr.pc ≠ .next))

def step (cfg : Config) (w : Watch) (lab : Label) : Option Watch :=
  match w.sys.step cfg lab with
  | some s' => if w.fair s' lab then some ⟨s', w.log ++ w.sys.signs s' lab, w.moves s' lab⟩ else none
  | none => none

/-- What the heartbeat lives on. -/
def pulse (w : Watch) : Pulse where
  now := w.sys.link.now
  written := w.sys.link.written
  received := w.sys.link.received
  cells := w.sys.link.cells
  alive := w.sys.rd.alive
  sending := w.sys.link.out.cur.bind Cur.sent
  stamping := w.sys.wr.pc.stamp?
  pinging := decide (w.sys.rd.pc = .pinging)
  moved := w.moved

end Watch

/-! ## Its steps are beats -/

section Steps

variable {cfg : Config} {s s' : Sys} {lab : Label} {used new : List Op} {interval : Nat}

/-- The interval of a check is the configured one, and before the reader starts there is no ping. -/
structure Rhythm (cfg : Config) (s : Sys) : Prop where
  beat : ∀ i, s.rd.pc = .beat i → cfg.heartbeat = some i
  unstarted : s.task ≠ .running → s.task ≠ .finished → s.rd.alive.ping = none

theorem Rhythm.step (h : Rhythm cfg s) (he : Effect cfg s lab s' used new) : Rhythm cfg s' := by
  cases he with
  | connected task => exact ⟨h.beat, fun _ _ => h.unstarted (by simp [task]) (by simp [task])⟩
  | opened task => exact ⟨h.beat, fun _ _ => h.unstarted (by simp [task]) (by simp [task])⟩
  | started task => exact ⟨h.beat, fun hr => absurd rfl hr⟩
  | left => exact ⟨h.beat, fun _ hf => absurd rfl hf⟩
  | reading run idle hr =>
    refine ⟨fun i hi => ?_, fun hn => absurd run hn⟩
    cases hr with
    | goto hn =>
      cases hn with
      | beat pc state heartbeat =>
        cases hi
        exact heartbeat
      | _ => cases hi
    | silent =>
      rw [Sys.afterDispatch] at hi
      dsimp only at hi
      split at hi <;> cases hi
    | stop =>
      rw [Sys.afterDispatch] at hi
      dsimp only at hi
      split at hi <;> cases hi
    | _ => cases hi
  | decoded run => exact ⟨by simp, fun hn => absurd run hn⟩
  | failed run => exact ⟨by simp, fun hn => absurd run hn⟩
  | ping run => exact ⟨by simp, fun hn => absurd run hn⟩
  | _ => exact ⟨h.beat, h.unstarted⟩

theorem Rhythm.of_reachable (h : Reachable (Sys.step cfg) (.init cfg) s) : Rhythm cfg s := by
  refine h.invariant ⟨by simp [Sys.init], fun _ _ => rfl⟩ ?_
  intro u l v hu hI hv
  obtain ⟨used, new, he⟩ := step_effect hv
  exact hI.step he

theorem Sys.completes_of_stamp (h : s'.wr.pc.stamp? = s.wr.pc.stamp?) : s.completes s' = [] := by
  rw [Sys.completes]
  split
  · rename_i hs hs' _
    rw [hs, hs'] at h
    cases h
  · rfl

theorem Sys.asks_of_cells (h : s'.link.cells.length = s.link.cells.length) : s.asks s' = [] := by
  rw [Sys.asks, if_neg (by rw [h]; exact Nat.lt_irrefl _)]

theorem Watch.moves_eq {w : Watch} (hlab : lab ≠ .activity false) (next : w.sys.wr.pc = .next → s'.wr.pc = .next) :
    w.moves s' lab = w.moved := by
  unfold Watch.moves
  split
  · exact absurd rfl hlab
  · by_cases h : w.sys.wr.pc = .next
    · simp [next h]
    · simp [h]

theorem Watch.moves_of_next {w : Watch} (traffic : w.sys.traffic lab = [])
    (next : w.sys.wr.pc = .next → s'.wr.pc = .next) : w.moves s' lab = w.moved := by
  refine Watch.moves_eq ?_ next
  rintro rfl
  cases traffic

/-- A step that no check and no ping is part of. -/
theorem Beat.of_rest {w : Watch} (clock : s'.link.clock = w.sys.link.clock) (cells : s'.link.cells = w.sys.link.cells)
    (sending : s'.link.out.cur.bind Cur.sent = w.sys.link.out.cur.bind Cur.sent) (alive : s'.rd.alive = w.sys.rd.alive)
    (pinging : s'.rd.pc = .pinging ↔ w.sys.rd.pc = .pinging) (stamping : s'.wr.pc.stamp? = w.sys.wr.pc.stamp?)
    (traffic : w.sys.traffic lab = []) (next : w.sys.wr.pc = .next → s'.wr.pc = .next)
    (drops : w.sys.drops s' = []) {log : List Sign} :
    Beat cfg interval w.pulse (w.sys.signs s' lab) (Watch.pulse ⟨s', log, w.moves s' lab⟩) := by
  have signs : w.sys.signs s' lab = [] := by
    rw [Sys.signs, traffic, Sys.asks_of_cells (by rw [cells]), Sys.completes_of_stamp stamping, drops]
    rfl
  have pulse : Watch.pulse ⟨s', log, w.moves s' lab⟩ = w.pulse := by
    simp only [Link.clock, Prod.mk.injEq] at clock
    obtain ⟨now, written, received⟩ := clock
    simp only [Watch.pulse, now, written, received, cells, sending, alive, pinging, stamping,
      Watch.moves_of_next traffic next]
  rw [signs, pulse]
  exact .rest

theorem Sys.drops_of_pc (h : s'.rd.pc = s.rd.pc) : s.drops s' = [] := by
  rw [Sys.drops, h]
  split
  · rename_i h1 h2
    rw [h1] at h2
    cases h2
  · rfl

/-- The reader and the writer stand where they stood. -/
theorem Beat.of_link {w : Watch} (clock : s'.link.clock = w.sys.link.clock) (cells : s'.link.cells = w.sys.link.cells)
    (cur : s'.link.out.cur = w.sys.link.out.cur) (alive : s'.rd.alive = w.sys.rd.alive) (rd : s'.rd.pc = w.sys.rd.pc)
    (wr : s'.wr.pc = w.sys.wr.pc) (traffic : w.sys.traffic lab = []) {log : List Sign} :
    Beat cfg interval w.pulse (w.sys.signs s' lab) (Watch.pulse ⟨s', log, w.moves s' lab⟩) := by
  exact .of_rest clock cells (by rw [cur]) alive (by rw [rd]) (by rw [wr]) traffic (by rw [wr]; exact id)
    (Sys.drops_of_pc rd)

/-- The reader moves: what its new place shows, and what it remembers. -/
theorem Beat.of_reader {w : Watch} (link : s'.link = w.sys.link) (wr : s'.wr = w.sys.wr)
    (traffic : w.sys.traffic lab = []) {log : List Sign}
    (h : Beat cfg interval w.pulse (w.sys.drops s')
      { w.pulse with alive := s'.rd.alive, pinging := decide (s'.rd.pc = .pinging) }) :
    Beat cfg interval w.pulse (w.sys.signs s' lab) (Watch.pulse ⟨s', log, w.moves s' lab⟩) := by
  have signs : w.sys.signs s' lab = w.sys.drops s' := by
    rw [Sys.signs, traffic, Sys.asks_of_cells (by rw [link]), Sys.completes_of_stamp (by rw [wr])]
    rfl
  have pulse : Watch.pulse ⟨s', log, w.moves s' lab⟩ =
      { w.pulse with alive := s'.rd.alive, pinging := decide (s'.rd.pc = .pinging) } := by
    simp only [Watch.pulse, link, wr, Watch.moves_of_next traffic (by rw [wr]; exact id)]
  rw [signs, pulse]
  exact h

/-- The same outside its checks. -/
theorem Beat.of_move {w : Watch} (link : s'.link = w.sys.link) (wr : s'.wr = w.sys.wr)
    (traffic : w.sys.traffic lab = []) (alive : s'.rd.alive = w.sys.rd.alive)
    (outside : w.sys.rd.pc ≠ .pinging ∧ ∀ i, w.sys.rd.pc ≠ .beat i) (still : s'.rd.pc ≠ .pinging) {log : List Sign} :
    Beat cfg interval w.pulse (w.sys.signs s' lab) (Watch.pulse ⟨s', log, w.moves s' lab⟩) := by
  refine .of_reader link wr traffic ?_
  have drops : w.sys.drops s' = [] := by
    rw [Sys.drops]
    split
    · exact absurd ‹_› (outside.2 _)
    · rfl
  have pulse : { w.pulse with alive := s'.rd.alive, pinging := decide (s'.rd.pc = .pinging) } = w.pulse := by
    simp [Watch.pulse, alive, outside.1, still]
  rw [drops, pulse]
  exact .rest

theorem Sys.afterDispatch_ne (last : Bool) : Sys.afterDispatch last ≠ .pinging := by
  cases last <;> simp [Sys.afterDispatch]

/-- The moves between two checks; a ping that is not sent because the link was closed is one. -/
theorem beat_of_next {w : Watch} {pc : ReadPc} (h : Next cfg w.sys lab pc)
    (hs : s' = { w.sys with rd := { w.sys.rd with pc := pc } }) (traffic : w.sys.traffic lab = [])
    {log : List Sign} : Beat cfg interval w.pulse (w.sys.signs s' lab) (Watch.pulse ⟨s', log, w.moves s' lab⟩) := by
  have move (outside : w.sys.rd.pc ≠ .pinging ∧ ∀ i, w.sys.rd.pc ≠ .beat i) (still : pc ≠ .pinging) :
      Beat cfg interval w.pulse (w.sys.signs s' lab) (Watch.pulse ⟨s', log, w.moves s' lab⟩) :=
    .of_move (by rw [hs]) (by rw [hs]) traffic (by rw [hs]) outside (by rw [hs]; exact still)
  cases h with
  | unsent pc =>
    refine .of_reader (by rw [hs]) (by rw [hs]) traffic ?_
    have drops : w.sys.drops s' = [] := by simp [Sys.drops, pc]
    rw [drops, hs]
    exact .unsent
  | wake pc => exact move (by rcases pc with h | h <;> simp [h]) (by simp)
  | stopped pc => exact move (by rcases pc with h | h <;> simp [h]) (by simp)
  | parse pc => exact move (by simp [pc]) (by simp)
  | skip pc => exact move (by simp [pc]) (by simp)
  | again pc => exact move (by simp [pc]) (by simp)
  | expired pc => exact move (by simp [pc]) (by simp)
  | check pc => exact move (by simp [pc]) (by simp)
  | throttled pc => exact move (by simp [pc]) (by simp)
  | read pc => exact move (by simp [pc]) (by simp)
  | final pc => exact move (by simp [pc]) (by simp)
  | flush pc => exact move (by simp [pc]) (by simp)
  | unrecorded pc => exact move (by simp [pc]) (by simp)
  | flushing pc => exact move (by simp [pc]) (by simp)
  | flushed pc => exact move (by simp [pc]) (by simp)
  | beat pc => exact move (by simp [pc]) (by simp)
  | eof pc => exact move (by simp [pc]) (by simp)

theorem beat_of_reads {w : Watch} {rd : ReadLoop} (rhythm : Rhythm cfg w.sys) (beats : cfg.heartbeat = some interval)
    (h : Reads cfg w.sys lab rd new) (hs : s' = { w.sys with rd := rd }) (traffic : w.sys.traffic lab = [])
    {log : List Sign} : Beat cfg interval w.pulse (w.sys.signs s' lab) (Watch.pulse ⟨s', log, w.moves s' lab⟩) := by
  have link : s'.link = w.sys.link := by rw [hs]
  have wr : s'.wr = w.sys.wr := by rw [hs]
  have rd : s'.rd = rd := by rw [hs]
  have due {i : Nat} (pc : w.sys.rd.pc = .beat i) : i = interval :=
    Option.some.inj ((rhythm.beat i pc).symm.trans beats)
  cases h with
  | goto h => exact beat_of_next h hs traffic
  | hub pc =>
    exact .of_move link wr traffic (by rw [rd]) (by rcases pc with h | h | h <;> simp [h]) (by rw [rd]; simp)
  | silent pc => exact .of_move link wr traffic (by rw [rd]) (by simp [pc]) (by rw [rd]; exact Sys.afterDispatch_ne _)
  | stop pc => exact .of_move link wr traffic (by rw [rd]) (by simp [pc]) (by rw [rd]; exact Sys.afterDispatch_ne _)
  | ending pc => exact .of_move link wr traffic (by rw [rd]) (by simp [pc]) (by rw [rd]; simp)
  | input pc hlab =>
    subst hlab
    cases traffic
  | error pc => exact .of_move link wr traffic (by rw [rd]) (by simp [pc]) (by rw [rd]; simp)
  | quiet pc =>
    have drops : w.sys.drops s' = [] := by simp [Sys.drops, pc, rd]
    have pulse : { w.pulse with alive := s'.rd.alive, pinging := decide (s'.rd.pc = .pinging) } =
        { w.pulse with alive := w.pulse.alive.refresh cfg w.pulse.received } := by simp [Watch.pulse, rd, pc]
    refine .of_reader link wr traffic ?_
    rw [drops, pulse]
    exact .wait
  | @probe i pc verdict =>
    have drops : w.sys.drops s' = [] := by simp [Sys.drops, pc, rd]
    obtain ⟨late, answered⟩ := Alive.verdict_ping verdict
    refine .of_reader link wr traffic ?_
    rw [drops, rd]
    refine .ask (due pc ▸ late) fun q hq => answered q ?_
    rw [refresh_ping]
    exact hq
  | @dead i pc hlab verdict =>
    have drops : w.sys.drops s' = [.dropped w.sys.link.now] := by simp [Sys.drops, pc, rd]
    obtain ⟨q, hq, why⟩ := Alive.verdict_dead verdict
    have pulse : { w.pulse with alive := s'.rd.alive, pinging := decide (s'.rd.pc = .pinging) } =
        { w.pulse with alive := w.pulse.alive.refresh cfg w.pulse.received } := by simp [Watch.pulse, rd, pc]
    refine .of_reader link wr traffic ?_
    rw [drops, pulse]
    rw [refresh_ping] at hq
    exact .drop hq (due pc ▸ why)

/-- The writer moves. -/
theorem Beat.of_writer {w : Watch} (clock : s'.link.clock = w.sys.link.clock) (rd : s'.rd = w.sys.rd)
    (len : s'.link.cells.length = w.sys.link.cells.length) (traffic : w.sys.traffic lab = []) {log : List Sign}
    (h : Beat cfg interval w.pulse (w.sys.completes s')
      { w.pulse with
        cells := s'.link.cells
        sending := s'.link.out.cur.bind Cur.sent
        stamping := s'.wr.pc.stamp?
        moved := w.moves s' lab }) :
    Beat cfg interval w.pulse (w.sys.signs s' lab) (Watch.pulse ⟨s', log, w.moves s' lab⟩) := by
  have signs : w.sys.signs s' lab = w.sys.completes s' := by
    rw [Sys.signs, traffic, Sys.asks_of_cells len, Sys.drops_of_pc (by rw [rd]), List.append_nil]
    rfl
  have pulse : Watch.pulse ⟨s', log, w.moves s' lab⟩ =
      { w.pulse with
        cells := s'.link.cells
        sending := s'.link.out.cur.bind Cur.sent
        stamping := s'.wr.pc.stamp?
        moved := w.moves s' lab } := by
    simp only [Link.clock, Prod.mk.injEq] at clock
    obtain ⟨now, written, received⟩ := clock
    simp only [Watch.pulse, now, written, received, rd]
  rw [signs, pulse]
  exact h

/-- The heartbeat that is being written has a cell. -/
theorem Probing.sending (h : Probing s) {c : Nat} (hc : s.link.out.cur.bind Cur.sent = some c) :
    c < s.link.cells.length := by
  obtain ⟨cur, hcur, hsent⟩ := Option.bind_eq_some_iff.mp hc
  refine h.known c (List.mem_append_left _ (List.mem_append_left _ ?_))
  rw [hcur, Option.map_some, Option.getD_some, Cur.cell, hsent]
  exact List.mem_singleton_self c

/-- It leaves the head of its loop. -/
theorem beat_of_take {w : Watch} (pc : w.sys.wr.pc = .next) (next : s'.wr.pc ≠ .next)
    (stamp : s'.wr.pc.stamp? = none) (clock : s'.link.clock = w.sys.link.clock) (rd : s'.rd = w.sys.rd)
    (cells : s'.link.cells = w.sys.link.cells) (reach : Reachable (Sys.step cfg) (.init cfg) s')
    (traffic : w.sys.traffic lab = []) {log : List Sign} :
    Beat cfg interval w.pulse (w.sys.signs s' lab) (Watch.pulse ⟨s', log, w.moves s' lab⟩) := by
  refine .of_writer clock rd (by rw [cells]) traffic ?_
  have idle : w.sys.wr.pc.stamp? = none := by rw [pc]; rfl
  have moves : w.moves s' lab = false := by
    unfold Watch.moves
    split
    · cases traffic
    · simp [pc, next]
  rw [Sys.completes_of_stamp (stamp.trans idle.symm), cells, stamp, ← idle, moves]
  exact .take (fun c hc => Nat.lt_of_lt_of_eq ((Probing.of_reachable reach).sending hc) (congrArg _ cells)) idle

theorem beat_of_writes {w : Watch} {wr : WriteLoop} (reach : Reachable (Sys.step cfg) (.init cfg) s')
    (h : Writes w.sys lab wr new) (hs : s' = { w.sys with wr := wr }) (traffic : w.sys.traffic lab = [])
    {log : List Sign} : Beat cfg interval w.pulse (w.sys.signs s' lab) (Watch.pulse ⟨s', log, w.moves s' lab⟩) := by
  have still (stamp : wr.pc.stamp? = w.sys.wr.pc.stamp?) (next : w.sys.wr.pc ≠ .next) :
      Beat cfg interval w.pulse (w.sys.signs s' lab) (Watch.pulse ⟨s', log, w.moves s' lab⟩) :=
    .of_rest (by rw [hs]) (by rw [hs]) (by rw [hs]) (by rw [hs]) (by rw [hs]) (by rw [hs]; exact stamp) traffic
      (fun h => absurd h next) (Sys.drops_of_pc (by rw [hs]))
  have waiting (waits : w.sys.wr.pc.waits = true) : w.sys.wr.pc.stamp? = none ∧ w.sys.wr.pc ≠ .next := by
    cases hpc : w.sys.wr.pc <;> simp_all [WritePc.waits, WritePc.stamp?]
  cases h with
  | finished pc => exact still (by rw [pc]; rfl) (by simp [pc])
  | idle pc => exact beat_of_take pc (by simp [hs]) (by rw [hs]; rfl) (by rw [hs]) (by rw [hs]) (by rw [hs]) reach traffic
  | error waits => exact still (waiting waits).1.symm (waiting waits).2
  | shut pc => exact still (by rw [pc]; rfl) (by simp [pc])
  | stopped waits => exact still (waiting waits).1.symm (waiting waits).2
  | hub waits => exact still (waiting waits).1.symm (waiting waits).2

/-- A ping is queued. -/
theorem beat_of_ping {w : Watch} (pc : w.sys.rd.pc = .pinging) (clock : s'.link.clock = w.sys.link.clock)
    (cur : s'.link.out.cur = w.sys.link.out.cur) (wr : s'.wr = w.sys.wr) (cells : s'.link.cells = w.sys.link.cells ++ [none])
    (alive : s'.rd.alive = { w.sys.rd.alive with ping := some ⟨w.sys.link.now, w.sys.link.cells.length⟩ })
    (top : s'.rd.pc = .top) (traffic : w.sys.traffic lab = []) {log : List Sign} :
    Beat cfg interval w.pulse (w.sys.signs s' lab) (Watch.pulse ⟨s', log, w.moves s' lab⟩) := by
  have signs : w.sys.signs s' lab = [.queued w.sys.link.cells.length w.sys.link.now] := by
    have pings : w.sys.asks s' = [.queued w.sys.link.cells.length w.sys.link.now] := by simp [Sys.asks, cells]
    have drops : w.sys.drops s' = [] := by simp [Sys.drops, pc]
    rw [Sys.signs, traffic, pings, Sys.completes_of_stamp (by rw [wr]), drops]
    rfl
  have pulse : Watch.pulse ⟨s', log, w.moves s' lab⟩ =
      { w.pulse with
        cells := w.pulse.cells ++ [none]
        alive := { w.pulse.alive with ping := some ⟨w.pulse.now, w.pulse.cells.length⟩ }
        pinging := false } := by
    simp only [Link.clock, Prod.mk.injEq] at clock
    obtain ⟨now, written, received⟩ := clock
    simp [Watch.pulse, now, written, received, cells, alive, cur, wr, top,
      Watch.moves_of_next traffic (by rw [wr]; exact id)]
  rw [signs, pulse]
  exact .ping (by simp [Watch.pulse, pc])

/-- The last byte of a write is counted. -/
theorem beat_of_progress {w : Watch} {out : Out} {cleared : Option Nat} {t : Instant}
    (reach : Reachable (Sys.step cfg) (.init cfg) w.sys) (pc : w.sys.wr.pc = .wrote)
    (h : w.sys.link.out.progress cfg = some (out, cleared)) (timing : Timing cfg w.sys s')
    (hout : s'.link.out = out) (hpc : s'.wr.pc = .stamp t) (rd : s'.rd = w.sys.rd)
    (cells : s'.link.cells = w.sys.link.cells) (fair : w.fair s' lab = true)
    (traffic : w.sys.traffic lab = []) {log : List Sign} :
    Beat cfg interval w.pulse (w.sys.signs s' lab) (Watch.pulse ⟨s', log, w.moves s' lab⟩) := by
  obtain ⟨c, hc, hfly, -, rfl⟩ := Out.progress_some h
  have room := (Carried.of_reachable reach).cur c hc
  have stamp : t = cfg.born + w.sys.link.written := by
    rcases timing.stamp t hpc with h | h
    · rw [pc] at h
      cases h
    · exact h
  have moved : w.moved = true := by
    unfold Watch.fair at fair
    split at fair
    · rename_i inbound
      cases inbound <;> cases traffic
    · simpa [pc, hpc, WritePc.stamp?] using fair
  have next : w.moves s' lab = w.moved := Watch.moves_of_next traffic (by simp [pc])
  have completes : w.sys.completes s' = [] := by simp [Sys.completes, pc]
  have sending : s'.link.out.cur.bind Cur.sent = w.pulse.sending := by
    rw [hout]
    simp [Watch.pulse, hc]
  refine .of_writer timing.clock rd (by rw [cells]) traffic ?_
  rw [completes, cells, sending, next, hpc, stamp]
  refine .count moved fun d hd => ?_
  -- its bytes were not all counted, so its cell is empty
  have pending : d ∈ w.sys.pendingCells := by
    have hsent : c.sent = some d := by simpa [Watch.pulse, hc] using hd
    refine List.mem_append_left _ (List.mem_append_left _ ?_)
    rw [hc, Option.map_some, Option.getD_some, Cur.pending, if_pos (by omega), hsent]
    exact List.mem_singleton_self d
  exact ((Probing.of_reachable reach).last d pending).1

/-- The writer gives a written heartbeat its time, or writes on. -/
theorem beat_of_stamp {w : Watch} {t : Instant} (pc : w.sys.wr.pc = .stamp t) (hs : s' = w.sys.stampProbe t)
    (traffic : w.sys.traffic lab = []) {log : List Sign} :
    Beat cfg interval w.pulse (w.sys.signs s' lab) (Watch.pulse ⟨s', log, w.moves s' lab⟩) := by
  refine .of_writer (by rw [hs]; rfl) (by rw [hs]; rfl) (by rw [hs, length_stampProbe]) traffic ?_
  have out : s'.link.out = w.sys.link.out := by rw [hs]; rfl
  have goes : s'.wr.pc = .writing := by rw [hs]; rfl
  have moves : w.moves s' lab = w.moved := Watch.moves_of_next traffic (by simp [pc])
  have stamping : w.pulse.stamping = some t := by simp [Watch.pulse, pc, WritePc.stamp?]
  rw [out, goes, moves]
  by_cases done : ∃ c id, w.sys.link.out.cur = some c ∧ c.sent = some id ∧ c.pos = c.data.length
  · obtain ⟨c, id, hc, hid, hpos⟩ := done
    have completes : w.sys.completes s' = [.transmitted id t] := by simp [Sys.completes, pc, goes, hc, hid, hpos]
    have cells : s'.link.cells = w.sys.link.cells.set id (some t) := by
      obtain ⟨data, pos, flying, sent⟩ := c
      cases hid
      simp only at hpos
      simp [hs, Sys.stampProbe, hc, hpos]
    rw [completes, cells]
    exact .stamp stamping (by simp [Watch.pulse, hc, hid])
  · have completes : w.sys.completes s' = [] := by
      rw [Sys.completes]
      split
      · rename_i c _ _ hc
        split
        · rename_i hpos
          cases hid : c.sent with
          | none => rfl
          | some id => exact absurd ⟨c, id, hc, hid, hpos⟩ done
        · rfl
      · rfl
    have cells : s'.link.cells = w.sys.link.cells := by
      rw [hs, Sys.stampProbe]
      dsimp only
      split
      · rename_i hc
        rw [if_neg fun hpos => done ⟨_, _, hc, rfl, hpos⟩]
      · rfl
    rw [completes, cells]
    exact .skip

/-- An item is written. -/
theorem beat_of_finish {w : Watch} (pc : w.sys.wr.pc = .writing) (goes : s'.wr.pc = .next) (cur : s'.link.out.cur = none)
    (clock : s'.link.clock = w.sys.link.clock) (rd : s'.rd = w.sys.rd) (cells : s'.link.cells = w.sys.link.cells)
    (traffic : w.sys.traffic lab = []) {log : List Sign} :
    Beat cfg interval w.pulse (w.sys.signs s' lab) (Watch.pulse ⟨s', log, w.moves s' lab⟩) := by
  have idle : w.sys.wr.pc.stamp? = none := by rw [pc]; rfl
  have stamp : s'.wr.pc.stamp? = w.sys.wr.pc.stamp? := by rw [idle, goes]; rfl
  refine .of_writer clock rd (by rw [cells]) traffic ?_
  rw [Sys.completes_of_stamp stamp, Watch.moves_of_next traffic (by simp [pc]), stamp, cells, cur]
  exact .finish idle

theorem beat_of_effect {w : Watch} (reach : Reachable (Sys.step cfg) (.init cfg) w.sys)
    (reach' : Reachable (Sys.step cfg) (.init cfg) s') (beats : cfg.heartbeat = some interval)
    (h : Effect cfg w.sys lab s' used new) (timing : Timing cfg w.sys s') (traffic : w.sys.traffic lab = [])
    (fair : w.fair s' lab = true) {log : List Sign} :
    Beat cfg interval w.pulse (w.sys.signs s' lab) (Watch.pulse ⟨s', log, w.moves s' lab⟩) := by
  have rhythm := Rhythm.of_reachable reach
  have clock := timing.clock
  cases h with
  | env q => exact .of_link clock q.cells (by rw [q.out]) rfl rfl rfl traffic
  | left q => exact .of_link clock q.cells (by rw [← q.out]; rfl) rfl rfl rfl traffic
  | sent => exact .of_link clock (steady_send ..).cells (still_send ..).cur rfl rfl rfl traffic
  | refused => exact .of_link clock rfl rfl rfl rfl rfl traffic
  | close => exact .of_link clock (steady_close ..).cells (still_close ..).cur rfl rfl rfl traffic
  | terminate => exact .of_link clock rfl rfl rfl rfl rfl traffic
  | held h => exact .of_link clock (steady_holdStep h).cells (still_holdStep h).cur rfl rfl rfl traffic
  | execPool => exact .of_link clock (steady_exec ..).cells (still_exec ..).cur rfl rfl rfl traffic
  | execReader => exact .of_link clock (steady_exec ..).cells (still_exec ..).cur rfl rfl rfl traffic
  | execWriter => exact .of_link clock (steady_exec ..).cells (still_exec ..).cur rfl rfl rfl traffic
  | connected => exact .of_link clock rfl rfl rfl rfl rfl traffic
  | opened => exact .of_link clock rfl rfl rfl rfl rfl traffic
  | started task =>
    have unasked := rhythm.unstarted (by simp [task]) (by simp [task])
    refine .of_reader (by rfl) (by rfl) traffic ?_
    rw [Sys.drops_of_pc (by rfl)]
    exact .start unasked
  | reading run idle h => exact beat_of_reads rhythm beats h rfl traffic
  | decoded run idle pc => exact .of_rest clock rfl rfl rfl (by simp [pc]) rfl traffic id (by simp [Sys.drops, pc])
  | failed run idle pc => exact .of_rest clock rfl rfl rfl (by simp [pc]) rfl traffic id (by simp [Sys.drops, pc])
  | ping run idle free state pc => exact beat_of_ping pc clock rfl rfl rfl rfl rfl traffic
  | writing run idle h => exact beat_of_writes reach' h rfl traffic
  | swap run idle pc live h goes =>
    obtain ⟨-, hc, rfl⟩ := Out.swap_some h
    refine .of_rest clock rfl rfl rfl .rfl ?_ traffic (by simp [pc]) (Sys.drops_of_pc rfl)
    rcases goes with rfl | rfl | rfl <;> rw [pc] <;> rfl
  | flushPong run idle pc free =>
    refine .of_rest clock (steady_flushPong _).cells (by rw [(still_flushPong _).cur]) rfl .rfl ?_ traffic (by simp [pc])
      (Sys.drops_of_pc rfl)
    rw [pc]
    rfl
  | pop run idle pc h goes =>
    refine beat_of_take pc ?_ ?_ clock rfl rfl reach' traffic <;> rcases goes with rfl | rfl <;> simp [WritePc.stamp?]
  | write run idle pc h =>
    obtain ⟨c, hc, -, -, -, rfl⟩ := Out.write_some h
    refine .of_rest clock rfl (by rw [hc]; rfl) rfl .rfl (by rw [pc]; rfl) traffic (by simp [pc]) (Sys.drops_of_pc rfl)
  | progress run idle pc h => exact beat_of_progress reach pc h timing rfl rfl rfl rfl fair traffic
  | drain run idle pc h => exact beat_of_progress reach pc h timing rfl rfl rfl rfl fair traffic
  | stamp run idle pc => exact beat_of_stamp pc rfl traffic
  | finish run idle pc h =>
    obtain ⟨c, hc, -, -, rfl⟩ := Out.finish_some h
    exact beat_of_finish pc rfl rfl clock rfl rfl traffic
  | endShutdown run idle pc =>
    exact .of_rest clock rfl rfl rfl .rfl (by rw [pc]; rfl) traffic (by simp [pc]) (Sys.drops_of_pc rfl)

theorem Sys.signs_traffic (cells : s'.link.cells = s.link.cells) (rd : s'.rd.pc = s.rd.pc) (wr : s'.wr = s.wr) :
    s.signs s' lab = s.traffic lab := by
  rw [Sys.signs, Sys.asks_of_cells (by rw [cells]), Sys.completes_of_stamp (by rw [wr]), Sys.drops_of_pc rd]
  simp

/-- Time passes. -/
theorem beat_of_tick {w : Watch} {d : Nat} (hs : w.sys.step cfg (.tick d) = some s') {log : List Sign} :
    Beat cfg interval w.pulse (w.sys.signs s' (.tick d)) (Watch.pulse ⟨s', log, w.moves s' (.tick d)⟩) := by
  cases hs
  rw [Sys.signs_traffic (by rfl) (by rfl) (by rfl), Watch.moves_of_next rfl (by exact id)]
  exact .tick

/-- The transport notes its activity. -/
theorem beat_of_activity {w : Watch} {inbound : Bool} (hs : w.sys.step cfg (.activity inbound) = some s')
    (fair : w.fair s' (.activity inbound) = true) {log : List Sign} :
    Beat cfg interval w.pulse (w.sys.signs s' (.activity inbound))
      (Watch.pulse ⟨s', log, w.moves s' (.activity inbound)⟩) := by
  simp only [Watch.fair, Sys.busy, Bool.not_eq_true', Bool.or_eq_false_iff, Option.isSome_eq_false_iff,
    Option.isNone_iff_eq_none] at fair
  obtain ⟨-, hs⟩ := Option.ite_none_right_eq_some.mp hs
  cases hs
  cases inbound with
  | true =>
    rw [Sys.signs_traffic (by rfl) (by rfl) (by rfl), Watch.moves_eq (by simp) (by exact id)]
    exact .arrive fair.1
  | false =>
    rw [Sys.signs_traffic (by rfl) (by rfl) (by rfl)]
    exact .flow fair.2

/-- A read returns. -/
theorem beat_of_input {w : Watch} {bytes : Bytes} (hs : w.sys.step cfg (.input bytes) = some s') {log : List Sign} :
    Beat cfg interval w.pulse (w.sys.signs s' (.input bytes)) (Watch.pulse ⟨s', log, w.moves s' (.input bytes)⟩) := by
  obtain ⟨-, hs⟩ := Option.ite_none_right_eq_some.mp hs
  obtain ⟨⟨-, pc, -⟩, hs⟩ := Option.ite_none_right_eq_some.mp hs
  have link : s'.link = w.sys.link := by cases hs; rfl
  have wr : s'.wr = w.sys.wr := by cases hs; rfl
  have alive : s'.rd.alive = { w.sys.rd.alive with seen := w.sys.link.now } := by cases hs; rfl
  have top : s'.rd.pc = .top := by cases hs; rfl
  have signs : w.sys.signs s' (.input bytes) = [.arrived w.sys.link.now] := by
    have drops : w.sys.drops s' = [] := by simp [Sys.drops, pc]
    rw [Sys.signs, Sys.asks_of_cells (by rw [link]), Sys.completes_of_stamp (by rw [wr]), drops]
    rfl
  have pulse : Watch.pulse ⟨s', log, w.moves s' (.input bytes)⟩ =
      { w.pulse with alive := { w.pulse.alive with seen := w.pulse.now } } := by
    simp [Watch.pulse, link, wr, alive, top, pc, @Watch.moves_eq s' (.input bytes) w (by simp) (by rw [wr]; exact id)]
  rw [signs, pulse]
  exact .read (by simp [Watch.pulse, pc])

/-- Every step of a watched connection is a beat of its pulse. -/
theorem beat_of_step {w w' : Watch} (reach : Reachable (Sys.step cfg) (.init cfg) w.sys)
    (beats : cfg.heartbeat = some interval) (h : w.step cfg lab = some w') :
    ∃ signs, w'.log = w.log ++ signs ∧ Beat cfg interval w.pulse signs w'.pulse := by
  rw [Watch.step] at h
  split at h
  · rename_i s' hs
    obtain ⟨fair, h⟩ := Option.ite_none_right_eq_some.mp h
    cases h
    refine ⟨_, rfl, ?_⟩
    by_cases quiet : lab.passes = false ∧ w.sys.traffic lab = []
    · obtain ⟨used, new, he⟩ := step_effect hs
      exact beat_of_effect reach (reach.next hs) beats he (step_timing hs quiet.1) quiet.2 fair
    · cases lab with
      | tick d => exact beat_of_tick hs
      | activity inbound => exact beat_of_activity hs fair
      | input bytes => exact beat_of_input hs
      | _ => exact absurd ⟨rfl, rfl⟩ quiet
  · cases h

/-- A watched run is a run of the connection. -/
theorem Watch.reachable {w : Watch} (h : Reachable (Watch.step cfg) (.init cfg) w) :
    Reachable (Sys.step cfg) (.init cfg) w.sys := by
  refine h.invariant (I := fun w => Reachable (Sys.step cfg) (.init cfg) w.sys) (.refl _) ?_
  intro u l v _ hI hv
  rw [Watch.step] at hv
  split at hv
  · rename_i s' hs
    obtain ⟨-, hv⟩ := Option.ite_none_right_eq_some.mp hv
    cases hv
    exact hI.next hs
  · cases hv

theorem kept_of_reachable {w : Watch} (beats : cfg.heartbeat = some interval)
    (h : Reachable (Watch.step cfg) (.init cfg) w) : Kept cfg interval w.pulse w.log := by
  refine h.invariant (I := fun w => Kept cfg interval w.pulse w.log) ?_ ?_
  · refine ⟨⟨Nat.le_refl _, Nat.le_refl _, Nat.le_refl _, ?_, ?_, ?_, ?_⟩, ⟨?_, ?_, ?_, ?_, ?_⟩, ⟨?_, ?_, ?_, ?_⟩, .nil⟩ <;>
      simp [Watch.init, Watch.pulse, Sys.init, Link.new, Out.empty, Pulse.sentAt, WritePc.stamp?]
  · intro u l v hu hI hv
    obtain ⟨signs, hlog, hb⟩ := beat_of_step (Watch.reachable hu) beats hv
    rw [hlog]
    exact hI.beat (cfg.heartbeat_pos interval beats) hb

/-- Every act of the heartbeat is justified by the history before it, and at most one ping is
outstanding at any time. -/
theorem heartbeat_sound {w : Watch} (beats : cfg.heartbeat = some interval)
    (h : Reachable (Watch.step cfg) (.init cfg) w) :
    Always (Justified interval) w.log ∧ ∀ a b, Outstanding w.log a → Outstanding w.log b → a = b :=
  ⟨(kept_of_reachable beats h).justified, fun _ _ => (kept_of_reachable beats h).outstanding_unique⟩

end Steps

/-- The reader comes to its next read, and the timer is up an interval later. -/
def lookRun : List Label := [.reader, .reader, .reader, .reader, .tick 6, .timer, .reader]

/-- A ping is transmitted and not answered. -/
def silentRun : List Label :=
  openRun ++ lookRun ++ [.reader, .hold ⟨0, 0, 0, 0⟩, .reader] ++
    [.writer, .writer, .activity false, .write 10, .writer, .writer] ++ lookRun

theorem heartbeat_sound_silentRun :
    ∃ w, runs (Watch.step .beating) (.init .beating) silentRun = some w ∧
      w.log = [.queued 0 6, .progressed 6, .transmitted 0 6, .dropped 12] ∧ Always (Justified 5) w.log := by
  have run : runs (Watch.step .beating) (.init .beating) silentRun = some _ := rfl
  exact ⟨_, run, rfl, (heartbeat_sound rfl ⟨_, run⟩).1⟩

end WebSocket.Net
