import WebSocket.Net.Wake

/-!
# Who takes a step

`Effect` lists what a step does and leaves open whose step it is. The waits need both: which cells a
step notifies depends on the thread that takes it. `Acts` lists the labels, each with what it
does to the connection.
-/

namespace WebSocket.Net

open Proto Lib Lib.Transition

/-- The calls that send a frame. -/
def Call.sends : Call → Bool
  | .send .. | .sendText .. | .ping _ => true
  | _ => false

/-- The handshake, the end of the task and its loss. -/
inductive TaskTurn (s : Sys) : Label → Sys → Prop where
  | establish {rest} (task : s.task = .connecting) :
      TaskTurn s (.establish rest) { s with task := .starting rest, link := { s.link with out := s.link.out.setIo } }
  | refuse {error} (task : s.task = .connecting) : TaskTurn s (.refuse error) (s.leave (Link.fail error))
  | opened {rest} (task : s.task = .starting rest) (free : s.link.hold = []) (state : s.link.flags.state = .connecting) :
      TaskTurn s .task { s with
        link := { s.link with flags := { s.link.flags with state := .opened } }.sendEvent .opened
        task := .opening rest }
  | late {rest} (task : s.task = .starting rest) (state : s.link.flags.state ≠ .connecting) :
      TaskTurn s .task ({ s with link := { s.link with ioShut := true } }.leave [])
  | orphaned {rest} (task : s.task = .opening rest) (hub : s.link.hubClosed = true) :
      TaskTurn s .task (s.leave Link.terminate)
  | started {rest} (task : s.task = .opening rest) :
      TaskTurn s .task { s with
        task := .running
        rd := { s.rd with
          reader := s.rd.reader.push rest, alive := { s.rd.alive with seen := s.link.now }, inn := rest } }
  | joined (task : s.task = .running) (rd : s.rd.pc = .finished) (idle : s.rd.ops = []) :
      TaskTurn s .task (s.leave [])
  | abandon (task : s.task = .connecting ∨ s.task = .running) : TaskTurn s .abandon (s.leave [])

/-- Steps between two calls of the writer. -/
inductive WriterTurn (cfg : Config) (s : Sys) : Label → Sys → Prop where
  | finished (pc : s.wr.pc = .idle) (done : s.link.out.box.queue.done = true) :
      WriterTurn cfg s .writer { s with wr := { s.wr with pc := .finished } }
  | swap {out} (pc : s.wr.pc = .idle) (done : s.link.out.box.queue.done = false) (h : s.link.out.swap = some out) :
      WriterTurn cfg s .writer { s with
        link := { s.link with out := out }
        wr := { s.wr with pc :=
          if s.link.out.box.queue.pong.isSome then .flushPong else if out.batch.isEmpty then .idle else .next } }
  | flushPong (pc : s.wr.pc = .flushPong) (free : s.link.hold = []) :
      WriterTurn cfg s .writer { s with link := s.link.flushPong, wr := { s.wr with ops := [.released], pc := .next } }
  | again (pc : s.wr.pc = .next) (batch : s.link.out.batch = []) :
      WriterTurn cfg s .writer { s with wr := { s.wr with pc := .idle } }
  | pop {item t out} (pc : s.wr.pc = .next) (batch : s.link.out.batch = item :: t) (h : s.link.out.pop = some out) :
      WriterTurn cfg s .writer { s with
        link := { s.link with out := out }
        wr := { s.wr with pc := if item = .shutdown then .shutting else .writing } }
  | written {out} (pc : s.wr.pc = .writing) (h : s.link.out.finish = some out) :
      WriterTurn cfg s .writer { s with link := { s.link with out := out }, wr := { s.wr with pc := .next } }
  | progress {out cleared l ops t} (pc : s.wr.pc = .wrote) (h : s.link.out.progress cfg = some (out, cleared))
      (link : l = { s.link with out := out } ∨ ∃ o, l = { s.link with out := out }.note o)
      (hops : ops = [] ∨ ops = [.emit .drain]) (stamp : t = cfg.born + s.link.written) :
      WriterTurn cfg s .writer { s with link := l, wr := { s.wr with ops := ops, pc := .stamp t } }
  | stamp {t} (pc : s.wr.pc = .stamp t) : WriterTurn cfg s .writer (s.stampProbe t)
  | shut (pc : s.wr.pc = .shut) :
      WriterTurn cfg s .writer { s with
        link := { s.link with out := s.link.out.endShutdown }, wr := { s.wr with pc := .next } }
  | write {n out} (pc : s.wr.pc = .writing) (h : s.link.out.write cfg n = some out) :
      WriterTurn cfg s (.write n) { s with link := { s.link with out := out }, wr := { s.wr with pc := .wrote } }
  | error (waits : s.wr.pc.waits = true) :
      WriterTurn cfg s .writeError { s with wr := { s.wr with ops := [.endLink], pc := .finished } }
  | shutOut (pc : s.wr.pc = .shutting) :
      WriterTurn cfg s .shutOut { s with wr := { s.wr with outShut := true, pc := .shut } }
  | stopped (waits : s.wr.pc.waits = true) (h : s.link.stopped = true) :
      WriterTurn cfg s .haltWriter { s with wr := { s.wr with pc := .finished } }
  | orphaned (waits : s.wr.pc.waits = true) (h : s.link.hubClosed = true) :
      WriterTurn cfg s .haltWriter { s with wr := { s.wr with ops := Link.terminate, pc := .finished } }

/-- Where `read_loop` goes between two calls, when nothing else changes. -/
inductive Goes (cfg : Config) (s : Sys) : Label → ReadPc → Prop where
  | parse (pc : s.rd.pc = .top) (ok : s.rd.ok = true) : Goes cfg s .reader (.dispatch false)
  | skip (pc : s.rd.pc = .top) (ok : s.rd.ok = false) : Goes cfg s .reader .check
  | again {last} (pc : s.rd.pc = .handled false last) (free : s.link.hold = [])
      (state : s.link.flags.state ≠ .closed) : Goes cfg s .reader (.dispatch last)
  | expired (pc : s.rd.pc = .check)
      (h : s.link.flags.state = .closed ∨ s.link.flags.deadline.any (· ≤ s.link.now) = true) :
      Goes cfg s .reader .leave
  | check (pc : s.rd.pc = .check) (state : s.link.flags.state ≠ .closed)
      (early : s.link.flags.deadline.any (· ≤ s.link.now) = false) :
      Goes cfg s .reader (.checkInbox s.link.flags.state)
  | throttled (pc : s.rd.pc = .checkInbox .opened) (full : INBOX_LIMIT ≤ s.link.inbox) : Goes cfg s .reader .throttled
  | read {state} (pc : s.rd.pc = .checkInbox state) : Goes cfg s .reader .read
  | unsent (pc : s.rd.pc = .pinging) : Goes cfg s .reader .top
  | final (pc : s.rd.pc = .leave) (ok : s.rd.ok = true) : Goes cfg s .reader (.dispatch true)
  | flush (pc : s.rd.pc = .leave) (ok : s.rd.ok = false) : Goes cfg s .reader .flush
  | unrecorded (pc : s.rd.pc = .flush) : Goes cfg s .reader .ending
  | flushing {d} (pc : s.rd.pc = .flush) (free : s.link.hold = []) (deadline : s.link.flags.deadline = some d)
      (recorded : s.link.flags.received.isSome = true ∨ s.link.flags.failed.isSome = true) :
      Goes cfg s .reader (.flushing d)
  | flushed {d} (pc : s.rd.pc = .flushing d) (h : Sys.pending s.link = false) : Goes cfg s .reader .ending
  | eof (pc : s.rd.pc = .read) : Goes cfg s .eof .leave
  | wake (pc : s.rd.pc = .read ∨ s.rd.pc = .throttled) : Goes cfg s .wake .top
  | expires (pc : s.rd.pc = .read) : Goes cfg s .timer .top
  | beat {interval} (pc : s.rd.pc = .read) (state : s.link.flags.state = .opened)
      (heartbeat : cfg.heartbeat = some interval) : Goes cfg s .timer (.beat interval)
  | timeout {d} (pc : s.rd.pc = .flushing d) (h : d ≤ s.link.now) : Goes cfg s .timer .ending
  | stopped (pc : s.rd.pc = .read ∨ s.rd.pc = .throttled) (h : s.link.stopped = true) : Goes cfg s .haltReader .leave
  | cut {d} (pc : s.rd.pc = .flushing d) (h : s.link.stopped = true) : Goes cfg s .haltReader .ending

/-- Steps between two calls of the reader. -/
inductive ReaderTurn (cfg : Config) (s : Sys) : Label → Sys → Prop where
  | goes {lab pc} (h : Goes cfg s lab pc) : ReaderTurn cfg s lab { s with rd := { s.rd with pc := pc } }
  | hub {lab} (pc : lab = .reader ∧ s.rd.pc = .top ∨ lab = .haltReader ∧ (s.rd.pc = .read ∨ s.rd.pc = .throttled))
      (h : s.link.hubClosed = true) :
      ReaderTurn cfg s lab { s with rd := { s.rd with ops := Link.terminate, pc := .leave } }
  | silent {last r} (pc : s.rd.pc = .dispatch last) (msg : s.rd.reader.message = (r, .ok none)) :
      ReaderTurn cfg s .reader { s with rd := { s.rd with reader := r, pc := Sys.afterDispatch last } }
  | decoded {last r m} (pc : s.rd.pc = .dispatch last) (msg : s.rd.reader.message = (r, .ok (some m))) :
      ReaderTurn cfg s .reader { s with
        link := s.link.note (.decoded m)
        rd := { s.rd with reader := r, ops := [.handle m], pc := .handled (Sys.isClose m) last } }
  | failed {last r f} (pc : s.rd.pc = .dispatch last) (msg : s.rd.reader.message = (r, .error f)) :
      ReaderTurn cfg s .reader { s with rd := { s.rd with
        reader := r, ops := [.emit (.error f.why), .violation f], pc := .handled true last } }
  | stop {stop last} (pc : s.rd.pc = .handled stop last) (why : stop = true ∨ s.link.flags.state = .closed) :
      ReaderTurn cfg s .reader { s with rd := { s.rd with ok := false, pc := Sys.afterDispatch last } }
  | quiet {interval} (pc : s.rd.pc = .beat interval) :
      ReaderTurn cfg s .reader { s with rd := { s.rd with alive := s.rd.alive.refresh cfg s.link.received, pc := .top } }
  | probe {interval} (pc : s.rd.pc = .beat interval) :
      ReaderTurn cfg s .reader
        { s with rd := { s.rd with alive := s.rd.alive.refresh cfg s.link.received, pc := .pinging } }
  | dead {interval} (pc : s.rd.pc = .beat interval) :
      ReaderTurn cfg s .reader { s with rd := { s.rd with
        alive := s.rd.alive.refresh cfg s.link.received, ops := Link.fail "heartbeat timed out", pc := .leave } }
  | ping (pc : s.rd.pc = .pinging) (free : s.link.hold = []) (state : s.link.flags.state = .opened) :
      ReaderTurn cfg s .reader { s with
        link := { s.link with hold := [.pushHeartbeat s.link.cells.length], cells := s.link.cells ++ [none] }
        rd := { s.rd with
          alive := { s.rd.alive with ping := some ⟨s.link.now, s.link.cells.length⟩ }
          ops := [.released], pc := .top } }
  | ending (pc : s.rd.pc = .ending) :
      ReaderTurn cfg s .reader { s with rd := { s.rd with ops := [.endLink], pc := .finished } }
  | input {bytes} (pc : s.rd.pc = .read) (size : bytes.length ≤ READ_CHUNK) :
      ReaderTurn cfg s (.input bytes) { s with rd := { s.rd with
        reader := if s.rd.ok then s.rd.reader.push bytes else s.rd.reader
        alive := { s.rd.alive with seen := s.link.now }
        inn := s.rd.inn ++ bytes
        pc := .top } }
  | error {tls ops} (pc : s.rd.pc = .read) (hops : ops = [] ∨ ∃ e, ops = Link.fail e) :
      ReaderTurn cfg s (.readError tls) { s with rd := { s.rd with ops := ops, pc := .leave } }

inductive Acts (cfg : Config) (s : Sys) : Label → Sys → Prop where
  | sent {c op payload} (hc : c.sends = true) (free : s.link.hold = []) :
      Acts cfg s (.call c) { s with link := s.link.send cfg op payload }
  | refused {c op payload why} (hc : c.sends = true) : Acts cfg s (.call c) (s.refused op payload why)
  | rejected {code reason} (h : (!validCloseCode code || decide (123 < reason.bytes.length)) = true) :
      Acts cfg s (.call (.close code reason)) s
  | close {code reason} (h : (!validCloseCode code || decide (123 < reason.bytes.length)) = false)
      (free : s.link.hold = []) :
      Acts cfg s (.call (.close code reason))
        ({ s with link := (s.link.close code reason).1 }.spawn (s.link.close code reason).2)
  | terminate : Acts cfg s (.call .terminate) (s.spawn Link.terminate)
  | consumed {bytes inbox} : Acts cfg s (.call (.consumed bytes)) { s with link := { s.link with inbox := inbox } }
  | closeHub : Acts cfg s .closeHub { s with link := { s.link with hubClosed := true } }
  | tick {d} : Acts cfg s (.tick d) { s with link := { s.link with now := s.link.now + d } }
  | received : Acts cfg s (.activity true) { s with link := { s.link with received := s.link.now - cfg.born + 1 } }
  | written : Acts cfg s (.activity false) { s with link := { s.link with written := s.link.now - cfg.born } }
  | held {key x rest} (hold : s.link.hold = x :: rest) :
      Acts cfg s (.hold key) { s with link :=
        { (s.link.execSection cfg key x).1 with hold := (s.link.execSection cfg key x).2 ++ rest } }
  | pool {i op rest} (ops : s.pool.getD i [] = op :: rest) (free : op.locks = true → s.link.hold = []) :
      Acts cfg s (.pool i) { s with
        link := (s.link.exec cfg op).1, pool := s.pool.set i ((s.link.exec cfg op).2 ++ rest) }
  | task {lab s'} (h : TaskTurn s lab s') : Acts cfg s lab s'
  | readerOp {op rest} (run : s.task = .running) (ops : s.rd.ops = op :: rest) (free : op.locks = true → s.link.hold = []) :
      Acts cfg s .reader { s with
        link := (s.link.exec cfg op).1, rd := { s.rd with ops := (s.link.exec cfg op).2 ++ rest } }
  | reader {lab s'} (run : s.task = .running) (idle : s.rd.ops = []) (h : ReaderTurn cfg s lab s') : Acts cfg s lab s'
  | writerOp {op rest} (run : s.task = .running) (ops : s.wr.ops = op :: rest) (free : op.locks = true → s.link.hold = []) :
      Acts cfg s .writer { s with
        link := (s.link.exec cfg op).1, wr := { s.wr with ops := (s.link.exec cfg op).2 ++ rest } }
  | writer {lab s'} (run : s.task = .running) (idle : s.wr.ops = []) (h : WriterTurn cfg s lab s') : Acts cfg s lab s'

/-! ## The list is complete -/

section Complete

variable {cfg : Config} {s s' : Sys} {lab : Label}

theorem call_acts {c : Call} (h : s.call cfg c = some s') : Acts cfg s (.call c) s' := by
  have sendOp {op payload} (hc : c.sends = true) (h : s.sendOp cfg op payload = some s') : Acts cfg s (.call c) s' := by
    obtain ⟨free, h⟩ := Option.ite_none_right_eq_some.mp h
    cases h
    exact .sent hc (List.isEmpty_iff.mp free)
  cases c with
  | send data binary =>
    rw [Sys.call] at h
    split at h
    · exact sendOp rfl h
    · split at h
      · exact sendOp rfl h
      · cases h
        exact .refused rfl
  | sendText data bound => exact sendOp rfl h
  | ping data =>
    rw [Sys.call] at h
    split at h
    · cases h
      exact .refused rfl
    · exact sendOp rfl h
  | close code reason =>
    rw [Sys.call] at h
    split at h
    · rename_i invalid
      cases h
      exact .rejected invalid
    · rename_i valid
      split at h
      · cases h
      · rename_i free
        cases h
        exact .close (Bool.eq_false_iff.mpr valid) (by simpa using free)
  | terminate =>
    cases h
    exact .terminate
  | consumed bytes =>
    cases h
    exact .consumed

theorem activity_acts {inbound : Bool} (h : s.activity cfg inbound = some s') : Acts cfg s (.activity inbound) s' := by
  obtain ⟨-, h⟩ := Option.ite_none_right_eq_some.mp h
  cases h
  cases inbound with
  | true => exact .received
  | false => exact .written

theorem taskStep_turn (h : s.taskStep = some s') : TaskTurn s .task s' := by
  rw [Sys.taskStep] at h
  split at h
  · rename_i rest task
    split at h
    · cases h
    · rename_i free
      split at h
      · rename_i state
        cases h
        exact .opened task (by simpa using free) state
      · rename_i state
        cases h
        exact .late task state
  · rename_i rest task
    split at h
    · rename_i hub
      cases h
      exact .orphaned task hub
    · cases h
      exact .started task
  · rename_i task
    split at h
    · rename_i joined
      cases h
      exact .joined task joined.1 joined.2.1
    · cases h
  · cases h

theorem dispatch_turn {last : Bool} (pc : s.rd.pc = .dispatch last) : ReaderTurn cfg s .reader (s.dispatch last) := by
  rw [Sys.dispatch]
  split
  · rename_i msg
    exact .silent pc msg
  · rename_i msg
    exact .decoded pc msg
  · rename_i msg
    exact .failed pc msg

theorem beat_turn {interval : Nat} (pc : s.rd.pc = .beat interval) : ReaderTurn cfg s .reader (s.beat cfg interval) := by
  unfold Sys.beat
  dsimp only
  split
  · exact .quiet pc
  · exact .probe pc
  · exact .dead pc

theorem sendPing_turn (pc : s.rd.pc = .pinging) (free : s.link.hold = []) : ReaderTurn cfg s .reader s.sendPing := by
  rw [Sys.sendPing]
  split
  · exact .goes (.unsent pc)
  · rename_i state
    exact .ping pc free (Decidable.not_not.mp state)

theorem flush_turn (pc : s.rd.pc = .flush) (h : s.readPc cfg = some s') : ReaderTurn cfg s .reader s' := by
  simp only [Sys.readPc, pc] at h
  split at h
  · cases h
  · rename_i free
    split at h
    · cases h
      exact .goes (.unrecorded pc)
    · rename_i recorded
      split at h
      · cases h
        exact .goes (.unrecorded pc)
      · rename_i d deadline
        cases h
        refine .goes (.flushing pc (by simpa using free) deadline ?_)
        simp only [Option.isNone_iff_eq_none, Option.isSome_iff_ne_none] at recorded ⊢
        exact Decidable.not_and_iff_not_or_not.mp recorded

theorem readPc_turn (h : s.readPc cfg = some s') : ReaderTurn cfg s .reader s' := by
  cases pc : s.rd.pc with
  | top =>
    simp only [Sys.readPc, pc] at h
    split at h
    · rename_i hub
      cases h
      exact .hub (.inl ⟨rfl, pc⟩) hub
    · cases h
      split
      · rename_i ok
        exact .goes (.parse pc ok)
      · rename_i ok
        exact .goes (.skip pc (Bool.eq_false_iff.mpr ok))
  | dispatch last =>
    simp only [Sys.readPc, pc] at h
    cases h
    exact dispatch_turn pc
  | handled stop last =>
    simp only [Sys.readPc, pc] at h
    split at h
    · rename_i hstop
      cases h
      exact .stop pc (.inl hstop)
    · rename_i hstop
      split at h
      · cases h
      · rename_i free
        split at h
        · rename_i state
          cases h
          exact .stop pc (.inr state)
        · rename_i state
          cases h
          rw [Bool.not_eq_true] at hstop
          subst hstop
          exact .goes (.again pc (by simpa using free) state)
  | check =>
    simp only [Sys.readPc, pc] at h
    split at h
    · cases h
    · split at h
      · rename_i past
        cases h
        exact .goes (.expired pc past)
      · rename_i early
        cases h
        rw [not_or, Bool.not_eq_true] at early
        exact .goes (.check pc early.1 early.2)
  | checkInbox state =>
    simp only [Sys.readPc, pc] at h
    cases h
    split
    · rename_i full
      exact .goes (.throttled (full.1 ▸ pc) full.2)
    · exact .goes (.read pc)
  | beat interval =>
    simp only [Sys.readPc, pc] at h
    cases h
    exact beat_turn pc
  | pinging =>
    simp only [Sys.readPc, pc] at h
    obtain ⟨free, h⟩ := Option.ite_none_right_eq_some.mp h
    cases h
    exact sendPing_turn pc (List.isEmpty_iff.mp free)
  | leave =>
    simp only [Sys.readPc, pc] at h
    cases h
    split
    · rename_i ok
      exact .goes (.final pc ok)
    · rename_i ok
      exact .goes (.flush pc (Bool.eq_false_iff.mpr ok))
  | flush => exact flush_turn pc h
  | flushing d =>
    simp only [Sys.readPc, pc] at h
    split at h
    · cases h
    · rename_i idle
      cases h
      exact .goes (.flushed pc (Bool.eq_false_iff.mpr idle))
  | ending =>
    simp only [Sys.readPc, pc] at h
    cases h
    exact .ending pc
  | throttled | read | finished => simp [Sys.readPc, pc] at h

theorem timer_turn (h : s.timer cfg = some s') : s.rd.ops = [] ∧ ReaderTurn cfg s .timer s' := by
  unfold Sys.timer at h
  split at h
  · cases h
  · rename_i idle
    refine ⟨Decidable.not_not.mp idle, ?_⟩
    split at h
    · rename_i pc
      split at h
      · cases h
        exact .goes (.expires pc)
      · rename_i interval heartbeat
        split at h
        · cases h
        · cases h
          split
          · rename_i state
            exact .goes (.beat pc state heartbeat)
          · exact .goes (.expires pc)
    · rename_i d pc
      obtain ⟨past, h⟩ := Option.ite_none_right_eq_some.mp h
      cases h
      exact .goes (.timeout pc past)
    · cases h

theorem haltReader_turn (h : s.haltReader = some s') : s.rd.ops = [] ∧ ReaderTurn cfg s .haltReader s' := by
  have wait (pc : s.rd.pc = .read ∨ s.rd.pc = .throttled)
      (h : (if s.link.stopped = true then some { s with rd := { s.rd with pc := .leave } }
        else if s.link.hubClosed = true then some { s with rd := { s.rd with ops := Link.terminate, pc := .leave } }
        else none) = some s') : ReaderTurn cfg s .haltReader s' := by
    split at h
    · rename_i stopped
      cases h
      exact .goes (.stopped pc stopped)
    · obtain ⟨hub, h⟩ := Option.ite_none_right_eq_some.mp h
      cases h
      exact .hub (.inr ⟨rfl, pc⟩) hub
  unfold Sys.haltReader at h
  split at h
  · cases h
  · rename_i idle
    refine ⟨Decidable.not_not.mp idle, ?_⟩
    split at h
    · rename_i pc
      exact wait (.inr pc) h
    · rename_i pc
      exact wait (.inl pc) h
    · rename_i d pc
      obtain ⟨stopped, h⟩ := Option.ite_none_right_eq_some.mp h
      cases h
      exact .goes (.cut pc stopped)
    · cases h

theorem swapBatch_turn (pc : s.wr.pc = .idle) (h : s.swapBatch = some s') : WriterTurn cfg s .writer s' := by
  rw [Sys.swapBatch] at h
  split at h
  · rename_i done
    cases h
    exact .finished pc done
  · rename_i live
    split at h
    · rename_i out hswap
      cases h
      exact .swap pc (Bool.eq_false_iff.mpr live) hswap
    · cases h

theorem progress_turn (pc : s.wr.pc = .wrote) (idle : s.wr.ops = []) (h : s.progress cfg = some s') :
    WriterTurn cfg s .writer s' := by
  rw [Sys.progress] at h
  split at h
  · rename_i out cleared hp
    split at h
    · cases h
      exact .progress pc hp (.inr ⟨_, rfl⟩) (.inr rfl) rfl
    · cases h
      exact @WriterTurn.progress cfg s _ _ _ s.wr.ops _ pc hp (.inl rfl) (.inl idle) rfl
  · cases h

theorem writePc_turn (idle : s.wr.ops = []) (h : s.writePc cfg = some s') : WriterTurn cfg s .writer s' := by
  cases pc : s.wr.pc with
  | idle =>
    simp only [Sys.writePc, pc] at h
    exact swapBatch_turn pc h
  | flushPong =>
    simp only [Sys.writePc, pc] at h
    split at h
    · cases h
    · rename_i free
      cases h
      exact .flushPong pc (by simpa using free)
  | next =>
    simp only [Sys.writePc, pc] at h
    split at h
    · rename_i batch
      cases h
      exact .again pc batch
    · rename_i t batch
      obtain ⟨out, hout, rfl⟩ := Option.map_eq_some_iff.mp h
      exact .pop pc batch hout
    · rename_i empty other
      obtain ⟨out, hout, rfl⟩ := Option.map_eq_some_iff.mp h
      obtain ⟨-, item, t, batch, -⟩ := Out.pop_some hout
      have data : item ≠ .shutdown := fun hi => other t (hi ▸ batch)
      have turn := @WriterTurn.pop cfg _ _ _ _ pc batch hout
      rw [if_neg data] at turn
      exact turn
  | writing =>
    simp only [Sys.writePc, pc] at h
    obtain ⟨out, hout, rfl⟩ := Option.map_eq_some_iff.mp h
    exact .written pc hout
  | wrote =>
    simp only [Sys.writePc, pc] at h
    exact progress_turn pc idle h
  | stamp transmitted =>
    simp only [Sys.writePc, pc] at h
    cases h
    exact .stamp pc
  | shut =>
    simp only [Sys.writePc, pc] at h
    cases h
    exact .shut pc
  | shutting | finished => simp [Sys.writePc, pc] at h

theorem haltWriter_turn (h : s.haltWriter = some s') : s.wr.ops = [] ∧ WriterTurn cfg s .haltWriter s' := by
  obtain ⟨⟨idle, waits⟩, h⟩ := Option.ite_none_right_eq_some.mp h
  refine ⟨idle, ?_⟩
  split at h
  · rename_i stopped
    cases h
    exact .stopped waits stopped
  · obtain ⟨hub, h⟩ := Option.ite_none_right_eq_some.mp h
    cases h
    exact .orphaned waits hub

theorem readerStep_acts (run : s.task = .running) (h : s.readerStep cfg = some s') : Acts cfg s .reader s' := by
  unfold Sys.readerStep at h
  split at h
  · rename_i idle
    exact .reader run idle (readPc_turn h)
  · split at h
    · rename_i hstep
      obtain ⟨op, rest, hops, free, rfl, rfl⟩ := opStep_some hstep
      cases h
      exact .readerOp run hops free
    · cases h

theorem writerStep_acts (run : s.task = .running) (h : s.writerStep cfg = some s') : Acts cfg s .writer s' := by
  unfold Sys.writerStep at h
  split at h
  · rename_i idle
    exact .writer run idle (writePc_turn idle h)
  · split at h
    · rename_i hstep
      obtain ⟨op, rest, hops, free, rfl, rfl⟩ := opStep_some hstep
      cases h
      exact .writerOp run hops free
    · cases h

/-- Every step is somebody's turn. -/
theorem step_acts (h : s.step cfg lab = some s') : Acts cfg s lab s' := by
  have running {t : Option Sys} (h : s.onRunning t = some s') : s.task = .running ∧ t = some s' :=
    Option.ite_none_right_eq_some.mp h
  cases lab with
  | call c => exact call_acts h
  | closeHub =>
    cases h
    exact .closeHub
  | tick d =>
    cases h
    exact .tick
  | activity inbound => exact activity_acts h
  | hold key =>
    obtain ⟨l, hl, rfl⟩ := Option.map_eq_some_iff.mp h
    obtain ⟨x, rest, hold, rfl⟩ := Link.holdStep_some hl
    exact .held hold
  | pool i =>
    rw [Sys.step, Sys.poolStep] at h
    split at h
    · rename_i hstep
      obtain ⟨op, rest, ops, free, rfl, rfl⟩ := opStep_some hstep
      cases h
      exact .pool ops free
    · cases h
  | establish rest =>
    obtain ⟨task, h⟩ := Option.ite_none_right_eq_some.mp h
    cases h
    exact .task (.establish task)
  | refuse error =>
    obtain ⟨task, h⟩ := Option.ite_none_right_eq_some.mp h
    cases h
    exact .task (.refuse task)
  | task => exact .task (taskStep_turn h)
  | abandon =>
    obtain ⟨task, h⟩ := Option.ite_none_right_eq_some.mp h
    cases h
    exact .task (.abandon (task.imp id And.left))
  | reader => exact readerStep_acts (running h).1 (running h).2
  | input bytes =>
    obtain ⟨run, h⟩ := running h
    obtain ⟨⟨idle, pc, -, size⟩, h⟩ := Option.ite_none_right_eq_some.mp h
    cases h
    exact .reader run idle (.input pc size)
  | eof =>
    obtain ⟨run, h⟩ := running h
    obtain ⟨⟨idle, pc⟩, h⟩ := Option.ite_none_right_eq_some.mp h
    cases h
    exact .reader run idle (.goes (.eof pc))
  | readError tls =>
    obtain ⟨run, h⟩ := running h
    obtain ⟨⟨idle, pc⟩, h⟩ := Option.ite_none_right_eq_some.mp h
    cases h
    refine .reader run idle (.error pc ?_)
    cases tls with
    | none => exact .inl rfl
    | some e => exact .inr ⟨_, rfl⟩
  | wake =>
    obtain ⟨run, h⟩ := running h
    obtain ⟨⟨idle, pc⟩, h⟩ := Option.ite_none_right_eq_some.mp h
    cases h
    exact .reader run idle (.goes (.wake pc))
  | timer =>
    obtain ⟨run, h⟩ := running h
    exact .reader run (timer_turn h).1 (timer_turn h).2
  | haltReader =>
    obtain ⟨run, h⟩ := running h
    obtain ⟨idle, turn⟩ := @haltReader_turn cfg _ _ h
    exact .reader run idle turn
  | writer => exact writerStep_acts (running h).1 (running h).2
  | write n =>
    obtain ⟨run, h⟩ := running h
    obtain ⟨⟨idle, pc⟩, h⟩ := Option.ite_none_right_eq_some.mp h
    split at h
    · rename_i out hout
      cases h
      exact .writer run idle (.write pc hout)
    · cases h
  | writeError =>
    obtain ⟨run, h⟩ := running h
    obtain ⟨⟨idle, waits⟩, h⟩ := Option.ite_none_right_eq_some.mp h
    cases h
    exact .writer run idle (.error waits)
  | shutOut =>
    obtain ⟨run, h⟩ := running h
    obtain ⟨⟨idle, pc⟩, h⟩ := Option.ite_none_right_eq_some.mp h
    cases h
    exact .writer run idle (.shutOut pc)
  | haltWriter =>
    obtain ⟨run, h⟩ := running h
    obtain ⟨idle, turn⟩ := @haltWriter_turn cfg _ _ h
    exact .writer run idle turn

end Complete

end WebSocket.Net
