import WebSocket.Net.System
import WebSocket.Proto.Grammar

/-!
# What one step does

`Effect` lists everything a step of a connection can do, with the guard under which it
does so, the section it runs and the sections it leaves to be run. `step_effect` proves the
list complete, once; the invariants of the following modules go by cases on `Effect` and
never open `step` again.

Steps of one thread that leave the shared link alone are gathered in two cases, `reading`
and `writing`, and listed in `Reads` and `Writes`.
-/

namespace WebSocket.Net

open Proto Lib

/-- All sections waiting to run, whatever their thread. -/
def Sys.ops (s : Sys) : List Op := s.rd.ops ++ s.wr.ops ++ s.pool.flatten

/-- Sections that only report an error or end the link. -/
def Op.plain : Op → Bool
  | .emit (.error _) | .checkHub | .finish _ _ | .stopWriter | .setStopped | .shutdownIo | .endLink
  | .released => true
  | _ => false

/-- The sections of `fail` and `terminate`. -/
def Op.aborts : Op → Bool
  | .emit (.error _) | .finish _ _ => true
  | _ => false

/-- Only clocks, the inbox and the end of the hub or the transport changed. -/
structure Link.Quiet (l l' : Link) : Prop where
  flags : l'.flags = l.flags
  hold : l'.hold = l.hold
  out : l'.out = l.out
  cells : l'.cells = l.cells
  trace : l'.trace = l.trace

theorem Link.Quiet.refl (l : Link) : l.Quiet l := ⟨rfl, rfl, rfl, rfl, rfl⟩

/-- What each producer may put in a frame. -/
def Legal : Kind → UInt8 → Bytes → Prop
  | .app, op, payload =>
    payload.length ≤ isizeMax ∧
      (op = TEXT ∧ Utf8.Valid payload ∨ op = BINARY ∨ op = PING ∧ payload.length ≤ 125)
  | .pong, op, payload | .deferred, op, payload => op = PONG ∧ payload.length ≤ 125
  | .heartbeat, op, payload => op = PING ∧ payload.length = 8
  | .close, op, payload => op = CLOSE ∧ payload.length ≤ 125 ∧ ∃ st, CloseStatus payload st

/-! ## The list -/

/-- The moves of the reader that only change where it stands. -/
inductive Next (cfg : Config) (s : Sys) (lab : Label) : ReadPc → Prop where
  | parse (pc : s.rd.pc = .top) (ok : s.rd.ok = true) : Next cfg s lab (.dispatch false)
  | skip (pc : s.rd.pc = .top) (ok : s.rd.ok = false) : Next cfg s lab .check
  | again {last} (pc : s.rd.pc = .handled false last) (state : s.link.flags.state ≠ .closed) :
      Next cfg s lab (.dispatch last)
  | expired (pc : s.rd.pc = .check) (hlab : lab = .reader)
      (h : s.link.flags.state = .closed ∨ s.link.flags.deadline.any (· ≤ s.link.now) = true) : Next cfg s lab .leave
  | check (pc : s.rd.pc = .check) (state : s.link.flags.state ≠ .closed) :
      Next cfg s lab (.checkInbox s.link.flags.state)
  | throttled {state} (pc : s.rd.pc = .checkInbox state) (state : state = .opened) : Next cfg s lab .throttled
  | read {state} (pc : s.rd.pc = .checkInbox state) : Next cfg s lab .read
  | final (pc : s.rd.pc = .leave) (ok : s.rd.ok = true) : Next cfg s lab (.dispatch true)
  | flush (pc : s.rd.pc = .leave) (ok : s.rd.ok = false) : Next cfg s lab .flush
  | unrecorded (pc : s.rd.pc = .flush)
      (h : s.link.flags.received = none ∧ s.link.flags.failed = none ∨ s.link.flags.deadline = none) :
      Next cfg s lab .ending
  | flushing {d} (pc : s.rd.pc = .flush) (deadline : s.link.flags.deadline = some d) : Next cfg s lab (.flushing d)
  | flushed {d} (pc : s.rd.pc = .flushing d)
      (h : Sys.pending s.link = false ∨ s.link.stopped = true ∨ d ≤ s.link.now) : Next cfg s lab .ending
  | wake (pc : s.rd.pc = .read ∨ s.rd.pc = .throttled) : Next cfg s lab .top
  | beat {interval} (pc : s.rd.pc = .read) (state : s.link.flags.state = .opened)
      (heartbeat : cfg.heartbeat = some interval) : Next cfg s lab (.beat interval)
  | unsent (pc : s.rd.pc = .pinging) : Next cfg s lab .top
  | eof (pc : s.rd.pc = .read) (hlab : lab = .eof) : Next cfg s lab .leave
  | stopped (pc : s.rd.pc = .read ∨ s.rd.pc = .throttled) (h : s.link.stopped = true) : Next cfg s lab .leave

/-- The moves of the reader that leave the link alone, and the calls they start. -/
inductive Reads (cfg : Config) (s : Sys) (lab : Label) : ReadLoop → List Op → Prop where
  | goto {pc} (h : Next cfg s lab pc) : Reads cfg s lab { s.rd with pc := pc } []
  | hub (pc : s.rd.pc = .top ∨ s.rd.pc = .read ∨ s.rd.pc = .throttled) (h : s.link.hubClosed = true) :
      Reads cfg s lab { s.rd with ops := Link.terminate, pc := .leave } Link.terminate
  | silent {last r} (pc : s.rd.pc = .dispatch last) (msg : s.rd.reader.message = (r, .ok none)) :
      Reads cfg s lab { s.rd with reader := r, pc := Sys.afterDispatch last } []
  | stop {stop last} (pc : s.rd.pc = .handled stop last)
      (why : stop = true ∨ s.link.flags.state = .closed) :
      Reads cfg s lab { s.rd with ok := false, pc := Sys.afterDispatch last } []
  | ending (pc : s.rd.pc = .ending) : Reads cfg s lab { s.rd with ops := [.endLink], pc := .finished } [.endLink]
  | input {bytes} (pc : s.rd.pc = .read) (hlab : lab = .input bytes) :
      Reads cfg s lab { s.rd with
        reader := if s.rd.ok then s.rd.reader.push bytes else s.rd.reader
        alive := { s.rd.alive with seen := s.link.now }
        inn := s.rd.inn ++ bytes
        pc := .top } []
  | error {tls ops} (pc : s.rd.pc = .read) (hlab : lab = .readError tls) (plain : ∀ op ∈ ops, op.plain = true)
      (brief : ∀ op ∈ ops, op.aborts = true) :
      Reads cfg s lab { s.rd with ops := ops, pc := .leave } ops
  | quiet {interval} (pc : s.rd.pc = .beat interval) :
      Reads cfg s lab { s.rd with alive := s.rd.alive.refresh cfg s.link.received, pc := .top } []
  | probe {interval} (pc : s.rd.pc = .beat interval)
      (verdict : (s.rd.alive.refresh cfg s.link.received).verdict cfg s.link interval = .ping) :
      Reads cfg s lab { s.rd with alive := s.rd.alive.refresh cfg s.link.received, pc := .pinging } []
  | dead {interval} (pc : s.rd.pc = .beat interval) (hlab : lab = .reader)
      (verdict : (s.rd.alive.refresh cfg s.link.received).verdict cfg s.link interval = .dead) :
      Reads cfg s lab
        { s.rd with
          alive := s.rd.alive.refresh cfg s.link.received
          ops := Link.fail "heartbeat timed out", pc := .leave }
        (Link.fail "heartbeat timed out")

/-- The moves of the writer that leave the link alone. -/
inductive Writes (s : Sys) (lab : Label) : WriteLoop → List Op → Prop where
  | finished (pc : s.wr.pc = .idle) (h : s.link.out.box.queue.done = true) : Writes s lab { s.wr with pc := .finished } []
  | idle (pc : s.wr.pc = .next) (h : s.link.out.batch = []) : Writes s lab { s.wr with pc := .idle } []
  | error (waits : s.wr.pc.waits = true) (hlab : lab = .writeError) :
      Writes s lab { s.wr with ops := [.endLink], pc := .finished } [.endLink]
  | shut (pc : s.wr.pc = .shutting) : Writes s lab { s.wr with outShut := true, pc := .shut } []
  | stopped (waits : s.wr.pc.waits = true) (h : s.link.stopped = true) : Writes s lab { s.wr with pc := .finished } []
  | hub (waits : s.wr.pc.waits = true) (h : s.link.hubClosed = true) :
      Writes s lab { s.wr with ops := Link.terminate, pc := .finished } Link.terminate

/-- `Effect cfg s lab s' used new`: the step `lab` takes `s` to `s'`; it ran the section `used`, if
any, and its thread goes on with the sections `new`. -/
inductive Effect (cfg : Config) (s : Sys) (lab : Label) : Sys → List Op → List Op → Prop where
  | env {l} (q : s.link.Quiet l) (stopped : l.stopped = s.link.stopped)
      (hub : lab ≠ .closeHub → l.hubClosed = s.link.hubClosed) : Effect cfg s lab { s with link := l } [] []
  | sent {op payload} (free : s.link.hold = []) (legal : Legal .app op payload) :
      Effect cfg s lab { s with link := s.link.send cfg op payload } [] []
  | refused {op payload why} (other : why ≠ "send buffer is full") : Effect cfg s lab (s.refused op payload why) [] []
  | close {code reason} (free : s.link.hold = []) (valid : validCloseCode code = true)
      (short : reason.bytes.length ≤ 123) (hlab : lab = .call (.close code reason)) :
      Effect cfg s lab ({ s with link := (s.link.close code reason).1 }.spawn (s.link.close code reason).2) []
        (s.link.close code reason).2
  | terminate (hlab : lab = .call .terminate) : Effect cfg s lab (s.spawn Link.terminate) [] Link.terminate
  | held {key l} (h : s.link.holdStep cfg key = some l) (hlab : lab = .hold key) :
      Effect cfg s lab { s with link := l } [] []
  | execPool {i op rest} (ops : s.pool[i]? = some (op :: rest)) (free : op.locks = true → s.link.hold = []) :
      Effect cfg s lab
        { s with
          link := (s.link.exec cfg op).1
          pool := s.pool.set i ((s.link.exec cfg op).2 ++ rest) }
        [op] (s.link.exec cfg op).2
  | execReader {op rest} (run : s.task = .running) (ops : s.rd.ops = op :: rest)
      (free : op.locks = true → s.link.hold = []) :
      Effect cfg s lab
        { s with link := (s.link.exec cfg op).1, rd := { s.rd with ops := (s.link.exec cfg op).2 ++ rest } }
        [op] (s.link.exec cfg op).2
  | execWriter {op rest} (run : s.task = .running) (ops : s.wr.ops = op :: rest)
      (free : op.locks = true → s.link.hold = []) :
      Effect cfg s lab
        { s with link := (s.link.exec cfg op).1, wr := { s.wr with ops := (s.link.exec cfg op).2 ++ rest } }
        [op] (s.link.exec cfg op).2
  | connected {rest} (task : s.task = .connecting) (hlab : lab = .establish rest) :
      Effect cfg s lab { s with task := .starting rest, link := { s.link with out := s.link.out.setIo } } [] []
  | opened {rest} (task : s.task = .starting rest) (free : s.link.hold = [])
      (state : s.link.flags.state = .connecting) (hlab : lab = .task) :
      Effect cfg s lab
        { s with
          link := { s.link with flags := { s.link.flags with state := .opened } }.sendEvent .opened
          task := .opening rest } [] []
  | started {rest} (task : s.task = .opening rest) :
      Effect cfg s lab
        { s with
          task := .running
          rd := { s.rd with
            reader := s.rd.reader.push rest, alive := { s.rd.alive with seen := s.link.now }, inn := rest } } [] []
  | left {l ops} (q : s.link.Quiet l) (stopped : l.stopped = s.link.stopped)
      (hub : l.hubClosed = s.link.hubClosed) (plain : ∀ op ∈ ops, op.plain = true)
      (why : (∃ rest, s.task = .starting rest ∧ s.link.flags.state ≠ .connecting) ∨
        (∃ rest, s.task = .opening rest ∧ s.link.hubClosed = true) ∨
        (s.task = .connecting ∧ ∃ error, lab = .refuse error) ∨
        lab = .abandon ∨ s.task = .running ∧ s.rd.pc = .finished ∧ s.rd.ops = [])
      (brief : ∀ op ∈ ops, op.aborts = true)
      (silent : (∃ error, lab = .refuse error) ∨ ∀ op ∈ ops, op = .finish 1006 .empty) :
      Effect cfg s lab ({ s with link := l, task := .finished }.spawn ops) [] ops
  | reading {rd new} (run : s.task = .running) (idle : s.rd.ops = []) (h : Reads cfg s lab rd new) :
      Effect cfg s lab { s with rd := rd } [] new
  | decoded {last r m} (run : s.task = .running) (idle : s.rd.ops = []) (pc : s.rd.pc = .dispatch last)
      (msg : s.rd.reader.message = (r, .ok (some m))) :
      Effect cfg s lab
        { s with
          link := s.link.note (.decoded m)
          rd := { s.rd with reader := r, ops := [.handle m], pc := .handled (Sys.isClose m) last } } [] [.handle m]
  | failed {last r f} (run : s.task = .running) (idle : s.rd.ops = []) (pc : s.rd.pc = .dispatch last)
      (msg : s.rd.reader.message = (r, .error f)) :
      Effect cfg s lab
        { s with rd := { s.rd with
          reader := r, ops := [.emit (.error f.why), .violation f], pc := .handled true last } }
        [] [.emit (.error f.why), .violation f]
  | ping (run : s.task = .running) (idle : s.rd.ops = []) (free : s.link.hold = [])
      (state : s.link.flags.state = .opened) (pc : s.rd.pc = .pinging) :
      Effect cfg s lab
        { s with
          link := { s.link with
            hold := [.pushHeartbeat s.link.cells.length], cells := s.link.cells ++ [none] }
          rd := { s.rd with
            alive := { s.rd.alive with ping := some ⟨s.link.now, s.link.cells.length⟩ }
            ops := [.released], pc := .top } } [] [.released]
  | writing {wr new} (run : s.task = .running) (idle : s.wr.ops = []) (h : Writes s lab wr new) :
      Effect cfg s lab { s with wr := wr } [] new
  | swap {out pc} (run : s.task = .running) (idle : s.wr.ops = []) (at_ : s.wr.pc = .idle)
      (live : s.link.out.box.queue.done = false) (h : s.link.out.swap = some out)
      (goes : pc = .flushPong ∨ pc = .idle ∨ pc = .next) :
      Effect cfg s lab { s with link := { s.link with out := out }, wr := { s.wr with pc := pc } } [] []
  | flushPong (run : s.task = .running) (idle : s.wr.ops = []) (pc : s.wr.pc = .flushPong)
      (free : s.link.hold = []) :
      Effect cfg s lab
        { s with link := s.link.flushPong, wr := { s.wr with ops := [.released], pc := .next } } [] [.released]
  | pop {out pc} (run : s.task = .running) (idle : s.wr.ops = []) (at_ : s.wr.pc = .next)
      (h : s.link.out.pop = some out) (goes : pc = .writing ∨ pc = .shutting) :
      Effect cfg s lab { s with link := { s.link with out := out }, wr := { s.wr with pc := pc } } [] []
  | write {n out} (run : s.task = .running) (idle : s.wr.ops = []) (pc : s.wr.pc = .writing)
      (h : s.link.out.write cfg n = some out) :
      Effect cfg s lab { s with link := { s.link with out := out }, wr := { s.wr with pc := .wrote } } [] []
  | progress {out t} (run : s.task = .running) (idle : s.wr.ops = []) (pc : s.wr.pc = .wrote)
      (h : s.link.out.progress cfg = some (out, none)) :
      Effect cfg s lab { s with link := { s.link with out := out }, wr := { s.wr with pc := .stamp t } } [] []
  | drain {out len t} (run : s.task = .running) (idle : s.wr.ops = []) (pc : s.wr.pc = .wrote)
      (h : s.link.out.progress cfg = some (out, some len)) :
      Effect cfg s lab
        { s with
          link := { s.link with out := out }.note (.cleared len out.box.buffered)
          wr := { s.wr with ops := [.emit .drain], pc := .stamp t } } [] [.emit .drain]
  | stamp {t} (run : s.task = .running) (idle : s.wr.ops = []) (pc : s.wr.pc = .stamp t) :
      Effect cfg s lab (s.stampProbe t) [] []
  | finish {out} (run : s.task = .running) (idle : s.wr.ops = []) (pc : s.wr.pc = .writing)
      (h : s.link.out.finish = some out) :
      Effect cfg s lab { s with link := { s.link with out := out }, wr := { s.wr with pc := .next } } [] []
  | endShutdown (run : s.task = .running) (idle : s.wr.ops = []) (pc : s.wr.pc = .shut) :
      Effect cfg s lab
        { s with link := { s.link with out := s.link.out.endShutdown }, wr := { s.wr with pc := .next } } [] []

/-! ## The sections that keep waiting -/

section Perm

variable {cfg : Config} {s s' : Sys} {lab : Label} {used new : List Op}

theorem Reads.ops_eq {rd : ReadLoop} (h : Reads cfg s lab rd new) (idle : s.rd.ops = []) : rd.ops = new := by
  cases h <;> first | exact idle | rfl

theorem Writes.ops_eq {wr : WriteLoop} (h : Writes s lab wr new) (idle : s.wr.ops = []) : wr.ops = new := by
  cases h <;> first | exact idle | rfl

theorem ops_spawn (ops : List Op) : (s.spawn ops).ops.Perm (ops ++ s.ops) := by
  simp only [Sys.ops, Sys.spawn, List.flatten_append, List.flatten_singleton]
  rw [← List.append_assoc]
  exact List.perm_append_comm

theorem flatten_set_perm {pool : List (List Op)} : ∀ {i : Nat} {t : List Op}, pool[i]? = some t →
    ∀ a b : List Op, (pool.set i (a ++ b)).flatten.Perm (a ++ (pool.set i b).flatten) := by
  induction pool with
  | nil => intro i t h; simp at h
  | cons c pool ih =>
    intro i t h a b
    cases i with
    | zero => simp only [List.set_cons_zero, List.flatten_cons, List.append_assoc]; exact .refl _
    | succ i =>
      simp only [List.set_cons_succ, List.flatten_cons]
      refine ((ih h a b).append_left c).trans ?_
      rw [← List.append_assoc, ← List.append_assoc]
      exact List.perm_append_comm.append_right _

/-- The reader goes from the sections `used` to the sections `new`. -/
theorem perm_reader {r : List Op} (h : s.rd.ops = used ++ r) (h' : s'.rd.ops = new ++ r)
    (wr : s'.wr.ops = s.wr.ops) (pool : s'.pool = s.pool) :
    ∃ rest, s.ops.Perm (used ++ rest) ∧ s'.ops.Perm (new ++ rest) := by
  refine ⟨r ++ s.wr.ops ++ s.pool.flatten, ?_, ?_⟩
  · simp only [Sys.ops, h, List.append_assoc]
    exact .refl _
  · simp only [Sys.ops, h', wr, pool, List.append_assoc]
    exact .refl _

/-- The writer goes from the sections `used` to the sections `new`. -/
theorem perm_writer {r : List Op} (h : s.wr.ops = used ++ r) (h' : s'.wr.ops = new ++ r)
    (rd : s'.rd.ops = s.rd.ops) (pool : s'.pool = s.pool) :
    ∃ rest, s.ops.Perm (used ++ rest) ∧ s'.ops.Perm (new ++ rest) := by
  have swap (a : List Op) : (s.rd.ops ++ (a ++ r) ++ s.pool.flatten).Perm
      (a ++ (s.rd.ops ++ r ++ s.pool.flatten)) := by
    simp only [← List.append_assoc]
    exact (List.perm_append_comm.append_right _).append_right _
  refine ⟨s.rd.ops ++ r ++ s.pool.flatten, ?_, ?_⟩
  · simp only [Sys.ops, h]
    exact swap used
  · simp only [Sys.ops, h', rd, pool]
    exact swap new

/-- The section that ran is gone, the new ones have come, and the others are as they were. -/
theorem Effect.perm (h : Effect cfg s lab s' used new) :
    ∃ rest, s.ops.Perm (used ++ rest) ∧ s'.ops.Perm (new ++ rest) := by
  cases h with
  | close => exact ⟨s.ops, .refl _, ops_spawn _⟩
  | terminate => exact ⟨s.ops, .refl _, ops_spawn _⟩
  | left => exact ⟨s.ops, .refl _, ops_spawn _⟩
  | @execPool i op rest ops free =>
    have hset : s.pool.set i (op :: rest) = s.pool := by
      obtain ⟨hi, ho⟩ := List.getElem?_eq_some_iff.mp ops
      rw [← ho, List.set_getElem_self]
    have hold := flatten_set_perm ops [op] rest
    rw [List.singleton_append, hset] at hold
    refine ⟨s.rd.ops ++ s.wr.ops ++ (s.pool.set i rest).flatten, ?_, ?_⟩
    · refine (hold.append_left _).trans ?_
      exact List.perm_middle
    · refine ((flatten_set_perm ops _ rest).append_left _).trans ?_
      rw [← List.append_assoc, ← List.append_assoc]
      exact List.perm_append_comm.append_right _
  | execReader run ops free => exact perm_reader ops rfl rfl rfl
  | execWriter run ops free => exact perm_writer ops rfl rfl rfl
  | reading run idle h => exact perm_reader (r := []) idle (by simpa using h.ops_eq idle) rfl rfl
  | writing run idle h => exact perm_writer (r := []) idle (by simpa using h.ops_eq idle) rfl rfl
  | decoded run idle pc msg => exact perm_reader (r := []) idle rfl rfl rfl
  | failed run idle pc msg => exact perm_reader (r := []) idle rfl rfl rfl
  | ping run idle free state pc => exact perm_reader (r := []) idle rfl rfl rfl
  | flushPong run idle pc free => exact perm_writer (r := []) idle rfl rfl rfl
  | drain run idle pc h => exact perm_writer (r := []) idle rfl rfl rfl
  | _ => exact ⟨s.ops, .refl _, .refl _⟩

/-- No section waits that did not wait before or come with the step. -/
theorem Effect.mem_ops (h : Effect cfg s lab s' used new) {op : Op} (hop : op ∈ s'.ops) :
    op ∈ s.ops ∨ op ∈ new := by
  obtain ⟨rest, h1, h2⟩ := h.perm
  rcases List.mem_append.mp (h2.mem_iff.mp hop) with h | h
  · exact .inr h
  · exact .inl (h1.mem_iff.mpr (List.mem_append_right _ h))

theorem Effect.used_mem (h : Effect cfg s lab s' used new) {op : Op} (hop : op ∈ used) : op ∈ s.ops := by
  obtain ⟨rest, h1, -⟩ := h.perm
  exact h1.mem_iff.mpr (List.mem_append_left _ hop)

end Perm

/-! ## The list is complete -/

theorem plain_terminate : ∀ op ∈ Link.terminate, op.plain = true := by decide

theorem plain_fail (error : String) : ∀ op ∈ Link.fail error, op.plain = true := by
  simp [Link.fail, Op.plain]

theorem aborts_terminate : ∀ op ∈ Link.terminate, op.aborts = true := by decide

theorem aborts_fail (error : String) : ∀ op ∈ Link.fail error, op.aborts = true := by
  simp [Link.fail, Op.aborts]

theorem finish_terminate : ∀ op ∈ Link.terminate, op = .finish 1006 .empty := by simp [Link.terminate]

theorem plain_append {a b : List Op} (ha : ∀ op ∈ a, op.plain = true) (hb : ∀ op ∈ b, op.plain = true) :
    ∀ op ∈ a ++ b, op.plain = true := by
  intro op hop
  exact (List.mem_append.mp hop).elim (ha op) (hb op)

section Complete

variable {cfg : Config} {s s' : Sys} {lab : Label}

/-- The step has a listed effect. -/
def Listed (cfg : Config) (s : Sys) (lab : Label) (s' : Sys) : Prop := ∃ used new, Effect cfg s lab s' used new

theorem opStep_some {l l' : Link} {ops ops' : List Op} (h : l.opStep cfg ops = some (l', ops')) :
    ∃ op rest, ops = op :: rest ∧ (op.locks = true → l.hold = []) ∧
      l' = (l.exec cfg op).1 ∧ ops' = (l.exec cfg op).2 ++ rest := by
  cases ops with
  | nil => cases h
  | cons op rest =>
    rw [Link.opStep] at h
    split at h
    · cases h
    · rename_i hfree
      cases h
      refine ⟨op, rest, rfl, ?_, rfl, rfl⟩
      intro hl
      simpa [hl] using hfree

theorem sendOp_listed {op : UInt8} {payload : Bytes} (legal : Legal .app op payload)
    (h : s.sendOp cfg op payload = some s') : Listed cfg s lab s' := by
  rw [Sys.sendOp] at h
  split at h
  · rename_i free
    cases h
    exact ⟨_, _, .sent (List.isEmpty_iff.mp free) legal⟩
  · cases h

theorem call_listed {c : Call} (h : s.call cfg c = some s') : Listed cfg s (.call c) s' := by
  cases c with
  | send data binary =>
    rw [Sys.call] at h
    split at h
    · exact sendOp_listed ⟨data.bound, .inr (.inl rfl)⟩ h
    · split at h
      · rename_i text ht
        have hb : text.bytes = data.bytes := Str.fromUtf8_eq_some.mp ht
        exact sendOp_listed ⟨hb ▸ data.bound, .inl ⟨rfl, text.valid⟩⟩ h
      · cases h
        exact ⟨_, _, .refused (by decide)⟩
  | sendText data bound => exact sendOp_listed ⟨bound, .inl ⟨rfl, data.valid⟩⟩ h
  | ping data =>
    rw [Sys.call] at h
    split at h
    · cases h
      exact ⟨_, _, .refused (by decide)⟩
    · rename_i hlen
      exact sendOp_listed ⟨data.bound, .inr (.inr ⟨rfl, Nat.not_lt.mp hlen⟩)⟩ h
  | close code reason =>
    rw [Sys.call] at h
    split at h
    · cases h
      exact ⟨_, _, .env (.refl _) rfl fun _ => rfl⟩
    · rename_i hvalid
      split at h
      · cases h
      · rename_i hfree
        cases h
        simp only [Bool.or_eq_true, Bool.not_eq_true', decide_eq_true_eq, not_or, Bool.not_eq_false] at hvalid
        exact ⟨_, _, .close (by simpa using hfree) hvalid.1 (Nat.not_lt.mp hvalid.2) rfl⟩
  | terminate =>
    cases h
    exact ⟨_, _, .terminate rfl⟩
  | consumed bytes =>
    cases h
    exact ⟨_, _, .env ⟨rfl, rfl, rfl, rfl, rfl⟩ rfl fun _ => rfl⟩

theorem getElem?_of_getD {pool : List (List Op)} {i : Nat} {op : Op} {rest : List Op}
    (h : pool.getD i [] = op :: rest) : pool[i]? = some (op :: rest) := by
  rw [List.getD_eq_getElem?_getD] at h
  cases hi : pool[i]? with
  | none => simp [hi] at h
  | some t => simpa [hi] using h

theorem poolStep_listed {i : Nat} (h : s.poolStep cfg i = some s') : Listed cfg s lab s' := by
  rw [Sys.poolStep] at h
  split at h
  · rename_i l ops hstep
    cases h
    obtain ⟨op, rest, hops, hfree, rfl, rfl⟩ := opStep_some hstep
    exact ⟨_, _, .execPool (getElem?_of_getD hops) hfree⟩
  · cases h

theorem taskStep_listed (h : s.taskStep = some s') : Listed cfg s .task s' := by
  rw [Sys.taskStep] at h
  split at h
  · rename_i rest htask
    split at h
    · cases h
    · rename_i hfree
      split at h
      · rename_i hstate
        cases h
        exact ⟨_, _, .opened htask (by simpa using hfree) hstate rfl⟩
      · rename_i hstate
        cases h
        exact ⟨_, _, .left (l := { s.link with ioShut := true }) ⟨rfl, rfl, rfl, rfl, rfl⟩ rfl rfl plain_terminate
          (.inl ⟨rest, htask, hstate⟩) aborts_terminate (.inr finish_terminate)⟩
  · rename_i rest htask
    split at h
    · rename_i hhub
      cases h
      exact ⟨_, _, .left (.refl _) rfl rfl (plain_append plain_terminate plain_terminate)
        (.inr (.inl ⟨rest, htask, hhub⟩))
        (List.forall_mem_append.mpr ⟨aborts_terminate, aborts_terminate⟩)
        (.inr (List.forall_mem_append.mpr ⟨finish_terminate, finish_terminate⟩))⟩
    · cases h
      exact ⟨_, _, .started htask⟩
  · rename_i hrun
    split at h
    · rename_i hover
      cases h
      exact ⟨_, _, .left (.refl _) rfl rfl plain_terminate
        (.inr (.inr (.inr (.inr ⟨hrun, hover.1, hover.2.1⟩)))) aborts_terminate (.inr finish_terminate)⟩
    · cases h
  · cases h

/-- A move of the reader's own. -/
theorem reads_listed {rd : ReadLoop} {new : List Op} (run : s.task = .running) (idle : s.rd.ops = [])
    (h : Reads cfg s lab rd new) : Listed cfg s lab { s with rd := rd } :=
  ⟨_, _, .reading run idle h⟩

theorem goto_listed {pc : ReadPc} (run : s.task = .running) (idle : s.rd.ops = []) (h : Next cfg s lab pc) :
    Listed cfg s lab { s with rd := { s.rd with pc := pc } } :=
  reads_listed run idle (.goto h)

theorem dispatch_listed {last : Bool} (run : s.task = .running) (idle : s.rd.ops = [])
    (pc : s.rd.pc = .dispatch last) : Listed cfg s lab (s.dispatch last) := by
  rw [Sys.dispatch]
  split
  · rename_i r hm
    exact reads_listed run idle (.silent pc hm)
  · rename_i r m hm
    exact ⟨_, _, .decoded run idle pc hm⟩
  · rename_i r f hf
    exact ⟨_, _, .failed run idle pc hf⟩

theorem sendPing_listed (run : s.task = .running) (idle : s.rd.ops = []) (free : s.link.hold = [])
    (pc : s.rd.pc = .pinging) : Listed cfg s lab s.sendPing := by
  rw [Sys.sendPing]
  split
  · exact goto_listed run idle (.unsent pc)
  · rename_i hstate
    exact ⟨_, _, .ping run idle free (Decidable.not_not.mp hstate) pc⟩

theorem beat_listed {interval : Nat} (run : s.task = .running) (idle : s.rd.ops = [])
    (pc : s.rd.pc = .beat interval) : Listed cfg s .reader (s.beat cfg interval) := by
  unfold Sys.beat
  dsimp only
  split
  · exact reads_listed run idle (.quiet pc)
  · rename_i hv
    exact reads_listed run idle (.probe pc hv)
  · rename_i hv
    exact reads_listed run idle (.dead pc rfl hv)

theorem readPc_listed (run : s.task = .running) (idle : s.rd.ops = []) (h : s.readPc cfg = some s') :
    Listed cfg s .reader s' := by
  unfold Sys.readPc at h
  cases hpc : s.rd.pc with
  | top =>
    simp only [hpc] at h
    split at h
    · rename_i hub
      cases h
      exact reads_listed run idle (.hub (.inl hpc) hub)
    · cases h
      refine goto_listed run idle ?_
      split
      · rename_i hok
        exact .parse hpc hok
      · rename_i hok
        exact .skip hpc (Bool.eq_false_iff.mpr hok)
  | dispatch last =>
    simp only [hpc] at h
    cases h
    exact dispatch_listed run idle hpc
  | handled stop last =>
    simp only [hpc] at h
    split at h
    · rename_i hstop
      cases h
      exact reads_listed run idle (.stop hpc (.inl hstop))
    · rename_i hstop
      split at h
      · cases h
      · split at h
        · rename_i hstate
          cases h
          exact reads_listed run idle (.stop hpc (.inr hstate))
        · rename_i hstate
          cases h
          rw [Bool.not_eq_true] at hstop
          subst hstop
          exact goto_listed run idle (.again hpc hstate)
  | check =>
    simp only [hpc] at h
    split at h
    · cases h
    · split at h
      · rename_i hend
        cases h
        exact goto_listed run idle (.expired hpc rfl hend)
      · rename_i hend
        cases h
        exact goto_listed run idle (.check hpc fun hc => hend (.inl hc))
  | checkInbox state =>
    simp only [hpc] at h
    cases h
    split
    · rename_i hfull
      exact goto_listed run idle (.throttled hpc hfull.1)
    · exact goto_listed run idle (.read hpc)
  | beat interval =>
    simp only [hpc] at h
    cases h
    exact beat_listed run idle hpc
  | pinging =>
    simp only [hpc] at h
    split at h
    · rename_i free
      cases h
      exact sendPing_listed run idle (List.isEmpty_iff.mp free) hpc
    · cases h
  | leave =>
    simp only [hpc] at h
    cases h
    refine goto_listed run idle ?_
    split
    · rename_i hok
      exact .final hpc hok
    · rename_i hok
      exact .flush hpc (Bool.eq_false_iff.mpr hok)
  | flush =>
    simp only [hpc] at h
    split at h
    · cases h
    · split at h
      · rename_i hnone
        cases h
        simp only [Option.isNone_iff_eq_none] at hnone
        exact goto_listed run idle (.unrecorded hpc (.inl hnone))
      · split at h
        · rename_i hd
          cases h
          exact goto_listed run idle (.unrecorded hpc (.inr hd))
        · rename_i d hd
          cases h
          exact goto_listed run idle (.flushing hpc hd)
  | flushing d =>
    simp only [hpc] at h
    split at h
    · cases h
    · rename_i hp
      cases h
      exact goto_listed run idle (.flushed hpc (.inl (Bool.eq_false_iff.mpr hp)))
  | ending =>
    simp only [hpc] at h
    cases h
    exact reads_listed run idle (.ending hpc)
  | throttled => simp [hpc] at h
  | read => simp [hpc] at h
  | finished => simp [hpc] at h

theorem readerStep_listed (run : s.task = .running) (h : s.readerStep cfg = some s') : Listed cfg s .reader s' := by
  unfold Sys.readerStep at h
  split at h
  · rename_i idle
    exact readPc_listed run idle h
  · split at h
    · rename_i l ops hstep
      cases h
      obtain ⟨op, rest, hops, hfree, rfl, rfl⟩ := opStep_some hstep
      exact ⟨_, _, .execReader run hops hfree⟩
    · cases h

theorem timer_listed (run : s.task = .running) (h : s.timer cfg = some s') : Listed cfg s lab s' := by
  unfold Sys.timer at h
  split at h
  · cases h
  rename_i hidle
  have idle : s.rd.ops = [] := Decidable.not_not.mp hidle
  split at h
  · rename_i hpc
    split at h
    · cases h
      exact goto_listed run idle (.wake (.inl hpc))
    · rename_i interval hb
      split at h
      · cases h
      · cases h
        split
        · rename_i hstate
          exact goto_listed run idle (.beat hpc hstate hb)
        · exact goto_listed run idle (.wake (.inl hpc))
  · rename_i d hpc
    split at h
    · rename_i hd
      cases h
      exact goto_listed run idle (.flushed hpc (.inr (.inr hd)))
    · cases h
  · cases h

theorem haltReader_listed (run : s.task = .running) (h : s.haltReader = some s') : Listed cfg s lab s' := by
  have wait (hpc : s.rd.pc = .read ∨ s.rd.pc = .throttled) (idle : s.rd.ops = [])
      (h : (if s.link.stopped = true then some { s with rd := { s.rd with pc := .leave } }
        else if s.link.hubClosed = true then some { s with rd := { s.rd with ops := Link.terminate, pc := .leave } }
        else none) = some s') : Listed cfg s lab s' := by
    split at h
    · rename_i hstop
      cases h
      exact goto_listed run idle (.stopped hpc hstop)
    · split at h
      · rename_i hub
        cases h
        exact reads_listed run idle (.hub (.inr hpc) hub)
      · cases h
  unfold Sys.haltReader at h
  split at h
  · cases h
  rename_i hidle
  have idle : s.rd.ops = [] := Decidable.not_not.mp hidle
  split at h
  · rename_i hpc
    exact wait (.inr hpc) idle h
  · rename_i hpc
    exact wait (.inl hpc) idle h
  · rename_i d hpc
    split at h
    · rename_i hstop
      cases h
      exact goto_listed run idle (.flushed hpc (.inr (.inl hstop)))
    · cases h
  · cases h

theorem writes_listed {wr : WriteLoop} {new : List Op} (run : s.task = .running) (idle : s.wr.ops = [])
    (h : Writes s lab wr new) : Listed cfg s lab { s with wr := wr } :=
  ⟨_, _, .writing run idle h⟩

theorem swapBatch_listed (run : s.task = .running) (idle : s.wr.ops = []) (pc : s.wr.pc = .idle)
    (h : s.swapBatch = some s') : Listed cfg s lab s' := by
  rw [Sys.swapBatch] at h
  split at h
  · rename_i hdone
    cases h
    exact writes_listed run idle (.finished pc hdone)
  · rename_i hlive
    split at h
    · rename_i out hswap
      cases h
      refine ⟨_, _, .swap run idle pc (Bool.eq_false_iff.mpr hlive) hswap ?_⟩
      split
      · exact .inl rfl
      · split
        · exact .inr (.inl rfl)
        · exact .inr (.inr rfl)
    · cases h

theorem progress_listed (run : s.task = .running) (idle : s.wr.ops = []) (pc : s.wr.pc = .wrote)
    (h : s.progress cfg = some s') : Listed cfg s lab s' := by
  rw [Sys.progress] at h
  split at h
  · rename_i out cleared hp
    split at h
    · cases h
      exact ⟨_, _, .drain run idle pc hp⟩
    · cases h
      exact ⟨_, _, .progress run idle pc hp⟩
  · cases h

theorem writePc_listed (run : s.task = .running) (idle : s.wr.ops = []) (h : s.writePc cfg = some s') :
    Listed cfg s lab s' := by
  unfold Sys.writePc at h
  cases hpc : s.wr.pc with
  | idle =>
    simp only [hpc] at h
    exact swapBatch_listed run idle hpc h
  | flushPong =>
    simp only [hpc] at h
    split at h
    · cases h
    · rename_i hfree
      cases h
      exact ⟨_, _, .flushPong run idle hpc (by simpa using hfree)⟩
  | next =>
    simp only [hpc] at h
    split at h
    · rename_i hbatch
      cases h
      exact writes_listed run idle (.idle hpc hbatch)
    · obtain ⟨out, hout, rfl⟩ := Option.map_eq_some_iff.mp h
      exact ⟨_, _, .pop run idle hpc hout (.inr rfl)⟩
    · obtain ⟨out, hout, rfl⟩ := Option.map_eq_some_iff.mp h
      exact ⟨_, _, .pop run idle hpc hout (.inl rfl)⟩
  | writing =>
    simp only [hpc] at h
    obtain ⟨out, hout, rfl⟩ := Option.map_eq_some_iff.mp h
    exact ⟨_, _, .finish run idle hpc hout⟩
  | wrote =>
    simp only [hpc] at h
    exact progress_listed run idle hpc h
  | stamp transmitted =>
    simp only [hpc] at h
    cases h
    exact ⟨_, _, .stamp run idle hpc⟩
  | shut =>
    simp only [hpc] at h
    cases h
    exact ⟨_, _, .endShutdown run idle hpc⟩
  | shutting => simp [hpc] at h
  | finished => simp [hpc] at h

theorem writerStep_listed (run : s.task = .running) (h : s.writerStep cfg = some s') : Listed cfg s lab s' := by
  unfold Sys.writerStep at h
  split at h
  · rename_i idle
    exact writePc_listed run idle h
  · split at h
    · rename_i l ops hstep
      cases h
      obtain ⟨op, rest, hops, hfree, rfl, rfl⟩ := opStep_some hstep
      exact ⟨_, _, .execWriter run hops hfree⟩
    · cases h

/-- **Every step of a connection is on the list.** -/
theorem step_effect (h : s.step cfg lab = some s') : ∃ used new, Effect cfg s lab s' used new := by
  -- the reader and the writer move only while the task is running
  have hrun : ∀ {t : Option Sys}, s.onRunning t = some s' → s.task = .running ∧ t = some s' := by
    intro t ht
    rw [Sys.onRunning] at ht
    split at ht
    · exact ⟨‹_›, ht⟩
    · cases ht
  cases lab with
  | call c => exact call_listed h
  | closeHub =>
    cases h
    exact ⟨_, _, .env ⟨rfl, rfl, rfl, rfl, rfl⟩ rfl fun hne => absurd rfl hne⟩
  | tick d =>
    cases h
    exact ⟨_, _, .env ⟨rfl, rfl, rfl, rfl, rfl⟩ rfl fun _ => rfl⟩
  | activity inbound =>
    rw [Sys.step, Sys.activity] at h
    split at h
    · cases h
      cases inbound <;> exact ⟨_, _, .env ⟨rfl, rfl, rfl, rfl, rfl⟩ rfl fun _ => rfl⟩
    · cases h
  | hold key =>
    obtain ⟨l, hl, rfl⟩ := Option.map_eq_some_iff.mp h
    exact ⟨_, _, .held hl rfl⟩
  | pool i => exact poolStep_listed h
  | establish rest =>
    rw [Sys.step] at h
    split at h
    · rename_i htask
      cases h
      exact ⟨_, _, .connected htask rfl⟩
    · cases h
  | refuse error =>
    rw [Sys.step] at h
    split at h
    · rename_i htask
      cases h
      exact ⟨_, _, .left (.refl _) rfl rfl (plain_append (plain_fail error) plain_terminate)
        (.inr (.inr (.inl ⟨htask, error, rfl⟩)))
        (List.forall_mem_append.mpr ⟨aborts_fail error, aborts_terminate⟩) (.inl ⟨error, rfl⟩)⟩
    · cases h
  | task => exact taskStep_listed h
  | abandon =>
    rw [Sys.step] at h
    split at h
    · cases h
      exact ⟨_, _, .left (.refl _) rfl rfl plain_terminate (.inr (.inr (.inr (.inl rfl))))
        aborts_terminate (.inr finish_terminate)⟩
    · cases h
  | reader =>
    obtain ⟨run, h⟩ := hrun h
    exact readerStep_listed run h
  | input bytes =>
    obtain ⟨run, h⟩ := hrun h
    rw [Sys.input] at h
    split at h
    · rename_i hin
      cases h
      exact reads_listed run hin.1 (.input hin.2.1 rfl)
    · cases h
  | eof =>
    obtain ⟨run, h⟩ := hrun h
    split at h
    · rename_i hin
      cases h
      exact goto_listed run hin.1 (.eof hin.2 rfl)
    · cases h
  | readError tls =>
    obtain ⟨run, h⟩ := hrun h
    unfold Sys.readError at h
    split at h
    · rename_i hin
      cases h
      refine reads_listed run hin.1 (.error hin.2 rfl ?_ ?_)
      · cases tls with
        | none => exact fun _ h => nomatch h
        | some e => exact plain_fail _
      · cases tls with
        | none => exact fun _ h => nomatch h
        | some e => exact aborts_fail _
    · cases h
  | wake =>
    obtain ⟨run, h⟩ := hrun h
    split at h
    · rename_i hin
      cases h
      exact goto_listed run hin.1 (.wake hin.2)
    · cases h
  | timer =>
    obtain ⟨run, h⟩ := hrun h
    exact timer_listed run h
  | haltReader =>
    obtain ⟨run, h⟩ := hrun h
    exact haltReader_listed run h
  | writer =>
    obtain ⟨run, h⟩ := hrun h
    exact writerStep_listed run h
  | write n =>
    obtain ⟨run, h⟩ := hrun h
    rw [Sys.write] at h
    split at h
    · rename_i hin
      split at h
      · rename_i out hout
        cases h
        exact ⟨_, _, .write run hin.1 hin.2 hout⟩
      · cases h
    · cases h
  | writeError =>
    obtain ⟨run, h⟩ := hrun h
    rw [Sys.writeError] at h
    split at h
    · rename_i hin
      cases h
      exact writes_listed run hin.1 (.error hin.2 rfl)
    · cases h
  | shutOut =>
    obtain ⟨run, h⟩ := hrun h
    rw [Sys.shutOut] at h
    split at h
    · rename_i hin
      cases h
      exact writes_listed run hin.1 (.shut hin.2)
    · cases h
  | haltWriter =>
    obtain ⟨run, h⟩ := hrun h
    rw [Sys.haltWriter] at h
    split at h
    · rename_i hin
      split at h
      · rename_i hstop
        cases h
        exact writes_listed run hin.1 (.stopped hin.2 hstop)
      · split at h
        · rename_i hub
          cases h
          exact writes_listed run hin.1 (.hub hin.2 hub)
        · cases h
    · cases h

end Complete

end WebSocket.Net
