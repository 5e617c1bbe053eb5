import WebSocket.Net.Course
import WebSocket.Proto.Failure

/-!
# A close against the start of the link

`close` looks at the state under `flags`. On a link that is still connecting it releases
the lock and then calls `fail`, whose sections take it again; `start` opens the link in a
section of its own. If `start` gets in between, the link opens, reports that it was closed
before it was established and ends without a close frame (`close_torn`).

While `start` waits for a `close` that is aborting (`Sys.orderly`), a call has one of two
outcomes: the link never opens and ends with the error and an abnormal close, or it opens
and the call's own close frame is enqueued, without the error. `Race` follows a link
through both.
-/

namespace WebSocket.Net

open Proto Lib.Transition

/-- The error of a `close` before the link has opened. -/
def abortError : Event := .error "connection closed before it was established"

/-- The events of an aborted connection. -/
def abortEvents : List Event := [abortError, .close 1006 .empty]

def Entry.closePayload? : Entry → Option Bytes
  | .frame .close w => some w.payload
  | _ => none

def Section.closePayload? : Section → Option Bytes
  | .pushFrame .close _ payload => some payload
  | _ => none

/-- No `terminate`, no lost hub, no failure of the handshake or the transport. -/
def Label.undisturbed : Label → Bool
  | .call .terminate | .closeHub | .refuse _ | .abandon | .readError _ | .writeError => false
  | _ => true

namespace Sys

/-- The payloads of the close frames enqueued so far. -/
def closeFrames (s : Sys) : List Bytes := s.link.out.log.filterMap Entry.closePayload?

/-- The close frames that whoever holds `flags` is about to enqueue. -/
def closesHeld (s : Sys) : List Bytes := s.link.hold.filterMap Section.closePayload?

/-- The application calls `close` once, on a link that is connecting or open, and `start` does not open the
link while that call is aborting it. -/
def orderly (code : UInt16) (reason : Str) (s : Sys) (lab : Label) : Bool :=
  lab.undisturbed && match lab with
    | .call (.close c r) =>
      decide (c = code ∧ r = reason ∧ s.called = false ∧ (s.state = .connecting ∨ s.state = .opened))
    | .task => decide (s.state = .connecting → s.pool.flatten = [])
    | _ => true

def orderlyStep (cfg : Config) (code : UInt16) (reason : Str) (s : Sys) (lab : Label) : Option Sys :=
  if s.orderly code reason lab then s.step cfg lab else none

end Sys

/-! ## Before the link opens -/

/-- The handshake is not through: nothing runs but the application's calls. -/
structure Early (s : Sys) : Prop where
  task : s.task = .connecting ∨ ∃ rest, s.task = .starting rest
  state : s.state = .connecting
  rd : s.rd.ops = []
  wr : s.wr.ops = []
  hold : s.link.hold = []
  hub : s.link.hubClosed = false

/-- What a step does to a link whose handshake is not through. -/
inductive EarlyStep (cfg : Config) (s : Sys) (lab : Label) (s' : Sys) : Prop where
  | same (early : Early s') (pool : s'.pool = s.pool) (handed : s'.handed = s.handed) (called : s'.called = s.called)
  | close {code reason} (early : Early s') (hlab : lab = .call (.close code reason))
      (pool : s'.pool = s.pool ++ [[.emit abortError, .finish 1006 .empty]]) (handed : s'.handed = s.handed)
      (called : s'.called = true)
  | exec {i op rest} (ops : s.pool[i]? = some (op :: rest)) (link : s'.link = (s.link.exec cfg op).1)
      (pool : s'.pool = s.pool.set i ((s.link.exec cfg op).2 ++ rest)) (task : s'.task = s.task)
      (rd : s'.rd = s.rd) (wr : s'.wr = s.wr)
  | opens (hlab : lab = .task) (state : s'.state = .opened) (ops : s'.ops = s.ops)
      (handed : s'.handed = s.handed ++ [.opened]) (called : s'.called = s.called)

section Race

variable {cfg : Config} {code : UInt16} {reason : Str} {s s' : Sys} {lab : Label} {used new : List Op}

theorem orderlyStep_some (h : s.orderlyStep cfg code reason lab = some s') :
    s.orderly code reason lab = true ∧ s.step cfg lab = some s' := by
  rw [Sys.orderlyStep] at h
  split at h
  · exact ⟨‹_›, h⟩
  · cases h

theorem orderly_reachable (h : Reachable (Sys.orderlyStep cfg code reason) (.init cfg) s) :
    Reachable (Sys.step cfg) (.init cfg) s :=
  h.invariant (.refl _) fun _ _ _ _ hu hv => hu.next (orderlyStep_some hv).2

theorem undisturbed_of_orderly (h : s.orderly code reason lab = true) : lab.undisturbed = true :=
  (Bool.and_eq_true_iff.mp h).1

theorem orderly_close {c : UInt16} {r : Str} (h : s.orderly code reason (.call (.close c r)) = true) :
    c = code ∧ r = reason ∧ s.called = false ∧ (s.state = .connecting ∨ s.state = .opened) :=
  of_decide_eq_true (Bool.and_eq_true_iff.mp h).2

theorem Early.not_running (h : Early s) : s.task ≠ .running := by
  rcases h.task with ht | ⟨_, ht⟩ <;> rw [ht] <;> exact nofun

theorem handed_note {o : Obs} (ht : s'.link.trace = s.link.trace ++ [o]) (ho : o.event? = none) : s'.handed = s.handed :=
  Handed.handed_quiet ht (List.forall_mem_singleton.mpr ho)

theorem called_note {o : Obs} (ht : s'.link.trace = s.link.trace ++ [o]) (ho : o.isCall = false) :
    s'.called = s.called := by
  rw [Sys.called, ht, List.any_append, Sys.called]
  simp [ho]

theorem Early.step (h : Early s) (he : Effect cfg s lab s' used new) (quiet : lab.undisturbed = true) :
    EarlyStep cfg s lab s' := by
  have running {P : Prop} (run : s.task = .running) : P := absurd run h.not_running
  cases he with
  | env q stopped hub =>
    have hub : _ = s.link.hubClosed := hub (by rintro rfl; cases quiet)
    exact .same ⟨h.task, by rw [Sys.state, q.flags]; exact h.state, h.rd, h.wr, q.hold.trans h.hold, hub.trans h.hub⟩ rfl
      (by rw [Sys.handed, q.trace]; rfl) (by rw [Sys.called, q.trace]; rfl)
  | @sent op payload free legal =>
    have link : s.link.send cfg op payload = s.link.note (.returned op payload (.error "not open yet")) := by
      have state : s.link.flags.state = .connecting := h.state
      rw [Link.send, if_pos (.inl (by rw [state]; simp)), if_pos state]
    rw [link]
    exact .same ⟨h.task, h.state, h.rd, h.wr, h.hold, h.hub⟩ rfl (handed_note rfl rfl) (called_note rfl rfl)
  | refused =>
    exact .same ⟨h.task, h.state, h.rd, h.wr, h.hold, h.hub⟩ rfl (handed_note rfl rfl) (called_note rfl rfl)
  | @close c r free valid short hlab =>
    have link : s.link.close c r = (s.link.note (.closeCalled c r), Link.fail "connection closed before it was established") := by
      have state : (s.link.note (.closeCalled c r)).flags.state = .connecting := h.state
      rw [Link.close]
      dsimp only
      rw [state]
    rw [link]
    refine .close ⟨h.task, h.state, h.rd, h.wr, h.hold, h.hub⟩ hlab rfl (handed_note rfl rfl) ?_
    exact List.any_eq_true.mpr ⟨.closeCalled c r, List.mem_append_right _ (List.mem_singleton_self _), rfl⟩
  | terminate hlab => rw [hlab] at quiet; cases quiet
  | held hs =>
    obtain ⟨x, rest, hold, -⟩ := Link.holdStep_some hs
    rw [h.hold] at hold
    cases hold
  | execPool ops free => exact .exec ops rfl rfl rfl rfl rfl
  | connected task hlab =>
    exact .same ⟨.inr ⟨_, rfl⟩, h.state, h.rd, h.wr, h.hold, h.hub⟩ rfl rfl rfl
  | opened task free state hlab =>
    exact .opens hlab rfl rfl (Handed.handed_append (t := [.event .opened (!s.link.hubClosed)]) rfl) (called_note rfl rfl)
  | started task => rcases h.task with ht | ⟨_, ht⟩ <;> rw [ht] at task <;> cases task
  | left q stopped hub plain why =>
    rcases why with ⟨_, -, hs⟩ | ⟨_, ht, -⟩ | ⟨-, _, hlab⟩ | hlab | ⟨run, -⟩
    · exact absurd h.state hs
    · rcases h.task with ht' | ⟨_, ht'⟩ <;> rw [ht'] at ht <;> cases ht
    · rw [hlab] at quiet; cases quiet
    · rw [hlab] at quiet; cases quiet
    · exact running run
  | execReader run => exact running run
  | execWriter run => exact running run
  | reading run => exact running run
  | decoded run => exact running run
  | failed run => exact running run
  | ping run => exact running run
  | writing run => exact running run
  | swap run => exact running run
  | flushPong run => exact running run
  | pop run => exact running run
  | write run => exact running run
  | progress run => exact running run
  | drain run => exact running run
  | stamp run => exact running run
  | finish run => exact running run
  | endShutdown run => exact running run

/-! ## Once the link has opened -/

/-- The link has opened: its error is not the one of an abort, and a `close` enqueues its own frame. -/
structure Opened (code : UInt16) (reason : Str) (s : Sys) : Prop where
  opened : .opened ∈ s.handed
  state : s.state ≠ .connecting
  clean : ∀ op ∈ s.ops, op.emits ≠ some abortError
  never : abortError ∉ s.handed
  closes : s.called = true →
    s.link.flags.sentClose = true ∧ s.closeFrames ++ s.closesHeld = [closePayload code reason]

theorem not_abort_of_aborts {error : String} (h : error ≠ "connection closed before it was established") :
    ∀ op ∈ Link.fail error, op.emits ≠ some abortError := by
  intro op hop
  rcases List.mem_cons.mp hop with rfl | hop
  · rintro ⟨⟩
    exact h rfl
  · cases List.mem_singleton.mp hop
    exact nofun

theorem Effect.new_clean (he : Effect cfg s lab s' used new) (quiet : lab.undisturbed = true)
    (state : s.state ≠ .connecting) (clean : ∀ op ∈ s.ops, op.emits ≠ some abortError) :
    ∀ op ∈ new, op.emits ≠ some abortError := by
  have terminates : ∀ op ∈ Link.terminate, op.emits ≠ some abortError := List.forall_mem_singleton.mpr nofun
  have exec {op : Op} (hop : op ∈ s.ops) : ∀ o ∈ (s.link.exec cfg op).2, o.emits ≠ some abortError := by
    intro o ho hem
    rcases exec_emits ho hem with h | ⟨-, h⟩
    · exact clean op hop h
    · cases h
  have used_mem {op : Op} (hu : used = [op]) : op ∈ s.ops := he.used_mem (by rw [hu]; exact List.mem_singleton_self _)
  cases he with
  | close =>
    intro op hop
    unfold Link.close at hop
    dsimp only at hop
    split at hop
    · exact absurd ‹_› state
    · cases hop
    · cases hop
  | terminate => exact terminates
  | left q stopped hub plain why brief silent =>
    rcases silent with ⟨_, hlab⟩ | h
    · rw [hlab] at quiet
      cases quiet
    · intro op hop
      rw [h op hop]
      exact nofun
  | execPool => exact exec (used_mem rfl)
  | execReader => exact exec (used_mem rfl)
  | execWriter => exact exec (used_mem rfl)
  | reading run idle h =>
    cases h with
    | hub => exact terminates
    | ending => exact List.forall_mem_singleton.mpr nofun
    | error pc hlab => rw [hlab] at quiet; cases quiet
    | dead => exact not_abort_of_aborts (by decide)
    | _ => exact nofun
  | decoded => exact List.forall_mem_singleton.mpr nofun
  | @failed last r f run idle pc msg =>
    refine List.forall_mem_cons.mpr ⟨?_, List.forall_mem_singleton.mpr nofun⟩
    intro hem
    have text : f.why = "connection closed before it was established" := by simpa [Op.emits, abortError] using hem
    exact absurd (text ▸ Reader.message_text msg) (by decide)
  | ping => exact List.forall_mem_singleton.mpr nofun
  | writing run idle h =>
    cases h with
    | hub => exact terminates
    | error => exact List.forall_mem_singleton.mpr nofun
    | _ => exact nofun
  | flushPong => exact List.forall_mem_singleton.mpr nofun
  | drain => exact List.forall_mem_singleton.mpr nofun
  | _ => exact nofun

theorem Effect.handed_grows (he : Effect cfg s lab s' used new) :
    ∃ t, s'.handed = s.handed ++ t ∧ ∀ e ∈ t, used = [.emit e] ∨ e = .opened ∨ e.isClose = true := by
  cases he.lives with
  | keeps state trace quiet =>
    exact ⟨[], by rw [Handed.handed_quiet trace quiet, List.append_nil], nofun⟩
  | emits op state alive trace => exact ⟨_, Handed.handed_append trace, List.forall_mem_singleton.mpr (.inl op)⟩
  | opens task state state' trace =>
    exact ⟨_, Handed.handed_append trace, List.forall_mem_singleton.mpr (.inr (.inl rfl))⟩
  | closes alive state' why trace quiet =>
    exact ⟨[], by rw [Handed.handed_quiet trace quiet, List.append_nil], nofun⟩
  | finishes op alive state' trace =>
    exact ⟨_, Handed.handed_append trace, List.forall_mem_singleton.mpr (.inr (.inr rfl))⟩

/-- A section that takes effect moves its close frame, if it has one, into the log. -/
theorem execSection_closes (l : Link) (key : Key) (x : Section) (live : l.out.box.live = true) :
    (l.execSection cfg key x).1.out.log.filterMap Entry.closePayload? ++
        (l.execSection cfg key x).2.filterMap Section.closePayload? =
      l.out.log.filterMap Entry.closePayload? ++ [x].filterMap Section.closePayload? := by
  cases x with
  | pushFrame kind op payload =>
    have log : (l.execSection cfg key (.pushFrame kind op payload)).1.out.log =
        l.out.log ++ [.frame kind ⟨true, op, payload, cfg.mask key⟩] := by
      rw [Link.execSection]
      dsimp only
      split <;> exact (Out.log_pushFrame ..).trans (if_pos live)
    rw [log, List.filterMap_append]
    cases kind <;> exact List.append_nil _
  | recheck op payload =>
    rw [Link.execSection]
    split <;> rfl
  | pushHeartbeat sent =>
    have log : (l.execSection cfg key (.pushHeartbeat sent)).1.out.log =
        l.out.log ++ [.frame .heartbeat ⟨true, PING, cfg.token, cfg.mask key⟩] :=
      (Out.log_pushHeartbeat ..).trans (if_pos live)
    rw [log, List.filterMap_append]
    exact List.append_nil _
  | pushShutdown =>
    have log : (l.execSection cfg key .pushShutdown).1.out.log = l.out.log ++ [.shutdown] :=
      (Out.log_pushShutdown ..).trans (if_pos live)
    rw [log, List.filterMap_append]
    exact List.append_nil _
  | clearPong => rfl
  | deferPong data => rfl

/-- Once a close frame is sent no other one is started. -/
theorem took_closes {l : Link} {op : Op} (h : op.takes = true) (free : l.hold = []) (sent : l.flags.sentClose = true) :
    (l.exec cfg op).1.flags.sentClose = true ∧ (l.exec cfg op).1.hold.filterMap Section.closePayload? = [] := by
  have none : l.hold.filterMap Section.closePayload? = [] := by rw [free]; rfl
  cases op with
  | handle m =>
    cases m with
    | ping data =>
      rw [Link.exec, Link.handle, Link.handlePing]
      dsimp only
      split
      · refine ⟨sent, ?_⟩
        dsimp only
        split <;> rfl
      · exact ⟨sent, none⟩
    | close status =>
      rw [Link.exec, Link.handle, Link.closing]
      dsimp only
      split
      · exact ⟨sent, none⟩
      · refine ⟨rfl, ?_⟩
        rw [sent, Link.closeSections]
        cases cfg.server <;> rfl
    | _ => exact ⟨sent, none⟩
  | violation f =>
    rw [Link.exec, Link.violate]
    dsimp only
    split
    · exact ⟨sent, none⟩
    · exact ⟨rfl, by rw [sent]; rfl⟩
  | _ => cases h

theorem Locked.closes (h : Locked cfg s s' used) (d : Discipline s.link) (sent : s.link.flags.sentClose = true)
    (live : s.link.hold ≠ [] → s.link.out.box.live = true) :
    s'.link.flags.sentClose = true ∧ s'.closeFrames ++ s'.closesHeld = s.closeFrames ++ s.closesHeld := by
  have same (flags : s'.link.flags.sentClose = s.link.flags.sentClose) (log : s'.link.out.log = s.link.out.log)
      (held : s'.closesHeld = s.closesHeld) :
      s'.link.flags.sentClose = true ∧ s'.closeFrames ++ s'.closesHeld = s.closeFrames ++ s.closesHeld :=
    ⟨flags.trans sent, by rw [held, Sys.closeFrames, log, Sys.closeFrames]⟩
  have opened {P : Prop} (hs : s.link.flags.state = .opened) : P := by
    rw [d.unsent_of_opened hs] at sent
    cases sent
  cases h with
  | other flags hold log => exact same (by rw [flags]) log (by rw [Sys.closesHeld, hold, Sys.closesHeld])
  | turns free turns =>
    obtain ⟨state, flags⟩ := turns.flags
    exact same (by rw [flags]) turns.log (by rw [Sys.closesHeld, turns.hold, Sys.closesHeld])
  | @held key x rest hold link =>
    refine ⟨by rw [link]; exact (congrArg Flags.sentClose (flags_execSection s.link key x)).trans sent, ?_⟩
    have moved := @execSection_closes cfg s.link key x (live (by rw [hold]; exact List.cons_ne_nil _ _))
    rw [Sys.closeFrames, Sys.closesHeld, Sys.closeFrames, Sys.closesHeld, link, hold]
    dsimp only
    rw [List.filterMap_append, ← List.append_assoc, moved, List.append_assoc, ← List.filterMap_append]
    rfl
  | sent free legal link =>
    rw [Link.send, if_pos (.inr sent)] at link
    exact same (by rw [link]; rfl) (by rw [link]; rfl) (by rw [Sys.closesHeld, link]; rfl)
  | close free link =>
    unfold Link.close at link
    dsimp only at link
    split at link
    · exact same (by rw [link]; rfl) (by rw [link]; rfl) (by rw [Sys.closesHeld, link]; rfl)
    · exact opened ‹_›
    · exact same (by rw [link]; rfl) (by rw [link]; rfl) (by rw [Sys.closesHeld, link]; rfl)
  | took free hused takes link =>
    have taken := @took_closes cfg _ _ takes free sent
    refine same (by rw [link, taken.1, sent]) (by rw [link, (exec_took s.link takes).1]) ?_
    rw [Sys.closesHeld, link, taken.2, Sys.closesHeld, free]
    rfl
  | flushPong free run pc link =>
    refine same (by rw [link, flags_flushPong]) (by rw [link, out_flushPong]; rfl) ?_
    rw [Sys.closesHeld, Sys.closesHeld, free, link]
    unfold Link.flushPong
    dsimp only
    split
    · split
      · rfl
      · rw [free]
    · rw [free]
  | ping free state link => exact opened state

/-- Before `sent_close` is set there is no close frame. -/
theorem Discipline.unworded {l : Link} (d : Discipline l) (unsent : l.flags.sentClose = false) :
    l.out.log.filterMap Entry.closePayload? = [] := by
  refine List.filterMap_eq_nil_iff.mpr fun e he => ?_
  have last := d.unsent unsent e he
  cases e with
  | shutdown => rfl
  | frame kind w => cases kind <;> first | rfl | cases last

/-- The call itself: nothing closed the link before, and its frame is the next to be enqueued. -/
theorem close_opened {l : Link} (d : Discipline l) (hs : l.flags.state = .opened) :
    (l.close code reason).1.flags.sentClose = true ∧
      (l.close code reason).1.out.log.filterMap Entry.closePayload? ++
        (l.close code reason).1.hold.filterMap Section.closePayload? = [closePayload code reason] := by
  have state : (l.note (.closeCalled code reason)).flags.state = .opened := hs
  have log : (l.note (.closeCalled code reason)).out.log.filterMap Entry.closePayload? = [] :=
    d.unworded (d.unsent_of_opened hs)
  rw [Link.close]
  dsimp only
  rw [state]
  exact ⟨rfl, by dsimp only; rw [log]; rfl⟩

/-! ## The race -/

/-- How far the abort has got, and the events so far. -/
inductive Stage : List Op → List Event → Prop where
  | emit : Stage [.emit abortError, .finish 1006 .empty] []
  | check : Stage [.checkHub, .finish 1006 .empty] [abortError]
  | finish : Stage [.finish 1006 .empty] [abortError]

/-- Where the link stands. -/
inductive Race (code : UInt16) (reason : Str) (s : Sys) : Prop where
  | waiting (early : Early s) (pool : s.pool = []) (handed : s.handed = []) (called : s.called = false)
  | aborting {ops} (early : Early s) (pool : s.pool = [ops]) (stage : Stage ops s.handed) (called : s.called = true)
  | aborted (state : s.state = .closed) (handed : s.handed = abortEvents)
  | opened (h : Opened code reason s)

theorem Stage.ne_nil {ops : List Op} {events : List Event} (h : Stage ops events) : ops ≠ [] := by
  cases h <;> exact List.cons_ne_nil _ _

/-- One section of an abort. -/
theorem Stage.exec {op : Op} {rest : List Op} (early : Early s) (stage : Stage (op :: rest) s.handed)
    (called : s.called = true) (link : s'.link = (s.link.exec cfg op).1)
    (pool : s'.pool = [(s.link.exec cfg op).2 ++ rest]) (task : s'.task = s.task) (rd : s'.rd = s.rd)
    (wr : s'.wr = s.wr) :
    (s'.state = .closed ∧ s'.handed = abortEvents) ∨
      ∃ ops', Early s' ∧ s'.pool = [ops'] ∧ Stage ops' s'.handed ∧ s'.called = true ∧
        ops'.length + (1 - s'.handed.length) < (op :: rest).length + (1 - s.handed.length) := by
  have alive : s.link.flags.state ≠ .closed := by
    rw [show s.link.flags.state = .connecting from early.state]
    simp
  have early' (flags : s'.link.flags = s.link.flags) (hold : s'.link.hold = s.link.hold)
      (hub : s'.link.hubClosed = s.link.hubClosed) : Early s' :=
    ⟨task ▸ early.task, (congrArg Flags.state flags).trans early.state, rd ▸ early.rd, wr ▸ early.wr,
      hold.trans early.hold, hub.trans early.hub⟩
  generalize hh : s.handed = events at stage
  cases stage with
  | emit =>
    rw [Link.exec, if_neg alive] at link pool
    have handed : s'.handed = [abortError] := by
      rw [Handed.handed_append (s := s) (t := [.event abortError (!s.link.hubClosed)]) (by rw [link]; rfl), hh]
      rfl
    refine .inr ⟨_, early' (by rw [link]; rfl) (by rw [link]; rfl) (by rw [link]; rfl), pool, handed ▸ .check, ?_, ?_⟩
    · exact (called_note (s := s) (by rw [link]; rfl) rfl).trans called
    · rw [handed]
      exact Nat.lt_succ_self _
  | check =>
    rw [Link.exec, if_neg (by rw [early.hub]; simp)] at link pool
    have handed : s'.handed = [abortError] := by rw [Sys.handed, link]; exact hh
    refine .inr ⟨_, early' (by rw [link]) (by rw [link]) (by rw [link]), pool, handed ▸ .finish, ?_, ?_⟩
    · rw [Sys.called, link]
      exact called
    · rw [handed]
      exact Nat.lt_succ_self _
  | finish =>
    rw [Link.exec, if_neg alive] at link
    refine .inl ⟨by rw [Sys.state, link]; rfl, ?_⟩
    rw [Handed.handed_append (s := s) (t := [.event (.close 1006 .empty) (!s.link.hubClosed)]) (by rw [link]; rfl), hh]
    rfl

/-- A `close` whose arguments are accepted. -/
theorem close_step {c : UInt16} {r : Str} (h : s.step cfg (.call (.close c r)) = some s') (hne : s' ≠ s) :
    s' = { s with link := (s.link.close c r).1 }.spawn (s.link.close c r).2 := by
  rw [Sys.step, Sys.call] at h
  split at h
  · cases h
    exact absurd rfl hne
  split at h
  · cases h
  · cases h
    rfl

theorem Opened.step (h : Opened code reason s) (reach : Reachable (Sys.step cfg) (.init cfg) s)
    (hstep : s.step cfg lab = some s') (orderly : s.orderly code reason lab = true) : Opened code reason s' := by
  obtain ⟨used, new, he⟩ := step_effect hstep
  obtain ⟨t, handed, why⟩ := he.handed_grows
  have discipline := Discipline.of_reachable reach
  have quiet := undisturbed_of_orderly orderly
  refine ⟨?_, he.lives.left_connecting h.state, fun op hop => ?_, fun hm => ?_, fun hc => ?_⟩
  · rw [handed]
    exact List.mem_append_left _ h.opened
  · exact (he.mem_ops hop).elim (h.clean op) (he.new_clean quiet h.state h.clean op)
  · rw [handed] at hm
    rcases List.mem_append.mp hm with hm | hm
    · exact h.never hm
    · rcases why _ hm with hu | hu | hu
      · exact h.clean _ (he.used_mem (by rw [hu]; exact List.mem_singleton_self _)) rfl
      · cases hu
      · cases hu
  · by_cases called : s.called = true
    · obtain ⟨sent, closes⟩ := h.closes called
      have kept := he.locked.closes discipline sent (live_of_hold reach)
      exact ⟨kept.1, kept.2.trans closes⟩
    · -- this step is the call
      have hlab : ∃ c r, lab = .call (.close c r) := by
        by_contra hne
        rw [he.called_eq fun c r hl => hne ⟨c, r, hl⟩] at hc
        exact called hc
      obtain ⟨c, r, rfl⟩ := hlab
      obtain ⟨rfl, rfl, -, hs⟩ := orderly_close orderly
      rw [close_step hstep fun heq => called (heq ▸ hc)]
      exact close_opened discipline (hs.resolve_left h.state)

theorem Race.step (h : Race code reason s) (reach : Reachable (Sys.step cfg) (.init cfg) s)
    (hstep : s.step cfg lab = some s') (orderly : s.orderly code reason lab = true) : Race code reason s' := by
  obtain ⟨used, new, he⟩ := step_effect hstep
  have quiet := undisturbed_of_orderly orderly
  cases h with
  | waiting early pool handed called =>
    cases early.step he quiet with
    | same early' pool' handed' called' =>
      exact .waiting early' (pool'.trans pool) (handed'.trans handed) (called'.trans called)
    | close early' hlab pool' handed' called' =>
      exact .aborting early' (by rw [pool', pool]; rfl) (by rw [handed', handed]; exact .emit) called'
    | exec ops =>
      rw [pool] at ops
      cases ops
    | opens hlab state ops handed' called' =>
      have none : s'.ops = [] := by rw [ops, Sys.ops, early.rd, early.wr, pool]; rfl
      rw [handed, List.nil_append] at handed'
      refine .opened ⟨?_, ?_, ?_, ?_, ?_⟩
      · rw [handed']; exact List.mem_singleton_self _
      · rw [state]; simp
      · rw [none]; simp
      · rw [handed']; exact fun hm => by cases List.mem_singleton.mp hm
      · rw [called', called]; simp
  | @aborting ops early pool stage called =>
    cases early.step he quiet with
    | same early' pool' handed' called' =>
      exact .aborting early' (pool'.trans pool) (handed' ▸ stage) (called'.trans called)
    | close early' hlab =>
      rw [hlab] at orderly
      rw [(orderly_close orderly).2.2.1] at called
      cases called
    | @exec i op rest hops link pool' task rd wr =>
      cases i with
      | zero =>
        rw [pool] at hops pool'
        cases hops
        rcases stage.exec early called link pool' task rd wr with ⟨state, handed⟩ | ⟨ops', early', pool', stage', called', -⟩
        · exact .aborted state handed
        · exact .aborting early' pool' stage' called'
      | succ i =>
        rw [pool] at hops
        cases hops
    | opens hlab =>
      -- `start` waits for the abort
      rw [hlab] at orderly
      have free := of_decide_eq_true (Bool.and_eq_true_iff.mp orderly).2 early.state
      rw [pool, List.flatten_singleton] at free
      exact absurd free stage.ne_nil
  | aborted state handed =>
    refine .aborted (he.stays_closed state) ?_
    rw [← handed]
    cases he.lives with
    | keeps _ trace quiet => exact Handed.handed_quiet trace quiet
    | emits op _ alive => exact absurd state alive
    | opens task hs => rw [state] at hs; cases hs
    | closes alive => exact absurd state alive
    | finishes op alive => exact absurd state alive
  | opened h => exact .opened (h.step reach hstep orderly)

theorem Race.of_reachable (h : Reachable (Sys.orderlyStep cfg code reason) (.init cfg) s) : Race code reason s := by
  refine h.invariant (.waiting ⟨.inl rfl, rfl, rfl, rfl, rfl, rfl⟩ rfl rfl rfl) ?_
  intro u lab v hu hI hv
  obtain ⟨orderly, hstep⟩ := orderlyStep_some hv
  exact hI.step (orderly_reachable hu) hstep orderly

theorem pool_step {op : Op} {rest : List Op} (early : Early s) (pool : s.pool = [op :: rest]) :
    s.orderlyStep cfg code reason (.pool 0) =
      some { s with link := (s.link.exec cfg op).1, pool := [(s.link.exec cfg op).2 ++ rest] } := by
  have ops : s.pool.getD 0 [] = op :: rest := by rw [pool]; rfl
  have free : ¬ (op.locks && !s.link.hold.isEmpty) = true := by rw [early.hold]; simp
  have orderly : s.orderly code reason (.pool 0) = true := rfl
  rw [Sys.orderlyStep, if_pos orderly, Sys.step, Sys.poolStep, ops, Link.opStep, if_neg free]
  dsimp only
  rw [pool]
  rfl

/-- The sections of an abort can always go on. -/
theorem Stage.finishes {ops : List Op} (early : Early s) (pool : s.pool = [ops]) (stage : Stage ops s.handed)
    (called : s.called = true) : ∃ t, Reachable (Sys.orderlyStep cfg code reason) s t ∧ t.handed = abortEvents := by
  induction hn : ops.length + (1 - s.handed.length) using Nat.strongRecOn generalizing s ops with
  | ind n ih =>
    cases ops with
    | nil => exact absurd rfl stage.ne_nil
    | cons op rest =>
      have step := @pool_step cfg code reason s op rest early pool
      let u : Sys := { s with link := (s.link.exec cfg op).1, pool := [(s.link.exec cfg op).2 ++ rest] }
      rcases @Stage.exec cfg s u op rest early stage called rfl rfl rfl rfl rfl with ⟨-, handed⟩ | ⟨ops', early', pool', stage', called', lt⟩
      · exact ⟨_, (Reachable.refl s).next step, handed⟩
      · obtain ⟨t, ht, handed⟩ := ih _ (hn ▸ lt) early' pool' stage' called' rfl
        exact ⟨t, ((Reachable.refl s).next step).trans ht, handed⟩

/-- **`close` acts on one state.** If `start` waits for a `close` that is aborting, a link whose application
has called `close` never opens and comes to its error and an abnormal close; or it has opened, no
such error is sent, and the call's close frame is the only one enqueued. -/
theorem close_consistent (h : Reachable (Sys.orderlyStep cfg code reason) (.init cfg) s) (called : s.called = true) :
    (.opened ∉ s.handed ∧ s.handed <+: abortEvents ∧
      ∃ t, Reachable (Sys.orderlyStep cfg code reason) s t ∧ t.handed = abortEvents) ∨
    (.opened ∈ s.handed ∧ abortError ∉ s.handed ∧ s.closeFrames ++ s.closesHeld = [closePayload code reason]) := by
  cases Race.of_reachable h with
  | waiting early pool handed called' =>
    rw [called'] at called
    cases called
  | aborting early pool stage =>
    refine .inl ⟨?_, ?_, stage.finishes early pool called⟩
    · generalize s.handed = events at stage
      cases stage <;> simp [abortError]
    · generalize s.handed = events at stage
      cases stage <;> simp [abortEvents]
  | aborted state handed =>
    refine .inl ⟨?_, ?_, s, .refl s, handed⟩
    · rw [handed]; simp [abortEvents, abortError]
    · exact handed ▸ List.prefix_refl _
  | opened h => exact .inr ⟨h.opened, h.never, (h.closes called).2⟩

/-- The application closes the open link. -/
theorem close_consistent_opened :
    ∃ s, runs (Sys.orderlyStep .smallClient 1000 .empty) (.init .smallClient)
        (openRun ++ [.call (.close 1000 .empty), .hold ⟨0, 0, 0, 0⟩]) = some s ∧ s.called = true ∧
      ((.opened ∉ s.handed ∧ s.handed <+: abortEvents ∧
        ∃ t, Reachable (Sys.orderlyStep .smallClient 1000 .empty) s t ∧ t.handed = abortEvents) ∨
      (.opened ∈ s.handed ∧ abortError ∉ s.handed ∧ s.closeFrames ++ s.closesHeld = [closePayload 1000 .empty])) :=
  ⟨_, rfl, rfl,
    close_consistent ⟨openRun ++ [.call (.close 1000 .empty), .hold ⟨0, 0, 0, 0⟩], rfl⟩ rfl⟩

/-- `close` finds the link connecting, `start` opens it, and then the abort goes on: both events are sent and
no close frame is enqueued. -/
theorem close_torn :
    ∃ s, runs (Sys.step .smallClient) (.init .smallClient)
        [.establish [], .call (.close 1000 .empty), .task, .pool 0, .pool 0, .pool 0] = some s ∧
      s.sentEvents = [.opened, abortError, .close 1006 .empty] ∧ s.closeFrames ++ s.closesHeld = [] :=
  ⟨_, rfl, rfl, rfl⟩

end Race

end WebSocket.Net
