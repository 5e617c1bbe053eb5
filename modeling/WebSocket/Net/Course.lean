import WebSocket.Net.Closing

/-!
# The course of an undisturbed connection

No `terminate`, no lost hub, no failed transport, no dead heartbeat: what is left is the
protocol itself, with the application's `send` and `close`. In such a run only the reader
ends the link, and it does so once its loop is over. `Course` collects what follows for the
threads: which sections each may have in hand, and that nobody else touches what the
reader has recorded.
-/

namespace WebSocket.Net

open Proto Lib.Transition

/-! ## Undisturbed steps -/

/-- The step is not forced on the protocol from outside. A `close` before the link opens aborts it. -/
def Sys.peaceful (cfg : Config) (s : Sys) : Label → Bool
  | .call .terminate | .closeHub | .refuse _ | .abandon | .readError _ | .writeError => false
  | .call (.close _ _) => decide (s.state ≠ .connecting)
  | .reader =>
    match s.rd.pc with
    | .beat interval => decide ((s.rd.alive.refresh cfg s.link.received).verdict cfg s.link interval ≠ .dead)
    | _ => true
  | _ => true

/-- The application called `close`. -/
def Obs.isCall : Obs → Bool
  | .closeCalled _ _ => true
  | _ => false

/-- A decoded message. -/
def Obs.decoded? : Obs → Option Msg
  | .decoded m => some m
  | _ => none

/-- Events about what came in, and the end. -/
def Event.isTold : Event → Bool
  | .opened | .drain => false
  | _ => true

namespace Sys

/-- The application has called `close`. -/
def called (s : Sys) : Bool := s.link.trace.any Obs.isCall

/-- The messages the reader has decoded. -/
def decoded (s : Sys) : List Msg := s.link.trace.filterMap Obs.decoded?

/-- The events about what came in, and the end. -/
def told (s : Sys) : List Event := s.handed.filter Event.isTold

end Sys

/-! ## Sections in hand -/

/-- The sections of the writer: it only reports. -/
def Op.reports : Op → Bool
  | .emit .drain | .checkHub | .released => true
  | _ => false

/-- What `finish` still does once the link is closed. -/
def Op.clears : Op → Bool
  | .stopWriter | .setStopped | .shutdownIo => true
  | _ => false

/-- The sections the reader may have in hand at each place. -/
def ReadPc.runs : ReadPc → Op → Bool
  | .handled false _, .handle m => !Sys.isClose m
  | .handled false _, .emit e | .handled false _, .deliver e | .handled false _, .deliverOpen e
  | .handled false _, .deliverNow e => e.inbound
  | .handled false _, .released | .handled false _, .checkHub => true
  | .handled true _, .handle m => Sys.isClose m
  | .handled true _, .emit (.error _) | .handled true _, .checkHub | .handled true _, .violation _
  | .handled true _, .released => true
  | .top, .released => true
  | .finished, .endLink | .finished, .finish _ _ => true
  | .finished, op => op.clears
  | _, _ => false

/-- The threads of an undisturbed connection. -/
structure Course (cfg : Config) (s : Sys) : Prop where
  hub : s.link.hubClosed = false
  early : (s.task = .connecting ∨ ∃ rest, s.task = .starting rest) → s.state = .connecting
  fresh : s.task ≠ .running → s.task ≠ .finished → s.rd = (Sys.init cfg).rd
  finished : s.task = .finished → s.state = .closed
  stopped : s.link.stopped = true → s.state = .closed
  pool : s.pool.flatten ≠ [] → s.state = .closed
  writer : ∀ op ∈ s.wr.ops, op.reports = true
  reader : ∀ op ∈ s.rd.ops, s.rd.pc.runs op = true
  closed : s.state = .closed → s.rd.pc = .finished
  final : s.rd.pc = .finished →
    s.state = .closed ∧ (∀ op ∈ s.rd.ops, op.clears = true) ∨
    s.state ≠ .closed ∧ (s.rd.ops = [.endLink] ∨
      s.rd.ops = [.finish (Link.endStatus s.link.flags).1 (Link.endStatus s.link.flags).2])
  closing : s.state = .closing → s.link.flags.recorded = true ∨ s.called = true

section Steps

variable {cfg : Config} {s s' : Sys} {lab : Label} {used new : List Op}

/-! ## Steps of the other threads -/

/-- A step as the reader sees it that did not take it. -/
structure Aside (s s' : Sys) : Prop where
  rd : s'.rd = s.rd
  told : s'.told = s.told
  decoded : s'.decoded = s.decoded
  received : s'.link.flags.received = s.link.flags.received
  failed : s'.link.flags.failed = s.link.flags.failed
  closed : s'.state = .closed ↔ s.state = .closed

theorem decoded_append {t : List Obs} (h : s'.link.trace = s.link.trace ++ t) (quiet : ∀ o ∈ t, o.decoded? = none) :
    s'.decoded = s.decoded := by
  rw [Sys.decoded, h, List.filterMap_append, List.filterMap_eq_nil_iff.mpr quiet, List.append_nil, Sys.decoded]

/-- Running a section decodes nothing. -/
theorem decoded_exec {op : Op} (hl : s'.link = (s.link.exec cfg op).1) : s'.decoded = s.decoded := by
  rcases trace_exec cfg s.link op with h | ⟨e, h, -⟩
  · rw [Sys.decoded, hl, h, Sys.decoded]
  · exact decoded_append (by rw [hl]; exact h) (List.forall_mem_singleton.mpr rfl)

/-- Only a dispatch decodes. -/
theorem Effect.decoded_eq (h : Effect cfg s lab s' used new) (rd : s'.rd = s.rd) : s'.decoded = s.decoded := by
  rcases h.trace with ht | ⟨o, ht, noted⟩
  · rw [Sys.decoded, ht, Sys.decoded]
  · refine decoded_append ht (List.forall_mem_singleton.mpr ?_)
    cases noted with
    | decoded _ pc => exact absurd (by rw [rd]) pc
    | _ => rfl

/-- A section that ends nothing leaves the record alone. -/
theorem record_exec (cfg : Config) (l : Link) (op : Op) (h : op.ends = false ∨ l.flags.state = .closed) :
    (l.exec cfg op).1.flags.received = l.flags.received ∧ (l.exec cfg op).1.flags.failed = l.flags.failed := by
  cases op with
  | handle m =>
    cases m with
    | ping data =>
      rw [Link.exec, Link.handle, Link.handlePing]
      dsimp only
      split <;> exact ⟨rfl, rfl⟩
    | close status =>
      have hc := h.resolve_left Bool.noConfusion
      rw [Link.exec, Link.handle, Link.closing]
      dsimp only
      rw [if_pos (.inl hc)]
      exact ⟨rfl, rfl⟩
    | _ => exact ⟨rfl, rfl⟩
  | violation f =>
    have hc := h.resolve_left Bool.noConfusion
    rw [Link.exec, Link.violate]
    dsimp only
    rw [if_pos hc]
    exact ⟨rfl, rfl⟩
  | emit e =>
    rw [Link.exec]
    dsimp only
    split <;> exact ⟨rfl, rfl⟩
  | finish code reason =>
    rw [Link.exec]
    split <;> exact ⟨rfl, rfl⟩
  | _ => exact ⟨rfl, rfl⟩

/-- Steps that run no section leave the record alone. -/
theorem Locked.record (h : Locked cfg s s' used) (hu : ∀ op ∈ used, op.ends = false ∨ s.state = .closed) :
    s'.link.flags.received = s.link.flags.received ∧ s'.link.flags.failed = s.link.flags.failed := by
  cases h with
  | other flags => rw [flags]; exact ⟨rfl, rfl⟩
  | turns free turns =>
    obtain ⟨state, hf⟩ := turns.flags
    rw [hf]
    exact ⟨rfl, rfl⟩
  | held hold link =>
    rw [link]
    dsimp only
    rw [flags_execSection]
    exact ⟨rfl, rfl⟩
  | sent free legal link => rw [link, flags_send]; exact ⟨rfl, rfl⟩
  | close free link =>
    rw [link]
    unfold Link.close
    dsimp only
    split <;> exact ⟨rfl, rfl⟩
  | took free hused takes link =>
    rw [link]
    exact record_exec cfg _ _ (hu _ (by rw [hused]; exact List.mem_singleton_self _))
  | flushPong free run pc link => rw [link, flags_flushPong]; exact ⟨rfl, rfl⟩
  | ping free state link => rw [link]; exact ⟨rfl, rfl⟩

theorem told_append {t : List Obs} (h : s'.link.trace = s.link.trace ++ t) :
    s'.told = s.told ++ (t.filterMap Obs.event?).filter Event.isTold := by
  rw [Sys.told, Handed.handed_append h, List.filter_append, Sys.told]

theorem told_quiet {t : List Obs} (h : s'.link.trace = s.link.trace ++ t) (quiet : ∀ o ∈ t, o.event? = none) :
    s'.told = s.told := by
  rw [Sys.told, Handed.handed_quiet h quiet, Sys.told]

/-- The other threads tell nothing of the input and do not end the link. -/
theorem Effect.aside (h : Effect cfg s lab s' used new) (course : Course cfg s) (rd : s'.rd = s.rd)
    (other : ∀ op ∈ used, op ∈ s.wr.ops ∨ op ∈ s.pool.flatten) : Aside s s' := by
  -- a section of the pool finds the link closed
  have mild : ∀ op ∈ used, op.reports = true ∨ s.state = .closed := by
    intro op hop
    rcases other op hop with hw | hp
    · exact .inl (course.writer op hw)
    · exact .inr (course.pool (List.ne_nil_of_mem hp))
  have record := h.locked.record fun op hop => (mild op hop).imp_left fun hr => by
    cases op <;> first | rfl | cases hr
  have same (told : s'.told = s.told) (closed : s'.state = .closed ↔ s.state = .closed) : Aside s s' :=
    ⟨rd, told, h.decoded_eq rd, record.1, record.2, closed⟩
  cases h.lives with
  | keeps state trace quiet => exact same (told_quiet trace quiet) (by rw [state])
  | @emits e op state alive trace =>
    refine same ?_ (by rw [state])
    have hr := (mild (.emit e) (by rw [op]; exact List.mem_singleton_self _)).resolve_right alive
    cases e with
    | drain => rw [told_append trace]; exact List.append_nil _
    | _ => cases hr
  | opens task state state' trace =>
    refine same ?_ (by rw [state, state']; exact ⟨nofun, nofun⟩)
    rw [told_append trace]
    exact List.append_nil _
  | closes alive state' why trace quiet =>
    exact same (told_quiet trace quiet) (by rw [state']; exact ⟨nofun, fun hc => absurd hc alive⟩)
  | finishes op alive state' trace =>
    have hr := (mild _ (by rw [op]; exact List.mem_singleton_self _)).resolve_right alive
    cases hr

/-! ## The course is kept -/

theorem stopped_exec {l : Link} {op : Op} (h : op ≠ .setStopped) : (l.exec cfg op).1.stopped = l.stopped := by
  cases op with
  | emit e => rw [Link.exec]; dsimp only; split <;> rfl
  | finish code reason => rw [Link.exec]; split <;> rfl
  | handle m =>
    cases m with
    | ping data => rw [Link.exec, Link.handle, Link.handlePing]; dsimp only; split <;> rfl
    | close status => rw [Link.exec, Link.handle, Link.closing]; dsimp only; split <;> rfl
    | _ => rfl
  | violation f => rw [Link.exec, Link.violate]; dsimp only; split <;> rfl
  | setStopped => exact absurd rfl h
  | _ => rfl

/-- Only `finish` sets `stopped`. -/
theorem Effect.stopped (h : Effect cfg s lab s' used new) :
    s'.link.stopped = s.link.stopped ∨ .setStopped ∈ used := by
  have exec (op : Op) : (s.link.exec cfg op).1.stopped = s.link.stopped ∨ .setStopped ∈ [op] := by
    by_cases hop : op = .setStopped
    · exact .inr (by rw [hop]; exact List.mem_singleton_self _)
    · exact .inl (stopped_exec hop)
  cases h with
  | env q stopped hub => exact .inl stopped
  | left q stopped hub => exact .inl stopped
  | sent free legal =>
    left
    dsimp only
    rw [Link.send]
    split
    · rfl
    · split <;> rfl
  | close =>
    left
    dsimp only [Sys.spawn]
    unfold Link.close
    dsimp only
    split <;> rfl
  | held h =>
    left
    obtain ⟨x, rest, -, rfl⟩ := Link.holdStep_some h
    cases x with
    | pushFrame => dsimp only; rw [Link.execSection]; dsimp only; split <;> rfl
    | recheck => dsimp only; rw [Link.execSection]; split <;> rfl
    | _ => rfl
  | flushPong =>
    left
    dsimp only
    unfold Link.flushPong
    dsimp only
    split
    · split <;> rfl
    · rfl
  | execPool => exact exec _
  | execReader => exact exec _
  | execWriter => exact exec _
  | _ => exact .inl rfl

namespace Course

/-- A section that only the reader runs, and only once its loop is over. -/
theorem over_of_mem (course : Course cfg s) {op : Op} (hop : op ∈ s.ops)
    (hop' : op = .setStopped ∨ ∃ code reason, op = .finish code reason) (alive : s.state ≠ .closed) :
    op ∈ s.rd.ops ∧ s.rd.pc = .finished := by
  have hnr : op.reports = false := by rcases hop' with rfl | ⟨_, _, rfl⟩ <;> rfl
  rcases List.mem_append.mp hop with hop | hop
  · rcases List.mem_append.mp hop with hop | hop
    · refine ⟨hop, ?_⟩
      have hr := course.reader op hop
      revert hr
      rcases hop' with rfl | ⟨_, _, rfl⟩
      all_goals
        cases s.rd.pc with
        | handled stop last => cases stop <;> exact nofun
        | finished => exact fun _ => rfl
        | _ => exact nofun
    · exact absurd (course.writer op hop) (by simp [hnr])
  · exact absurd (course.pool (List.ne_nil_of_mem hop)) alive

/-- Once the loop is over and the link is not closed, `end` is on its way. -/
theorem ending (course : Course cfg s) (pc : s.rd.pc = .finished) (alive : s.state ≠ .closed) :
    s.rd.ops = [.endLink] ∨
      s.rd.ops = [.finish (Link.endStatus s.link.flags).1 (Link.endStatus s.link.flags).2] :=
  (course.final pc).elim (fun h => absurd h.1 alive) fun h => h.2

theorem idle_of_early (course : Course cfg s) (ht : s.task ≠ .running) (ht' : s.task ≠ .finished) :
    s.rd.ops = [] ∧ s.rd.pc = .top := by
  rw [course.fresh ht ht']
  exact ⟨rfl, rfl⟩

/-- The link ends by the reader's own `finish`. -/
theorem finishes (course : Course cfg s) (he : Effect cfg s lab s' used new) (alive : s.state ≠ .closed)
    (hc : s'.state = .closed) : s.rd.pc = .finished ∧ s.rd.ops ≠ [] := by
  cases he.lives with
  | keeps state => rw [state] at hc; exact absurd hc alive
  | emits op state => rw [state] at hc; exact absurd hc alive
  | opens task state state' => rw [state'] at hc; cases hc
  | closes alive' state' => rw [state'] at hc; cases hc
  | finishes op =>
    obtain ⟨hmem, pc⟩ := course.over_of_mem
      (he.used_mem (by rw [op]; exact List.mem_singleton_self _)) (.inr ⟨_, _, rfl⟩) alive
    exact ⟨pc, List.ne_nil_of_mem hmem⟩

theorem early_step (course : Course cfg s) (he : Effect cfg s lab s' used new) (peace : s.peaceful cfg lab = true)
    (ht : s'.task = .connecting ∨ ∃ rest, s'.task = .starting rest) : s'.state = .connecting := by
  have running (run : s.task = .running) (same : s'.task = s.task) : s'.state = .connecting := by
    rw [same, run] at ht
    rcases ht with ht | ⟨_, ht⟩ <;> cases ht
  cases he with
  | env q => rw [Sys.state, q.flags]; exact course.early ht
  | sent => rw [Sys.state, flags_send]; exact course.early ht
  | refused => exact course.early ht
  | close free valid short hlab =>
    rw [hlab] at peace
    exact absurd (course.early ht) (of_decide_eq_true peace)
  | terminate hlab => rw [hlab] at peace; cases peace
  | held h => rw [Sys.state, flags_holdStep h]; exact course.early ht
  | execPool ops free =>
    have hc := course.pool (List.ne_nil_of_mem
      (List.mem_flatten.mpr ⟨_, List.mem_of_getElem? ops, List.mem_cons_self ..⟩))
    rw [course.early ht] at hc
    cases hc
  | connected task => exact course.early (.inl task)
  | opened => rcases ht with ht | ⟨_, ht⟩ <;> cases ht
  | started => rcases ht with ht | ⟨_, ht⟩ <;> cases ht
  | left => rcases ht with ht | ⟨_, ht⟩ <;> cases ht
  | stamp run => exact running run rfl
  | _ => exact running (by assumption) rfl

theorem fresh_step (course : Course cfg s) (he : Effect cfg s lab s' used new) (ht : s'.task ≠ .running)
    (ht' : s'.task ≠ .finished) : s'.rd = (Sys.init cfg).rd := by
  cases he with
  | execReader run => exact absurd run ht
  | reading run => exact absurd run ht
  | decoded run => exact absurd run ht
  | failed run => exact absurd run ht
  | ping run => exact absurd run ht
  | connected task => exact course.fresh (by rw [task]; exact nofun) (by rw [task]; exact nofun)
  | opened task => exact course.fresh (by rw [task]; exact nofun) (by rw [task]; exact nofun)
  | started => exact absurd rfl ht
  | left => exact absurd rfl ht'
  | _ => exact course.fresh ht ht'

/-- The task is left only once the link is closed. -/
theorem left_closed (course : Course cfg s) (peace : s.peaceful cfg lab = true)
    (why : (∃ rest, s.task = .starting rest ∧ s.link.flags.state ≠ .connecting) ∨
      (∃ rest, s.task = .opening rest ∧ s.link.hubClosed = true) ∨
      (s.task = .connecting ∧ ∃ error, lab = .refuse error) ∨
      lab = .abandon ∨ s.task = .running ∧ s.rd.pc = .finished ∧ s.rd.ops = []) : s.state = .closed := by
  rcases why with ⟨rest, task, hs⟩ | ⟨rest, task, hh⟩ | ⟨task, error, hlab⟩ | hlab | ⟨task, pc, idle⟩
  · exact absurd (course.early (.inr ⟨rest, task⟩)) hs
  · rw [course.hub] at hh
    cases hh
  · rw [hlab] at peace
    cases peace
  · rw [hlab] at peace
    cases peace
  · by_cases alive : s.state = .closed
    · exact alive
    · rcases course.ending pc alive with h | h <;> rw [idle] at h <;> cases h

/-- A closed link stays closed. -/
theorem closed_step (he : Effect cfg s lab s' used new) (hc : s.state = .closed) : s'.state = .closed := by
  have hr := he.lives.rank_le
  rw [hc] at hr
  revert hr
  cases s'.state <;> decide

theorem over_step (course : Course cfg s) (he : Effect cfg s lab s' used new) (peace : s.peaceful cfg lab = true)
    (ht : s'.task = .finished) : s'.state = .closed := by
  refine closed_step he ?_
  cases he with
  | left q stopped hub plain why => exact course.left_closed peace why
  | connected => cases ht
  | opened => cases ht
  | started => cases ht
  | _ => exact course.finished ht

theorem stopped_step (course : Course cfg s) (he : Effect cfg s lab s' used new)
    (hs : s'.link.stopped = true) : s'.state = .closed := by
  refine closed_step he ?_
  rcases he.stopped with h | h
  · exact course.stopped (h ▸ hs)
  · by_cases alive : s.state = .closed
    · exact alive
    · obtain ⟨hmem, pc⟩ := course.over_of_mem (he.used_mem h) (.inl rfl) alive
      rcases course.ending pc alive with h | h <;> rw [h] at hmem <;> cases List.mem_singleton.mp hmem

theorem pool_step (course : Course cfg s) (he : Effect cfg s lab s' used new) (peace : s.peaceful cfg lab = true)
    (hp : s'.pool.flatten ≠ []) : s'.state = .closed := by
  refine closed_step he ?_
  cases he with
  | left q stopped hub plain why => exact course.left_closed peace why
  | terminate hlab => rw [hlab] at peace; cases peace
  | @close code reason free valid short hlab =>
    rw [hlab] at peace
    have hs : s.link.flags.state ≠ .connecting := of_decide_eq_true peace
    have nothing : (s.link.close code reason).2 = [] := by
      unfold Link.close
      dsimp only
      split
      · exact absurd ‹_› hs
      · rfl
      · rfl
    rw [Sys.spawn, nothing, List.flatten_append] at hp
    exact course.pool (by simpa using hp)
  | execPool ops free =>
    exact course.pool (List.ne_nil_of_mem
      (List.mem_flatten.mpr ⟨_, List.mem_of_getElem? ops, List.mem_cons_self ..⟩))
  | _ => exact course.pool hp

theorem writer_step (course : Course cfg s) (he : Effect cfg s lab s' used new)
    (peace : s.peaceful cfg lab = true) : ∀ op ∈ s'.wr.ops, op.reports = true := by
  cases he with
  | @execWriter op rest run ops free =>
    have hw := course.writer
    rw [ops, List.forall_mem_cons] at hw
    refine List.forall_mem_append.mpr ⟨?_, hw.2⟩
    cases op with
    | emit e => exact List.forall_mem_singleton.mpr rfl
    | checkHub =>
      rw [Link.exec, course.hub]
      exact fun _ h => by cases h
    | released => exact fun _ h => by cases h
    | _ => exact absurd hw.1 Bool.false_ne_true
  | writing run idle h =>
    cases h with
    | error waits hlab => rw [hlab] at peace; cases peace
    | hub waits h => rw [course.hub] at h; cases h
    | _ => rw [idle]; exact fun _ h => by cases h
  | flushPong => exact List.forall_mem_singleton.mpr rfl
  | drain => exact List.forall_mem_singleton.mpr rfl
  | _ => exact course.writer

/-- What the reader runs leaves it with sections of the same place. -/
theorem runs_exec (hub : s.link.hubClosed = false) {pc : ReadPc} {op : Op} (h : pc.runs op = true) :
    ∀ o ∈ (s.link.exec cfg op).2, pc.runs o = true := by
  have none_of {P : Prop} [Decidable P] {a : Op} (ha : pc.runs a = true) :
      ∀ o ∈ (if P then [] else [a]), pc.runs o = true := by
    split
    · exact fun _ h => by cases h
    · exact List.forall_mem_singleton.mpr ha
  cases pc with
  | handled stop last =>
    cases stop with
    | false =>
      cases op with
      | handle m =>
        cases m with
        | text data => exact none_of rfl
        | binary data => exact none_of rfl
        | pong data => exact none_of rfl
        | ping data => exact List.forall_mem_cons.mpr ⟨rfl, List.forall_mem_singleton.mpr rfl⟩
        | close status => cases h
      | emit e => exact List.forall_mem_singleton.mpr rfl
      | checkHub => rw [Link.exec, hub]; exact fun _ h => by cases h
      | released => exact fun _ h => by cases h
      | deliver e =>
        rw [Link.exec]
        dsimp only
        split <;> exact List.forall_mem_singleton.mpr h
      | deliverOpen e =>
        rw [Link.exec]
        dsimp only
        split
        · exact List.forall_mem_singleton.mpr h
        · exact fun _ h => by cases h
      | deliverNow e => exact List.forall_mem_singleton.mpr h
      | _ => cases h
    | true =>
      cases op with
      | handle m =>
        cases m with
        | close status => exact List.forall_mem_singleton.mpr rfl
        | _ => cases h
      | emit e => exact List.forall_mem_singleton.mpr rfl
      | checkHub => rw [Link.exec, hub]; exact fun _ h => by cases h
      | violation f => exact List.forall_mem_singleton.mpr rfl
      | released => exact fun _ h => by cases h
      | _ => cases h
  | top =>
    cases op with
    | released => exact fun _ h => by cases h
    | _ => cases h
  | finished =>
    cases op with
    | endLink => exact List.forall_mem_singleton.mpr rfl
    | finish code reason =>
      rw [Link.exec]
      split
      · exact fun _ h => by cases h
      · simp [ReadPc.runs, Op.clears]
    | stopWriter => exact fun _ h => by cases h
    | setStopped => exact fun _ h => by cases h
    | shutdownIo => exact fun _ h => by cases h
    | _ => cases h
  | _ => cases h

theorem reader_step (course : Course cfg s) (he : Effect cfg s lab s' used new)
    (peace : s.peaceful cfg lab = true) : ∀ op ∈ s'.rd.ops, s'.rd.pc.runs op = true := by
  cases he with
  | @execReader op rest run ops free =>
    have hr := course.reader
    rw [ops, List.forall_mem_cons] at hr
    exact List.forall_mem_append.mpr ⟨runs_exec course.hub hr.1, hr.2⟩
  | reading run idle h =>
    cases h with
    | hub pc h => rw [course.hub] at h; cases h
    | error pc hlab => rw [hlab] at peace; cases peace
    | dead pc hlab verdict =>
      rw [hlab, Sys.peaceful, pc] at peace
      exact absurd verdict (of_decide_eq_true peace)
    | ending => exact List.forall_mem_singleton.mpr rfl
    | _ => dsimp only; rw [idle]; exact fun _ h => nomatch h
  | @decoded last r m run idle pc msg =>
    refine List.forall_mem_singleton.mpr ?_
    cases m <;> rfl
  | failed => exact List.forall_mem_cons.mpr ⟨rfl, List.forall_mem_singleton.mpr rfl⟩
  | ping => exact List.forall_mem_singleton.mpr rfl
  | started task =>
    rw [(course.idle_of_early (by rw [task]; exact nofun) (by rw [task]; exact nofun)).1]
    exact fun _ h => nomatch h
  | _ => exact course.reader

/-- The loop is over for good. -/
theorem stays_over (he : Effect cfg s lab s' used new) (pc : s.rd.pc = .finished) :
    s'.rd.pc = .finished := by
  have off {pc' : ReadPc} (h : s.rd.pc = pc') (hne : pc' ≠ .finished) : s'.rd.pc = .finished := absurd (h.symm.trans pc) hne
  cases he with
  | reading run idle h =>
    cases h with
    | goto h => cases h <;> simp_all
    | _ => simp_all
  | decoded run idle pc' => exact off pc' nofun
  | failed run idle pc' => exact off pc' nofun
  | ping run idle free state pc' => exact off pc' nofun
  | _ => exact pc

theorem closed_over (course : Course cfg s) (he : Effect cfg s lab s' used new) (hc : s'.state = .closed) :
    s'.rd.pc = .finished := by
  refine stays_over he ?_
  by_cases alive : s.state = .closed
  · exact course.closed alive
  · exact (course.finishes he alive hc).1

/-- The end that is on its way, or was reached. -/
def Ends (s : Sys) : Prop :=
  s.state = .closed ∧ (∀ op ∈ s.rd.ops, op.clears = true) ∨
    s.state ≠ .closed ∧ (s.rd.ops = [.endLink] ∨
      s.rd.ops = [.finish (Link.endStatus s.link.flags).1 (Link.endStatus s.link.flags).2])

theorem Ends.aside (h : Ends s) (aside : Aside s s') : Ends s' := by
  have status : Link.endStatus s'.link.flags = Link.endStatus s.link.flags := by
    rw [Link.endStatus, aside.received, aside.failed, Link.endStatus]
  rw [Ends, aside.rd, status, ne_eq, aside.closed]
  exact h

/-- The three sections of `end`, one after the other. -/
theorem Ends.exec {op : Op} {rest : List Op} (h : Ends s) (ops : s.rd.ops = op :: rest)
    (link : s'.link = (s.link.exec cfg op).1) (rd : s'.rd.ops = (s.link.exec cfg op).2 ++ rest) : Ends s' := by
  rcases h with ⟨closed, clears⟩ | ⟨alive, h | h⟩
  · rw [ops, List.forall_mem_cons] at clears
    have hs : s'.link.flags = s.link.flags ∧ (s.link.exec cfg op).2 = [] := by
      rw [link]
      cases op <;> first | exact ⟨rfl, rfl⟩ | exact absurd clears.1 Bool.false_ne_true
    refine .inl ⟨by rw [Sys.state, hs.1]; exact closed, ?_⟩
    rw [rd, hs.2]
    exact clears.2
  · rw [ops] at h
    cases h
    refine .inr ⟨by rw [Sys.state, link]; exact alive, .inr ?_⟩
    rw [rd, link]
    rfl
  · rw [ops] at h
    cases h
    have alive' : s.link.flags.state ≠ .closed := alive
    rw [Link.exec, if_neg alive'] at link rd
    refine .inl ⟨by rw [Sys.state, link]; rfl, ?_⟩
    rw [rd]
    simp [Op.clears]

theorem final_step (course : Course cfg s) (he : Effect cfg s lab s' used new) (pc' : s'.rd.pc = .finished) : Ends s' := by
  have aside (rd : s'.rd = s.rd) (other : ∀ op ∈ used, op ∈ s.wr.ops ∨ op ∈ s.pool.flatten) : Ends s' :=
    Ends.aside (course.final (rd ▸ pc')) (he.aside course rd other)
  cases he with
  | execReader run ops free => exact Ends.exec (course.final pc') ops rfl rfl
  | reading run idle h =>
    cases h with
    | goto h => cases h <;> cases pc'
    | silent => rw [Sys.afterDispatch] at pc'; dsimp only at pc'; split at pc' <;> cases pc'
    | stop => rw [Sys.afterDispatch] at pc'; dsimp only at pc'; split at pc' <;> cases pc'
    | ending pc =>
      refine .inr ⟨fun hc => ?_, .inl rfl⟩
      rw [course.closed hc] at pc
      cases pc
    | _ => cases pc'
  | decoded => cases pc'
  | failed => cases pc'
  | ping => cases pc'
  | started task =>
    rw [(course.idle_of_early (by rw [task]; simp) (by rw [task]; simp)).2] at pc'
    cases pc'
  | execPool ops free =>
    refine aside rfl (List.forall_mem_singleton.mpr (.inr ?_))
    exact List.mem_flatten.mpr ⟨_, List.mem_of_getElem? ops, List.mem_cons_self ..⟩
  | execWriter run ops free =>
    refine aside rfl (List.forall_mem_singleton.mpr (.inl ?_))
    rw [ops]
    exact List.mem_cons_self ..
  | _ => exact aside rfl fun _ h => by cases h

end Course

/-! ### Why a link is closing -/

theorem called_append {t : List Obs} (h : s'.link.trace = s.link.trace ++ t) (hc : s.called = true) :
    s'.called = true := by
  rw [Sys.called, h, List.any_append]
  exact Bool.or_eq_true_iff.mpr (.inl hc)

theorem Effect.called (h : Effect cfg s lab s' used new) (hc : s.called = true) : s'.called = true := by
  rcases h.trace with ht | ⟨o, ht, -⟩
  · rw [Sys.called, ht]
    exact hc
  · exact called_append ht hc

theorem Effect.called_eq (h : Effect cfg s lab s' used new) (hlab : ∀ code reason, lab ≠ .call (.close code reason)) :
    s'.called = s.called := by
  rcases h.trace with ht | ⟨o, ht, noted⟩
  · rw [Sys.called, ht, Sys.called]
  · have quiet : o.isCall = false := by
      cases noted with
      | closeCalled h => exact absurd h (hlab _ _)
      | _ => rfl
    rw [Sys.called, ht, List.any_append, Sys.called]
    simp [quiet]

/-- A section leaves the state alone, closes the link, or records why it is closing. -/
theorem closing_took (cfg : Config) (l : Link) {op : Op} (h : op.takes = true) :
    (l.exec cfg op).1.flags.recorded = true ∨ (l.exec cfg op).1.flags = l.flags := by
  cases op with
  | handle m =>
    cases m with
    | ping data =>
      rw [Link.exec, Link.handle, Link.handlePing]
      dsimp only
      split <;> exact .inr rfl
    | close status =>
      rw [Link.exec, Link.handle, Link.closing]
      dsimp only
      split
      · exact .inr rfl
      · exact .inl rfl
    | _ => exact .inr rfl
  | violation f =>
    rw [Link.exec, Link.violate]
    dsimp only
    split
    · exact .inr rfl
    · exact .inl (Bool.or_true _)
  | _ => cases h

/-- Once recorded, always recorded. -/
theorem Locked.stays_recorded (h : Locked cfg s s' used) (hr : s.link.flags.recorded = true) :
    s'.link.flags.recorded = true := by
  have same (hs : s'.link.flags.received = s.link.flags.received ∧ s'.link.flags.failed = s.link.flags.failed) :
      s'.link.flags.recorded = true := by
    rw [Flags.recorded, hs.1, hs.2]
    exact hr
  cases h with
  | took free hused takes link =>
    rw [link]
    rcases closing_took cfg s.link takes with h | h
    · exact h
    · rw [h]; exact hr
  | other flags => rw [flags]; exact hr
  | turns free turns =>
    obtain ⟨state, hf⟩ := turns.flags
    rw [hf]
    exact hr
  | held hold link =>
    rw [link]
    dsimp only
    rw [flags_execSection]
    exact hr
  | sent free legal link => rw [link, flags_send]; exact hr
  | close free link =>
    rw [link]
    unfold Link.close
    dsimp only
    split <;> exact hr
  | flushPong free run pc link => rw [link, flags_flushPong]; exact hr
  | ping free state link => rw [link]; exact hr

theorem closing_exec {l : Link} {op : Op} (h : (l.exec cfg op).1.flags.state = .closing) :
    l.flags.state = .closing ∨ (l.exec cfg op).1.flags.recorded = true := by
  by_cases ht : op.takes = true
  · rcases closing_took cfg l ht with hr | hf
    · exact .inr hr
    · exact .inl (hf ▸ h)
  · left
    cases op with
    | emit e =>
      rw [Link.exec] at h
      dsimp only at h
      split at h <;> exact h
    | finish code reason =>
      rw [Link.exec] at h
      split at h
      · exact h
      · cases h
    | handle m => exact absurd rfl ht
    | violation f => exact absurd rfl ht
    | _ => exact h

/-- A link starts to close because the application says so or the end is recorded. -/
theorem Effect.closing (h : Effect cfg s lab s' used new) (hs : s'.state = .closing) :
    s.state = .closing ∨ s'.link.flags.recorded = true ∨ s'.called = true := by
  cases h with
  | env q => rw [Sys.state, q.flags] at hs; exact .inl hs
  | left q => rw [Sys.state, Sys.spawn, q.flags] at hs; exact .inl hs
  | sent => rw [Sys.state, flags_send] at hs; exact .inl hs
  | close =>
    refine .inr (.inr ?_)
    rw [Sys.called, Sys.spawn, trace_close, List.any_append]
    exact Bool.or_true _
  | held h => rw [Sys.state, flags_holdStep h] at hs; exact .inl hs
  | flushPong => rw [Sys.state, flags_flushPong] at hs; exact .inl hs
  | opened => cases hs
  | execPool => exact (closing_exec hs).imp_right .inl
  | execReader => exact (closing_exec hs).imp_right .inl
  | execWriter => exact (closing_exec hs).imp_right .inl
  | _ => exact .inl hs

namespace Course

theorem step (course : Course cfg s) (he : Effect cfg s lab s' used new) (peace : s.peaceful cfg lab = true) :
    Course cfg s' where
  hub := by
    rw [he.hubClosed (by rintro rfl; cases peace)]
    exact course.hub
  early := course.early_step he peace
  fresh := course.fresh_step he
  finished := course.over_step he peace
  stopped := course.stopped_step he
  pool := course.pool_step he peace
  writer := course.writer_step he peace
  reader := course.reader_step he peace
  closed := course.closed_over he
  final := course.final_step he
  closing := by
    intro hs
    rcases he.closing hs with h | h
    · exact (course.closing h).imp he.locked.stays_recorded he.called
    · exact h

theorem init (cfg : Config) : Course cfg (.init cfg) where
  hub := rfl
  early _ := rfl
  fresh _ _ := rfl
  finished := nofun
  stopped := nofun
  pool h := absurd rfl h
  writer _ h := nomatch h
  reader _ h := nomatch h
  closed := nofun
  final := nofun
  closing := nofun

end Course

end Steps

end WebSocket.Net
