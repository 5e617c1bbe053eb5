import WebSocket.Net.Course

/-!
# Replies to pings

A ping is answered at once, or, when the writer is far behind, left in `Queue.pong` for it;
a later ping replaces one that waits there. `Sys.answers` lists the pongs enqueued, the one
that waits and the one that a holder of `flags` is about to deal with, in that order. It is a
part of the pings received, in order, and while the conversation goes on it ends with the
latest of them (`Tally`).
-/

namespace WebSocket.Net

open Proto Lib.Transition Lib.History

def Msg.ping? : Msg → Option Bytes
  | .ping data => some data
  | _ => none

def Op.pinged? : Op → Option Bytes
  | .handle m => Msg.ping? m
  | _ => none

def Entry.reply? : Entry → Option Bytes
  | .frame .pong w | .frame .deferred w => some w.payload
  | _ => none

def Section.reply? : Section → Option Bytes
  | .pushFrame .pong _ payload | .pushFrame .deferred _ payload | .deferPong payload => some payload
  | _ => none

namespace Sys

/-- The payloads of the pings decoded so far. -/
def pings (s : Sys) : List Bytes := s.decoded.filterMap Msg.ping?

/-- The payloads of the pongs enqueued so far. -/
def pongs (s : Sys) : List Bytes := s.link.out.log.filterMap Entry.reply?

/-- The reply left to the writer. -/
def deferred (s : Sys) : Option Bytes := s.link.out.box.queue.pong

/-- The reply of a `handle` or `flush_pong` that holds `flags`. -/
def replying (s : Sys) : List Bytes := s.link.hold.filterMap Section.reply?

/-- The ping that the reader has decoded and `handle` has not looked at. -/
def awaiting (s : Sys) : List Bytes := s.rd.ops.filterMap Op.pinged?

def answers (s : Sys) : List Bytes := s.pongs ++ s.deferred.toList ++ s.replying

end Sys

/-- The answers are some of the pings received, and the latest is among them while pings are answered. -/
structure Tally (s : Sys) (received : List Bytes) : Prop where
  sub : s.answers.Sublist received
  latest : Link.answers s.link.flags = true → Recent s.answers received

/-- The sections under `flags`, as far as they concern replies. -/
inductive Replying (pong : Option Bytes) : List Section → Prop where
  | quiet {hold} (h : ∀ x ∈ hold, x.replies = false) : Replying pong hold
  | clear {data} : Replying pong [.clearPong, .pushFrame .pong PONG data]
  | push {kind data} (hk : kind = .pong ∨ kind = .deferred) (none : pong = none) :
      Replying pong [.pushFrame kind PONG data]
  | leave {data} : Replying pong [.deferPong data]

structure Answering (s : Sys) : Prop where
  others : ∀ op ∈ s.wr.ops ++ s.pool.flatten, op.pinged? = none
  hold : Replying s.deferred s.link.hold
  tally : ∃ received, s.pings = received ++ s.awaiting ∧ Tally s received

section Steps

variable {cfg : Config} {s s' : Sys} {lab : Label} {used new : List Op}

theorem answers_iff {f : Flags} : Link.answers f = true ↔ f.state ≠ .closed ∧ f.recorded = false := by
  simp [Link.answers, Flags.recorded, and_assoc]

/-- A conversation that has ended does not begin again. -/
theorem Effect.answers (he : Effect cfg s lab s' used new) (h : Link.answers s'.link.flags = true) :
    Link.answers s.link.flags = true := by
  rw [answers_iff] at h ⊢
  refine ⟨fun hc => h.1 (he.stays_closed hc), Bool.eq_false_iff.mpr fun hr => ?_⟩
  rw [he.locked.stays_recorded hr] at h
  exact nomatch h.2

theorem reply_of_quiet {hold : List Section} (h : ∀ x ∈ hold, x.replies = false) : hold.filterMap Section.reply? = [] := by
  rw [List.filterMap_eq_nil_iff]
  intro x hx
  have hq := h x hx
  cases x with
  | pushFrame kind op payload => cases kind <;> first | rfl | cases hq
  | deferPong data => cases hq
  | _ => rfl

/-- Nothing about replies changed. -/
theorem Answering.same (h : Answering s) (he : Effect cfg s lab s' used new)
    (others : ∀ op ∈ s'.wr.ops ++ s'.pool.flatten, op.pinged? = none) (pongs : s'.pongs = s.pongs)
    (deferred : s'.deferred = s.deferred)
    (hold : s'.link.hold = s.link.hold ∨
      (∀ x ∈ s.link.hold, x.replies = false) ∧ ∀ x ∈ s'.link.hold, x.replies = false)
    (awaiting : s'.awaiting = s.awaiting) (pings : s'.pings = s.pings) : Answering s' := by
  have replying : s'.replying = s.replying := by
    rcases hold with heq | ⟨quiet, quiet'⟩
    · rw [Sys.replying, heq, Sys.replying]
    · rw [Sys.replying, reply_of_quiet quiet', Sys.replying, reply_of_quiet quiet]
  have answers : s'.answers = s.answers := by rw [Sys.answers, pongs, deferred, replying, Sys.answers]
  obtain ⟨received, hp, tally⟩ := h.tally
  refine ⟨others, ?_, received, by rw [pings, awaiting, hp], ⟨answers ▸ tally.sub, fun ha => ?_⟩⟩
  · rcases hold with heq | ⟨-, quiet⟩
    · rw [heq, deferred]
      exact h.hold
    · exact .quiet quiet
  · rw [answers]
    exact tally.latest (he.answers ha)

/-! ## The sections under `flags` -/

theorem Outbox.pong_pushFrame (o : Outbox) (op : UInt8) (payload : Bytes) (key : Key) :
    (o.pushFrame cfg op payload key).queue.pong = o.queue.pong := by
  unfold pushFrame push enqueue
  dsimp only
  repeat' split
  all_goals rfl

theorem reply_record (o : Out) (e : Entry) (he : e.reply? = none) :
    (o.gone ++ o.inBatch ++ o.record e).filterMap Entry.reply? = o.log.filterMap Entry.reply? := by
  rw [Out.log_record]
  split
  · rw [List.filterMap_append]
    simp [he]
  · rfl

/-- A section that is no reply leaves the pongs alone, and the deferred one unless it is the `Shutdown`. -/
theorem execSection_quiet (l : Link) (key : Key) {x : Section} (h : x.replies = false) :
    (l.execSection cfg key x).1.out.log.filterMap Entry.reply? = l.out.log.filterMap Entry.reply? ∧
      ((l.execSection cfg key x).1.out.box.queue.pong = l.out.box.queue.pong ∨
        x = .pushShutdown ∧ (l.execSection cfg key x).1.out.box.queue.pong = none) ∧
      ∀ y ∈ (l.execSection cfg key x).2, y.replies = false := by
  cases x with
  | pushFrame kind op payload =>
    have none : Entry.reply? (.frame kind ⟨true, op, payload, cfg.mask key⟩) = none := by
      cases kind <;> first | rfl | cases h
    rw [Link.execSection]
    dsimp only
    refine ⟨?_, .inl ?_, (by simp)⟩
    · split <;> exact reply_record l.out _ none
    · split <;> exact Outbox.pong_pushFrame ..
  | recheck op payload =>
    rw [Link.execSection]
    split
    · exact ⟨rfl, .inl rfl, List.forall_mem_singleton.mpr rfl⟩
    · exact ⟨rfl, .inl rfl, (by simp)⟩
  | pushHeartbeat sent =>
    refine ⟨reply_record l.out (.frame .heartbeat ⟨true, PING, cfg.token, cfg.mask key⟩) rfl, .inl ?_, fun _ hy => by cases hy⟩
    cases hl : l.out.box.live with
    | true => simp only [Link.execSection, Out.pushHeartbeat, Outbox.pushHeartbeat_live hl]
    | false => simp only [Link.execSection, Out.pushHeartbeat, Outbox.pushHeartbeat_dead hl]
  | pushShutdown =>
    refine ⟨reply_record l.out .shutdown rfl, ?_, fun _ hy => by cases hy⟩
    cases hl : l.out.box.live with
    | true => exact .inr ⟨rfl, by simp only [Link.execSection, Out.pushShutdown, Outbox.pushShutdown_live hl]⟩
    | false => exact .inl (by simp only [Link.execSection, Out.pushShutdown, Outbox.pushShutdown_dead hl])
  | clearPong => cases h
  | deferPong data => cases h

/-- The deferred reply is dropped, and the conversation is over or another reply follows. -/
theorem Answering.drops (h : Answering s) {u v w : List Bytes} (before : s.answers = u ++ v ++ w)
    (after : s'.answers = u ++ w) (awaiting : s'.awaiting = s.awaiting) (pings : s'.pings = s.pings)
    (goes : Link.answers s'.link.flags = true → Link.answers s.link.flags = true ∧ w ≠ []) :
    ∃ received, s'.pings = received ++ s'.awaiting ∧ Tally s' received := by
  obtain ⟨received, hp, tally⟩ := h.tally
  refine ⟨received, by rw [pings, awaiting, hp], ?_, fun ha => ?_⟩
  · rw [after]
    refine List.Sublist.trans ?_ (before ▸ tally.sub)
    exact (List.sublist_append_left u v).append (List.Sublist.refl w)
  · obtain ⟨ha, hw⟩ := goes ha
    rw [after]
    exact (before ▸ tally.latest ha).drop hw

theorem not_answers_of_shutdown (d : Discipline s.link) {rest : List Section}
    (hold : s.link.hold = .pushShutdown :: rest) : Link.answers s.link.flags = false := by
  refine Bool.eq_false_iff.mpr fun ha => ?_
  have hh := d.hold
  rw [hold] at hh
  have unrecorded := (answers_iff.mp ha).2
  cases hh with
  | talk sections => cases sections _ List.mem_cons_self
  | reply sections => cases sections _ List.mem_cons_self
  | shutdown open_ recorded => rw [unrecorded] at recorded; cases recorded

theorem Answering.held {key : Key} {x : Section} {rest : List Section} (h : Answering s)
    (he : Effect cfg s lab s' used new) (reach : Reachable (Sys.step cfg) (.init cfg) s)
    (hold : s.link.hold = x :: rest) (rd : s'.rd = s.rd) (wr : s'.wr = s.wr) (pool : s'.pool = s.pool)
    (pings : s'.pings = s.pings)
    (link : s'.link = { (s.link.execSection cfg key x).1 with hold := (s.link.execSection cfg key x).2 ++ rest }) :
    Answering s' := by
  have others : ∀ op ∈ s'.wr.ops ++ s'.pool.flatten, op.pinged? = none := by rw [wr, pool]; exact h.others
  have awaiting : s'.awaiting = s.awaiting := by rw [Sys.awaiting, rd, Sys.awaiting]
  have live := live_of_hold reach (by rw [hold]; exact List.cons_ne_nil _ _)
  have flags : s'.link.flags = s.link.flags := by rw [link]; exact flags_execSection ..
  have same (ha : Link.answers s'.link.flags = true) : Link.answers s.link.flags = true := flags ▸ ha
  have shape := h.hold
  rw [hold] at shape
  cases shape with
  | quiet quiet =>
    have quiet' := List.forall_mem_cons.mp quiet
    obtain ⟨log, pong, more⟩ := @execSection_quiet cfg s.link key x quiet'.1
    have pongs : s'.pongs = s.pongs := by rw [Sys.pongs, link]; exact log
    have after : ∀ y ∈ s'.link.hold, y.replies = false := by
      rw [link]
      exact List.forall_mem_append.mpr ⟨more, quiet'.2⟩
    rcases pong with pong | ⟨rfl, pong⟩
    · have deferred : s'.deferred = s.deferred := by rw [Sys.deferred, link]; exact pong
      exact h.same he others pongs deferred (.inr ⟨hold ▸ quiet, after⟩) awaiting pings
    · -- the `Shutdown` drops a deferred reply, but only when the conversation is over
      have none : s'.deferred = none := by rw [Sys.deferred, link]; exact pong
      refine ⟨others, .quiet after, h.drops (u := s.pongs) (v := s.deferred.toList) (w := []) ?_ ?_ awaiting pings ?_⟩
      · rw [Sys.answers, Sys.replying, hold, reply_of_quiet quiet]
      · rw [Sys.answers, pongs, none, Sys.replying, reply_of_quiet after, Option.toList_none, List.append_nil]
      · intro ha
        rw [not_answers_of_shutdown (.of_reachable reach) hold] at same
        cases same ha
  | @clear data =>
    have pongs : s'.pongs = s.pongs := by rw [Sys.pongs, link]; rfl
    have none : s'.deferred = none := by rw [Sys.deferred, link]; rfl
    have after : s'.link.hold = [.pushFrame .pong PONG data] := by rw [link]; rfl
    have replying : s.replying = [data] := by rw [Sys.replying, hold]; rfl
    have replying' : s'.replying = [data] := by rw [Sys.replying, after]; rfl
    refine ⟨others, by rw [after]; exact .push (.inl rfl) none, ?_⟩
    refine h.drops (u := s.pongs) (v := s.deferred.toList) (w := [data]) ?_ ?_ awaiting pings ?_
    · rw [Sys.answers, replying]
    · rw [Sys.answers, pongs, none, replying', Option.toList_none, List.append_nil]
    · exact fun ha => ⟨same ha, List.cons_ne_nil _ _⟩
  | @push kind data hk none =>
    have log : s'.link.out.log = s.link.out.log ++ [.frame kind ⟨true, PONG, data, cfg.mask key⟩] := by
      rw [link, Link.execSection]
      dsimp only
      split <;> exact (Out.log_pushFrame ..).trans (if_pos live)
    have pongs : s'.pongs = s.pongs ++ [data] := by
      rw [Sys.pongs, log, List.filterMap_append, Sys.pongs]
      rcases hk with rfl | rfl <;> rfl
    have deferred : s'.deferred = s.deferred := by
      rw [Sys.deferred, link, Link.execSection]
      dsimp only
      split <;> exact Outbox.pong_pushFrame ..
    have after : s'.link.hold = [] := by rw [link]; rfl
    have answers : s'.answers = s.answers := by
      rw [Sys.answers, pongs, deferred, Sys.replying, after, Sys.answers, none, Sys.replying, hold]
      rcases hk with rfl | rfl <;> simp [Section.reply?]
    obtain ⟨received, hp, tally⟩ := h.tally
    refine ⟨others, by rw [after]; exact .quiet (by simp), received, by rw [pings, awaiting, hp], answers ▸ tally.sub, ?_⟩
    intro ha
    rw [answers]
    exact tally.latest (same ha)
  | @leave data =>
    have pongs : s'.pongs = s.pongs := by rw [Sys.pongs, link]; rfl
    have some : s'.deferred = some data := by rw [Sys.deferred, link]; rfl
    have after : s'.link.hold = [] := by rw [link]; rfl
    have replying : s.replying = [data] := by rw [Sys.replying, hold]; rfl
    have replying' : s'.replying = [] := by rw [Sys.replying, after]; rfl
    refine ⟨others, by rw [after]; exact .quiet (by simp), ?_⟩
    refine h.drops (u := s.pongs) (v := s.deferred.toList) (w := [data]) ?_ ?_ awaiting pings ?_
    · rw [Sys.answers, replying]
    · rw [Sys.answers, pongs, some, replying', List.append_nil]
      rfl
    · exact fun ha => ⟨same ha, List.cons_ne_nil _ _⟩

/-! ## Sections of the threads -/

/-- Only a dispatch has a message handled. -/
theorem exec_pinged (l : Link) (op : Op) : ∀ o ∈ (l.exec cfg op).2, o.pinged? = none := by
  intro o ho
  cases op with
  | handle m =>
    cases m with
    | text data => rw [Link.exec, Link.handle] at ho; split at ho <;> simp_all [Op.pinged?]
    | binary data => rw [Link.exec, Link.handle] at ho; split at ho <;> simp_all [Op.pinged?]
    | ping data =>
      rcases List.mem_cons.mp ho with rfl | ho
      · rfl
      · cases List.mem_singleton.mp ho
        rfl
    | pong data => rw [Link.exec, Link.handle] at ho; split at ho <;> simp_all [Op.pinged?]
    | close status =>
      cases List.mem_singleton.mp ho
      rfl
  | finish code reason =>
    rw [Link.exec] at ho
    split at ho
    · cases ho
    · simp only [List.mem_cons, List.not_mem_nil, or_false] at ho
      rcases ho with rfl | rfl | rfl <;> rfl
  | checkHub => rw [Link.exec] at ho; split at ho <;> simp_all [Op.pinged?, Link.terminate]
  | deliver e => rw [Link.exec] at ho; split at ho <;> simp_all [Op.pinged?]
  | deliverOpen e => rw [Link.exec] at ho; split at ho <;> simp_all [Op.pinged?]
  | _ => simp_all [Link.exec, Op.pinged?]

theorem pinged_of_aborts {op : Op} (h : op.aborts = true) : op.pinged? = none := by
  cases op <;> first | rfl | cases h

theorem hold_exec_quiet {l : Link} {op : Op} (quiet : op.pinged? = none) (free : op.locks = true → l.hold = []) :
    (l.exec cfg op).1.hold = l.hold ∨
      (∀ x ∈ l.hold, x.replies = false) ∧ ∀ x ∈ (l.exec cfg op).1.hold, x.replies = false := by
  have sections (sentClose shutdown : Bool) (payload : Bytes) :
      ∀ x ∈ Link.closeSections sentClose payload shutdown, x.replies = false := by
    intro x hx
    rw [Link.closeSections] at hx
    cases sentClose <;> cases shutdown <;> simp at hx <;> rcases hx with rfl | rfl <;> rfl
  cases op with
  | handle m =>
    cases m with
    | ping data => cases quiet
    | close status =>
      rw [Link.exec, Link.handle, Link.closing]
      dsimp only
      split
      · exact .inl rfl
      · exact .inr ⟨by rw [free rfl]; simp, sections _ _ _⟩
    | _ => exact .inl rfl
  | violation f =>
    rw [Link.exec, Link.violate]
    dsimp only
    split
    · exact .inl rfl
    · exact .inr ⟨by rw [free rfl]; simp, sections _ _ _⟩
  | emit e => rw [Link.exec]; dsimp only; split <;> exact .inl rfl
  | finish code reason => rw [Link.exec]; split <;> exact .inl rfl
  | _ => exact .inl rfl

/-- A thread runs a section that handles no ping. -/
theorem Answering.exec {op : Op} (h : Answering s) (he : Effect cfg s lab s' used new)
    (reach : Reachable (Sys.step cfg) (.init cfg) s) (hu : used = [op]) (quiet : op.pinged? = none)
    (free : op.locks = true → s.link.hold = []) (link : s'.link = (s.link.exec cfg op).1)
    (others : ∀ op ∈ s'.wr.ops ++ s'.pool.flatten, op.pinged? = none) (awaiting : s'.awaiting = s.awaiting) :
    Answering s' := by
  have pings : s'.pings = s.pings := by rw [Sys.pings, decoded_exec link, Sys.pings]
  rcases exec_out cfg s.link op with out | ⟨rfl, out⟩
  · refine h.same he others (by rw [Sys.pongs, link, out, Sys.pongs]) (by rw [Sys.deferred, link, out, Sys.deferred])
      ?_ awaiting pings
    rw [link]
    exact hold_exec_quiet quiet free
  · -- the writer is stopped, on a closed link
    have closed : s'.state = .closed :=
      he.stays_closed ((Stopping.of_reachable reach).ops (he.used_mem (by rw [hu]; exact List.mem_singleton_self _)))
    have none : s'.deferred = none := by rw [Sys.deferred, link, out]; rfl
    have hold : s'.link.hold = s.link.hold := by rw [link]; rfl
    have pongs : s'.pongs = s.pongs := by rw [Sys.pongs, link, out]; rfl
    refine ⟨others, ?_, h.drops (u := s.pongs) (v := s.deferred.toList) (w := s.replying) rfl ?_ awaiting pings
      fun ha => absurd closed (answers_iff.mp ha).1⟩
    rotate_left
    · rw [Sys.answers, pongs, none, Sys.replying, hold, Option.toList_none, List.append_nil, Sys.replying]
    rw [hold, none]
    have shape := h.hold
    generalize s.link.hold = hold at shape
    cases shape with
    | quiet hq => exact .quiet hq
    | clear => exact .clear
    | push hk _ => exact .push hk rfl
    | leave => exact .leave

/-- The reader handles a ping. -/
theorem Answering.ping {data : Bytes} {rest : List Op} (h : Answering s)
    (free : s.link.hold = []) (ops : s.rd.ops = .handle (.ping data) :: rest)
    (link : s'.link = s.link.handlePing data) (rd : s'.rd.ops = [.released, .deliver (.ping data)] ++ rest)
    (others : ∀ op ∈ s'.wr.ops ++ s'.pool.flatten, op.pinged? = none) : Answering s' := by
  have before : s.answers = s.pongs ++ s.deferred.toList := by
    rw [Sys.answers, Sys.replying, free, List.filterMap_nil, List.append_nil]
  have awaiting : s'.awaiting = rest.filterMap Op.pinged? := by rw [Sys.awaiting, rd]; rfl
  have trace : s'.link.trace = s.link.trace := by
    rw [link, Link.handlePing]
    split <;> rfl
  have pings : s'.pings = s.pings := by rw [Sys.pings, Sys.decoded, trace]; rfl
  have out : s'.link.out = s.link.out := by
    rw [link, Link.handlePing]
    split <;> rfl
  have pongs : s'.pongs = s.pongs := by rw [Sys.pongs, out, Sys.pongs]
  have deferred : s'.deferred = s.deferred := by rw [Sys.deferred, out, Sys.deferred]
  obtain ⟨received, hp, tally⟩ := h.tally
  have hp' : s'.pings = received ++ [data] ++ s'.awaiting := by
    rw [pings, hp, awaiting, Sys.awaiting, ops, List.append_assoc]
    rfl
  by_cases ha : Link.answers s.link.flags = true
  · -- the ping goes from the reader to the sections under `flags`
    have replying : s'.replying = [data] ∧ Replying s'.deferred s'.link.hold := by
      rw [link, Link.handlePing, if_pos ha, Sys.replying, link, Link.handlePing, if_pos ha]
      dsimp only
      split
      · exact ⟨rfl, .clear⟩
      · exact ⟨rfl, .leave⟩
    have answers : s'.answers = s.answers ++ [data] := by
      rw [before, Sys.answers, pongs, deferred, replying.1]
    refine ⟨others, replying.2, _, hp', ?_, fun _ => ?_⟩
    · rw [answers]
      exact tally.sub.append (List.Sublist.refl _)
    · rw [answers]
      exact .snoc tally.sub data
  · have same : s'.link = s.link := by rw [link, Link.handlePing, if_neg ha]
    have hold : s'.link.hold = [] := by rw [same, free]
    have answers : s'.answers = s.answers := by
      rw [before, Sys.answers, pongs, deferred, Sys.replying, hold, List.filterMap_nil, List.append_nil]
    refine ⟨others, by rw [hold]; exact .quiet (by simp), _, hp', ?_, fun ha' => absurd (same ▸ ha') ha⟩
    rw [answers]
    exact tally.sub.trans (List.sublist_append_left ..)

/-- The writer takes the deferred reply. -/
theorem Answering.flushPong (h : Answering s) (free : s.link.hold = []) (link : s'.link = s.link.flushPong)
    (others : ∀ op ∈ s'.wr.ops ++ s'.pool.flatten, op.pinged? = none) (awaiting : s'.awaiting = s.awaiting) :
    Answering s' := by
  have pings : s'.pings = s.pings := by rw [Sys.pings, Sys.decoded, link, trace_flushPong]; rfl
  have pongs : s'.pongs = s.pongs := by rw [Sys.pongs, link, out_flushPong]; rfl
  have none : s'.deferred = none := by rw [Sys.deferred, link, out_flushPong]; rfl
  have flags : s'.link.flags = s.link.flags := by rw [link, flags_flushPong]
  have before : s.answers = s.pongs ++ s.deferred.toList := by
    rw [Sys.answers, Sys.replying, free, List.filterMap_nil, List.append_nil]
  obtain ⟨received, hp, tally⟩ := h.tally
  have hp' : s'.pings = received ++ s'.awaiting := by rw [pings, awaiting, hp]
  have hold : s'.link.hold = [] ∧ (s.deferred = .none ∨ Link.answers s.link.flags = false) ∨
      ∃ data, s.deferred = some data ∧ s'.link.hold = [.pushFrame .deferred PONG data] := by
    rw [link]
    unfold Link.flushPong
    dsimp only
    cases hd : s.link.out.box.queue.pong with
    | none => exact .inl ⟨free, .inl hd⟩
    | some data =>
      dsimp only
      split
      · exact .inr ⟨data, hd, rfl⟩
      · exact .inl ⟨free, .inr (Bool.eq_false_iff.mpr ‹_›)⟩
  rcases hold with ⟨hold, why⟩ | ⟨data, hdata, hold⟩
  · have answers : s'.answers = s.pongs := by
      rw [Sys.answers, pongs, none, Sys.replying, hold]
      simp
    refine ⟨others, by rw [hold]; exact .quiet (by simp), received, hp', ?_, fun ha => ?_⟩
    · refine List.Sublist.trans ?_ tally.sub
      rw [answers, before]
      exact List.sublist_append_left ..
    · rw [flags] at ha
      have dnone := why.resolve_right (by rw [ha]; simp)
      have latest := tally.latest ha
      rw [before, dnone, Option.toList_none, List.append_nil] at latest
      rw [answers]
      exact latest
  · have answers : s'.answers = s.answers := by
      rw [before, Sys.answers, pongs, none, Sys.replying, hold, hdata]
      simp [Section.reply?]
    refine ⟨others, by rw [hold]; exact .push (.inr rfl) none, received, hp', answers ▸ tally.sub, fun ha => ?_⟩
    rw [answers]
    exact tally.latest (flags ▸ ha)

/-- The reader decodes a message. -/
theorem Answering.decoded {m : Msg} (h : Answering s) (idle : s.rd.ops = [])
    (link : s'.link = s.link.note (.decoded m)) (rd : s'.rd.ops = [.handle m])
    (others : ∀ op ∈ s'.wr.ops ++ s'.pool.flatten, op.pinged? = none) : Answering s' := by
  have pongs : s'.pongs = s.pongs := by rw [Sys.pongs, link]; rfl
  have deferred : s'.deferred = s.deferred := by rw [Sys.deferred, link]; rfl
  have hold : s'.link.hold = s.link.hold := by rw [link]; rfl
  have none : s.awaiting = [] := by rw [Sys.awaiting, idle]; rfl
  have awaiting : s'.awaiting = (Msg.ping? m).toList := by
    rw [Sys.awaiting, rd]
    cases m <;> rfl
  have pings : s'.pings = s.pings ++ (Msg.ping? m).toList := by
    have trace : s'.link.trace = s.link.trace ++ [.decoded m] := by rw [link]; rfl
    rw [Sys.pings, Sys.decoded, trace, List.filterMap_append, List.filterMap_append, Sys.pings]
    cases m <;> rfl
  have answers : s'.answers = s.answers := by
    rw [Sys.answers, pongs, deferred, Sys.replying, hold, ← Sys.replying, Sys.answers]
  obtain ⟨received, hp, tally⟩ := h.tally
  refine ⟨others, by rw [hold, deferred]; exact h.hold, received, ?_, answers ▸ tally.sub, fun ha => ?_⟩
  · rw [pings, awaiting, hp, none, List.append_nil]
  · rw [answers]
    exact tally.latest (by rw [link] at ha; exact ha)

theorem Answering.step (h : Answering s) (he : Effect cfg s lab s' used new)
    (reach : Reachable (Sys.step cfg) (.init cfg) s) : Answering s' := by
  have he' := he
  have spawn {ops : List Op} (hops : ∀ op ∈ ops, op.pinged? = none) :
      ∀ op ∈ s.wr.ops ++ (s.pool ++ [ops]).flatten, op.pinged? = none := by
    rw [List.flatten_append, List.flatten_singleton, ← List.append_assoc]
    exact List.forall_mem_append.mpr ⟨h.others, hops⟩
  have replaced {ops : List Op} (hops : ∀ op ∈ ops, op.pinged? = none) :
      ∀ op ∈ ops ++ s.pool.flatten, op.pinged? = none :=
    List.forall_mem_append.mpr ⟨hops, (List.forall_mem_append.mp h.others).2⟩
  have noted {o : Obs} (ht : s'.link.trace = s.link.trace ++ [o]) (ho : o.decoded? = none) : s'.pings = s.pings := by
    rw [Sys.pings, decoded_append ht (List.forall_mem_singleton.mpr ho), Sys.pings]
  cases he with
  | env q =>
    exact h.same he' h.others (by rw [Sys.pongs, q.out]; rfl) (by rw [Sys.deferred, q.out]; rfl) (.inl q.hold) rfl
      (by rw [Sys.pings, Sys.decoded, q.trace]; rfl)
  | left q stopped hub plain why brief =>
    exact h.same he' (spawn fun op hop => pinged_of_aborts (brief op hop)) (by rw [Sys.pongs, Sys.spawn, q.out]; rfl)
      (by rw [Sys.deferred, Sys.spawn, q.out]; rfl) (.inl q.hold) rfl
      (by rw [Sys.pings, Sys.decoded, Sys.spawn, q.trace]; rfl)
  | @sent op payload free legal =>
    refine h.same he' h.others (by rw [Sys.pongs, out_send]; rfl) (by rw [Sys.deferred, out_send]; rfl) ?_ rfl ?_
    · dsimp only
      rw [Link.send]
      split
      · exact .inl rfl
      · have quiet : ∀ x ∈ s.link.hold, x.replies = false := by rw [free]; simp
        split <;> exact .inr ⟨quiet, List.forall_mem_singleton.mpr rfl⟩
    · rcases trace_send cfg s.link op payload with ht | ⟨why, ht, -⟩
      · rw [Sys.pings, Sys.decoded, ht]
        rfl
      · exact noted ht rfl
  | refused => exact h.same he' h.others rfl rfl (.inl rfl) rfl (noted rfl rfl)
  | @close code reason free =>
    have ops : ∀ op ∈ (s.link.close code reason).2, op.pinged? = none := by
      unfold Link.close
      dsimp only
      split
      · exact fun op hop => pinged_of_aborts (aborts_fail _ op hop)
      · simp
      · simp
    refine h.same he' (spawn ops) (by rw [Sys.pongs, Sys.spawn, out_close]; rfl)
      (by rw [Sys.deferred, Sys.spawn, out_close]; rfl) ?_ rfl (noted (trace_close ..) rfl)
    dsimp only [Sys.spawn]
    unfold Link.close
    dsimp only
    split
    · exact .inl rfl
    · exact .inr ⟨by rw [free]; simp, List.forall_mem_singleton.mpr rfl⟩
    · exact .inl rfl
  | terminate =>
    exact h.same he' (spawn fun op hop => pinged_of_aborts (aborts_terminate op hop)) rfl rfl (.inl rfl) rfl rfl
  | @held key l hs =>
    have pings : Sys.pings { s with link := l } = s.pings := by
      rcases trace_holdStep hs with ht | ⟨_, _, _, ht⟩
      · rw [Sys.pings, Sys.decoded, ht]
        rfl
      · exact noted ht rfl
    obtain ⟨x, rest, hold, rfl⟩ := Link.holdStep_some hs
    exact h.held he' reach hold rfl rfl rfl pings rfl
  | @execPool i op rest ops free =>
    have hmem : op :: rest ∈ s.pool := List.mem_of_getElem? ops
    have others := List.forall_mem_append.mp h.others
    have thread : ∀ o ∈ op :: rest, o.pinged? = none := fun o ho => others.2 o (List.mem_flatten.mpr ⟨_, hmem, ho⟩)
    rw [List.forall_mem_cons] at thread
    refine h.exec he' reach rfl thread.1 free rfl (List.forall_mem_append.mpr ⟨others.1, fun o ho => ?_⟩) rfl
    obtain ⟨t, ht, hot⟩ := List.mem_flatten.mp ho
    rcases List.mem_or_eq_of_mem_set ht with ht | rfl
    · exact others.2 o (List.mem_flatten.mpr ⟨t, ht, hot⟩)
    · exact List.forall_mem_append.mpr ⟨exec_pinged s.link op, thread.2⟩ o hot
  | @execReader op rest run ops free =>
    have none := List.filterMap_eq_nil_iff.mpr (@exec_pinged cfg s.link op)
    cases hp : op.pinged? with
    | none =>
      refine h.exec he' reach rfl hp free rfl h.others ?_
      rw [Sys.awaiting, Sys.awaiting, ops, List.filterMap_append, none, List.filterMap_cons, hp]
      rfl
    | some data =>
      cases op with
      | handle m =>
        cases m with
        | ping data => exact h.ping (free rfl) ops rfl rfl h.others
        | _ => cases hp
      | _ => cases hp
  | @execWriter op rest run ops free =>
    have others := List.forall_mem_append.mp h.others
    have thread := others.1
    rw [ops, List.forall_mem_cons] at thread
    exact h.exec he' reach rfl thread.1 free rfl
      (replaced (List.forall_mem_append.mpr ⟨exec_pinged s.link op, thread.2⟩)) rfl
  | opened => exact h.same he' h.others rfl rfl (.inl rfl) rfl (noted rfl rfl)
  | reading run idle hr =>
    refine h.same he' h.others rfl rfl (.inl rfl) ?_ rfl
    rw [Sys.awaiting, Sys.awaiting, idle, hr.ops_eq idle, List.filterMap_nil, List.filterMap_eq_nil_iff]
    intro op hop
    cases hr with
    | hub => exact pinged_of_aborts (aborts_terminate op hop)
    | ending => cases List.mem_singleton.mp hop; rfl
    | error pc hlab plain brief => exact pinged_of_aborts (brief op hop)
    | dead => exact pinged_of_aborts (aborts_fail _ op hop)
    | _ => cases hop
  | decoded run idle => exact h.decoded idle rfl rfl h.others
  | failed run idle => exact h.same he' h.others rfl rfl (.inl rfl) (by rw [Sys.awaiting, Sys.awaiting, idle]; rfl) rfl
  | ping run idle free =>
    exact h.same he' h.others rfl rfl (.inr ⟨by rw [free]; simp, List.forall_mem_singleton.mpr rfl⟩)
      (by rw [Sys.awaiting, Sys.awaiting, idle]; rfl) rfl
  | writing run idle hw =>
    refine h.same he' (replaced ?_) rfl rfl (.inl rfl) rfl rfl
    rw [hw.ops_eq idle]
    cases hw with
    | hub => exact fun op hop => pinged_of_aborts (aborts_terminate op hop)
    | error => exact List.forall_mem_singleton.mpr rfl
    | _ => simp
  | swap run idle at_ live hs =>
    obtain ⟨-, -, rfl⟩ := Out.swap_some hs
    exact h.same he' h.others (by simp only [Sys.pongs, Out.log, List.append_nil]) rfl (.inl rfl) rfl rfl
  | flushPong run idle pc free =>
    exact h.flushPong free rfl (replaced (List.forall_mem_singleton.mpr rfl)) rfl
  | pop run idle at_ hs =>
    obtain ⟨-, item, t, -, rfl⟩ := Out.pop_some hs
    exact h.same he' h.others rfl rfl (.inl rfl) rfl rfl
  | write run idle pc hs =>
    obtain ⟨c, -, -, -, -, rfl⟩ := Out.write_some hs
    exact h.same he' h.others rfl rfl (.inl rfl) rfl rfl
  | progress run idle pc hs =>
    obtain ⟨c, -, -, -, rfl⟩ := Out.progress_some hs
    exact h.same he' h.others rfl (by simp only [Sys.deferred, Outbox.progress_eq]) (.inl rfl) rfl rfl
  | drain run idle pc hs =>
    obtain ⟨c, -, -, -, rfl⟩ := Out.progress_some hs
    exact h.same he' (replaced (List.forall_mem_singleton.mpr rfl)) rfl
      (by simp only [Sys.deferred, Outbox.progress_eq, Link.note]) (.inl rfl) rfl (noted rfl rfl)
  | finish run idle pc hs =>
    obtain ⟨c, -, -, -, rfl⟩ := Out.finish_some hs
    exact h.same he' h.others rfl rfl (.inl rfl) rfl rfl
  | _ => exact h.same he' h.others rfl rfl (.inl rfl) rfl rfl

theorem Answering.of_reachable (h : Reachable (Sys.step cfg) (.init cfg) s) : Answering s := by
  refine h.invariant ⟨nofun, .quiet nofun, [], rfl, List.Sublist.refl _, fun _ => .inl rfl⟩ ?_
  intro u l v hu hI hv
  obtain ⟨used, new, he⟩ := step_effect hv
  exact hI.step he hu

/-! ## The order of pongs -/

/-- The payload of a pong. -/
def pongPayload? (w : Wire) : Option Bytes := if w.op = PONG then some w.payload else none

/-- The replies are the frames with the opcode of a pong. -/
theorem pongs_eq (h : Reachable (Sys.step cfg) (.init cfg) s) : s.frames.filterMap pongPayload? = s.pongs := by
  have legal := (Sane.of_reachable h).link.log
  rw [Sys.frames, List.filterMap_filterMap, Sys.pongs]
  refine List.filterMap_congr fun e he => ?_
  cases e with
  | shutdown => rfl
  | frame kind w =>
    have hop := legal _ he
    have ne (op : UInt8) (ho : w.op = op) (hp : op ≠ PONG) : pongPayload? w = none := by
      rw [pongPayload?, if_neg (ho ▸ hp)]
    cases kind with
    | app =>
      rcases hop.2.2.2 with ⟨ho, -⟩ | ho | ⟨ho, -⟩
      · exact ne _ ho (by decide)
      · exact ne _ ho (by decide)
      · exact ne _ ho (by decide)
    | pong => exact if_pos hop.2.2.1
    | deferred => exact if_pos hop.2.2.1
    | heartbeat => exact ne _ hop.2.2.1 (by decide)
    | close => exact ne _ hop.2.2.1 (by decide)

/-- **Pongs are ordered and the latest ping is never forgotten.** The pongs enqueued answer some of the
pings received, in order and each once. While the link is not closed and neither the peer's
close nor a violation is recorded, the latest ping that `handle` has taken has its pong
enqueued, or waits in `Queue.pong`, or is in the hands of whoever holds `flags`. -/
theorem pong_order (h : Reachable (Sys.step cfg) (.init cfg) s) :
    (s.frames.filterMap pongPayload?).Sublist s.pings ∧
      (s.state ≠ .closed → s.link.flags.received = none → s.link.flags.failed = none →
        ∀ before p, s.pings = before ++ p :: s.awaiting →
          ∃ x, s.frames.filterMap pongPayload? ++ s.deferred.toList ++ s.replying = x ++ [p] ∧ x.Sublist before) := by
  rw [pongs_eq h]
  obtain ⟨received, hp, tally⟩ := (Answering.of_reachable h).tally
  refine ⟨?_, fun alive hr hf before p heq => ?_⟩
  · rw [hp]
    refine List.Sublist.trans ?_ (tally.sub.trans (List.sublist_append_left ..))
    rw [Sys.answers, List.append_assoc]
    exact List.sublist_append_left ..
  · have answers : Link.answers s.link.flags = true :=
      answers_iff.mpr ⟨alive, by rw [Flags.recorded, hr, hf]; rfl⟩
    obtain rfl : received = before ++ [p] := by
      rw [hp, ← List.singleton_append, ← List.append_assoc] at heq
      exact (List.append_cancel_right heq)
    rcases tally.latest answers with hnil | ⟨x, y, z, ha, hy, hsub⟩
    · simp at hnil
    · obtain ⟨rfl, hz⟩ := List.append_inj' hy rfl
      cases hz
      exact ⟨x, ha, hsub⟩

/-- A link reads a ping of two bytes and answers it. -/
def answerRun : List Label :=
  openRun ++ List.replicate 4 .reader ++ [.input [0x89, 0x82, 0, 0, 0, 0, 1, 2]] ++ List.replicate 3 .reader ++
    [.hold ⟨0, 0, 0, 0⟩, .hold ⟨0, 0, 0, 0⟩]

/-- The ping is the latest, and its pong is enqueued. -/
theorem pong_order_answered :
    ∃ s, runs (Sys.step .small) (.init .small) answerRun = some s ∧ s.pings = [[1, 2]] ∧
      s.frames.filterMap pongPayload? = [[1, 2]] ∧ (s.frames.filterMap pongPayload?).Sublist s.pings ∧
      ∃ x, s.frames.filterMap pongPayload? ++ s.deferred.toList ++ s.replying = x ++ [[1, 2]] ∧ x.Sublist [] :=
  have order := @pong_order .small _ ⟨answerRun, rfl⟩
  ⟨_, rfl, rfl, rfl, order.1, order.2 nofun rfl rfl [] [1, 2] rfl⟩

end Steps

end WebSocket.Net
