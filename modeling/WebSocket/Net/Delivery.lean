import WebSocket.Net.Accounting
import WebSocket.Net.Locked
import WebSocket.Proto.Stream

/-!
# What is sent is what arrives

Three facts make a stream of the frames a link enqueues. The bytes written, those the
writer still holds and those in the queue are the encoding of the log (`Carried`). The
log holds one application frame for each `send` that returned `Ok` (`Matched`): whoever
holds `flags` to enqueue found the link open, so the transport is set (`Gated`). And
every frame of the log is one whole message for a reader of the opposite role.
-/

namespace WebSocket.Net

open Proto Lib.Transition

/-- The opcode and payload of an application frame. -/
def Entry.sent? : Entry → Option (UInt8 × Bytes)
  | .frame .app w => some (w.op, w.payload)
  | _ => none

def Entry.wire? : Entry → Option Wire
  | .frame _ w => some w
  | .shutdown => none

namespace Sys

/-- The frames enqueued, in order. -/
def frames (s : Sys) : List Wire := s.link.out.log.filterMap Entry.wire?

/-- What was accepted by `send`, in order. -/
def accepted (s : Sys) : List (UInt8 × Bytes) := s.link.trace.filterMap Obs.sent?

end Sys

/-! ## The transport is set before anything is enqueued -/

section Gates

variable {cfg : Config} {o o' : Out}

/-- The transport stays set and a stopped writer stays stopped. -/
theorem OutStep.gates (h : OutStep cfg o o') :
    (o.box.io = true → o'.box.io = true) ∧ (o.box.queue.done = true → o'.box.queue.done = true) := by
  cases h with
  | @frame kind op payload key other legal =>
    cases hl : o.box.live with
    | true =>
      obtain ⟨items, -, hp⟩ := Outbox.pushFrame_live cfg op key hl legal.bound
      simp only [Out.pushFrame, hp]
      exact ⟨id, id⟩
    | false =>
      simp only [Out.pushFrame, Outbox.pushFrame_dead hl]
      exact ⟨id, id⟩
  | heartbeat =>
    cases hl : o.box.live with
    | true =>
      simp only [Out.pushHeartbeat, Outbox.pushHeartbeat_live hl]
      exact ⟨id, id⟩
    | false =>
      simp only [Out.pushHeartbeat, Outbox.pushHeartbeat_dead hl]
      exact ⟨id, id⟩
  | shutdown =>
    cases hl : o.box.live with
    | true =>
      simp only [Out.pushShutdown, Outbox.pushShutdown_live hl]
      exact ⟨id, id⟩
    | false =>
      simp only [Out.pushShutdown, Outbox.pushShutdown_dead hl]
      exact ⟨id, id⟩
  | stop => exact ⟨id, fun _ => rfl⟩
  | io => exact ⟨fun _ => rfl, id⟩
  | swap live h =>
    obtain ⟨-, -, rfl⟩ := Out.swap_some h
    exact ⟨id, id⟩
  | pop h =>
    obtain ⟨-, item, t, -, rfl⟩ := Out.pop_some h
    exact ⟨id, id⟩
  | write h =>
    obtain ⟨c, -, -, -, -, rfl⟩ := Out.write_some h
    exact ⟨id, id⟩
  | progress h =>
    obtain ⟨c, -, -, -, rfl⟩ := Out.progress_some h
    simp only [Outbox.progress_eq]
    exact ⟨id, id⟩
  | finish h =>
    obtain ⟨c, -, -, -, rfl⟩ := Out.finish_some h
    exact ⟨id, id⟩
  | pong => exact ⟨id, id⟩
  | register => exact ⟨id, id⟩
  | endShutdown => exact ⟨id, id⟩

end Gates

section Steps

variable {cfg : Config} {s s' : Sys} {lab : Label} {used new : List Op}

theorem Effect.gates (h : Effect cfg s lab s' used new) (sane : Sane cfg s) :
    (s.link.out.box.io = true → s'.link.out.box.io = true) ∧
      (s.link.out.box.queue.done = true → s'.link.out.box.queue.done = true) := by
  rcases h.out sane.link.hold with h | h
  · rw [h]
    exact ⟨id, id⟩
  · exact h.gates

/-- A section that takes in a message leaves sections behind only on a link that is not closed. -/
theorem hold_took {l : Link} {op : Op} (h : op.takes = true) (free : l.hold = [])
    (hold : (l.exec cfg op).1.hold ≠ []) : l.flags.state ≠ .closed := by
  cases op with
  | handle m =>
    cases m with
    | ping data =>
      rw [Link.exec, Link.handle, Link.handlePing] at hold
      split at hold
      · rename_i ha
        simp only [Link.answers, Bool.and_eq_true, decide_eq_true_eq] at ha
        exact ha.1.1
      · exact absurd free hold
    | close status =>
      rw [Link.exec, Link.handle, Link.closing] at hold
      split at hold
      · exact absurd free hold
      · rename_i hc
        exact fun hs => hc (.inl hs)
    | text data => exact absurd free hold
    | binary data => exact absurd free hold
    | pong data => exact absurd free hold
  | violation f =>
    rw [Link.exec, Link.violate] at hold
    split at hold
    · exact absurd free hold
    · assumption
  | _ => cases h

/-- `flags` is taken for the queue only on a link that has opened and not closed. -/
theorem Locked.hold (h : Locked cfg s s' used) (sec : Sections s) (mem : ∀ op ∈ used, op ∈ s.ops)
    (hold : s'.link.hold ≠ []) : s.link.hold ≠ [] ∨ s.state = .opened ∨ s.state = .closing := by
  have lively (h1 : s.state ≠ .connecting) (h2 : s.state ≠ .closed) : s.state = .opened ∨ s.state = .closing := by
    revert h1 h2
    cases s.state <;> simp
  cases h with
  | other flags hold' => exact .inl (hold' ▸ hold)
  | turns free turns => exact absurd (turns.hold.trans free) hold
  | held hold' => exact .inl (by rw [hold']; exact List.cons_ne_nil _ _)
  | sent free legal link =>
    rw [link, Link.send] at hold
    split at hold
    · exact absurd free hold
    · rename_i h
      exact .inr (.inl (Classical.not_not.mp fun hs => h (.inl hs)))
  | close free link =>
    rw [link] at hold
    unfold Link.close at hold
    dsimp only at hold
    split at hold
    · exact absurd free hold
    · rename_i hs
      exact .inr (.inl hs)
    · exact absurd free hold
  | @took op free hused takes link =>
    rw [link] at hold
    have hop : op ∈ s.ops := mem op (by rw [hused]; exact List.mem_singleton_self op)
    exact .inr (lively (sec.loud op hop (.inl takes)) (hold_took takes free hold))
  | flushPong free run pc link =>
    rw [link] at hold
    unfold Link.flushPong at hold
    dsimp only at hold
    split at hold
    · split at hold
      · rename_i ha
        simp only [Link.answers, Bool.and_eq_true, decide_eq_true_eq] at ha
        exact .inr (lively (sec.task (by rw [run]; rfl)) ha.1.1)
      · exact absurd free hold
    · exact absurd free hold
  | ping free state link => exact .inr (.inl state)

/-- The transport is set wherever a frame may be on its way to the queue. -/
structure Gated (s : Sys) : Prop where
  starting : ∀ rest, s.task = .starting rest → s.link.out.box.io = true
  lively : s.state = .opened ∨ s.state = .closing → s.link.out.box.io = true
  hold : s.link.hold ≠ [] → s.link.out.box.io = true

theorem Effect.starting {rest : Bytes} (h : Effect cfg s lab s' used new) (ht : s'.task = .starting rest) :
    s.task = .starting rest ∨ s'.link.out.box.io = true := by
  cases h with
  | connected => exact .inr rfl
  | opened => cases ht
  | started => cases ht
  | left => cases ht
  | _ => exact .inl ht

theorem Gated.step (h : Gated s) (sane : Sane cfg s) (sec : Sections s) (he : Effect cfg s lab s' used new) :
    Gated s' := by
  have io := (he.gates sane).1
  refine ⟨fun rest ht => ?_, fun hs => ?_, fun hh => ?_⟩
  · rcases he.starting ht with ht | hio
    · exact io (h.starting rest ht)
    · exact hio
  · cases he.lives with
    | keeps state => exact io (h.lively (state ▸ hs))
    | emits op state => exact io (h.lively (state ▸ hs))
    | opens task => exact io (h.starting _ task)
    | closes alive state' why =>
      rcases why with ⟨op, hop, ht⟩ | ho
      · have hcon := sec.loud op (he.used_mem hop) (.inl ht)
        refine io (h.lively ?_)
        revert alive hcon
        cases s.state <;> simp
      · exact io (h.lively (.inl ho))
    | finishes op alive state' =>
      rw [state'] at hs
      rcases hs with hs | hs <;> cases hs
  · rcases he.locked.hold sec (fun _ => he.used_mem) hh with hh | hs
    · exact io (h.hold hh)
    · exact io (h.lively hs)

theorem Gated.of_reachable (h : Reachable (Sys.step cfg) (.init cfg) s) : Gated s := by
  refine h.invariant ⟨fun _ h => (nomatch h), (by rintro (h | h) <;> cases h), fun h => absurd rfl h⟩ ?_
  intro u l v hu hI hv
  obtain ⟨used, new, he⟩ := step_effect hv
  exact hI.step (.of_reachable hu) (.of_reachable hu) he

/-! ## The writer is stopped at the end -/

theorem Outbox.done_pushFrame (o : Outbox) (op : UInt8) (payload : Bytes) (key : Key) :
    (o.pushFrame cfg op payload key).queue.done = o.queue.done := by
  unfold pushFrame push enqueue
  dsimp only
  repeat' split
  all_goals rfl

theorem done_execSection (l : Link) (key : Key) (x : Section) :
    (l.execSection cfg key x).1.out.box.queue.done = l.out.box.queue.done := by
  cases x with
  | pushFrame kind op payload =>
    rw [Link.execSection]
    dsimp only
    split <;> exact Outbox.done_pushFrame ..
  | recheck op payload =>
    rw [Link.execSection]
    split <;> rfl
  | pushHeartbeat sent =>
    cases hl : l.out.box.live with
    | true => simp only [Link.execSection, Out.pushHeartbeat, Outbox.pushHeartbeat_live hl]
    | false => simp only [Link.execSection, Out.pushHeartbeat, Outbox.pushHeartbeat_dead hl]
  | pushShutdown =>
    cases hl : l.out.box.live with
    | true => simp only [Link.execSection, Out.pushShutdown, Outbox.pushShutdown_live hl]
    | false => simp only [Link.execSection, Out.pushShutdown, Outbox.pushShutdown_dead hl]
  | clearPong => rfl
  | deferPong data => rfl

/-- Only `stop_writer` sets `done`. -/
theorem Effect.done_eq (h : Effect cfg s lab s' used new) :
    s'.link.out.box.queue.done = s.link.out.box.queue.done ∨ .stopWriter ∈ used := by
  have exec (op : Op) : (s.link.exec cfg op).1.out.box.queue.done = s.link.out.box.queue.done ∨ .stopWriter ∈ [op] := by
    rcases exec_out cfg s.link op with h | ⟨rfl, -⟩
    · exact .inl (by rw [h])
    · exact .inr (List.mem_singleton_self _)
  cases h with
  | env q => exact .inl (by rw [q.out])
  | left q => exact .inl (by rw [Sys.spawn, q.out])
  | sent => exact .inl (by rw [out_send])
  | close => exact .inl (by rw [Sys.spawn, out_close])
  | held h =>
    obtain ⟨x, rest, -, rfl⟩ := Link.holdStep_some h
    exact .inl (done_execSection ..)
  | execPool => exact exec _
  | execReader => exact exec _
  | execWriter => exact exec _
  | flushPong => exact .inl (by rw [out_flushPong]; rfl)
  | swap run idle at_ live h =>
    obtain ⟨-, -, rfl⟩ := Out.swap_some h
    exact .inl rfl
  | pop run idle at_ h =>
    obtain ⟨-, item, t, -, rfl⟩ := Out.pop_some h
    exact .inl rfl
  | write run idle pc h =>
    obtain ⟨c, -, -, -, -, rfl⟩ := Out.write_some h
    exact .inl rfl
  | progress run idle pc h =>
    obtain ⟨c, -, -, -, rfl⟩ := Out.progress_some h
    exact .inl (by simp only [Outbox.progress_eq])
  | drain run idle pc h =>
    obtain ⟨c, -, -, -, rfl⟩ := Out.progress_some h
    exact .inl (by simp only [Outbox.progress_eq, Link.note])
  | finish run idle pc h =>
    obtain ⟨c, -, -, -, rfl⟩ := Out.finish_some h
    exact .inl rfl
  | _ => exact .inl rfl

/-- The sections by which `finish` stops the two loops. -/
def Op.halts : Op → Bool
  | .stopWriter | .setStopped => true
  | _ => false

/-- `finish` leaves them behind, on a link it has just closed. -/
theorem halts_exec {l : Link} {op : Op} (h : (l.exec cfg op).2.any Op.halts = true) :
    (l.exec cfg op).1.flags.state = .closed := by
  cases op with
  | finish code reason =>
    rw [Link.exec] at h ⊢
    split
    · assumption
    · rfl
  | handle m =>
    rw [Link.exec] at h
    cases m with
    | text data => rw [Link.handle] at h; split at h <;> cases h
    | binary data => rw [Link.handle] at h; split at h <;> cases h
    | ping data => cases h
    | pong data => rw [Link.handle] at h; split at h <;> cases h
    | close status => cases h
  | deliver e => rw [Link.exec] at h; split at h <;> cases h
  | deliverOpen e => rw [Link.exec] at h; split at h <;> cases h
  | checkHub => rw [Link.exec] at h; split at h <;> cases h
  | _ => cases h

theorem Effect.new_halts (h : Effect cfg s lab s' used new) (hm : new.any Op.halts = true) : s'.state = .closed := by
  have none {P : Prop} {ops : List Op} (brief : ∀ op ∈ ops, op.aborts = true) (h : ops.any Op.halts = true) : P := by
    obtain ⟨op, hop, halts⟩ := List.any_eq_true.mp h
    have aborts := brief op hop
    cases op with
    | stopWriter => cases aborts
    | setStopped => cases aborts
    | _ => cases halts
  cases h with
  | close free valid short hlab =>
    refine none (fun op hop => ?_) hm
    unfold Link.close at hop
    dsimp only at hop
    split at hop
    · exact aborts_fail _ op hop
    · cases hop
    · cases hop
  | terminate => exact none aborts_terminate hm
  | left q stopped hub plain why brief => exact none brief hm
  | execPool => exact halts_exec hm
  | execReader => exact halts_exec hm
  | execWriter => exact halts_exec hm
  | reading run idle h =>
    cases h with
    | hub => exact none aborts_terminate hm
    | error pc hlab plain brief => exact none brief hm
    | dead => exact none (aborts_fail _) hm
    | _ => cases hm
  | writing run idle h =>
    cases h with
    | hub => exact none aborts_terminate hm
    | _ => cases hm
  | _ => cases hm

/-- The writer is stopped only once the link is closed. -/
structure Stopping (s : Sys) : Prop where
  ops : .stopWriter ∈ s.ops → s.state = .closed
  done : s.link.out.box.queue.done = true → s.state = .closed

theorem Effect.stays_closed (h : Effect cfg s lab s' used new) (hc : s.state = .closed) : s'.state = .closed := by
  have rank := h.lives.rank_le
  rw [hc] at rank
  revert rank
  cases s'.state <;> simp [State.rank]

theorem Stopping.step (h : Stopping s) (he : Effect cfg s lab s' used new) : Stopping s' := by
  refine ⟨fun hm => ?_, fun hd => ?_⟩
  · rcases he.mem_ops hm with hm | hm
    · exact he.stays_closed (h.ops hm)
    · exact he.new_halts (List.any_eq_true.mpr ⟨_, hm, rfl⟩)
  · rcases he.done_eq with heq | hm
    · exact he.stays_closed (h.done (heq ▸ hd))
    · exact he.stays_closed (h.ops (he.used_mem hm))

theorem Stopping.of_reachable (h : Reachable (Sys.step cfg) (.init cfg) s) : Stopping s := by
  refine h.invariant ⟨nofun, nofun⟩ ?_
  intro u l v hu hI hv
  obtain ⟨used, new, he⟩ := step_effect hv
  exact hI.step he

theorem Effect.hold_finish {code : UInt16} {reason : Str} (h : Effect cfg s lab s' used new)
    (hu : used = [.finish code reason]) : s'.link.hold = [] := by
  have exec (free : s.link.hold = []) : (s.link.exec cfg (.finish code reason)).1.hold = [] := by
    rw [Link.exec]
    split <;> exact free
  cases h with
  | execPool ops free => cases hu; exact exec (free rfl)
  | execReader run ops free => cases hu; exact exec (free rfl)
  | execWriter run ops free => cases hu; exact exec (free rfl)
  | _ => cases hu

/-- `flags` is held for the queue only on a link that has opened and not closed. -/
theorem Effect.busy (he : Effect cfg s lab s' used new) (sec : Sections s)
    (busy : s.link.hold ≠ [] → s.state = .opened ∨ s.state = .closing) (hold : s'.link.hold ≠ []) :
    s'.state = .opened ∨ s'.state = .closing := by
  have lively := (he.locked.hold sec (fun _ => he.used_mem) hold).elim busy id
  cases he.lives with
  | keeps state => rw [state]; exact lively
  | emits op state => rw [state]; exact lively
  | opens task state => rw [state] at lively; rcases lively with h | h <;> cases h
  | closes alive state' => exact .inr state'
  | finishes op => exact absurd (he.hold_finish op) hold

theorem busy_of_reachable (h : Reachable (Sys.step cfg) (.init cfg) s) :
    s.link.hold ≠ [] → s.state = .opened ∨ s.state = .closing := by
  refine h.invariant (I := fun s => s.link.hold ≠ [] → s.state = .opened ∨ s.state = .closing) (absurd rfl) ?_
  intro u l v hu hI hv
  obtain ⟨used, new, he⟩ := step_effect hv
  exact he.busy (.of_reachable hu) hI

/-- A section that waits for the queue takes effect. -/
theorem live_of_hold (h : Reachable (Sys.step cfg) (.init cfg) s) (hold : s.link.hold ≠ []) :
    s.link.out.box.live = true := by
  have done : s.link.out.box.queue.done = false := by
    refine Bool.eq_false_iff.mpr fun hd => ?_
    have closed := (Stopping.of_reachable h).done hd
    rcases busy_of_reachable h hold with hs | hs <;> rw [closed] at hs <;> cases hs
  rw [Outbox.live, (Gated.of_reachable h).hold hold, done]
  rfl

/-! ## One frame for each accepted `send` -/

/-- The log holds the frames of the sends that returned `Ok`, until the writer is stopped. -/
def Matched (s : Sys) : Prop :=
  s.link.out.box.queue.done = false → s.link.out.log.filterMap Entry.sent? = s.accepted

theorem Matched.same (h : Matched s) (done : s'.link.out.box.queue.done = false → s.link.out.box.queue.done = false)
    (log : s'.link.out.log.filterMap Entry.sent? = s.link.out.log.filterMap Entry.sent?)
    (sends : s'.accepted = s.accepted) : Matched s' := by
  intro hd
  rw [log, sends]
  exact h (done hd)

/-- A frame that is not the application's adds no sent frame to the log. -/
theorem sent_log_record {o : Out} {e : Entry} (he : e.sent? = none) :
    (o.gone ++ o.inBatch ++ o.record e).filterMap Entry.sent? = o.log.filterMap Entry.sent? := by
  rw [Out.log_record]
  split
  · rw [List.filterMap_append]
    simp [he]
  · rfl

theorem Matched.held {key : Key} {x : Section} {rest : List Section} (h : Matched s) (gated : Gated s)
    (done : s'.link.out.box.queue.done = false → s.link.out.box.queue.done = false)
    (hold : s.link.hold = x :: rest)
    (link : s'.link = { (s.link.execSection cfg key x).1 with hold := (s.link.execSection cfg key x).2 ++ rest }) :
    Matched s' := by
  have io := gated.hold (by rw [hold]; exact List.cons_ne_nil _ _)
  have same (log : s'.link.out.log.filterMap Entry.sent? = s.link.out.log.filterMap Entry.sent?)
      (trace : s'.link.trace = s.link.trace) : Matched s' :=
    h.same done log (by rw [Sys.accepted, trace, Sys.accepted])
  cases x with
  | pushFrame kind op payload =>
    rw [Link.execSection] at link
    dsimp only at link
    by_cases hk : kind = .app
    · cases hk
      rw [if_pos rfl] at link
      intro hd
      have live : s.link.out.box.live = true := by rw [Outbox.live, io, done hd]; rfl
      have log : s'.link.out.log = s.link.out.log ++ [.frame .app ⟨true, op, payload, cfg.mask key⟩] := by
        rw [link]
        exact (Out.log_pushFrame ..).trans (if_pos live)
      have trace : s'.link.trace = s.link.trace ++ [.returned op payload (.ok ())] := by rw [link]; rfl
      rw [log, Sys.accepted, trace, List.filterMap_append, List.filterMap_append, h (done hd)]
      rfl
    · rw [if_neg hk] at link
      refine same ?_ (by rw [link])
      rw [link]
      refine sent_log_record (o := s.link.out) (e := .frame kind ⟨true, op, payload, cfg.mask key⟩) ?_
      cases kind <;> first | rfl | exact absurd rfl hk
  | recheck op payload =>
    rw [Link.execSection] at link
    dsimp only at link
    split at link
    · exact same (by rw [link]) (by rw [link])
    · refine h.same done (by rw [link]; rfl) ?_
      exact sends_note (o := .returned op payload (.error "send buffer is full")) (by rw [link]; rfl) rfl
  | pushHeartbeat sent =>
    refine same ?_ (by rw [link]; rfl)
    rw [link]
    exact sent_log_record (o := s.link.out) (e := .frame .heartbeat ⟨true, PING, cfg.token, cfg.mask key⟩) rfl
  | pushShutdown =>
    refine same ?_ (by rw [link]; rfl)
    rw [link]
    exact sent_log_record (o := s.link.out) (e := .shutdown) rfl
  | clearPong => exact same (by rw [link]; rfl) (by rw [link]; rfl)
  | deferPong data => exact same (by rw [link]; rfl) (by rw [link]; rfl)

/-- Only a section under `flags` enqueues, and only there a `send` returns `Ok`. -/
theorem Locked.sends (h : Locked cfg s s' used) :
    s'.link.out.log = s.link.out.log ∧ s'.accepted = s.accepted ∨ ∃ key x rest, s.link.hold = x :: rest ∧
      s'.link = { (s.link.execSection cfg key x).1 with hold := (s.link.execSection cfg key x).2 ++ rest } := by
  cases h with
  | other flags hold log sends => exact .inl ⟨log, sends⟩
  | turns free turns sends => exact .inl ⟨turns.log, sends⟩
  | held hold link => exact .inr ⟨_, _, _, hold, link⟩
  | @sent op payload free legal link =>
    refine .inl ⟨by rw [link, out_send], ?_⟩
    rw [Link.send] at link
    split at link
    · exact sends_note (o := .returned op payload (.error _)) (by rw [link]; rfl) rfl
    · split at link <;> exact (by rw [Sys.accepted, link]; rfl)
  | close free link =>
    exact .inl ⟨by rw [link, out_close], sends_note (by rw [link]; exact trace_close ..) rfl⟩
  | took free hused takes link =>
    obtain ⟨ho, ht⟩ := @exec_took cfg s.link _ takes
    exact .inl ⟨by rw [link, ho], by rw [Sys.accepted, link, ht]; rfl⟩
  | flushPong free run pc link =>
    exact .inl ⟨by rw [link, out_flushPong]; rfl, by rw [Sys.accepted, link, trace_flushPong]; rfl⟩
  | ping free state link => exact .inl ⟨by rw [link], by rw [Sys.accepted, link]; rfl⟩

theorem Matched.step (h : Matched s) (sane : Sane cfg s) (gated : Gated s) (he : Effect cfg s lab s' used new) :
    Matched s' := by
  have done (hd : s'.link.out.box.queue.done = false) : s.link.out.box.queue.done = false :=
    Bool.eq_false_iff.mpr fun ht => Bool.eq_false_iff.mp hd ((he.gates sane).2 ht)
  rcases he.locked.sends with ⟨log, sends⟩ | ⟨key, x, rest, hold, link⟩
  · exact h.same done (by rw [log]) sends
  · exact h.held gated done hold link

theorem Matched.of_reachable (h : Reachable (Sys.step cfg) (.init cfg) s) : Matched s := by
  refine h.invariant (fun _ => rfl) ?_
  intro u l v hu hI hv
  obtain ⟨used, new, he⟩ := step_effect hv
  exact hI.step (.of_reachable hu) (.of_reachable hu) he

/-- Nothing is accepted or enqueued once the writer is stopped, so the two agree for good. -/
theorem accepted_of_reachable (h : Reachable (Sys.step cfg) (.init cfg) s) :
    s.link.out.log.filterMap Entry.sent? = s.accepted := by
  refine h.invariant (I := fun s => s.link.out.log.filterMap Entry.sent? = s.accepted) rfl ?_
  intro u l v hu hI hv
  obtain ⟨used, new, he⟩ := step_effect hv
  rcases he.locked.sends with ⟨log, sends⟩ | ⟨key, x, rest, hold, link⟩
  · rw [log, sends]
    exact hI
  · have live := live_of_hold hu (by rw [hold]; exact List.cons_ne_nil _ _)
    rw [Outbox.live, Bool.and_eq_true, Bool.not_eq_true'] at live
    refine Matched.held (fun _ => hI) (.of_reachable hu) (fun _ => live.2) hold link ?_
    rw [link]
    exact (done_execSection ..).trans live.2

end Steps

/-! ## The stream -/

theorem entryBytes_append (a b : List Entry) : entryBytes (a ++ b) = entryBytes a ++ entryBytes b :=
  List.flatMap_append

/-- The transport and the writer's batch hold everything that was swapped out of the queue. -/
theorem Carried.written {o : Out} (h : Carried o) : o.wire ++ o.unwritten = entryBytes (o.gone ++ o.inBatch) := by
  obtain ⟨pre, hpre, hw⟩ := h.batch
  rw [hw, List.append_assoc, o.inFlight_append_unwritten, ← o.tokenBytes_left, ← tokenBytes_append,
    List.append_assoc, ← hpre, ← entryTokens_append, tokenBytes_entryTokens]

theorem Carried.stream {o : Out} (h : Carried o) (live : o.box.queue.done = false) :
    o.wire ++ o.unwritten ++ itemBytes o.box.queue.items = entryBytes o.log := by
  rw [h.written, ← tokenBytes_itemTokens, h.queue live, tokenBytes_entryTokens, ← entryBytes_append, Out.log]

theorem entryBytes_eq_frames (es : List Entry) : entryBytes es = (es.filterMap Entry.wire?).flatMap Wire.bytes := by
  induction es with
  | nil => rfl
  | cons e es ih =>
    rw [entryBytes, List.flatMap_cons]
    cases e with
    | frame kind w => exact congrArg (w.bytes ++ ·) ih
    | shutdown => exact ih

section Stream

variable {cfg : Config} {s : Sys}

theorem mem_frames {w : Wire} (h : w ∈ s.frames) : ∃ kind, .frame kind w ∈ s.link.out.log := by
  obtain ⟨e, he, hw⟩ := List.mem_filterMap.mp h
  cases e with
  | frame kind w' =>
    cases hw
    exact ⟨kind, he⟩
  | shutdown => cases hw

/-- What the transport got is a beginning of the frames' bytes, also after the writer was stopped. -/
theorem wire_beginning (h : Reachable (Sys.step cfg) (.init cfg) s) :
    s.link.out.wire <+: s.frames.flatMap Wire.bytes := by
  refine ⟨s.link.out.unwritten ++ entryBytes s.link.out.queued, ?_⟩
  rw [← List.append_assoc, (Carried.of_reachable h).written, ← entryBytes_append]
  exact entryBytes_eq_frames _

/-- A frame of the log is one message for a reader of the other role, if its limit allows for the
messages the application sent. -/
theorem whole_frames {max : Nat} (h : Reachable (Sys.step cfg) (.init cfg) s)
    (limit : ∀ w, .frame .app w ∈ s.link.out.log → w.op ≠ PING → w.payload.length ≤ max) :
    ∀ w ∈ s.frames, w.Whole (!cfg.server) max := by
  intro w hw
  obtain ⟨kind, hmem⟩ := mem_frames hw
  obtain ⟨hfin, hmask, hlegal⟩ := (Sane.of_reachable h).link.log _ hmem
  have bound : w.payload.length < 2 ^ 63 := Nat.lt_of_le_of_lt hlegal.bound (by decide)
  refine ⟨hfin, hmask, ?_⟩
  cases kind with
  | app =>
    rcases hlegal.2 with ⟨hop, hv⟩ | hop | ⟨hop, hl⟩
    · exact .inr (.inr ⟨.inl hop, ⟨limit w hmem (by rw [hop]; decide), fun _ => hv⟩, bound⟩)
    · exact .inr (.inr ⟨.inr hop, ⟨limit w hmem (by rw [hop]; decide), fun ht =>
        absurd (hop.symm.trans ht) (by decide)⟩, bound⟩)
    · exact .inl ⟨.inl hop, hl⟩
  | pong => exact .inl ⟨.inr hlegal.1, hlegal.2⟩
  | deferred => exact .inl ⟨.inr hlegal.1, hlegal.2⟩
  | heartbeat => exact .inl ⟨.inl hlegal.1, by rw [hlegal.2]; decide⟩
  | close => exact .inr (.inl ⟨hlegal.1, hlegal.2.1, hlegal.2.2⟩)

/-- **End-to-end delivery.** Until the writer is stopped, the bytes written, the unwritten rest of the
writer's batch and the bytes queued are the encodings of the frames enqueued, in order; the
application's frames among them are those of the sends that returned `Ok`, in order. However the
bytes written are cut into chunks, a reader of the opposite role whose limit allows for every
payload sent does not fail on them and decodes the messages of the frames completely written. -/
theorem end_to_end_delivery (h : Reachable (Sys.step cfg) (.init cfg) s)
    (live : s.link.out.box.queue.done = false) :
    s.link.out.wire ++ s.link.out.unwritten ++ itemBytes s.link.out.box.queue.items =
      s.frames.flatMap (fun w => encode w.op w.payload w.mask) ∧
    s.link.out.log.filterMap Entry.sent? = s.accepted ∧
    ∀ max calls, (∀ p ∈ s.accepted, p.2.length ≤ max) → Reader.pushed calls = s.link.out.wire →
      ((Reader.new (!cfg.server) max).session calls).2 =
        ((complete s.link.out.wire.length s.frames).map Wire.msg, none) := by
  have matched := Matched.of_reachable h live
  refine ⟨?_, matched, fun max calls limit hcalls => ?_⟩
  · rw [(Carried.of_reachable h).stream live, entryBytes_eq_frames]
    refine List.flatMap_congr fun w hw => ?_
    obtain ⟨kind, hmem⟩ := mem_frames hw
    have hfin := ((Sane.of_reachable h).link.log _ hmem).1
    rw [Wire.bytes, if_pos hfin]
  · refine Reader.session_whole (whole_frames h fun w hw _ => ?_) (wire_beginning h) hcalls
    refine limit (w.op, w.payload) ?_
    rw [← matched]
    exact List.mem_filterMap.mpr ⟨_, hw, rfl⟩

end Stream

/-- A server's frame of two bytes, all written, reaches a client in two chunks. -/
theorem end_to_end_delivery_binary :
    ∃ s, runs (Sys.step .small) (.init .small) (openRun ++ sendRun ++ [.writer, .writer, .write 4]) = some s ∧
      s.accepted = [(BINARY, [7, 8])] ∧ s.link.out.wire = [0x82, 2, 7, 8] ∧
      ((Reader.new false 2).session [.push [0x82, 2, 7], .message, .push [8]]).2 = ([.binary [7, 8]], none) :=
  have run : runs (Sys.step .small) (.init .small) (openRun ++ sendRun ++ [.writer, .writer, .write 4]) = some _ :=
    rfl
  ⟨_, run, rfl, rfl,
    (end_to_end_delivery ⟨_, run⟩ rfl).2.2 2 [.push [0x82, 2, 7], .message, .push [8]] (by decide) rfl⟩

end WebSocket.Net
