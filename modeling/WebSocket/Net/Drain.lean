import WebSocket.Net.Accounting
import WebSocket.Net.Trace

/-!
# The drain registration

A refused `send` registers its length; a `progress` that makes it fit clears the
registration and reports a drain. `Effect.drain` says what a step does to the registration
and to the trace together. From it: a registered length never fits (`Blocked`), a
registration means a refusal since the last report, and each `Drain` event has a report
of its own before it.

A report is the locked part of `progress`, where the registration is cleared; the event
follows it in a section of its own.
-/

namespace WebSocket.Net

open Proto Lib.Transition Lib.History

/-- `progress` cleared a registration. -/
def Obs.IsReport (o : Obs) : Prop := ∃ len left, o = .cleared len left

/-- A `send` was refused for a full buffer. -/
def Obs.IsRefusal (o : Obs) : Prop := ∃ op payload, o = .returned op payload (.error "send buffer is full")

/-- A `Drain` event was handed to the hub. -/
def Obs.IsDrain (o : Obs) : Prop := ∃ ok, o = .event .drain ok

/-- The registration. -/
def Sys.drain (s : Sys) : Option Nat := s.link.out.box.queue.drain

/-- What a step does to the registration and the trace. -/
inductive Registers (cfg : Config) (s : Sys) (lab : Label) (s' : Sys) : Prop where
  | keeps (drain : s'.drain = s.drain) {t : List Obs} (trace : s'.link.trace = s.link.trace ++ t)
      (quiet : ∀ o ∈ t, ¬ o.IsReport) (accepts : ∀ o ∈ t, ¬ o.IsRefusal)
  | refuses {key : Key} {op : UInt8} {payload : Bytes} {rest : List Section} (hlab : lab = .hold key)
      (hold : s.link.hold = .recheck op payload :: rest)
      (full : s.link.out.box.fits cfg (encodedLen payload.length (!cfg.server)) = false)
      (drain : s'.drain = some (encodedLen payload.length (!cfg.server)))
      (trace : s'.link.trace = s.link.trace ++ [.returned op payload (.error "send buffer is full")])
  | reports {len : Nat} (progress : s.link.out.progress cfg = some (s'.link.out, some len))
      (trace : s'.link.trace = s.link.trace ++ [.cleared len s'.link.out.box.buffered])
      (next : s'.wr.ops = [.emit .drain])

section Steps

variable {cfg : Config} {s s' : Sys} {lab : Label} {used new : List Op}

theorem Outbox.drain_pushFrame (o : Outbox) (op : UInt8) (payload : Bytes) (key : Key) :
    (o.pushFrame cfg op payload key).queue.drain = o.queue.drain := by
  unfold pushFrame push enqueue
  dsimp only
  repeat' split
  all_goals rfl

theorem Outbox.drain_pushHeartbeat (o : Outbox) (sent : Nat) (key : Key) :
    (o.pushHeartbeat cfg sent key).queue.drain = o.queue.drain := by
  cases hl : o.live with
  | true => rw [pushHeartbeat_live hl]
  | false => rw [pushHeartbeat_dead hl]

theorem Outbox.drain_pushShutdown (o : Outbox) : o.pushShutdown.queue.drain = o.queue.drain := by
  cases hl : o.live with
  | true => rw [pushShutdown_live hl]
  | false => rw [pushShutdown_dead hl]

/-- Nothing about the registration changes, and at most one observation that is neither a report nor a
refusal is added. -/
theorem Registers.of_trace (drain : s'.drain = s.drain)
    (h : s'.link.trace = s.link.trace ∨
      ∃ o, s'.link.trace = s.link.trace ++ [o] ∧ ¬ o.IsReport ∧ ¬ o.IsRefusal) :
    Registers cfg s lab s' := by
  rcases h with h | ⟨o, h, hq, ha⟩
  · exact .keeps drain (t := []) (by simpa using h) (fun _ ho => nomatch ho) fun _ ho => nomatch ho
  · exact .keeps drain h (List.forall_mem_singleton.mpr hq) (List.forall_mem_singleton.mpr ha)

theorem not_report_returned {op : UInt8} {payload : Bytes} {r : Except String Unit} :
    ¬ (Obs.returned op payload r).IsReport := fun ⟨_, _, h⟩ => nomatch h

theorem not_refusal_returned {op : UInt8} {payload : Bytes} {r : Except String Unit}
    (h : r ≠ .error "send buffer is full") : ¬ (Obs.returned op payload r).IsRefusal := by
  rintro ⟨op', payload', heq⟩
  cases heq
  exact h rfl

theorem drain_exec (l : Link) (op : Op) : (l.exec cfg op).1.out.box.queue.drain = l.out.box.queue.drain := by
  rcases exec_out cfg l op with h | ⟨-, h⟩
  · rw [h]
  · rw [h]
    rfl

theorem registers_exec {op : Op} (hl : s'.link = (s.link.exec cfg op).1) : Registers cfg s lab s' := by
  refine .of_trace (by rw [Sys.drain, hl, drain_exec]; rfl) ?_
  rw [hl]
  rcases trace_exec cfg s.link op with h | ⟨e, h, -⟩
  · exact .inl h
  · exact .inr ⟨_, h, (fun ⟨_, _, hr⟩ => nomatch hr), fun ⟨_, _, hr⟩ => nomatch hr⟩

theorem registers_hold {key : Key} (h : s.link.holdStep cfg key = some s'.link) (hlab : lab = .hold key) :
    Registers cfg s lab s' := by
  obtain ⟨x, rest, hold, hl⟩ := Link.holdStep_some h
  cases x with
  | pushFrame kind op payload =>
    refine .of_trace ?_ ?_
    · rw [Sys.drain, hl, Link.execSection]
      dsimp only
      split <;> exact Outbox.drain_pushFrame ..
    · rw [hl, Link.execSection]
      dsimp only
      split
      · exact .inr ⟨_, rfl, not_report_returned, not_refusal_returned (by simp)⟩
      · exact .inl rfl
  | recheck op payload =>
    rw [Link.execSection] at hl
    dsimp only at hl
    split at hl
    · exact .of_trace (by rw [Sys.drain, hl]; rfl) (.inl (by rw [hl]))
    · rename_i full
      have hd : s'.drain = some (encodedLen payload.length (!cfg.server)) := by
        rw [Sys.drain, hl]
        rfl
      exact .refuses hlab hold (by simpa using full) hd (by rw [hl]; rfl)
  | pushHeartbeat sent =>
    exact .of_trace (by rw [Sys.drain, hl]; exact Outbox.drain_pushHeartbeat ..) (.inl (by rw [hl]; rfl))
  | pushShutdown =>
    exact .of_trace (by rw [Sys.drain, hl]; exact Outbox.drain_pushShutdown ..) (.inl (by rw [hl]; rfl))
  | clearPong => exact .of_trace (by rw [Sys.drain, hl]; rfl) (.inl (by rw [hl]; rfl))
  | deferPong data => exact .of_trace (by rw [Sys.drain, hl]; rfl) (.inl (by rw [hl]; rfl))

theorem Effect.registers (h : Effect cfg s lab s' used new) : Registers cfg s lab s' := by
  cases h with
  | env q => exact .of_trace (by rw [Sys.drain, q.out]; rfl) (.inl q.trace)
  | left q => exact .of_trace (by rw [Sys.drain, Sys.spawn, q.out]; rfl) (.inl q.trace)
  | sent free legal =>
    refine .of_trace ?_ ?_
    · rw [Sys.drain, Link.send]
      split
      · rfl
      · split <;> rfl
    · rcases trace_send cfg s.link _ _ with h | ⟨why, h, other⟩
      · exact .inl h
      · exact .inr ⟨_, h, not_report_returned, not_refusal_returned (by simpa using other)⟩
  | refused other =>
    exact .of_trace rfl (.inr ⟨_, rfl, not_report_returned, not_refusal_returned (by simpa using other)⟩)
  | @close code reason free valid short hlab =>
    refine .of_trace ?_ (.inr ⟨_, trace_close .., (by rintro ⟨_, _, h⟩; cases h), by rintro ⟨_, _, h⟩; cases h⟩)
    rw [Sys.drain, Sys.spawn]
    unfold Link.close
    dsimp only
    split <;> rfl
  | held h hlab => exact registers_hold h hlab
  | execPool ops free => exact registers_exec rfl
  | execReader run ops free => exact registers_exec rfl
  | execWriter run ops free => exact registers_exec rfl
  | opened => exact .of_trace rfl (.inr ⟨_, rfl, (by rintro ⟨_, _, h⟩; cases h), by rintro ⟨_, _, h⟩; cases h⟩)
  | decoded => exact .of_trace rfl (.inr ⟨_, rfl, (by rintro ⟨_, _, h⟩; cases h), by rintro ⟨_, _, h⟩; cases h⟩)
  | swap run idle at_ live h =>
    obtain ⟨-, -, rfl⟩ := Out.swap_some h
    exact .of_trace rfl (.inl rfl)
  | flushPong =>
    refine .of_trace ?_ (.inl (trace_flushPong _))
    rw [Sys.drain]
    unfold Link.flushPong
    dsimp only
    split
    · split <;> rfl
    · rfl
  | pop run idle at_ h =>
    obtain ⟨-, item, t, -, rfl⟩ := Out.pop_some h
    exact .of_trace rfl (.inl rfl)
  | write run idle pc h =>
    obtain ⟨c, -, -, -, -, rfl⟩ := Out.write_some h
    exact .of_trace rfl (.inl rfl)
  | progress run idle pc h =>
    obtain ⟨c, -, -, hcl, rfl⟩ := Out.progress_some h
    refine .of_trace ?_ (.inl rfl)
    rw [Sys.drain]
    dsimp only
    rw [Outbox.progress_eq, ← hcl]
    rfl
  | drain run idle pc h => exact .reports h rfl rfl
  | finish run idle pc h =>
    obtain ⟨c, -, -, -, rfl⟩ := Out.finish_some h
    exact .of_trace rfl (.inl rfl)
  | _ => exact .of_trace rfl (.inl rfl)

end Steps

/-! ## A registered length does not fit -/

theorem Outbox.room_eq_false_iff {buffer b len : Nat} :
    room buffer b len = false ↔ b ≠ 0 ∧ buffer < saturatingAdd b len := by
  simp [room]

theorem Outbox.room_mono {buffer b b' len : Nat} (h : room buffer b len = false) (hb : b ≤ b') :
    room buffer b' len = false := by
  rw [room_eq_false_iff, saturatingAdd] at h ⊢
  omega

/-- Whoever is registered is still blocked. -/
def Blocked (cfg : Config) (o : Out) : Prop :=
  ∀ len, o.box.queue.drain = some len → Outbox.room cfg.buffer o.box.buffered len = false

namespace Blocked

variable {cfg : Config} {o o' : Out}

/-- The registration is kept and the counter does not fall. -/
theorem of_le (h : Blocked cfg o) (drain : o'.box.queue.drain = o.box.queue.drain)
    (le : o.box.buffered ≤ o'.box.buffered) : Blocked cfg o' := by
  intro len hlen
  exact Outbox.room_mono (h len (drain ▸ hlen)) le

theorem step (h : Blocked cfg o) (hs : OutStep cfg o o') : Blocked cfg o' := by
  cases hs with
  | @frame kind op payload key other legal =>
    refine h.of_le (Outbox.drain_pushFrame ..) ?_
    cases hl : o.box.live with
    | true =>
      obtain ⟨items, -, hp⟩ := Outbox.pushFrame_live cfg op key hl legal.bound
      simp only [Out.pushFrame, hp]
      exact Nat.le_add_right ..
    | false => simp only [Out.pushFrame, Outbox.pushFrame_dead hl, Nat.le_refl]
  | @heartbeat sent key =>
    refine h.of_le (Outbox.drain_pushHeartbeat ..) ?_
    cases hl : o.box.live with
    | true =>
      simp only [Out.pushHeartbeat, Outbox.pushHeartbeat_live hl]
      exact Nat.le_add_right ..
    | false => simp only [Out.pushHeartbeat, Outbox.pushHeartbeat_dead hl, Nat.le_refl]
  | shutdown =>
    refine h.of_le (Outbox.drain_pushShutdown ..) ?_
    cases hl : o.box.live with
    | true => simp only [Out.pushShutdown, Outbox.pushShutdown_live hl, Nat.le_refl]
    | false => simp only [Out.pushShutdown, Outbox.pushShutdown_dead hl, Nat.le_refl]
  | register full =>
    intro len hlen
    cases hlen
    exact full
  | progress hs =>
    obtain ⟨c, hc, hf, hcl, rfl⟩ := Out.progress_some hs
    intro len hlen
    rw [Outbox.progress_eq] at hlen ⊢
    dsimp only at hlen ⊢
    split at hlen
    · cases hlen
    · rename_i hnone
      exact Outbox.progress_kept (by simpa using hnone) hlen
  | swap live hs =>
    obtain ⟨-, -, rfl⟩ := Out.swap_some hs
    exact h
  | pop hs =>
    obtain ⟨-, item, t, -, rfl⟩ := Out.pop_some hs
    exact h
  | write hs =>
    obtain ⟨c, -, -, -, -, rfl⟩ := Out.write_some hs
    exact h
  | finish hs =>
    obtain ⟨c, -, -, -, rfl⟩ := Out.finish_some hs
    exact h
  | pong short => exact h
  | stop => exact h
  | io => exact h
  | endShutdown => exact h

theorem of_reachable {s : Sys} (h : Reachable (Sys.step cfg) (.init cfg) s) : Blocked cfg s.link.out := by
  refine h.invariant (I := fun s => Blocked cfg s.link.out) (fun _ h => nomatch h) ?_
  intro u l v hu hI hv
  obtain ⟨used, new, he⟩ := step_effect hv
  rcases he.out (Sane.of_reachable hu).link.hold with ho | ho
  · rw [ho]
    exact hI
  · exact hI.step ho

end Blocked

/-! ## Reports and refusals -/

/-- A registration was refused since the last report, and reports have refusals between them. -/
structure Owing (s : Sys) : Prop where
  refusal : s.drain.isSome = true → Since Obs.IsReport Obs.IsRefusal s.link.trace
  between : Between Obs.IsReport Obs.IsRefusal s.link.trace

theorem Owing.step {cfg : Config} {s s' : Sys} {lab : Label} (h : Owing s) (hr : Registers cfg s lab s') :
    Owing s' := by
  cases hr with
  | keeps drain trace quiet =>
    refine ⟨fun hd => ?_, ?_⟩
    · rw [trace]
      exact (h.refusal (drain ▸ hd)).append quiet
    · rw [trace]
      exact h.between.append quiet
  | refuses hlab hold full drain trace =>
    refine ⟨fun _ => ?_, ?_⟩
    · rw [trace]
      exact .of_last not_report_returned ⟨_, _, rfl⟩
    · rw [trace]
      exact h.between.snoc_other not_report_returned
  | reports progress trace =>
    obtain ⟨c, hc, hf, hcl, ho⟩ := Out.progress_some progress
    have hd := Outbox.progress_cleared hcl.symm
    refine ⟨fun hsome => ?_, ?_⟩
    · rw [Sys.drain, ho, Outbox.progress_eq, ← hcl] at hsome
      cases hsome
    · rw [trace]
      exact h.between.snoc (h.refusal (by rw [Sys.drain, hd.1]; rfl))

theorem Owing.of_reachable {cfg : Config} {s : Sys} (h : Reachable (Sys.step cfg) (.init cfg) s) : Owing s := by
  refine h.invariant ⟨fun h => (nomatch h), .nil⟩ ?_
  intro u l v hu hI hv
  obtain ⟨used, new, he⟩ := step_effect hv
  exact hI.step he.registers

/-! ## Events and reports -/

/-- No section of the list will emit a `Drain`. -/
def Silent (ops : List Op) : Prop := ∀ op ∈ ops, op.emits ≠ some .drain

theorem Silent.append {a b : List Op} (ha : Silent a) (hb : Silent b) : Silent (a ++ b) :=
  List.forall_mem_append.mpr ⟨ha, hb⟩

theorem Silent.of_plain {ops : List Op} (h : ∀ op ∈ ops, op.plain = true) : Silent ops := by
  intro op hop he
  obtain ⟨text, ht⟩ := Op.emits_of_plain (h op hop) he
  cases ht

theorem Silent.exec {cfg : Config} {l : Link} {op : Op} (h : op.emits ≠ some .drain) : Silent (l.exec cfg op).2 := by
  intro o ho he
  rcases exec_emits ho he with h' | ⟨-, h'⟩
  · exact h h'
  · cases h'

/-- Only the writer has a `Drain` to emit, and only one that follows a report of its own. -/
structure Reporting (s : Sys) : Prop where
  rd : Silent s.rd.ops
  pool : Silent s.pool.flatten
  wr : Silent s.wr.ops ∨ s.wr.ops = [.emit .drain] ∧ Since Obs.IsDrain Obs.IsReport s.link.trace
  each : Each Obs.IsDrain Obs.IsReport s.link.trace

section Reporting

variable {cfg : Config} {s s' : Sys} {lab : Label} {used new : List Op}

theorem Noted.used_of_drain {o : Obs} (h : Noted cfg s lab s' used o) (ho : o.IsDrain) : used = [.emit .drain] := by
  obtain ⟨ok, rfl⟩ := ho
  cases h with
  | event h => exact h

/-- A step that does not run the `Drain` section leaves no `Drain` in the trace. -/
theorem Effect.trace_silent (h : Effect cfg s lab s' used new) (hu : used ≠ [.emit .drain]) :
    s'.link.trace = s.link.trace ∨ ∃ o, s'.link.trace = s.link.trace ++ [o] ∧ ¬ o.IsDrain := by
  rcases h.trace with h | ⟨o, h, hn⟩
  · exact .inl h
  · exact .inr ⟨o, h, fun ho => hu (hn.used_of_drain ho)⟩

theorem Reporting.next (h : Reporting s) (rd : Silent s'.rd.ops) (pool : Silent s'.pool.flatten)
    (wr : Silent s'.wr.ops ∨ s'.wr.ops = s.wr.ops)
    (trace : s'.link.trace = s.link.trace ∨ ∃ o, s'.link.trace = s.link.trace ++ [o] ∧ ¬ o.IsDrain) :
    Reporting s' := by
  have since : Since Obs.IsDrain Obs.IsReport s.link.trace → Since Obs.IsDrain Obs.IsReport s'.link.trace := by
    intro hs
    rcases trace with ht | ⟨o, ht, ho⟩
    · exact ht ▸ hs
    · exact ht ▸ hs.snoc ho
  refine ⟨rd, pool, ?_, ?_⟩
  · rcases wr with wr | wr
    · exact .inl wr
    · exact h.wr.imp (wr ▸ ·) fun hw => ⟨wr.trans hw.1, since hw.2⟩
  · rcases trace with ht | ⟨o, ht, ho⟩
    · exact ht ▸ h.each
    · exact ht ▸ h.each.snoc_other ho

theorem Silent.spawn {ops : List Op} (h : Silent s.pool.flatten) (hp : ∀ op ∈ ops, op.plain = true) :
    Silent (s.pool ++ [ops]).flatten := by
  rw [List.flatten_append, List.flatten_singleton]
  exact h.append (.of_plain hp)

theorem Reporting.step (h : Reporting s) (he : Effect cfg s lab s' used new) : Reporting s' := by
  have trace := he.trace_silent
  have nil : Silent [] := fun _ h => by cases h
  cases he with
  | close free valid short hlab =>
    refine h.next h.rd (h.pool.spawn ?_) (.inr rfl) (trace (by simp))
    unfold Link.close
    dsimp only
    split
    · exact plain_fail _
    · exact fun _ h => by cases h
    · exact fun _ h => by cases h
  | terminate hlab => exact h.next h.rd (h.pool.spawn plain_terminate) (.inr rfl) (trace (by simp))
  | left q stopped hub plain why => exact h.next h.rd (h.pool.spawn plain) (.inr rfl) (trace (by simp))
  | @execPool i op rest ops free =>
    have hmem : op :: rest ∈ s.pool := List.mem_of_getElem? ops
    have hop : Silent (op :: rest) := fun o ho => h.pool o (List.mem_flatten.mpr ⟨_, hmem, ho⟩)
    rw [Silent, List.forall_mem_cons] at hop
    refine h.next h.rd ?_ (.inr rfl) (trace fun hu => hop.1 (by cases hu; rfl))
    intro o ho
    obtain ⟨t, ht, hot⟩ := List.mem_flatten.mp ho
    rcases List.mem_or_eq_of_mem_set ht with ht | rfl
    · exact h.pool o (List.mem_flatten.mpr ⟨t, ht, hot⟩)
    · exact (Silent.exec hop.1).append hop.2 o hot
  | @execReader op rest run ops free =>
    have hop := h.rd
    rw [ops, Silent, List.forall_mem_cons] at hop
    exact h.next ((Silent.exec hop.1).append hop.2) h.pool (.inr rfl) (trace fun hu => hop.1 (by cases hu; rfl))
  | @execWriter op rest run ops free =>
    rcases h.wr with hw | ⟨hw, hs⟩
    · rw [ops, Silent, List.forall_mem_cons] at hw
      exact h.next h.rd h.pool (.inl ((Silent.exec hw.1).append hw.2)) (trace fun hu => hw.1 (by cases hu; rfl))
    · -- the section of `emit` for the last report
      rw [hw] at ops
      cases ops
      have hsil : Silent (s.link.exec cfg (.emit .drain)).2 := List.forall_mem_singleton.mpr (by simp [Op.emits])
      refine ⟨h.rd, h.pool, .inl (hsil.append nil), ?_⟩
      dsimp only
      rw [Link.exec]
      dsimp only
      split
      · exact h.each
      · exact h.each.snoc hs
  | reading run idle hr =>
    refine h.next ?_ h.pool (.inr rfl) (trace (by simp))
    dsimp only
    rw [hr.ops_eq idle]
    cases hr with
    | hub pc hub => exact .of_plain plain_terminate
    | ending pc => exact List.forall_mem_singleton.mpr (by simp [Op.emits])
    | error pc hlab plain => exact .of_plain plain
    | dead pc verdict => exact .of_plain (plain_fail _)
    | _ => exact nil
  | decoded run idle pc msg =>
    exact h.next (List.forall_mem_singleton.mpr (by simp [Op.emits])) h.pool (.inr rfl) (trace (by simp))
  | failed run idle pc msg =>
    refine h.next ?_ h.pool (.inr rfl) (trace (by simp))
    exact List.forall_mem_cons.mpr ⟨by simp [Op.emits], List.forall_mem_singleton.mpr (by simp [Op.emits])⟩
  | ping run idle free state pc =>
    exact h.next (List.forall_mem_singleton.mpr (by simp [Op.emits])) h.pool (.inr rfl) (trace (by simp))
  | writing run idle hw =>
    refine h.next h.rd h.pool (.inl ?_) (trace (by simp))
    dsimp only
    rw [hw.ops_eq idle]
    cases hw with
    | hub waits hub => exact .of_plain plain_terminate
    | error waits hlab => exact List.forall_mem_singleton.mpr (by simp [Op.emits])
    | _ => exact nil
  | flushPong run idle pc free =>
    exact h.next h.rd h.pool (.inl (List.forall_mem_singleton.mpr (by simp [Op.emits]))) (trace (by simp))
  | drain run idle pc hp =>
    refine ⟨h.rd, h.pool, .inr ⟨rfl, ?_⟩, ?_⟩
    · exact .of_last (by rintro ⟨_, ho⟩; cases ho) ⟨_, _, rfl⟩
    · exact h.each.snoc_other (by rintro ⟨_, ho⟩; cases ho)
  | _ => exact h.next h.rd h.pool (.inr rfl) (trace (by simp))

theorem Reporting.of_reachable (h : Reachable (Sys.step cfg) (.init cfg) s) : Reporting s := by
  have nil : Silent [] := fun _ h => nomatch h
  refine h.invariant ⟨nil, nil, .inl nil, .nil⟩ ?_
  intro u l v hu hI hv
  obtain ⟨used, new, he⟩ := step_effect hv
  exact hI.step he

end Reporting

/-- **Drain registration is never stale and Drain is never spurious.** Whoever is registered is still
blocked. A report is made by a `progress` that clears a registration whose length fits after it.
Every `Drain` event has a report of its own before it, and between two reports a `send` was
refused. -/
theorem drain_registration {cfg : Config} {s : Sys} (h : Reachable (Sys.step cfg) (.init cfg) s) :
    (∀ len, s.drain = some len → s.link.out.box.buffered ≠ 0 ∧ cfg.buffer < s.link.out.box.buffered + len) ∧
    (∀ lab s' len left, s.step cfg lab = some s' → s'.link.trace = s.link.trace ++ [.cleared len left] →
      s.link.out.progress cfg = some (s'.link.out, some len) ∧ s.drain = some len ∧ s'.drain = none ∧
      left = s'.link.out.box.buffered ∧ (left = 0 ∨ saturatingAdd left len ≤ cfg.buffer)) ∧
    Each Obs.IsDrain Obs.IsReport s.link.trace ∧
    Between Obs.IsReport Obs.IsRefusal s.link.trace := by
  refine ⟨fun len hd => ?_, fun lab s' len left hs ht => ?_, (Reporting.of_reachable h).each,
    (Owing.of_reachable h).between⟩
  · have hb := Outbox.room_eq_false_iff.mp (Blocked.of_reachable h len hd)
    exact ⟨hb.1, Nat.lt_of_lt_of_le hb.2 (Nat.min_le_left ..)⟩
  · obtain ⟨used, new, he⟩ := step_effect hs
    cases he.registers with
    | @keeps drain t trace quiet =>
      have := List.append_cancel_left (trace.symm.trans ht)
      exact absurd ⟨len, left, rfl⟩ (quiet _ (this ▸ List.mem_singleton_self _))
    | refuses hlab hold full drain trace =>
      have := List.append_cancel_left (trace.symm.trans ht)
      simp at this
    | @reports len' progress trace =>
      have := List.append_cancel_left (trace.symm.trans ht)
      simp only [List.cons.injEq, Obs.cleared.injEq, and_true] at this
      obtain ⟨rfl, rfl⟩ := this
      obtain ⟨c, hc, hf, hcl, ho⟩ := Out.progress_some progress
      have hd := Outbox.progress_cleared hcl.symm
      refine ⟨progress, hd.1, ?_, rfl, ?_⟩
      · rw [Sys.drain, ho, Outbox.progress_eq, ← hcl]
        rfl
      · rw [ho, Outbox.progress_eq]
        simpa [Outbox.room] using hd.2

/-- A second frame of four bytes does not fit in six: its `send` is refused and registered. -/
theorem drain_registration_refused :
    ∃ s, runs (Sys.step .small) (.init .small) (openRun ++ sendRun ++ sendRun) = some s ∧ s.drain = some 4 ∧
      s.link.out.box.buffered ≠ 0 ∧ 6 < s.link.out.box.buffered + 4 :=
  ⟨_, rfl, rfl, (@drain_registration .small _ ⟨openRun ++ sendRun ++ sendRun, rfl⟩).1 4 rfl⟩

end WebSocket.Net
