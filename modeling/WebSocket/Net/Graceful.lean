import WebSocket.Net.Abort
import WebSocket.Net.Threads

/-!
# A graceful finish

`end` clears the queue, so `read_loop` waits in `flush_close` first. The wait ends when the
byte counter is at zero and the `Shutdown` is done, at the close deadline, or when the link is
stopped. Why this loses nothing is spread over the code: the close frame is in the queue when
the reader gets there, because the reader itself has waited for the functions under `flags`
(`released_of_recorded`); the counter counts every byte that is not written; the mark of the
`Shutdown` stays until the transport has shut down (`Marked`); and behind the end nothing is
enqueued any more (`log_of_over`).
-/

namespace WebSocket.Net

open Proto Lib.Transition

section Steps

variable {cfg : Config} {s s' : Sys} {lab : Label} {used new : List Op}

/-! ## Behind the end -/

/-- The conversation is over and nobody is enqueuing. -/
structure Over (s : Sys) : Prop where
  free : s.link.hold = []
  why : s.link.flags.recorded = true ∨ s.state = .closed

/-- From then on nothing is enqueued. -/
theorem Over.step (h : Over s) (d : Discipline s.link) (single : Single s) (he : Effect cfg s lab s' used new) :
    Over s' ∧ s'.link.out.log = s.link.out.log := by
  have closing : s.link.flags.state ≠ .opened := by
    rcases h.why with hr | hc
    · exact d.closing_of_recorded hr
    · intro ho
      rw [Sys.state, ho] at hc
      cases hc
  have silent : Link.answers s.link.flags = false := by
    rcases h.why with hr | hc
    · exact answers_of_recorded hr
    · rw [Link.answers, show s.link.flags.state = .closed from hc]
      rfl
  have quiet : ∀ op ∈ used, op.ends = false ∨ s.link.flags.state = .closed := by
    intro op hop
    exact h.why.imp (fun hr => single.quiet hr he op hop) id
  obtain ⟨⟨state, flags⟩, ⟨hold, log⟩ | ⟨key, x, rest, hold, -⟩⟩ := he.locked.still closing silent quiet
  · refine ⟨⟨hold.trans h.free, h.why.imp (fun hr => ?_) he.stays_closed⟩, log⟩
    rw [flags]
    exact hr
  · rw [h.free] at hold
    cases hold

theorem log_of_over {t : Sys} (h : Reachable (Sys.step cfg) (.init cfg) s) (ht : Reachable (Sys.step cfg) s t)
    (hs : Over s) : t.link.out.log = s.link.out.log := by
  refine (ht.invariant (I := fun t => Over t ∧ t.link.out.log = s.link.out.log) ⟨hs, rfl⟩ ?_).2
  intro u l v hu hI hv
  obtain ⟨used, new, he⟩ := step_effect hv
  have reach := h.trans hu
  obtain ⟨over_, log⟩ := hI.1.step (.of_reachable reach) (.of_reachable reach) he
  exact ⟨over_, log.trans hI.2⟩

/-- The reader waits for the sections that end the conversation: they have run, or it has not gone on. -/
theorem released_step (h : s.link.flags.recorded = true → s.link.hold = [] ∨ .released ∈ s.rd.ops)
    (d : Discipline s.link) (single : Single s) (sole : Sole Op.takes s) (he : Effect cfg s lab s' used new)
    (hr' : s'.link.flags.recorded = true) : s'.link.hold = [] ∨ .released ∈ s'.rd.ops := by
  rcases he.locked.recorded hr' with hr | ⟨op, hop, hends⟩
  · have free (hold : s.link.hold = []) : s'.link.hold = [] := ((Over.mk hold (.inl hr)).step d single he).1.free
    rcases h hr with hold | hrel
    · exact .inl (free hold)
    · cases he with
      | @execReader op rest run ops hfree =>
        rw [ops] at hrel
        rcases List.mem_cons.mp hrel with rfl | hrel
        · exact .inl (free (hfree rfl))
        · exact .inr (List.mem_append_right _ hrel)
      | reading run idle => rw [idle] at hrel; cases hrel
      | decoded run idle => rw [idle] at hrel; cases hrel
      | failed run idle => rw [idle] at hrel; cases hrel
      | ping run idle => rw [idle] at hrel; cases hrel
      | _ => exact .inr hrel
  · have takes := Op.takes_of_ends hends
    cases he with
    | @execReader op' rest run ops hfree =>
      cases List.mem_singleton.mp hop
      refine .inr (List.mem_append_left _ ?_)
      cases op with
      | handle m =>
        cases m with
        | close status => exact List.mem_singleton_self _
        | _ => cases hends
      | violation f => exact List.mem_singleton_self _
      | _ => cases hends
    | @execPool i op' rest ops hfree =>
      cases List.mem_singleton.mp hop
      have mem : op ∈ s.pool.flatten := List.mem_flatten.mpr ⟨_, List.mem_of_getElem? ops, List.mem_cons_self ..⟩
      rw [sole.pool op mem] at takes
      cases takes
    | @execWriter op' rest run ops hfree =>
      cases List.mem_singleton.mp hop
      rw [sole.writer op (by rw [ops]; exact List.mem_cons_self ..)] at takes
      cases takes
    | _ => cases hop

theorem released_of_recorded (h : Reachable (Sys.step cfg) (.init cfg) s) (hr : s.link.flags.recorded = true) :
    s.link.hold = [] ∨ .released ∈ s.rd.ops := by
  refine h.invariant (I := fun s => s.link.flags.recorded = true → s.link.hold = [] ∨ .released ∈ s.rd.ops)
    (fun _ => .inl rfl) ?_ hr
  intro u l v hu hI hv
  obtain ⟨used, new, he⟩ := step_effect hv
  have sole := Sole.of_reachable (fun _ => Op.takes_of_plain) rfl (fun l op _ => exec_takes l op) hu
  exact released_step hI (.of_reachable hu) (.of_reachable hu) sole he

/-! ## The deadline -/

/-- A deadline stands on a link that is closing, and behind the end there is one. -/
structure Dated (f : Flags) : Prop where
  closing : f.deadline.isSome = true → 2 ≤ f.state.rank
  recorded : f.recorded = true → f.deadline.isSome = true

/-- What the reader does about the deadline: it sets it where there is none. -/
theorem dated_took {l : Link} {op : Op} (h : op.takes = true) :
    (l.exec cfg op).1.flags = l.flags ∨
      (l.exec cfg op).1.flags.state = .closing ∧
        ∃ t, (l.exec cfg op).1.flags.deadline = some (l.flags.deadline.getD t) := by
  cases op with
  | handle m =>
    cases m with
    | ping data =>
      rw [Link.exec, Link.handle, Link.handlePing]
      dsimp only
      split <;> exact .inl rfl
    | close status =>
      rw [Link.exec, Link.handle, Link.closing]
      dsimp only
      split
      · exact .inl rfl
      · exact .inr ⟨rfl, _, rfl⟩
    | _ => exact .inl rfl
  | violation f =>
    rw [Link.exec, Link.violate]
    dsimp only
    split
    · exact .inl rfl
    · exact .inr ⟨rfl, _, rfl⟩
  | _ => cases h

/-- A deadline that is set stays. -/
theorem Dated.step (h : Dated s.link.flags) (he : Effect cfg s lab s' used new) :
    Dated s'.link.flags ∧ ∀ d, s.link.flags.deadline = some d → s'.link.flags.deadline = some d := by
  have same (flags : s'.link.flags = s.link.flags) :
      Dated s'.link.flags ∧ ∀ d, s.link.flags.deadline = some d → s'.link.flags.deadline = some d := by
    rw [flags]
    exact ⟨h, fun _ => id⟩
  have rank := he.lives.rank_le
  cases he.locked with
  | other flags => exact same flags
  | turns free turns =>
    obtain ⟨state, flags⟩ := turns.flags
    rw [Sys.state, Sys.state, flags] at rank
    rw [flags]
    exact ⟨⟨fun hd => Nat.le_trans (h.closing hd) rank, h.recorded⟩, fun _ => id⟩
  | held hold link => exact same (by rw [link]; exact flags_execSection ..)
  | sent free legal link => exact same (by rw [link, flags_send])
  | close free link =>
    unfold Link.close at link
    dsimp only at link
    split at link
    · exact same (by rw [link]; rfl)
    · rename_i hs
      rw [link]
      refine ⟨⟨fun _ => Nat.le_refl _, fun _ => rfl⟩, fun d hd => ?_⟩
      -- the first `close` finds no deadline
      have early := h.closing (by rw [hd]; rfl)
      rw [show s.link.flags.state = .opened from hs] at early
      exact absurd early (by decide)
    · exact same (by rw [link]; rfl)
  | took free hused takes link =>
    rw [link]
    rcases @dated_took cfg s.link _ takes with flags | ⟨state, t, deadline⟩
    · rw [flags]
      exact ⟨h, fun _ => id⟩
    · refine ⟨⟨fun _ => ?_, fun _ => ?_⟩, fun d hd => ?_⟩
      · rw [state]
        exact Nat.le_refl _
      · rw [deadline]
        rfl
      · rw [deadline, hd]
        rfl
  | flushPong free run pc link => exact same (by rw [link, flags_flushPong])
  | ping free state link => exact same (by rw [link])

/-- `flush_close` waits for the deadline of the link. -/
structure Waiting (s : Sys) : Prop where
  dated : Dated s.link.flags
  waits : ∀ d, s.rd.pc = .flushing d → s.link.flags.deadline = some d

theorem Waiting.step (h : Waiting s) (he : Effect cfg s lab s' used new) : Waiting s' := by
  obtain ⟨dated, stays⟩ := h.dated.step he
  refine ⟨dated, fun d pc => ?_⟩
  by_cases same : s.rd.pc = .flushing d
  · exact stays d (h.waits d same)
  · cases he with
    | reading run idle hr =>
      cases hr with
      | goto hn =>
        cases hn with
        | flushing pc' deadline =>
          cases pc
          exact deadline
        | _ => cases pc
      | silent =>
        rw [Sys.afterDispatch] at pc
        dsimp only at pc
        split at pc <;> cases pc
      | stop =>
        rw [Sys.afterDispatch] at pc
        dsimp only at pc
        split at pc <;> cases pc
      | _ => cases pc
    | decoded => cases pc
    | failed => cases pc
    | ping => cases pc
    | _ => exact absurd pc same

theorem Waiting.of_reachable (h : Reachable (Sys.step cfg) (.init cfg) s) : Waiting s := by
  refine h.invariant ⟨⟨by simp [Sys.init, Link.new, Flags.new], by simp [Sys.init, Link.new, Flags.new, Flags.recorded]⟩,
    by simp [Sys.init]⟩ ?_
  intro u l v hu hI hv
  obtain ⟨used, new, he⟩ := step_effect hv
  exact hI.step he

/-! ## The end of the conversation -/

/-- The peer's close was decoded, or `dispatch` stopped the reader: at the close, at a violation or
on a closed link. -/
def Sys.concluded (s : Sys) : Prop :=
  (∃ m ∈ s.decoded, Sys.isClose m = true) ∨ s.rd.ok = false ∨ ∃ last, s.rd.pc = .handled true last

/-- The section that ends the conversation is the reader's next, or has run. -/
def Noticed (s : Sys) : Prop :=
  s.link.flags.recorded = true ∨ s.state = .closed ∨ ∃ op ∈ s.rd.ops, op.ends = true

/-- Unless the link is closed, it records the end. -/
theorem recorded_ends {l : Link} {op : Op} (h : op.ends = true) :
    (l.exec cfg op).1.flags.recorded = true ∨ (l.exec cfg op).1.flags.state = .closed := by
  cases op with
  | handle m =>
    cases m with
    | close status =>
      rw [Link.exec, Link.handle, Link.closing]
      dsimp only
      split
      · rename_i hc
        rcases hc with hc | hr
        · exact .inr hc
        · exact .inl (by rw [Flags.recorded, hr]; rfl)
      · exact .inl rfl
    | _ => cases h
  | violation f =>
    rw [Link.exec, Link.violate]
    dsimp only
    split
    · exact .inr ‹_›
    · exact .inl (Bool.or_true _)
  | _ => cases h

theorem Noticed.of_idle (h : Noticed s) (idle : s.rd.ops = []) : s.link.flags.recorded = true ∨ s.state = .closed := by
  rcases h with h | h | ⟨op, hop, -⟩
  · exact .inl h
  · exact .inr h
  · rw [idle] at hop
    cases hop

theorem noticed_step (h : s.concluded → Noticed s) (he : Effect cfg s lab s' used new) (hc : s'.concluded) :
    Noticed s' := by
  have stays (hn : s.link.flags.recorded = true ∨ s.state = .closed) : Noticed s' :=
    hn.elim (fun hr => .inl (he.locked.stays_recorded hr)) fun hs => .inr (.inl (he.stays_closed hs))
  -- a step of another thread
  have aside (rd : s'.rd = s.rd) : Noticed s' := by
    have concluded : s.concluded := by rwa [Sys.concluded, he.decoded_eq rd, rd] at hc
    rcases h concluded with hr | hs | hop
    · exact stays (.inl hr)
    · exact stays (.inr hs)
    · exact .inr (.inr (rd ▸ hop))
  -- a step of the idle reader
  have idly (idle : s.rd.ops = []) (hs : s.concluded ∨ s.state = .closed) : Noticed s' :=
    hs.elim (fun hc => stays ((h hc).of_idle idle)) fun hs => stays (.inr hs)
  cases he with
  | started task =>
    have concluded : s.concluded := hc
    rcases h concluded with hr | hs | hop
    · exact stays (.inl hr)
    · exact stays (.inr hs)
    · exact .inr (.inr hop)
  | @execReader op rest run ops free =>
    have concluded : s.concluded := by
      rwa [Sys.concluded, @decoded_exec cfg s _ op rfl] at hc
    rcases h concluded with hr | hs | ⟨o, ho, hends⟩
    · exact stays (.inl hr)
    · exact stays (.inr hs)
    · rw [ops] at ho
      rcases List.mem_cons.mp ho with rfl | ho
      · exact (@recorded_ends cfg s.link o hends).imp id .inl
      · exact .inr (.inr ⟨o, List.mem_append_right _ ho, hends⟩)
  | reading run idle hr =>
    refine idly idle ?_
    cases hr with
    | @stop stop last pc why =>
      rcases why with rfl | hs
      · exact .inl (.inr (.inr ⟨last, pc⟩))
      · exact .inr hs
    | @silent last r pc msg =>
      rcases hc with hc | hc | ⟨l, hc⟩
      · exact .inl (.inl hc)
      · exact .inl (.inr (.inl hc))
      · rw [Sys.afterDispatch] at hc
        dsimp only at hc
        split at hc <;> cases hc
    | goto hn =>
      rcases hc with hc | hc | ⟨l, hc⟩
      · exact .inl (.inl hc)
      · exact .inl (.inr (.inl hc))
      · cases hn <;> cases hc
    | _ =>
      rcases hc with hc | hc | ⟨l, hc⟩
      · exact .inl (.inl hc)
      · exact .inl (.inr (.inl hc))
      · cases hc
  | @decoded last r m run idle pc msg =>
    cases hm : Sys.isClose m with
    | true =>
      refine .inr (.inr ⟨_, List.mem_singleton_self _, ?_⟩)
      cases m <;> first | rfl | cases hm
    | false =>
      refine idly idle (.inl ?_)
      rcases hc with ⟨x, hx, hclose⟩ | hc | ⟨l, hc⟩
      · rw [Sys.decoded, Link.note, List.filterMap_append] at hx
        rcases List.mem_append.mp hx with hx | hx
        · exact .inl ⟨x, hx, hclose⟩
        · cases List.mem_singleton.mp hx
          rw [hm] at hclose
          cases hclose
      · exact .inr (.inl hc)
      · rw [hm] at hc
        cases hc
  | failed run idle pc msg =>
    exact .inr (.inr ⟨_, List.mem_cons_of_mem _ (List.mem_singleton_self _), rfl⟩)
  | ping run idle free state pc =>
    refine idly idle ?_
    rcases hc with hc | hc | ⟨l, hc⟩
    · exact .inl (.inl hc)
    · exact .inl (.inr (.inl hc))
    · cases hc
  | _ => exact aside rfl

theorem noticed_of_reachable (h : Reachable (Sys.step cfg) (.init cfg) s) (hc : s.concluded) : Noticed s := by
  refine h.invariant (I := fun s => s.concluded → Noticed s) (fun hc => ?_) ?_ hc
  · rcases hc with ⟨m, hm, -⟩ | hc | ⟨last, hc⟩
    · cases hm
    · cases hc
    · cases hc
  · intro u l v hu hI hv
    obtain ⟨used, new, he⟩ := step_effect hv
    exact noticed_step hI he

theorem concluded_of_violation {u : Sys} {f : Fail} (hu : Reachable (Sys.step cfg) (.init cfg) u)
    (hs : Reachable (Sys.step cfg) u s) (hf : .violation f ∈ u.ops) : s.concluded := by
  have stopped : s.rd.parses = false := by
    refine hs.invariant (I := fun s => s.rd.parses = false) ?_ ?_
    · refine Bool.eq_false_iff.mpr fun hp => ?_
      have none := ((Single.of_reachable hu).fresh hp).1
      exact absurd rfl (List.countP_eq_zero.mp none _ hf)
    · intro x l y hx hI hy
      obtain ⟨used, new, he⟩ := step_effect hy
      refine Bool.eq_false_iff.mpr fun hp => ?_
      rw [he.parses hp] at hI
      cases hI
  rw [ReadLoop.parses, Bool.and_eq_false_iff] at stopped
  rcases stopped with ok | pc
  · exact .inr (.inl ok)
  · split at pc
    · rename_i stop last hpc
      cases stop with
      | true => exact .inr (.inr ⟨last, hpc⟩)
      | false => cases pc
    · cases pc

/-! ## The close frame -/

theorem announces_took {l : Link} {op : Op} (h : op.takes = true) (unsent : l.flags.sentClose = false)
    (sent : (l.exec cfg op).1.flags.sentClose = true) :
    (l.exec cfg op).1.hold.filterMap Section.closePayload? ≠ [] := by
  cases op with
  | handle m =>
    cases m with
    | ping data =>
      rw [Link.exec, Link.handle, Link.handlePing] at sent
      dsimp only at sent
      split at sent <;> rw [unsent] at sent <;> cases sent
    | close status =>
      rw [Link.exec, Link.handle, Link.closing] at sent ⊢
      dsimp only at sent ⊢
      split at sent
      · rw [unsent] at sent
        cases sent
      · rename_i hn
        rw [if_neg hn, unsent]
        exact List.cons_ne_nil _ _
    | _ => exact absurd (unsent.symm.trans sent) (by decide)
  | violation f =>
    rw [Link.exec, Link.violate] at sent ⊢
    dsimp only at sent ⊢
    split at sent
    · rw [unsent] at sent
      cases sent
    · rename_i hn
      rw [if_neg hn, unsent]
      exact List.cons_ne_nil _ _
  | _ => cases h

/-- `sent_close` is set together with the close frame. -/
theorem announced_step (h : s.link.flags.sentClose = true → s.closeFrames ++ s.closesHeld ≠ [])
    (d : Discipline s.link) (live : s.link.hold ≠ [] → s.link.out.box.live = true)
    (locked : Locked cfg s s' used) (sent' : s'.link.flags.sentClose = true) :
    s'.closeFrames ++ s'.closesHeld ≠ [] := by
  cases sent : s.link.flags.sentClose with
  | true =>
    rw [(locked.closes d sent live).2]
    exact h sent
  | false =>
    have same {P : Prop} (flags : s'.link.flags.sentClose = s.link.flags.sentClose) : P := by
      rw [flags, sent] at sent'
      cases sent'
    cases locked with
    | other flags => exact same (by rw [flags])
    | turns free turns =>
      obtain ⟨state, flags⟩ := turns.flags
      exact same (by rw [flags])
    | held hold link => exact same (by rw [link]; exact congrArg Flags.sentClose (flags_execSection ..))
    | sent free legal link => exact same (by rw [link, flags_send])
    | close free link =>
      unfold Link.close at link
      dsimp only at link
      split at link
      · exact same (by rw [link]; rfl)
      · rw [Sys.closesHeld, link]
        exact List.append_ne_nil_of_right_ne_nil _ (List.cons_ne_nil _ _)
      · exact same (by rw [link]; rfl)
    | took free hused takes link =>
      rw [Sys.closesHeld, link]
      rw [link] at sent'
      exact List.append_ne_nil_of_right_ne_nil _ (announces_took takes sent sent')
    | flushPong free run pc link => exact same (by rw [link, flags_flushPong])
    | ping free state link => exact same (by rw [link])

theorem announced_of_reachable (h : Reachable (Sys.step cfg) (.init cfg) s) (sent : s.link.flags.sentClose = true) :
    s.closeFrames ++ s.closesHeld ≠ [] := by
  refine h.invariant (I := fun s => s.link.flags.sentClose = true → s.closeFrames ++ s.closesHeld ≠ [])
    (fun hs => by cases hs) ?_ sent
  intro u l v hu hI hv
  obtain ⟨used, new, he⟩ := step_effect hv
  exact announced_step hI (.of_reachable hu) (live_of_hold hu) he.locked

/-- Once `flags` is free the close frame of a recorded end is in the queue, or past it. -/
theorem close_mem_frames (h : Reachable (Sys.step cfg) (.init cfg) s) (hr : s.link.flags.recorded = true)
    (free : s.link.hold = []) : ∃ w ∈ s.frames, w.op = CLOSE := by
  have announced := announced_of_reachable h ((Discipline.of_reachable h).recorded hr)
  rw [Sys.closesHeld, free, List.filterMap_nil, List.append_nil] at announced
  obtain ⟨payload, hp⟩ := List.exists_mem_of_ne_nil _ announced
  obtain ⟨e, he, hpayload⟩ := List.mem_filterMap.mp hp
  have legal := (Sane.of_reachable h).link.log e he
  cases e with
  | shutdown => cases hpayload
  | frame kind w =>
    cases kind with
    | close => exact ⟨w, List.mem_filterMap.mpr ⟨_, he, rfl⟩, legal.2.2.1⟩
    | _ => cases hpayload

/-! ## The shutdown -/

/-- A `Shutdown` was enqueued and its mark is on the queue, unless the writer was stopped. -/
def Out.Marks (o : Out) : Prop := .shutdown ∈ o.log → o.box.queue.done = false → o.box.queue.shutdown = true

theorem Out.Marks.same {o o' : Out} (h : o.Marks) (log : .shutdown ∈ o'.log → .shutdown ∈ o.log)
    (done : o'.box.queue.done = o.box.queue.done) (mark : o'.box.queue.shutdown = o.box.queue.shutdown) : o'.Marks := by
  intro hl hd
  rw [mark]
  exact h (log hl) (done ▸ hd)

theorem Outbox.shutdown_pushFrame (o : Outbox) (op : UInt8) (payload : Bytes) (key : Key) :
    (o.pushFrame cfg op payload key).queue.shutdown = o.queue.shutdown := by
  unfold pushFrame push enqueue
  dsimp only
  repeat' split
  all_goals rfl

/-- What is enqueued under `flags` leaves the mark, and a `Shutdown` sets it. -/
theorem marks_execSection {l : Link} {key : Key} {x : Section} (h : l.out.Marks) :
    (l.execSection cfg key x).1.out.Marks := by
  have pushed {log : List Entry} {live : Bool} {kind : Kind} {w : Wire}
      (hm : .shutdown ∈ if live then log ++ [.frame kind w] else log) : .shutdown ∈ log := by
    split at hm
    · exact (List.mem_append.mp hm).resolve_right (by simp)
    · exact hm
  cases x with
  | pushFrame kind op payload =>
    have out : (l.execSection cfg key (.pushFrame kind op payload)).1.out = l.out.pushFrame cfg kind op payload key := by
      rw [Link.execSection]
      dsimp only
      split <;> rfl
    rw [out]
    refine h.same (fun hm => ?_) (Outbox.done_pushFrame ..) (Outbox.shutdown_pushFrame ..)
    rw [Out.log_pushFrame] at hm
    exact pushed hm
  | recheck op payload =>
    rw [Link.execSection]
    split
    · exact h
    · exact h.same id rfl rfl
  | pushHeartbeat sent =>
    refine h.same (fun hm => ?_) (done_execSection ..) ?_
    · rw [Link.execSection, Out.log_pushHeartbeat] at hm
      exact pushed hm
    · cases hl : l.out.box.live with
      | true => simp only [Link.execSection, Out.pushHeartbeat, Outbox.pushHeartbeat_live hl]
      | false => simp only [Link.execSection, Out.pushHeartbeat, Outbox.pushHeartbeat_dead hl]
  | pushShutdown =>
    cases hl : l.out.box.live with
    | true =>
      intro _ _
      simp only [Link.execSection, Out.pushShutdown, Outbox.pushShutdown_live hl]
    | false =>
      refine h.same (fun hm => ?_) (done_execSection ..) ?_
      · rw [Link.execSection, Out.log_pushShutdown, hl] at hm
        exact hm
      · simp only [Link.execSection, Out.pushShutdown, Outbox.pushShutdown_dead hl]
  | clearPong => exact h.same id rfl rfl
  | deferPong data => exact h.same id rfl rfl

/-- Only the writer, behind the transport's shutdown, takes the mark off. -/
theorem Effect.marks (he : Effect cfg s lab s' used new) (h : s.link.out.Marks) (pc : s.wr.pc ≠ .shut) :
    s'.link.out.Marks := by
  have exec (op : Op) : (s.link.exec cfg op).1.out.Marks := by
    rcases exec_out cfg s.link op with out | ⟨-, out⟩
    · rw [out]
      exact h
    · rw [out]
      intro _ hd
      cases hd
  cases he with
  | env q => rw [q.out]; exact h
  | left q => rw [Sys.spawn, q.out]; exact h
  | sent => rw [out_send]; exact h
  | close => rw [Sys.spawn, out_close]; exact h
  | held hs =>
    obtain ⟨x, rest, -, rfl⟩ := Link.holdStep_some hs
    exact marks_execSection h
  | execPool => exact exec _
  | execReader => exact exec _
  | execWriter => exact exec _
  | flushPong => rw [out_flushPong]; exact h.same id rfl rfl
  | swap run idle at_ live hs =>
    obtain ⟨-, -, rfl⟩ := Out.swap_some hs
    exact h.same (fun hm => by simpa only [Out.log, List.append_nil] using hm) rfl rfl
  | pop run idle at_ hs =>
    obtain ⟨-, item, t, -, rfl⟩ := Out.pop_some hs
    exact h.same id rfl rfl
  | write run idle pc hs =>
    obtain ⟨c, -, -, -, -, rfl⟩ := Out.write_some hs
    exact h.same id rfl rfl
  | progress run idle pc hs =>
    obtain ⟨c, -, -, -, rfl⟩ := Out.progress_some hs
    exact h.same id (by simp only [Outbox.progress_eq]) (by simp only [Outbox.progress_eq])
  | drain run idle pc hs =>
    obtain ⟨c, -, -, -, rfl⟩ := Out.progress_some hs
    exact h.same id (by simp only [Outbox.progress_eq, Link.note]) (by simp only [Outbox.progress_eq, Link.note])
  | finish run idle pc hs =>
    obtain ⟨c, -, -, -, rfl⟩ := Out.finish_some hs
    exact h.same id rfl rfl
  | endShutdown run idle hpc => exact absurd hpc pc
  | connected => exact h.same id rfl rfl
  | _ => exact h

/-- The mark stays until the transport has shut down. -/
structure Marked (s : Sys) : Prop where
  shut : s.wr.pc = .shut → s.wr.outShut = true
  mark : s.wr.outShut = true ∨ s.link.out.Marks

theorem Effect.outShut (he : Effect cfg s lab s' used new) :
    (s.wr.outShut = true → s'.wr.outShut = true) ∧ (s'.wr.pc = .shut → s.wr.pc = .shut ∨ s'.wr.outShut = true) := by
  cases he with
  | writing run idle hw =>
    cases hw with
    | shut pc => exact ⟨fun _ => rfl, fun _ => .inr rfl⟩
    | _ => exact ⟨id, fun pc => by cases pc⟩
  | swap run idle at_ live hs goes =>
    refine ⟨id, fun pc => ?_⟩
    rcases goes with rfl | rfl | rfl <;> cases pc
  | pop run idle at_ hs goes =>
    refine ⟨id, fun pc => ?_⟩
    rcases goes with rfl | rfl <;> cases pc
  | flushPong => exact ⟨id, fun pc => by cases pc⟩
  | write => exact ⟨id, fun pc => by cases pc⟩
  | progress => exact ⟨id, fun pc => by cases pc⟩
  | drain => exact ⟨id, fun pc => by cases pc⟩
  | stamp => exact ⟨id, fun pc => by cases pc⟩
  | finish => exact ⟨id, fun pc => by cases pc⟩
  | endShutdown => exact ⟨id, fun pc => by cases pc⟩
  | _ => exact ⟨id, .inl⟩

theorem Marked.step (h : Marked s) (he : Effect cfg s lab s' used new) : Marked s' := by
  obtain ⟨stays, shut⟩ := he.outShut
  refine ⟨fun pc => ?_, ?_⟩
  · exact (shut pc).elim (fun pc => stays (h.shut pc)) id
  · rcases h.mark with hs | hm
    · exact .inl (stays hs)
    · by_cases pc : s.wr.pc = .shut
      · exact .inl (stays (h.shut pc))
      · exact .inr (he.marks hm pc)

theorem Marked.of_reachable (h : Reachable (Sys.step cfg) (.init cfg) s) : Marked s := by
  refine h.invariant ⟨(fun pc => by cases pc), .inr fun hm => by cases hm⟩ ?_
  intro u l v hu hI hv
  obtain ⟨used, new, he⟩ := step_effect hv
  exact hI.step he

/-! ## The wait is over -/

/-- The link is stopped only once it is closed. -/
structure Halted (s : Sys) : Prop where
  ops : .setStopped ∈ s.ops → s.state = .closed
  stopped : s.link.stopped = true → s.state = .closed

theorem Halted.of_reachable (h : Reachable (Sys.step cfg) (.init cfg) s) : Halted s := by
  refine h.invariant ⟨(fun hm => by cases hm), fun hs => by cases hs⟩ ?_
  intro u l v hu hI hv
  obtain ⟨used, new, he⟩ := step_effect hv
  refine ⟨fun hm => ?_, fun hs => ?_⟩
  · rcases he.mem_ops hm with hm | hm
    · exact he.stays_closed (hI.ops hm)
    · exact he.new_halts (List.any_eq_true.mpr ⟨_, hm, rfl⟩)
  · rcases he.stopped with heq | hm
    · exact he.stays_closed (hI.stopped (heq ▸ hs))
    · exact he.stays_closed (hI.ops (he.used_mem hm))

/-- All frames are with the transport, a close frame among them, and a `Shutdown` has taken effect. -/
structure Sys.Flushed (s : Sys) : Prop where
  wire : s.link.out.wire = s.frames.flatMap Wire.bytes
  close : ∃ w ∈ s.frames, w.op = CLOSE
  shut : .shutdown ∈ s.link.out.log → s.wr.outShut = true

theorem wire_of_drained (h : Reachable (Sys.step cfg) (.init cfg) s) (live : s.link.out.box.queue.done = false)
    (drained : s.link.out.box.buffered = 0) : s.link.out.wire = s.frames.flatMap Wire.bytes := by
  have stream := (Carried.of_reachable h).stream live
  have count := (Counted.of_reachable h).exact live
  have items : itemBytes s.link.out.box.queue.items = [] := List.eq_nil_of_length_eq_zero (by omega)
  have rest : s.link.out.batchRest = [] := List.eq_nil_of_length_eq_zero (by omega)
  have unwritten : s.link.out.unwritten = [] := by
    rw [← s.link.out.inFlight_append_unwritten] at rest
    exact (List.append_eq_nil_iff.mp rest).2
  rw [items, unwritten, List.append_nil, List.append_nil, entryBytes_eq_frames] at stream
  exact stream

/-- Nothing is pending: the writer was stopped, or it has done all. -/
theorem closed_or_flushed (h : Reachable (Sys.step cfg) (.init cfg) s) (hr : s.link.flags.recorded = true)
    (free : s.link.hold = []) (idle : Sys.pending s.link = false) : s.state = .closed ∨ s.Flushed := by
  rw [Sys.pending, Bool.and_eq_false_iff, Bool.or_eq_false_iff, Bool.not_eq_false', decide_eq_false_iff_not] at idle
  cases done : s.link.out.box.queue.done with
  | true => exact .inl ((Stopping.of_reachable h).done done)
  | false =>
    obtain ⟨drained, unmarked⟩ := idle.resolve_left (by rw [done]; decide)
    refine .inr ⟨wire_of_drained h done (by omega), close_mem_frames h hr free, fun hm => ?_⟩
    refine (Marked.of_reachable h).mark.resolve_right fun marks => ?_
    rw [marks hm done] at unmarked
    cases unmarked

theorem Effect.passes (he : Effect cfg s lab s' used new) (before : s.rd.pc ≠ .ending) (passed : s'.rd.pc = .ending) :
    s.rd.ops = [] ∧ s' = { s with rd := { s.rd with pc := .ending } } ∧ Next cfg s lab .ending := by
  cases he with
  | reading run idle hr =>
    cases hr with
    | goto hn =>
      cases passed
      exact ⟨idle, rfl, hn⟩
    | silent =>
      rw [Sys.afterDispatch] at passed
      dsimp only at passed
      split at passed <;> cases passed
    | stop =>
      rw [Sys.afterDispatch] at passed
      dsimp only at passed
      split at passed <;> cases passed
    | _ => cases passed
  | decoded => cases passed
  | failed => cases passed
  | ping => cases passed
  | _ => exact absurd passed before

/-- Where `read_loop` goes on behind `flush_close`, with the end of the conversation noticed. -/
theorem flushed_of_next (h : Reachable (Sys.step cfg) (.init cfg) s) (hn : Next cfg s lab .ending)
    (hr : s.link.flags.recorded = true) (free : s.link.hold = []) :
    s.state = .closed ∨ (∃ d, s.link.flags.deadline = some d ∧ d ≤ s.link.now) ∨ s.Flushed := by
  have waiting := Waiting.of_reachable h
  cases hn with
  | unrecorded pc why =>
    have dated := waiting.dated.recorded hr
    rw [Flags.recorded, Bool.or_eq_true] at hr
    rcases why with ⟨received, failed⟩ | deadline
    · rw [received, failed] at hr
      rcases hr with hr | hr <;> cases hr
    · rw [deadline] at dated
      cases dated
  | @flushed d pc why =>
    rcases why with idle | stopped | late
    · exact (closed_or_flushed h hr free idle).imp id .inr
    · exact .inl ((Halted.of_reachable h).stopped stopped)
    · exact .inr (.inl ⟨d, waiting.waits d pc, late⟩)

/-- **A graceful finish drops nothing.** The peer's close was decoded, or a violation raised, and
`read_loop` goes on behind `flush_close` to `end`. Then `finish` has closed the link before, or the
close deadline has passed, or every frame ever enqueued is all written, our close frame among them,
and the transport has shut down if a `Shutdown` was enqueued. From there on nothing is enqueued. -/
theorem graceful_finish (h : Reachable (Sys.step cfg) (.init cfg) s) (hs : s.step cfg lab = some s')
    (before : s.rd.pc ≠ .ending) (passed : s'.rd.pc = .ending)
    (why : (∃ m ∈ s.decoded, Sys.isClose m = true) ∨
      ∃ u f, Reachable (Sys.step cfg) (.init cfg) u ∧ Reachable (Sys.step cfg) u s ∧ .violation f ∈ u.ops) :
    (s.state = .closed ∨ (∃ d, s.link.flags.deadline = some d ∧ d ≤ s.link.now) ∨ s'.Flushed) ∧
    ∀ t, Reachable (Sys.step cfg) s' t → t.link.out.log = s'.link.out.log := by
  have concluded : s.concluded := by
    rcases why with hm | ⟨u, f, hu, hs, hf⟩
    · exact .inl hm
    · exact concluded_of_violation hu hs hf
  obtain ⟨used, new, he⟩ := step_effect hs
  obtain ⟨idle, rfl, hn⟩ := he.passes before passed
  have noticed := (noticed_of_reachable h concluded).of_idle idle
  have free : s.link.hold = [] := by
    rcases noticed with hr | hc
    · refine (released_of_recorded h hr).resolve_right ?_
      rw [idle]
      exact List.not_mem_nil
    · refine Classical.byContradiction fun hold => ?_
      rcases busy_of_reachable h hold with hs | hs <;> rw [hc] at hs <;> cases hs
  refine ⟨?_, fun t ht => log_of_over (h.next hs) ht ⟨free, noticed⟩⟩
  rcases noticed with hr | hc
  · exact (flushed_of_next h hn hr free).imp id fun h => h.imp id fun f => ⟨f.wire, f.close, f.shut⟩
  · exact .inl hc

end Steps

/-- The peer's close is answered, and the peer closes its side; then the writer writes the close frame and shuts down. -/
def finishRun : List Label :=
  [.hold ⟨0, 0, 0, 0⟩, .hold ⟨0, 0, 0, 0⟩, .reader, .reader, .reader, .reader, .eof, .reader, .reader,
    .writer, .writer, .write 2, .writer, .writer, .writer, .writer, .shutOut, .writer]

/-- A server that answered the peer's close goes on to `end` with nothing left to write. -/
theorem graceful_finish_echo :
    ∃ s s', runs (Sys.step .small) (.init .small) (openRun ++ peerCloseRun ++ finishRun) = some s ∧
      s.step .small .reader = some s' ∧ s.decoded = [.close none] ∧ s'.rd.pc = .ending ∧ s.state = .closing ∧
      s'.link.out.wire = [0x88, 0] ∧ s'.wr.outShut = true ∧
      ((s.state = .closed ∨ (∃ d, s.link.flags.deadline = some d ∧ d ≤ s.link.now) ∨ s'.Flushed) ∧
        ∀ t, Reachable (Sys.step .small) s' t → t.link.out.log = s'.link.out.log) :=
  have run : runs (Sys.step .small) (.init .small) (openRun ++ peerCloseRun ++ finishRun) = some _ := rfl
  ⟨_, _, run, rfl, rfl, rfl, rfl, rfl, rfl,
    @graceful_finish .small _ _ .reader ⟨_, run⟩ rfl (by decide) rfl (.inl ⟨.close none, List.mem_singleton_self _, rfl⟩)⟩

end WebSocket.Net
