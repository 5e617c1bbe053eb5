import WebSocket.Net.Graceful
import WebSocket.Net.Heartbeat
import WebSocket.Net.Inbox
import WebSocket.Net.Turns

/-!
# No wakeup is lost

Each loop looks at what it waits for, and then waits; whoever brings it about notifies afterwards.
`Awake` says that this is enough whatever happens between the look and the wait, and between the
change and the call of `notify_one`: where a loop waits though its reason to wait is gone, the
cell it listens to holds a permit or is about to.

For the reader's timer the reason is a time. It may move to an earlier one in two ways only, by a
`close` and by the end of a probe's write, and both notify `changed`.
-/

namespace WebSocket.Net

open Proto Lib Lib.Transition

section Causes

variable {cfg : Config} {s s' : Sys} {lab : Label} {used new : List Op}

/-! ## What the writer waits for -/

/-- The writer has something to do: entries, a deferred pong, or the end. -/
def Out.wants (o : Out) : Bool := !o.box.queue.items.isEmpty || o.box.queue.pong.isSome || o.box.queue.done

theorem wants_execSection {l : Link} {key : Key} {x : Section} (h : (l.execSection cfg key x).1.out.wants = true) :
    l.out.wants = true ∨ .ready ∈ x.notifies l := by
  have pushed (dead : l.out.box.live = false → (l.execSection cfg key x).1.out.box = l.out.box)
      (notes : x.notifies l = if l.out.box.live then [.ready] else []) :
      l.out.wants = true ∨ .ready ∈ x.notifies l := by
    cases live : l.out.box.live with
    | true =>
      rw [notes, if_pos live]
      exact .inr List.mem_cons_self
    | false =>
      rw [Out.wants, dead live] at h
      exact .inl h
  cases x with
  | pushFrame kind op payload =>
    refine pushed (fun live => ?_) rfl
    rw [Link.execSection]
    dsimp only
    split <;> exact Outbox.pushFrame_dead live
  | pushHeartbeat sent => exact pushed Outbox.pushHeartbeat_dead rfl
  | pushShutdown => exact pushed Outbox.pushShutdown_dead rfl
  | recheck op payload =>
    rw [Link.execSection] at h
    left
    split at h <;> exact h
  | clearPong =>
    left
    simp only [Link.execSection, Out.setPong, Out.wants, Option.isSome_none, Bool.or_false] at h
    rw [Out.wants, Bool.or_right_comm, h, Bool.true_or]
  | deferPong data => exact .inr List.mem_cons_self

theorem wants_writer (h : WriterTurn cfg s lab s') (hw : s'.link.out.wants = true) : s.link.out.wants = true := by
  cases h with
  | swap pc done hswap =>
    obtain ⟨-, -, rfl⟩ := Out.swap_some hswap
    simp only [Out.wants, List.isEmpty_nil, Bool.not_true, Bool.false_or] at hw
    rw [Out.wants, Bool.or_assoc, hw, Bool.or_true]
  | flushPong pc free =>
    rw [out_flushPong] at hw
    simp only [Out.setPong, Out.wants, Option.isSome_none, Bool.or_false] at hw
    rw [Out.wants, Bool.or_right_comm, hw, Bool.true_or]
  | pop pc batch hpop =>
    obtain ⟨-, _, _, -, rfl⟩ := Out.pop_some hpop
    exact hw
  | written pc hfinish =>
    obtain ⟨_, -, -, -, rfl⟩ := Out.finish_some hfinish
    exact hw
  | progress pc hp link =>
    obtain ⟨c, -, -, -, rfl⟩ := Out.progress_some hp
    have hw : ({ s.link.out with
        box := (s.link.out.box.progress cfg c.flying).1
        cur := some { c with pos := c.pos + c.flying, flying := 0 } } : Out).wants = true := by
      rcases link with rfl | ⟨o, rfl⟩ <;> exact hw
    rw [Out.wants, Outbox.progress_eq] at hw
    exact hw
  | write pc hwrite =>
    obtain ⟨_, -, -, -, -, rfl⟩ := Out.write_some hwrite
    exact hw
  | _ => exact hw

/-- Whoever gives the writer something to do is about to call it. -/
theorem wants_step (h : Acts cfg s lab s') (hw : s'.link.out.wants = true) :
    s.link.out.wants = true ∨ .ready ∈ s.notifies lab := by
  have exec {op : Op} (hw : (s.link.exec cfg op).1.out.wants = true) : s.link.out.wants = true ∨ .ready ∈ op.notifies := by
    rcases exec_out cfg s.link op with out | ⟨rfl, -⟩
    · exact .inl (out ▸ hw)
    · exact .inr List.mem_cons_self
  cases h with
  | sent => exact .inl (@out_send cfg s.link _ _ ▸ hw)
  | close => exact .inl (out_close s.link _ _ ▸ hw)
  | held hold =>
    rw [Sys.notifies, hold]
    exact wants_execSection hw
  | pool ops | readerOp run ops | writerOp run ops =>
    rw [Sys.notifies, ops]
    exact exec hw
  | task h | reader run idle h => cases h <;> exact .inl hw
  | writer run idle h => exact .inl (wants_writer h hw)
  | _ => exact .inl hw

/-! ## What `flush_close` waits for -/

/-- The end of the link reaches its loops: `finish` has set `stopped`, or is about to. -/
def Sys.ended (s : Sys) : Prop := s.link.stopped = true ∨ .setStopped ∈ s.ops

/-- A step runs one section, or none. -/
theorem Effect.ran (h : Effect cfg s lab s' used new) :
    used = [] ∨ ∃ op, used = [op] ∧ s'.link = (s.link.exec cfg op).1 ∧ new = (s.link.exec cfg op).2 := by
  cases h with
  | execPool | execReader | execWriter => exact .inr ⟨_, rfl, rfl, rfl⟩
  | _ => exact .inl rfl

theorem Effect.ended (he : Effect cfg s lab s' used new) (h : s.ended) : s'.ended := by
  by_cases ended : .setStopped ∈ used
  · rcases he.ran with rfl | ⟨op, rfl, link, -⟩
    · cases ended
    · cases List.mem_singleton.mp ended
      left
      rw [link]
      rfl
  · rcases h with stopped | waits
    · exact .inl ((he.stopped.resolve_right ended).trans stopped)
    · obtain ⟨rest, before, after⟩ := he.perm
      rcases List.mem_append.mp (before.mem_iff.mp waits) with used | kept
      · exact absurd used ended
      · exact .inr (after.mem_iff.mpr (List.mem_append_right _ kept))

theorem ended_of_closed (h : Reachable (Sys.step cfg) (.init cfg) s) : s.state = .closed → s.ended := by
  apply h.invariant (I := fun u => u.state = .closed → u.ended) nofun
  intro u l v hu hI hv closed
  obtain ⟨used, new, he⟩ := step_effect hv
  by_cases before : u.state = .closed
  · exact he.ended (hI before)
  · cases he.lives with
    | finishes op =>
      rcases he.ran with none | ⟨op', hop, -, hnew⟩
      · rw [none] at op
        cases op
      · rw [op] at hop
        cases hop
        rw [Sys.state] at before
        rw [Link.exec, if_neg before] at hnew
        obtain ⟨rest, -, after⟩ := he.perm
        refine .inr (after.mem_iff.mpr (List.mem_append_left _ ?_))
        rw [hnew]
        exact .tail _ (.head _)
    | keeps state | emits op state => exact absurd (state.symm.trans closed) before
    | opens task state state' | closes alive state' => cases state'.symm.trans closed

/-- An enqueue adds to what is pending. -/
theorem Outbox.grows_pushFrame (o : Outbox) (op : UInt8) (payload : Bytes) (key : Key) :
    o.buffered ≤ (o.pushFrame cfg op payload key).buffered ∧
      (o.pushFrame cfg op payload key).queue.shutdown = o.queue.shutdown := by
  unfold pushFrame push enqueue
  dsimp only
  repeat' split
  all_goals first | exact ⟨Nat.le_add_right .., rfl⟩ | exact ⟨Nat.le_refl _, rfl⟩

theorem grows_execSection (l : Link) (key : Key) (x : Section) :
    l.out.box.buffered ≤ (l.execSection cfg key x).1.out.box.buffered ∧
      (l.out.box.queue.shutdown = true → (l.execSection cfg key x).1.out.box.queue.shutdown = true) := by
  cases x with
  | pushFrame kind op payload =>
    obtain ⟨buffered, shutdown⟩ := @Outbox.grows_pushFrame cfg l.out.box op payload key
    rw [Link.execSection]
    dsimp only
    split <;> exact ⟨buffered, shutdown.trans⟩
  | recheck op payload =>
    rw [Link.execSection]
    split <;> exact ⟨Nat.le_refl _, id⟩
  | pushHeartbeat sent =>
    rw [Link.execSection, Out.pushHeartbeat]
    cases live : l.out.box.live with
    | true =>
      rw [Outbox.pushHeartbeat_live live]
      exact ⟨Nat.le_add_right .., id⟩
    | false =>
      rw [Outbox.pushHeartbeat_dead live]
      exact ⟨Nat.le_refl _, id⟩
  | pushShutdown =>
    rw [Link.execSection, Out.pushShutdown]
    cases live : l.out.box.live with
    | true =>
      rw [Outbox.pushShutdown_live live]
      exact ⟨Nat.le_refl _, fun _ => rfl⟩
    | false =>
      rw [Outbox.pushShutdown_dead live]
      exact ⟨Nat.le_refl _, id⟩
  | clearPong | deferPong data => exact ⟨Nat.le_refl _, id⟩

theorem pending_execSection {l : Link} {key : Key} {x : Section} (h : Sys.pending l = true) :
    Sys.pending (l.execSection cfg key x).1 = true := by
  obtain ⟨buffered, shutdown⟩ := @grows_execSection cfg l key x
  simp only [Sys.pending, done_execSection, Bool.and_eq_true, Bool.or_eq_true, decide_eq_true_eq] at h ⊢
  exact ⟨h.1, h.2.imp (Nat.lt_of_lt_of_le · buffered) shutdown⟩

theorem pending_writer (h : WriterTurn cfg s lab s') (idle : s.wr.ops = []) (before : Sys.pending s.link = true) :
    Sys.pending s'.link = true ∨ .drained ∈ s.notifies lab := by
  cases h with
  | swap pc done hswap =>
    obtain ⟨-, -, rfl⟩ := Out.swap_some hswap
    exact .inl before
  | flushPong pc free =>
    rw [Sys.pending, out_flushPong]
    exact .inl before
  | pop pc batch hpop =>
    obtain ⟨-, _, _, -, rfl⟩ := Out.pop_some hpop
    exact .inl before
  | written pc hfinish =>
    obtain ⟨_, -, -, -, rfl⟩ := Out.finish_some hfinish
    exact .inl before
  | write pc hwrite =>
    obtain ⟨_, -, -, -, -, rfl⟩ := Out.write_some hwrite
    exact .inl before
  | progress pc | shut pc =>
    rw [Sys.notifies, idle, pc]
    exact .inr List.mem_cons_self
  | _ => exact .inl before

/-- What ends the wait is told, or the writer is stopped. -/
theorem pending_step (h : Acts cfg s lab s') (before : Sys.pending s.link = true) :
    Sys.pending s'.link = true ∨ .drained ∈ s.notifies lab ∨ s'.link.out.box.queue.done = true := by
  have exec {op : Op} : Sys.pending (s.link.exec cfg op).1 = true ∨
      (s.link.exec cfg op).1.out.box.queue.done = true := by
    rcases exec_out cfg s.link op with out | ⟨rfl, -⟩
    · exact .inl (by rw [Sys.pending, out]; exact before)
    · exact .inr rfl
  cases h with
  | sent =>
    left
    rw [Sys.pending, out_send]
    exact before
  | close =>
    left
    rw [Sys.pending, Sys.spawn, out_close]
    exact before
  | held hold => exact .inl (pending_execSection before)
  | pool | readerOp | writerOp => exact exec.imp_right .inr
  | task h | reader run idle h => cases h <;> exact .inl before
  | writer run idle h => exact (pending_writer h idle before).imp_right .inl
  | _ => exact .inl before

/-! ## What the reader waits for -/

/-- Outside the reader's own calls `flags` change at the end only. -/
theorem flags_exec {l : Link} {op : Op} (h : op.takes = false) :
    (l.exec cfg op).1.flags = l.flags ∨ (l.exec cfg op).1.flags = { l.flags with state := .closed } := by
  cases op with
  | emit e =>
    rw [Link.exec]
    dsimp only
    split <;> exact .inl rfl
  | finish code reason =>
    rw [Link.exec]
    split
    · exact .inl rfl
    · exact .inr rfl
  | handle m => cases h
  | violation f => cases h
  | _ => exact .inl rfl

/-- Others than the reader tell it when they change `flags`, or the link is closed. -/
theorem flags_step (h : Acts cfg s lab s') (sole : Sole Op.takes s) (hlab : lab.reads = false) :
    .changed ∈ s.notifies lab ∨ s'.link.flags.deadline = s.link.flags.deadline ∧
      (s'.state = .opened ∨ s'.state = .closed ∨ s'.state = s.state) := by
  have same (flags : s'.link.flags = s.link.flags) : s'.link.flags.deadline = s.link.flags.deadline ∧
      (s'.state = .opened ∨ s'.state = .closed ∨ s'.state = s.state) := by
    rw [Sys.state, flags]
    exact ⟨rfl, .inr (.inr rfl)⟩
  have exec {op : Op} (hop : op.takes = false) (link : s'.link = (s.link.exec cfg op).1) :
      s'.link.flags.deadline = s.link.flags.deadline ∧ (s'.state = .opened ∨ s'.state = .closed ∨ s'.state = s.state) := by
    rcases @flags_exec cfg s.link _ hop with flags | flags
    · exact same (link ▸ flags)
    · rw [Sys.state, link, flags]
      exact ⟨rfl, .inr (.inl rfl)⟩
  cases h with
  | sent => exact .inr (same (flags_send ..))
  | close valid =>
    left
    rw [Sys.notifies, if_neg (by rw [valid]; exact Bool.false_ne_true)]
    exact List.mem_cons_self
  | held hold => exact .inr (same (flags_execSection ..))
  | @pool i op rest ops =>
    have mem : op ∈ s.pool.flatten :=
      List.mem_flatten.mpr ⟨_, List.mem_of_getElem? (getElem?_of_getD ops), List.mem_cons_self⟩
    exact .inr (exec (sole.pool op mem) rfl)
  | @writerOp op rest run ops => exact .inr (exec (sole.writer op (by rw [ops]; exact List.mem_cons_self)) rfl)
  | readerOp => cases hlab
  | task h =>
    cases h with
    | opened => exact .inr ⟨rfl, .inl rfl⟩
    | _ => exact .inr (same rfl)
  | reader run idle h =>
    cases h with
    | goes h => cases h <;> cases hlab
    | hub pc => rcases pc with ⟨rfl, -⟩ | ⟨rfl, -⟩ <;> cases hlab
    | _ => cases hlab
  | writer run idle h =>
    right
    cases h with
    | flushPong => exact same (flags_flushPong _)
    | progress pc hp link => rcases link with rfl | ⟨o, rfl⟩ <;> exact same rfl
    | _ => exact same rfl
  | _ => exact .inr (same rfl)

/-- The reader has not started before its task runs. -/
def Begun (s : Sys) : Prop := s.task = .running ∨ s.task = .finished ∨ s.rd.pc = .top

theorem Begun.step (h : Begun s) (turn : Acts cfg s lab s') : Begun s' := by
  cases turn with
  | task h' =>
    cases h' with
    | establish task | opened task =>
      exact .inr (.inr ((h.resolve_left (by rw [task]; nofun)).resolve_left (by rw [task]; nofun)))
    | started => exact .inl rfl
    | _ => exact .inr (.inl rfl)
  | readerOp run | writerOp run => exact .inl run
  | reader run idle h' | writer run idle h' => cases h' <;> exact .inl run
  | _ => exact h

theorem Begun.of_reachable (h : Reachable (Sys.step cfg) (.init cfg) s) : Begun s := by
  apply h.invariant (I := Begun) (.inr (.inr rfl))
  intro u l v hu hI hv
  exact hI.step (step_acts hv)

/-- The clocks of the transport are not ahead of time. -/
structure Paced (cfg : Config) (l : Link) : Prop where
  born : cfg.born ≤ l.now
  received : l.received ≤ l.now - cfg.born + 1
  written : l.written ≤ l.now - cfg.born

theorem Paced.step (h : Paced cfg s.link) (hs : s.step cfg lab = some s') : Paced cfg s'.link := by
  cases passes : lab.passes with
  | false =>
    have clock := (step_timing hs passes).clock
    simp only [Link.clock, Prod.mk.injEq] at clock
    obtain ⟨now, written, received⟩ := clock
    exact ⟨now ▸ h.born, by rw [received, now]; exact h.received, by rw [written, now]; exact h.written⟩
  | true =>
    have ahead (d : Nat) : s.link.now - cfg.born ≤ s.link.now + d - cfg.born :=
      Nat.sub_le_sub_right (Nat.le_add_right ..) _
    cases step_acts hs with
    | @tick d =>
      exact ⟨Nat.le_trans h.born (Nat.le_add_right ..), Nat.le_trans h.received (Nat.succ_le_succ (ahead d)),
        Nat.le_trans h.written (ahead d)⟩
    | received => exact ⟨h.born, Nat.le_refl _, h.written⟩
    | written => exact ⟨h.born, h.received, Nat.le_refl _⟩
    | task h' | writer run idle h' => cases h' <;> cases passes
    | reader run idle h' =>
      cases h' with
      | goes h' => cases h' <;> cases passes
      | hub pc => rcases pc with ⟨rfl, -⟩ | ⟨rfl, -⟩ <;> cases passes
      | _ => cases passes
    | _ => cases passes

theorem Paced.of_reachable (h : Reachable (Sys.step cfg) (.init cfg) s) : Paced cfg s.link := by
  apply h.invariant (I := fun u => Paced cfg u.link) ⟨Nat.le_refl _, Nat.zero_le _, Nat.zero_le _⟩
  intro u l v hu hI hv
  exact hI.step hv

/-- Traffic puts the next look at the peer off. -/
theorem last_mono {l l' : Link} (a : Alive) (cells : l'.cells = l.cells) (received : l.received ≤ l'.received)
    (written : l.written ≤ l'.written) : a.last cfg l ≤ a.last cfg l' := by
  have later {x y z : Nat} (h : x ≤ y) : (if x ≤ z then z else x) ≤ (if y ≤ z then z else y) := by
    split <;> split <;> omega
  have seen : (a.refresh cfg l.received).seen ≤ (a.refresh cfg l'.received).seen := by
    rw [Alive.refresh_eq, Alive.refresh_eq]
    cases hl : l.received with
    | zero =>
      cases l'.received with
      | zero => exact Nat.le_refl _
      | succ ns => exact Nat.le_max_left ..
    | succ ns =>
      cases hl' : l'.received with
      | zero => omega
      | succ ns' =>
        have le : cfg.born + ns ≤ cfg.born + ns' := Nat.add_le_add_left (by omega) _
        exact Nat.max_le.mpr ⟨Nat.le_max_left .., Nat.le_trans le (Nat.le_max_right ..)⟩
  rw [Alive.refresh_eq, Alive.refresh_eq] at seen
  unfold Alive.last
  dsimp only at seen ⊢
  rw [cells]
  split
  · split
    · exact later seen
    · have le : cfg.born + l.written ≤ cfg.born + l'.written := Nat.add_le_add_left written _
      exact Nat.max_le.mpr ⟨Nat.le_trans (Nat.max_le.mpr ⟨Nat.le_trans seen (Nat.le_max_left ..),
        Nat.le_trans le (Nat.le_max_right ..)⟩) (Nat.le_max_left ..), Nat.le_max_right ..⟩
  · exact seen

/-- The transport's clocks only go forward. -/
theorem clocks_step (hs : s.step cfg lab = some s') (paced : Paced cfg s.link) :
    s.link.received ≤ s'.link.received ∧ s.link.written ≤ s'.link.written := by
  cases passes : lab.passes with
  | false =>
    have clock := (step_timing hs passes).clock
    simp only [Link.clock, Prod.mk.injEq] at clock
    exact ⟨Nat.le_of_eq clock.2.2.symm, Nat.le_of_eq clock.2.1.symm⟩
  | true =>
    cases lab with
    | tick d =>
      cases hs
      exact ⟨Nat.le_refl _, Nat.le_refl _⟩
    | activity inbound =>
      obtain ⟨-, h⟩ := Option.ite_none_right_eq_some.mp hs
      cases h
      cases inbound with
      | true => exact ⟨paced.received, Nat.le_refl _⟩
      | false => exact ⟨Nat.le_refl _, paced.written⟩
    | _ => cases passes

/-- A probe's time is told to the reader. -/
theorem stampProbe_cells {t : Instant} (idle : s.wr.ops = []) (pc : s.wr.pc = .stamp t) :
    .changed ∈ s.notifies .writer ∨ (s.stampProbe t).link.cells = s.link.cells := by
  rw [Sys.notifies, idle, pc, Sys.stampProbe]
  dsimp only [WritePc.notifies]
  rcases s.link.out.cur with _ | ⟨data, pos, flying, _ | sent⟩
  · exact .inr rfl
  · exact .inr rfl
  · dsimp only
    split
    · exact .inl List.mem_cons_self
    · exact .inr rfl

/-- Others than the reader leave what it knows of the peer alone, or tell it. -/
theorem cells_step (h : Acts cfg s lab s') (hlab : lab.reads = false) (begun : Begun s) (pc : s.rd.pc ≠ .top) :
    .changed ∈ s.notifies lab ∨ s'.rd.alive = s.rd.alive ∧ s'.link.cells = s.link.cells := by
  cases h with
  | sent => exact .inr ⟨rfl, (steady_send ..).cells⟩
  | close => exact .inr ⟨rfl, (steady_close ..).cells⟩
  | held hold =>
    right
    exact ⟨rfl, (@steady_holdStep cfg s.link _ _ (by rw [Link.holdStep, hold])).cells⟩
  | pool | writerOp => exact .inr ⟨rfl, (steady_exec ..).cells⟩
  | readerOp => cases hlab
  | task h =>
    cases h with
    | started task =>
      rcases begun with run | gone | top
      · rw [task] at run
        cases run
      · rw [task] at gone
        cases gone
      · exact absurd top pc
    | _ => exact .inr ⟨rfl, rfl⟩
  | reader run idle h =>
    cases h with
    | goes h => cases h <;> cases hlab
    | hub pc => rcases pc with ⟨rfl, -⟩ | ⟨rfl, -⟩ <;> cases hlab
    | _ => cases hlab
  | writer run idle h =>
    cases h with
    | flushPong => exact .inr ⟨rfl, (steady_flushPong _).cells⟩
    | progress pc hp link => rcases link with rfl | ⟨o, rfl⟩ <;> exact .inr ⟨rfl, rfl⟩
    | stamp pc => exact (stampProbe_cells idle pc).imp_right fun cells => ⟨rfl, cells⟩
    | _ => exact .inr ⟨rfl, rfl⟩
  | _ => exact .inr ⟨rfl, rfl⟩

/-! ## Where the reader is about to wait -/

/-- From the look at the inbox on the reader runs no call until it has waited. -/
def ReadPc.poised : ReadPc → Bool
  | .checkInbox _ | .throttled | .read | .flushing _ => true
  | _ => false

theorem poised_afterDispatch (last : Bool) : (Sys.afterDispatch last).poised = false := by
  rw [Sys.afterDispatch]
  split <;> rfl

/-- It comes there by a step that only moves it. -/
theorem poised_step (h : Acts cfg s lab s') (idle : s.rd.pc.poised = true → s.rd.ops = []) (hlab : lab.reads = true)
    (hpc : s'.rd.pc.poised = true) :
    lab = .reader ∧ s.rd.ops = [] ∧ Goes cfg s .reader s'.rd.pc ∧ s' = { s with rd := { s.rd with pc := s'.rd.pc } } := by
  cases h with
  | readerOp run ops =>
    rw [idle hpc] at ops
    cases ops
  | reader run idle h =>
    cases h with
    | goes h =>
      have goes := h
      cases h <;> first | exact ⟨rfl, idle, goes, rfl⟩ | cases hpc
    | silent | stop => exact absurd hpc (by simp [poised_afterDispatch])
    | _ => cases hpc
  | task h | writer run idle h => cases h <;> cases hlab
  | _ => cases hlab

theorem Poised.of_reachable (h : Reachable (Sys.step cfg) (.init cfg) s) : s.rd.pc.poised = true → s.rd.ops = [] := by
  apply h.invariant (I := fun u => u.rd.pc.poised = true → u.rd.ops = []) nofun
  intro u l v hu hI hv hpc
  cases hlab : l.reads with
  | true =>
    obtain ⟨-, idle, -, hv⟩ := poised_step (step_acts hv) hI hlab hpc
    rw [hv]
    exact idle
  | false =>
    obtain ⟨pc, ops⟩ := rd_step hv hlab
    rw [ops]
    exact hI (pc ▸ hpc)

end Causes

/-! ## The loops -/

namespace Loops

section Live

variable {s : Loops} {lab : Label} {c : Cell}

theorem cellsAfter_eq (h : lab ≠ .wake) :
    s.cellsAfter lab c = if c ∈ s.sys.notifies lab then (s.cells c).call else s.cells c := by
  cases lab with
  | wake => exact absurd rfl h
  | _ => rfl

theorem live_of_notified (h : c ∈ s.sys.notifies lab) : (s.cellsAfter lab c).live = true := by
  rw [cellsAfter_eq (by rintro rfl; cases h), if_pos h]
  exact Notify.live_call _

/-- Only the reader's wait takes permits in a step of the system, of `changed` or `consumed`. -/
theorem live_after (h : (s.cells c).live = true) (keeps : lab ≠ .wake ∨ c = .ready ∨ c = .drained) :
    (s.cellsAfter lab c).live = true := by
  by_cases wakes : lab = .wake
  · have other : c ≠ s.woken := by
      rw [woken]
      rcases keeps with keeps | rfl | rfl
      · exact absurd wakes keeps
      · split <;> nofun
      · split <;> nofun
    rw [wakes, cellsAfter, setCell, if_neg other]
    exact h
  · rw [cellsAfter_eq wakes]
    split
    · exact Notify.live_call _
    · exact h

theorem live_setCell {d : Cell} {n : Notify} (h : (s.cells c).live = true) (hn : c = d → n.live = true) :
    (s.setCell d n c).live = true := by
  rw [setCell]
  split
  · exact hn ‹_›
  · exact h

end Live

/-- When the reader must look at the link again at the latest. -/
def due (cfg : Config) (limit : Instant) (s : Loops) : Option Instant :=
  s.sys.link.flags.deadline.or (s.sys.rd.alive.heartbeatDeadline cfg limit s.sys.link)

end Loops

/-- Where a loop waits without a reason, it has been called. -/
structure Awake (cfg : Config) (limit : Instant) (s : Loops) : Prop where
  writer : s.parked = true → s.sys.link.out.wants = true → (s.cells .ready).live = true
  flush : s.awaits = true → Sys.pending s.sys.link = false →
    (s.cells .drained).live = true ∨ s.sys.link.out.box.queue.done = true
  inbox : s.sys.rd.pc = .throttled → s.sys.link.inbox < INBOX_LIMIT → (s.cells .consumed).live = true
  state : s.sys.rd.pc = .checkInbox .opened ∨ s.sys.rd.pc = .throttled → s.sys.state ≠ .opened →
    (s.cells .changed).live = true ∨ s.sys.state = .closed
  checked : ∀ st, s.sys.rd.pc = .checkInbox st →
    s.sys.link.flags.deadline = s.deadline ∨ (s.cells .changed).live = true
  timer : s.sys.rd.pc = .read → ∀ d, s.due cfg limit = some d →
    (s.cells .changed).live = true ∨ ∃ t, s.timer.target = some t ∧ t ≤ d

namespace Awake

variable {cfg : Config} {limit : Instant} {s : Loops} {s' : Sys} {lab : Label}

theorem ne_wake (hlab : lab.reads = false) : lab ≠ .wake := by
  rintro rfl
  cases hlab

/-- An empty turn of the writer found nothing. -/
theorem parks (h : Acts cfg s.sys .writer s') (idle : s.sys.wr.ops = []) (pc : s.sys.wr.pc = .idle)
    (pc' : s'.wr.pc = .idle) : s'.link.out.wants = false := by
  cases h with
  | task h => cases h
  | writerOp run ops =>
    rw [idle] at ops
    cases ops
  | reader run idle h =>
    cases h with
    | goes h => cases h
    | hub pc => rcases pc with ⟨h, -⟩ | ⟨h, -⟩ <;> cases h
  | writer run _ h =>
    cases h with
    | finished => cases pc'
    | swap _ done hswap =>
      obtain ⟨-, -, rfl⟩ := Out.swap_some hswap
      dsimp only at pc'
      split at pc'
      · cases pc'
      · rename_i pong
        simp only [Out.wants, List.isEmpty_nil, Bool.not_true, Bool.false_or, Bool.eq_false_iff.mpr pong, done]
    | flushPong at_ | again at_ | pop at_ | written at_ | progress at_ | stamp at_ | shut at_ =>
      cases pc.symm.trans at_

theorem writer_step (h : Awake cfg limit s) (hs : s.sys.step cfg lab = some s')
    (parked : (s.after cfg limit lab s').parked = true) (wants : s'.link.out.wants = true) :
    (s.cellsAfter lab .ready).live = true := by
  by_cases writer : lab = .writer
  · subst writer
    obtain ⟨idle, pc, pc'⟩ := of_decide_eq_true parked
    have rest := parks (step_acts hs) idle pc pc'
    rw [rest] at wants
    cases wants
  · have before : s.parked = true := by
      cases lab with
      | writer => exact absurd rfl writer
      | writeError => cases parked
      | haltWriter => cases parked
      | _ => exact parked
    rcases wants_step (step_acts hs) wants with wanted | told
    · exact Loops.live_after (h.writer before wanted) (.inr (.inl rfl))
    · exact Loops.live_of_notified told

theorem done_step {used new : List Op} {s : Sys} (he : Effect cfg s lab s' used new)
    (done : s.link.out.box.queue.done = true) : s'.link.out.box.queue.done = true := by
  rcases he.done_eq with same | stops
  · exact same.trans done
  · rcases he.ran with rfl | ⟨op, rfl, link, -⟩
    · cases stops
    · cases List.mem_singleton.mp stops
      rw [link]
      rfl

theorem flush_step (h : Awake cfg limit s) (hs : s.sys.step cfg lab = some s')
    (awaits : s.awaits = true) (idle : Sys.pending s'.link = false) :
    (s.cellsAfter lab .drained).live = true ∨ s'.link.out.box.queue.done = true := by
  obtain ⟨used, new, he⟩ := step_effect hs
  cases before : Sys.pending s.sys.link with
  | false =>
    rcases h.flush awaits before with live | done
    · exact .inl (Loops.live_after live (.inr (.inr rfl)))
    · exact .inr (done_step he done)
  | true =>
    rcases pending_step (step_acts hs) before with still | told | done
    · rw [idle] at still
      cases still
    · exact .inl (Loops.live_of_notified told)
    · exact .inr done

/-- A heartbeat that is due by `d` now was due by then before the traffic. -/
theorem heartbeatDeadline_le {a : Alive} {l l' : Link} {d : Instant} (le : a.last cfg l ≤ a.last cfg l')
    (hd : a.heartbeatDeadline cfg limit l' = some d) : ∃ d₀, a.heartbeatDeadline cfg limit l = some d₀ ∧ d₀ ≤ d := by
  obtain ⟨interval, beats, hd⟩ := Option.bind_eq_some_iff.mp hd
  obtain ⟨small, hd⟩ := Option.ite_none_right_eq_some.mp hd
  cases hd
  have le' : a.last cfg l + interval ≤ a.last cfg l' + interval := Nat.add_le_add_right le _
  exact ⟨_, by rw [Alive.heartbeatDeadline, beats]; exact if_pos (Nat.le_trans le' small), le'⟩

section Reader

variable (h : Awake cfg limit s) (hr : Reachable (Sys.step cfg) (.init cfg) s.sys) (hs : s.sys.step cfg lab = some s')

include h hr hs

theorem inbox_step (pc : s'.rd.pc = .throttled) (room : s'.link.inbox < INBOX_LIMIT) :
    (s.cellsAfter lab .consumed).live = true := by
  cases hlab : lab.reads with
  | true =>
    obtain ⟨-, -, goes, hs'⟩ := poised_step (step_acts hs) (Poised.of_reachable hr) hlab (by rw [pc]; rfl)
    rw [pc] at goes
    rw [hs'] at room
    cases goes with
    | throttled _ full => exact absurd room (Nat.not_lt.mpr full)
  | false =>
    have pc₀ : s.sys.rd.pc = .throttled := (rd_step hs hlab).1 ▸ pc
    by_cases told : .consumed ∈ s.sys.notifies lab
    · exact Loops.live_of_notified told
    · have other (bytes : Nat) : lab ≠ .call (.consumed bytes) := by
        rintro rfl
        exact told List.mem_cons_self
      rcases Net.inbox_step (sole_carries hr) hs other with same | ⟨e, rest, ops, -⟩
      · exact Loops.live_after (h.inbox pc₀ (same ▸ room)) (.inl (ne_wake hlab))
      · rw [Poised.of_reachable hr (by rw [pc₀]; rfl)] at ops
        cases ops

theorem state_step (pc : s'.rd.pc = .checkInbox .opened ∨ s'.rd.pc = .throttled) (left : s'.state ≠ .opened) :
    (s.cellsAfter lab .changed).live = true ∨ s'.state = .closed := by
  cases hlab : lab.reads with
  | true =>
    have poised : s'.rd.pc.poised = true := by rcases pc with pc | pc <;> rw [pc] <;> rfl
    obtain ⟨rfl, -, goes, hs'⟩ := poised_step (step_acts hs) (Poised.of_reachable hr) hlab poised
    have same : s'.state = s.sys.state := by rw [hs']; rfl
    rcases pc with pc | pc
    · -- the state was read just now
      generalize hq : s'.rd.pc = q at goes
      cases goes with
      | check => exact absurd (same.trans (ReadPc.checkInbox.inj (hq.symm.trans pc))) left
      | _ => cases hq.symm.trans pc
    · rw [pc] at goes
      cases goes with
      | throttled pc₀ =>
        rcases h.state (.inl pc₀) (same ▸ left) with live | closed
        · exact .inl (Loops.live_after live (.inl nofun))
        · exact .inr (same.trans closed)
  | false =>
    have sole := Sole.of_reachable (fun _ => Op.takes_of_plain) rfl (fun l op _ => exec_takes l op) hr
    have pc₀ := (rd_step hs hlab).1
    rw [pc₀] at pc
    rcases flags_step (step_acts hs) sole hlab with told | ⟨-, opened | closed | same⟩
    · exact .inl (Loops.live_of_notified told)
    · exact absurd opened left
    · exact .inr closed
    · rcases h.state pc (same ▸ left) with live | closed
      · exact .inl (Loops.live_after live (.inl (ne_wake hlab)))
      · exact .inr (same.trans closed)

theorem checked_step {st : State} (pc : s'.rd.pc = .checkInbox st) :
    s'.link.flags.deadline = s.deadlineAfter lab ∨ (s.cellsAfter lab .changed).live = true := by
  cases hlab : lab.reads with
  | true =>
    obtain ⟨rfl, idle, goes, hs'⟩ := poised_step (step_acts hs) (Poised.of_reachable hr) hlab (by rw [pc]; rfl)
    generalize hq : s'.rd.pc = q at goes
    cases goes with
    | check pc₀ =>
      left
      rw [hs', Loops.deadlineAfter, if_pos ⟨idle, pc₀⟩]
    | _ => cases hq.symm.trans pc
  | false =>
    have sole := Sole.of_reachable (fun _ => Op.takes_of_plain) rfl (fun l op _ => exec_takes l op) hr
    have kept : s.deadlineAfter lab = s.deadline := by
      cases lab with
      | reader => cases hlab
      | _ => rfl
    rcases flags_step (step_acts hs) sole hlab with told | ⟨same, -⟩
    · exact .inr (Loops.live_of_notified told)
    · rcases h.checked st ((rd_step hs hlab).1 ▸ pc) with deadline | live
      · exact .inl (same.trans (deadline.trans kept.symm))
      · exact .inr (Loops.live_after live (.inl (ne_wake hlab)))

theorem timer_step (pc : s'.rd.pc = .read) {d : Instant} (hd : (s.after cfg limit lab s').due cfg limit = some d) :
    (s.cellsAfter lab .changed).live = true ∨
      ∃ t, (s.timerAfter cfg limit s' lab).target = some t ∧ t ≤ d := by
  cases hlab : lab.reads with
  | true =>
    obtain ⟨rfl, -, goes, hs'⟩ := poised_step (step_acts hs) (Poised.of_reachable hr) hlab (by rw [pc]; rfl)
    rw [pc] at goes
    cases goes with
    | read pc₀ =>
      rcases h.checked _ pc₀ with deadline | live
      · right
        rw [Loops.timerAfter, pc₀, pc]
        refine ⟨d, ?_, Nat.le_refl _⟩
        rw [← hd, Loops.due, Loops.after, hs', deadline]
        rfl
      · exact .inl (Loops.live_after live (.inl nofun))
  | false =>
    have sole := Sole.of_reachable (fun _ => Op.takes_of_plain) rfl (fun l op _ => exec_takes l op) hr
    have pc₀ : s.sys.rd.pc = .read := (rd_step hs hlab).1 ▸ pc
    have kept : s.timerAfter cfg limit s' lab = s.timer := by
      cases lab with
      | reader => cases hlab
      | timer => cases hlab
      | _ => rfl
    rcases flags_step (step_acts hs) sole hlab with told | ⟨deadline, -⟩
    · exact .inl (Loops.live_of_notified told)
    rcases cells_step (step_acts hs) hlab (.of_reachable hr) (by rw [pc₀]; nofun) with told | ⟨alive, cells⟩
    · exact .inl (Loops.live_of_notified told)
    have before : ∃ d₀, s.due cfg limit = some d₀ ∧ d₀ ≤ d := by
      rw [Loops.due, Loops.after, deadline, alive] at hd
      rw [Loops.due]
      rcases Option.or_eq_some_iff.mp hd with hd | ⟨none, hd⟩
      · exact ⟨d, by rw [hd, Option.some_or], Nat.le_refl _⟩
      · obtain ⟨received, written⟩ := clocks_step hs (.of_reachable hr)
        obtain ⟨d₀, hd₀, le⟩ := heartbeatDeadline_le (last_mono s.sys.rd.alive cells received written) hd
        exact ⟨d₀, by rw [none, Option.none_or, hd₀], le⟩
    obtain ⟨d₀, hd₀, le⟩ := before
    rcases h.timer pc₀ d₀ hd₀ with live | ⟨t, ht, htd⟩
    · exact .inl (Loops.live_after live (.inl (ne_wake hlab)))
    · exact .inr ⟨t, by rw [kept, ht], Nat.le_trans htd le⟩

end Reader

theorem init (cfg : Config) (limit : Instant) : Awake cfg limit (.init cfg) where
  writer := nofun
  flush := nofun
  inbox := nofun
  state := by rintro (h | h) <;> cases h
  checked := nofun
  timer := nofun

/-- What happens to cells only keeps every loop that stays in its wait awake. -/
theorem of_cells (h : Awake cfg limit s) {t : Loops} (sys : t.sys = s.sys) (deadline : t.deadline = s.deadline)
    (timer : t.timer = s.timer) (writer : t.parked = true → s.parked = true ∧
      ((s.cells .ready).live = true → (t.cells .ready).live = true))
    (flush : t.awaits = true → Sys.pending s.sys.link = false →
      (t.cells .drained).live = true ∨ s.sys.link.out.box.queue.done = true)
    (changed : (s.cells .changed).live = true → (t.cells .changed).live = true)
    (consumed : (s.cells .consumed).live = true → (t.cells .consumed).live = true) : Awake cfg limit t where
  writer parked wants := (writer parked).2 (h.writer (writer parked).1 (sys ▸ wants))
  flush awaits idle := by
    rw [sys] at idle ⊢
    exact flush awaits idle
  inbox pc room := by
    rw [sys] at pc room
    exact consumed (h.inbox pc room)
  state pc left := by
    rw [sys] at pc left ⊢
    exact (h.state pc left).imp_left changed
  checked st pc := by
    rw [sys] at pc ⊢
    rw [deadline]
    exact (h.checked st pc).imp_right changed
  timer pc d hd := by
    rw [sys] at pc
    rw [Loops.due, sys] at hd
    rw [timer]
    exact (h.timer pc d hd).imp_left changed

theorem step (h : Awake cfg limit s) (hr : Reachable (Sys.step cfg) (.init cfg) s.sys) {m : Move} {t : Loops}
    (hm : Loops.Moved cfg limit s m t) : Awake cfg limit t := by
  cases hm with
  | step allowed hs =>
    exact {
      writer := h.writer_step hs
      flush := fun awaits => h.flush_step hs (Bool.and_eq_true_iff.mp awaits).1
      inbox := h.inbox_step hr hs
      state := h.state_step hr hs
      checked := fun st => h.checked_step hr hs
      timer := fun pc d => h.timer_step hr hs pc }
  | @lands c n hn =>
    have live {d : Cell} (hl : (s.cells d).live = true) : (s.setCell c n d).live = true :=
      Loops.live_setCell hl fun _ => Notify.live_land hn
    exact h.of_cells rfl rfl rfl (fun parked => ⟨parked, live⟩)
      (fun awaits idle => (h.flush awaits idle).imp_left live) live live
  | ready parked permit =>
    exact h.of_cells rfl rfl rfl nofun h.flush id id
  | flushed parked => exact h.of_cells rfl rfl rfl nofun h.flush id id
  | pend hp =>
    refine h.of_cells rfl rfl rfl (fun parked => ⟨parked, id⟩) (fun _ idle => ?_) id id
    -- the wait begins where something is pending
    rw [Loops.pends] at hp
    split at hp
    · rw [idle, Bool.and_false] at hp
      cases hp
    · cases hp
  | drained awaits permit => exact h.of_cells rfl rfl rfl (fun parked => ⟨parked, id⟩) nofun id id

theorem of_reachable (h : Reachable (Loops.step cfg limit) (.init cfg) s) : Awake cfg limit s := by
  apply h.invariant (I := Awake cfg limit) (.init cfg limit)
  intro u m v hu hI hv
  exact hI.step (Loops.sys_reachable hu) (Loops.moved hv)

end Awake

/-- No wait outlasts its reason. A loop that could go on has been called: its cell holds a permit or is
about to get one, its timer is early enough, or the link has ended and the permanent signal says so. -/
theorem no_lost_wakeup {cfg : Config} {limit : Instant} {s : Loops} (h : Reachable (Loops.step cfg limit) (.init cfg) s) :
    (s.parked = true → s.sys.link.out.wants = true → (s.cells .ready).live = true) ∧
      (s.awaits = true → Sys.pending s.sys.link = false → (s.cells .drained).live = true ∨ s.sys.ended) ∧
      (s.sys.rd.pc = .throttled → s.sys.link.inbox < INBOX_LIMIT → (s.cells .consumed).live = true) ∧
      (s.sys.rd.pc = .throttled → s.sys.state ≠ .opened → (s.cells .changed).live = true ∨ s.sys.ended) ∧
      (s.sys.rd.pc = .read → ∀ d, s.due cfg limit = some d →
        (s.cells .changed).live = true ∨ ∃ t, s.timer.target = some t ∧ t ≤ d) := by
  have awake := Awake.of_reachable h
  have reach := Loops.sys_reachable h
  refine ⟨awake.writer, fun awaits idle => ?_, awake.inbox, fun pc left => ?_, awake.timer⟩
  · refine (awake.flush awaits idle).imp_right fun done => ?_
    exact ended_of_closed reach ((Stopping.of_reachable reach).done done)
  · exact (awake.state (.inr pc) left).imp_right (ended_of_closed reach)

/-- The writer parks; then a frame is queued, and its `notify_one` is on the way. -/
theorem no_lost_wakeup_parked : ∃ s, runs (Loops.step .small 0) (.init .small)
      ((openRun ++ .writer :: sendRun).map .step) = some s ∧
    s.parked = true ∧ s.sys.link.out.wants = true ∧ (s.cells .ready).permit = false ∧ (s.cells .ready).live = true := by
  refine ⟨_, rfl, rfl, rfl, rfl, ?_⟩
  exact (no_lost_wakeup ⟨(openRun ++ .writer :: sendRun).map .step, rfl⟩).1 rfl rfl

end WebSocket.Net
