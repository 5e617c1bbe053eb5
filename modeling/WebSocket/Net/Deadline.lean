import WebSocket.Lib.Fair
import WebSocket.Net.Work

/-!
# A closing link closes

A closing handshake is bounded by its deadline, whatever the peer, the network and the application
do: `closing_ends`. Past the deadline the reader's turns are enough, since each leaves it less
to do; where it waits, the timer is at the deadline or a notification is on the way, because no
wakeup is lost. In `flush_close`, where it may be called in vain, the calls come to an end.

A link that starts to close before its loops run waits for them to start; one whose task was lost
is closed by the task's lease.
-/

namespace WebSocket.Net

open Proto Lib Lib.Transition

section Ends

variable {cfg : Config} {s s' : Sys} {lab : Label}

/-! ## Where the end comes from -/

/-- Calls that close the link in the end. -/
def Op.concludes : Op → Bool
  | .endLink | .finish .. => true
  | _ => false

theorem concludes_exec {l : Link} {op : Op} {rest : List Op} (h : ∃ o ∈ op :: rest, o.concludes = true) :
    (l.exec cfg op).1.flags.state = .closed ∨ ∃ o ∈ (l.exec cfg op).2 ++ rest, o.concludes = true := by
  obtain ⟨o, mem, concludes⟩ := h
  rcases List.mem_cons.mp mem with rfl | later
  · cases o with
    | finish code reason =>
      left
      rw [Link.exec]
      split
      · assumption
      · rfl
    | endLink => exact .inr ⟨_, List.mem_cons_self, rfl⟩
    | _ => cases concludes
  · exact .inr ⟨o, List.mem_append_right _ later, concludes⟩

theorem closed_step (h : s.step cfg lab = some s') (closed : s.state = .closed) : s'.state = .closed := by
  obtain ⟨used, new, he⟩ := step_effect h
  exact he.stays_closed closed

/-- A reader that has left its loop closes the link. -/
theorem finished_concludes (h : Reachable (Sys.step cfg) (.init cfg) s) :
    s.rd.pc = .finished → s.state = .closed ∨ ∃ o ∈ s.rd.ops, o.concludes = true := by
  apply h.invariant (I := fun u => u.rd.pc = .finished → u.state = .closed ∨ ∃ o ∈ u.rd.ops, o.concludes = true) nofun
  intro u l v hu hI hv pc
  cases reads : l.reads with
  | false =>
    obtain ⟨pc', ops'⟩ := rd_step hv reads
    rw [ops']
    exact (hI (pc' ▸ pc)).imp_left (closed_step hv)
  | true =>
    cases step_acts hv with
    | readerOp run ops free =>
      rcases hI pc with closed | concludes
      · exact .inl (closed_step hv closed)
      · rw [ops] at concludes
        exact concludes_exec concludes
    | reader run idle h' =>
      cases h' with
      | ending => exact .inr ⟨_, List.mem_cons_self, rfl⟩
      | goes h' => cases h' <;> cases pc
      | @silent last | @stop _ last => cases last <;> cases pc
      | _ => cases pc
    | task h' | writer run idle h' => cases h' <;> cases reads
    | _ => cases reads

/-- A call in progress is left alone by the steps of others. -/
theorem pool_kept (h : Acts cfg s lab s') {i : Nat} (hi : i < s.pool.length) (other : lab ≠ .pool i) :
    s'.pool.getD i [] = s.pool.getD i [] := by
  have spawned (ops : List Op) : (s.pool ++ [ops]).getD i [] = s.pool.getD i [] := by
    rw [List.getD_eq_getElem?_getD, List.getD_eq_getElem?_getD, List.getElem?_append_left hi]
  cases h with
  | close | terminate => exact spawned _
  | @pool j op rest ops =>
    have ne : j ≠ i := by
      rintro rfl
      exact other rfl
    rw [List.getD_eq_getElem?_getD, List.getD_eq_getElem?_getD, List.getElem?_set_ne ne]
  | task h =>
    cases h with
    | establish => rfl
    | opened => rfl
    | started => rfl
    | _ => exact spawned _
  | reader run idle h | writer run idle h => cases h <;> rfl
  | _ => rfl

theorem lt_of_mem_pool {i : Nat} {o : Op} (h : o ∈ s.pool.getD i []) : i < s.pool.length := by
  rw [List.getD_eq_getElem?_getD] at h
  by_contra beyond
  rw [List.getElem?_eq_none (Nat.le_of_not_lt beyond)] at h
  cases h

theorem pool_acts {i : Nat} (h : Acts cfg s (.pool i) s') :
    ∃ op rest, s.pool.getD i [] = op :: rest ∧ (op.locks = true → s.link.hold = []) ∧
      s' = { s with link := (s.link.exec cfg op).1, pool := s.pool.set i ((s.link.exec cfg op).2 ++ rest) } := by
  cases h with
  | pool ops free => exact ⟨_, _, ops, free, rfl⟩
  | task h' => cases h'
  | reader run idle h' =>
    cases h' with
    | goes h' => cases h'
    | hub pc => rcases pc with ⟨h', -⟩ | ⟨h', -⟩ <;> cases h'
  | writer run idle h' => cases h'

/-- A call that ends the link keeps on doing so until it is closed. -/
theorem pool_concludes (h : s.step cfg lab = some s') {i : Nat} (concludes : ∃ o ∈ s.pool.getD i [], o.concludes = true) :
    s'.state = .closed ∨ ∃ o ∈ s'.pool.getD i [], o.concludes = true := by
  obtain ⟨o, mem, ho⟩ := concludes
  have hi := lt_of_mem_pool mem
  by_cases own : lab = .pool i
  · subst own
    obtain ⟨op, rest, ops, -, rfl⟩ := pool_acts (step_acts h)
    rcases concludes_exec ⟨o, ops ▸ mem, ho⟩ with closed | concludes
    · exact .inl closed
    · right
      rw [List.getD_eq_getElem?_getD, List.getElem?_set_self hi]
      exact concludes
  · rw [pool_kept (step_acts h) hi own]
    exact .inr ⟨o, mem, ho⟩

/-- So does the task that has ended, by the drop of its lease. -/
theorem left_concludes (h : Reachable (Sys.step cfg) (.init cfg) s) :
    s.task = .finished → s.state = .closed ∨ ∃ i, ∃ o ∈ s.pool.getD i [], o.concludes = true := by
  apply h.invariant
    (I := fun u => u.task = .finished → u.state = .closed ∨ ∃ i, ∃ o ∈ u.pool.getD i [], o.concludes = true) nofun
  intro u l v hu hI hv task
  by_cases before : u.task = .finished
  · rcases hI before with closed | ⟨i, concludes⟩
    · exact .inl (closed_step hv closed)
    · exact (pool_concludes hv concludes).imp_right fun h => ⟨i, h⟩
  · have leaves (w : Sys) (ops : List Op) : ∃ i, ∃ o ∈ (w.leave ops).pool.getD i [], o.concludes = true := by
      refine ⟨w.pool.length, .finish 1006 .empty, ?_, rfl⟩
      rw [Sys.leave, Sys.spawn, List.getD_eq_getElem?_getD, List.getElem?_append_right (Nat.le_refl _), Nat.sub_self]
      exact List.mem_append_right _ List.mem_cons_self
    cases step_acts hv with
    | task h' =>
      cases h' with
      | establish => cases task
      | opened => cases task
      | started => cases task
      | _ => exact .inr (leaves _ _)
    | reader run idle h' | writer run idle h' => cases h' <;> exact absurd task before
    | _ => exact absurd task before

/-- How a step changes `flags`: it closes the link, opens it, or sets it a deadline. -/
theorem flags_acts (h : Acts cfg s lab s') (sole : Sole Op.takes s) : s'.link.flags = s.link.flags ∨
    s'.state = .closed ∨ s'.task.underway = true ∧ s'.state = .opened ∨
    (s.task = .running ∨ s.state = .opened) ∧ s'.task = s.task ∧ s'.link.flags.deadline.isSome = true := by
  have exec {op : Op} (takes : op.takes = false) (link : s'.link = (s.link.exec cfg op).1) :
      s'.link.flags = s.link.flags ∨ s'.state = .closed := by
    rw [Sys.state, link]
    rcases @flags_exec cfg s.link op takes with flags | flags
    · exact .inl flags
    · exact .inr (by rw [flags])
  cases h with
  | sent => exact .inl (flags_send ..)
  | @close code reason valid free =>
    cases hs : (s.link.note (.closeCalled code reason)).flags.state with
    | opened =>
      refine .inr (.inr (.inr ⟨.inr hs, rfl, ?_⟩))
      rw [Sys.spawn, Link.close]
      simp only [hs]
      rfl
    | _ =>
      left
      rw [Sys.spawn, Link.close]
      simp only [hs]
      rfl
  | held hold => exact .inl (flags_execSection ..)
  | @pool i op rest ops =>
    have mem : op ∈ s.pool.flatten :=
      List.mem_flatten.mpr ⟨_, List.mem_of_getElem? (getElem?_of_getD ops), List.mem_cons_self⟩
    exact (exec (sole.pool op mem) rfl).imp_right .inl
  | task h' =>
    cases h' with
    | opened => exact .inr (.inr (.inl ⟨rfl, rfl⟩))
    | _ => exact .inl rfl
  | @readerOp op rest run ops =>
    cases takes : op.takes with
    | false => exact (exec takes rfl).imp_right .inl
    | true =>
      rcases @dated_took cfg s.link op takes with flags | ⟨-, t, deadline⟩
      · exact .inl flags
      · exact .inr (.inr (.inr ⟨.inl run, rfl, by rw [deadline]; rfl⟩))
  | reader run idle h' => cases h' <;> exact .inl rfl
  | @writerOp op rest run ops => exact (exec (sole.writer op (by rw [ops]; exact List.mem_cons_self)) rfl).imp_right .inl
  | writer run idle h' =>
    cases h' with
    | flushPong => exact .inl (flags_flushPong _)
    | progress pc hp link => rcases link with rfl | ⟨o, rfl⟩ <;> exact .inl rfl
    | _ => exact .inl rfl
  | _ => exact .inl rfl

theorem task_acts (h : Acts cfg s lab s') :
    s'.task = s.task ∨ s.task = .connecting ∨ s'.task.underway = true ∨ s'.task = .finished := by
  cases h with
  | task h' =>
    cases h' with
    | establish task => exact .inr (.inl task)
    | opened | started => exact .inr (.inr (.inl rfl))
    | _ => exact .inr (.inr (.inr rfl))
  | reader run idle h' | writer run idle h' => cases h' <;> exact .inl rfl
  | _ => exact .inl rfl

/-- A link that is open or closing has its handshake behind it. -/
theorem met_of_reachable (h : Reachable (Sys.step cfg) (.init cfg) s) :
    s.state = .connecting ∨ s.state = .closed ∨ s.task.underway = true ∨ s.task = .finished := by
  apply h.invariant (I := fun u => u.state = .connecting ∨ u.state = .closed ∨ u.task.underway = true ∨ u.task = .finished)
    (.inl rfl)
  intro u l v hu hI hv
  rcases flags_acts (step_acts hv) (sole_takes hu) with flags | closed | ⟨underway, -⟩ | ⟨why, task, -⟩
  · rw [Sys.state, flags]
    rcases task_acts (step_acts hv) with task | connecting | later
    · rw [task]
      exact hI
    · rw [connecting] at hI
      rcases hI with h | h | h | h
      · exact .inl h
      · exact .inr (.inl h)
      · cases h
      · cases h
    · exact .inr (.inr later)
  · exact .inr (.inl closed)
  · exact .inr (.inr (.inl underway))
  · rw [task]
    rcases why with run | opened
    · exact .inr (.inr (.inl (congrArg Task.underway run)))
    · rcases hI with h | h | h
      · cases opened.symm.trans h
      · cases opened.symm.trans h
      · exact .inr (.inr h)

/-- A closing link has a deadline. -/
theorem deadline_of_closing (h : Reachable (Sys.step cfg) (.init cfg) s) :
    s.state = .closing → s.link.flags.deadline.isSome = true := by
  apply h.invariant (I := fun u => u.state = .closing → u.link.flags.deadline.isSome = true) nofun
  intro u l v hu hI hv closing
  rcases flags_acts (step_acts hv) (sole_takes hu) with flags | closed | ⟨-, opened⟩ | ⟨-, -, deadline⟩
  · rw [flags]
    rw [Sys.state, flags] at closing
    exact hI closing
  · cases closing.symm.trans closed
  · cases closing.symm.trans opened
  · exact deadline

/-- Others leave the reader as it is, once it has started. -/
theorem rd_kept (h : Acts cfg s lab s') (reads : lab.reads = false) (running : s.task = .running) : s'.rd = s.rd := by
  cases h with
  | task h =>
    cases h with
    | started task => cases task.symm.trans running
    | _ => rfl
  | readerOp => cases reads
  | reader run idle h =>
    cases h with
    | goes h => cases h <;> cases reads
    | hub pc => rcases pc with ⟨rfl, -⟩ | ⟨rfl, -⟩ <;> cases reads
    | _ => cases reads
  | writer run idle h => cases h <;> rfl
  | _ => rfl

theorem running_step (h : Acts cfg s lab s') (running : s.task = .running) : s'.task = .running ∨ s'.task = .finished := by
  cases h with
  | task h =>
    cases h with
    | establish task | opened task => cases task.symm.trans running
    | started => exact .inl rfl
    | _ => exact .inr rfl
  | reader run idle h | writer run idle h => cases h <;> exact .inl running
  | _ => exact .inl running

theorem closing_step (h : s.step cfg lab = some s') (closing : s.state = .closing) :
    s'.state = .closing ∨ s'.state = .closed := by
  obtain ⟨used, new, he⟩ := step_effect h
  have rank := he.lives.rank_le
  rw [closing] at rank
  revert rank
  cases s'.state <;> simp [State.rank]

theorem deadline_step (hr : Reachable (Sys.step cfg) (.init cfg) s) (h : s.step cfg lab = some s') {d : Instant}
    (deadline : s.link.flags.deadline = some d) : s'.link.flags.deadline = some d := by
  obtain ⟨used, new, he⟩ := step_effect h
  exact ((Waiting.of_reachable hr).dated.step he).2 d deadline

theorem now_step (h : s.step cfg lab = some s') : s.link.now ≤ s'.link.now := by
  cases passes : lab.passes with
  | false =>
    have clock := (step_timing h passes).clock
    simp only [Link.clock, Prod.mk.injEq] at clock
    exact Nat.le_of_eq clock.1.symm
  | true =>
    cases lab with
    | tick d =>
      cases h
      exact Nat.le_add_right ..
    | activity inbound =>
      obtain ⟨-, h⟩ := Option.ite_none_right_eq_some.mp h
      cases h
      cases inbound <;> exact Nat.le_refl _
    | _ => cases passes

end Ends

/-! ## Past the deadline -/

/-- Who must go on: the reader, whoever holds `flags`, the task around the loops, a call in progress, and
whoever is about to call `notify_one`. The writer and the transport may stall. -/
inductive Party where
  | reader
  | holder
  | task
  | pool (i : Nat)
  | told (c : Cell)

def Party.moves : Party → Move → Prop
  | .reader, .step lab => lab.reads = true
  | .reader, .pend | .reader, .drained => True
  | .holder, .step (.hold _) => True
  | .task, .step .task => True
  | .pool i, .step (.pool j) => i = j
  | .told c, .lands d => c = d
  | _, _ => False

section Late

variable {cfg : Config} {limit d : Instant} {s t : Loops} {m : Move}

theorem awaits_flushing (h : Reachable (Loops.step cfg limit) (.init cfg) s) :
    s.awaits = true → ∃ d, s.sys.rd.pc = .flushing d := by
  apply h.invariant (I := fun u => u.awaits = true → ∃ d, u.sys.rd.pc = .flushing d) (by rintro ⟨⟩)
  intro u m v hu hI hv
  cases Loops.moved hv with
  | @step lab s' allowed h' =>
    intro awaits
    obtain ⟨before, reads⟩ := Bool.and_eq_true_iff.mp awaits
    obtain ⟨d, pc⟩ := hI before
    exact ⟨d, (rd_step h' (by simpa using reads)).1.trans pc⟩
  | pend pends =>
    intro _
    rw [Loops.pends] at pends
    split at pends
    · exact ⟨_, by assumption⟩
    · cases pends
  | drained => rintro ⟨⟩
  | _ => exact hI

namespace Loops

/-- What is to be done before the reader ends, and how often it may be called in vain. -/
def toil (s : Loops) : Nat × Nat :=
  (s.sys.rd.work + holdWork s.sys.link + (!(s.cells .changed).permit).toNat,
    2 * ((s.cells .drained).permit.toNat + (s.cells .drained).flying + s.sys.calls) + (!s.awaits).toNat)

/-- The timer of the read was set no later than the deadline. -/
def timely (s : Loops) : Bool := s.timer.target.any fun t => s.sys.link.flags.deadline.any (t ≤ ·)

/-- The reader waits for a call of `changed`. -/
def stuck (s : Loops) : Bool :=
  s.sys.rd.ops.isEmpty && !(s.cells .changed).permit &&
    match s.sys.rd.pc with
    | .throttled => true
    | .read => !s.timely
    | _ => false

def turn (s : Loops) : Party :=
  if s.sys.link.hold = [] then if s.stuck then .told .changed else .reader else .holder

theorem turn_congr (hold : t.sys.link.hold = [] ↔ s.sys.link.hold = []) (rd : t.sys.rd = s.sys.rd)
    (permit : (t.cells .changed).permit = (s.cells .changed).permit) (timer : t.timer = s.timer)
    (deadline : t.sys.link.flags.deadline = s.sys.link.flags.deadline) : t.turn = s.turn := by
  have stuck : t.stuck = s.stuck := by simp only [Loops.stuck, timely, rd, permit, timer, deadline]
  rw [turn, turn, stuck]
  by_cases free : s.sys.link.hold = []
  · rw [if_pos (hold.mpr free), if_pos free]
  · rw [if_neg (mt hold.mp free), if_neg free]

end Loops

/-- The link is closing by `d` and its loops run. -/
structure Ending (cfg : Config) (limit d : Instant) (s : Loops) : Prop where
  reach : Reachable (Loops.step cfg limit) (.init cfg) s
  running : s.sys.task = .running
  closing : s.sys.state = .closing
  deadline : s.sys.link.flags.deadline = some d

/-- And its deadline has passed. -/
structure Late (cfg : Config) (limit d : Instant) (s : Loops) : Prop extends Ending cfg limit d s where
  past : d ≤ s.sys.link.now

/-- The link or its task have come to their end. -/
def Loops.Done (s : Loops) : Prop := s.sys.state = .closed ∨ s.sys.state = .closing ∧ s.sys.task = .finished

theorem Ending.step (h : Ending cfg limit d s) (hs : s.step cfg limit m = some t) : t.Done ∨ Ending cfg limit d t := by
  have reach := h.reach.next hs
  cases Loops.moved hs with
  | @step lab s' allowed hs' =>
    have deadline := deadline_step (Loops.sys_reachable h.reach) hs' h.deadline
    rcases closing_step hs' h.closing with closing | closed
    · rcases running_step (step_acts hs') h.running with running | finished
      · exact .inr ⟨reach, running, closing, deadline⟩
      · exact .inl (.inr ⟨closing, finished⟩)
    · exact .inl (.inl closed)
  | _ => exact .inr ⟨reach, h.running, h.closing, h.deadline⟩

theorem now_move (hs : s.step cfg limit m = some t) : s.sys.link.now ≤ t.sys.link.now := by
  cases Loops.moved hs with
  | step allowed hs' => exact now_step hs'
  | _ => exact Nat.le_refl _

theorem Late.step (h : Late cfg limit d s) (hs : s.step cfg limit m = some t) : t.Done ∨ Late cfg limit d t :=
  (h.toEnding.step hs).imp_right fun ending => ⟨ending, Nat.le_trans h.past (now_move hs)⟩

/-! ### Every move helps or leaves the turn -/

/-- Nearer to the end, or as near and with the same party to move. -/
def Loops.Nearer (s : Loops) (m : Move) (t : Loops) : Prop :=
  Prod.Lex (· < ·) (· < ·) t.toil s.toil ∨ t.toil = s.toil ∧ t.turn = s.turn ∧ ¬ s.turn.moves m

theorem nearer_of_le (first : t.toil.1 = s.toil.1) (second : t.toil.2 ≤ s.toil.2) (turn : t.turn = s.turn)
    (other : ¬ s.turn.moves m) : s.Nearer m t := by
  rcases Nat.lt_or_eq_of_le second with less | equal
  · exact .inl (Prod.lex_iff.mpr (.inr ⟨first, less⟩))
  · exact .inr ⟨Prod.ext first equal, turn, other⟩

theorem nearer_of_lt (first : t.toil.1 < s.toil.1) : s.Nearer m t := .inl (Prod.lex_iff.mpr (.inl first))

theorem permit_after {lab : Label} {c : Cell} (h : lab ≠ .wake) : (s.cellsAfter lab c).permit = (s.cells c).permit := by
  rw [Loops.cellsAfter_eq h]
  split <;> rfl

/-- A reader's step pays for the permit it took. -/
theorem Late.reads (h : Late cfg limit d s) {lab : Label} {s' : Sys} (hs : s.sys.step cfg lab = some s')
    (reads : lab.reads = true) : s.Nearer (.step lab) (s.after cfg limit lab s') := by
  apply nearer_of_lt
  have less := reader_work (Loops.sys_reachable h.reach) (step_acts hs) reads h.closing
    (by rw [h.deadline]; exact decide_eq_true h.past)
  have permit : (!(s.cellsAfter lab .changed).permit).toNat ≤ (!(s.cells .changed).permit).toNat + lab.spends := by
    by_cases wake : lab = .wake
    · rw [wake]
      exact Nat.le_trans (Bool.toNat_le _) (Nat.le_add_left ..)
    · rw [permit_after wake]
      exact Nat.le_add_right ..
  simp only [Loops.toil, Loops.after]
  omega

theorem Late.others (h : Late cfg limit d s) {lab : Label} {s' : Sys} (hs : s.sys.step cfg lab = some s')
    (reads : lab.reads = false) : s.Nearer (.step lab) (s.after cfg limit lab s') := by
  have reach := Loops.sys_reachable h.reach
  have rd := rd_kept (step_acts hs) reads h.running
  have permit := @permit_after s lab .changed (Awake.ne_wake reads)
  rcases others_ease reach (step_acts hs) reads h.closing (.inl h.running) with less | ⟨other, same, hold, calls⟩
  · apply nearer_of_lt
    simp only [Loops.toil, Loops.after, rd, permit]
    omega
  · apply nearer_of_le
    · simp only [Loops.toil, Loops.after, rd, permit, same]
    · have rings : (s.cellsAfter lab .drained).flying = (s.cells .drained).flying + s.sys.rings lab := by
        rw [Loops.cellsAfter_eq (Awake.ne_wake reads), Sys.rings]
        split <;> rfl
      simp only [Loops.toil, Loops.after, permit_after (Awake.ne_wake reads), rings, reads, Bool.not_false, Bool.and_true]
      omega
    · refine Loops.turn_congr hold rd permit ?_ ((deadline_step reach hs h.deadline).trans h.deadline.symm)
      cases lab <;> first | rfl | cases reads
    · rw [Loops.turn]
      split
      · split
        · exact id
        · simp [Party.moves, reads]
      · cases lab <;> first | exact id | exact absurd rfl (other _)

/-- A step that touches no cell of the reader leaves the turn. -/
theorem nearer_of_idle (sys : t.sys = s.sys) (changed : t.cells .changed = s.cells .changed)
    (drained : t.cells .drained = s.cells .drained) (awaits : t.awaits = s.awaits) (timer : t.timer = s.timer)
    (other : ¬ s.turn.moves m) : s.Nearer m t := by
  refine .inr ⟨?_, ?_, other⟩
  · simp only [Loops.toil, sys, changed, drained, awaits]
  · exact Loops.turn_congr (by rw [sys]) (by rw [sys]) (by rw [changed]) timer (by rw [sys])

theorem told_stuck {c : Cell} (h : s.turn.moves (.lands c)) : c = .changed ∧ (s.cells .changed).permit = false := by
  rw [Loops.turn] at h
  split at h
  · split at h
    · rename_i stuck
      rw [Loops.stuck, Bool.and_assoc, Bool.and_eq_true, Bool.and_eq_true] at stuck
      exact ⟨Eq.symm h, by simpa using stuck.2.1⟩
    · cases h
  · cases h

theorem nearer_lands {c : Cell} {n : Notify} (hn : (s.cells c).land = some n) :
    s.Nearer (.lands c) { s with cells := s.setCell c n } := by
  obtain ⟨flying, hn⟩ := Option.ite_none_right_eq_some.mp hn
  cases hn
  cases c with
  | changed =>
    cases permit : (s.cells .changed).permit with
    | false =>
      apply nearer_of_lt
      simp [Loops.toil, Loops.setCell, permit]
    | true =>
      refine nearer_of_le ?_ (Nat.le_refl _) ?_ fun moves => ?_
      · simp [Loops.toil, Loops.setCell, permit]
      · exact Loops.turn_congr Iff.rfl rfl (by simp [Loops.setCell, permit]) rfl rfl
      · cases permit.symm.trans (told_stuck moves).2
  | drained =>
    refine nearer_of_le rfl ?_ (Loops.turn_congr Iff.rfl rfl rfl rfl rfl) fun moves => by cases (told_stuck moves).1
    simp only [Loops.toil, Loops.setCell, if_true, Bool.toNat_true]
    omega
  | ready | consumed => exact nearer_of_idle rfl rfl rfl rfl rfl fun moves => by cases (told_stuck moves).1

theorem Late.nearer (h : Late cfg limit d s) (hs : s.step cfg limit m = some t) : s.Nearer m t := by
  -- the writer's waits are its own
  have apart (hm : m = .ready ∨ m = .flushed) : ¬ s.turn.moves m := by
    rw [Loops.turn]
    rcases hm with rfl | rfl <;>
    · split
      · split <;> exact id
      · exact id
  cases Loops.moved hs with
  | @step lab s' allowed hs' =>
    cases reads : lab.reads with
    | true => exact h.reads hs' reads
    | false => exact h.others hs' reads
  | lands hn => exact nearer_lands hn
  | ready parked permit => exact nearer_of_idle rfl rfl rfl rfl rfl (apart (.inl rfl))
  | flushed parked => exact nearer_of_idle rfl rfl rfl rfl rfl (apart (.inr rfl))
  | pend pends =>
    have awaits : s.awaits = false := by
      rw [Loops.pends] at pends
      split at pends
      · simp only [Bool.and_eq_true, Bool.not_eq_true'] at pends
        exact pends.1.2
      · cases pends
    refine .inl (Prod.lex_iff.mpr (.inr ⟨rfl, ?_⟩))
    simp [Loops.toil, awaits]
  | drained awaits permit =>
    refine .inl (Prod.lex_iff.mpr (.inr ⟨rfl, ?_⟩))
    simp only [Loops.toil, Loops.setCell, if_true, awaits, permit, Bool.toNat_true, Bool.toNat_false, Bool.not_true,
      Bool.not_false]
    omega

/-! ### Whoever has the turn can move -/

theorem enabled_step {A : Move → Prop} (lab : Label) (allowed : s.allows lab = true)
    (hs : ∃ s', s.sys.step cfg lab = some s') (hA : A (.step lab)) : Enabled (Loops.step cfg limit) A s := by
  obtain ⟨s', hs⟩ := hs
  refine ⟨.step lab, s.after cfg limit lab s', hA, ?_⟩
  rw [Loops.step, if_pos allowed, hs]
  rfl

theorem enabled_holder (held : s.sys.link.hold ≠ []) : Enabled (Loops.step cfg limit) Party.holder.moves s := by
  obtain ⟨x, rest, hold⟩ := List.exists_cons_of_ne_nil held
  refine enabled_step (.hold ⟨0, 0, 0, 0⟩) rfl ?_ trivial
  rw [Sys.step, Link.holdStep, hold]
  exact ⟨_, rfl⟩

/-- Where the reader looks at `changed` only, it was told that the link is closing. -/
theorem Late.told (h : Late cfg limit d s) (stuck : s.stuck = true) :
    Enabled (Loops.step cfg limit) (Party.told .changed).moves s := by
  have awake := Awake.of_reachable h.reach
  rw [Loops.stuck, Bool.and_eq_true, Bool.and_eq_true, Bool.not_eq_true'] at stuck
  obtain ⟨⟨-, permit⟩, waits⟩ := stuck
  have live : (s.cells .changed).live = true := by
    split at waits
    · rename_i pc
      rcases awake.state (.inr pc) (by rw [h.closing]; nofun) with live | closed
      · exact live
      · cases h.closing.symm.trans closed
    · rename_i pc
      rcases awake.timer pc d (by rw [Loops.due, h.deadline, Option.some_or]) with live | ⟨t, target, le⟩
      · exact live
      · simp [Loops.timely, target, h.deadline, le] at waits
    · cases waits
  obtain ⟨n, land, -⟩ := Notify.land_isSome live permit
  refine ⟨.lands .changed, { s with cells := s.setCell .changed n }, rfl, ?_⟩
  rw [Loops.step, land]
  rfl

/-- Between two calls the reader stops only at its waits. -/
theorem readPc_isSome {s : Sys} (free : s.link.hold = []) (wait : s.rd.pc ≠ .throttled ∧ s.rd.pc ≠ .read ∧ s.rd.pc ≠ .finished)
    (flush : ∀ d, s.rd.pc = .flushing d → Sys.pending s.link = false) : ∃ s', s.readPc cfg = some s' := by
  cases pc : s.rd.pc with
  | throttled => exact absurd pc wait.1
  | read => exact absurd pc wait.2.1
  | finished => exact absurd pc wait.2.2
  | flushing d => simp [Sys.readPc, pc, flush d pc]
  | handled stop last | flush =>
    simp only [Sys.readPc, pc, free, List.isEmpty_nil, Bool.not_true, Bool.false_eq_true, if_false]
    split
    · exact ⟨_, rfl⟩
    · split <;> exact ⟨_, rfl⟩
  | top =>
    simp only [Sys.readPc, pc]
    split <;> exact ⟨_, rfl⟩
  | check =>
    simp only [Sys.readPc, pc, free, List.isEmpty_nil, Bool.not_true, Bool.false_eq_true, if_false]
    split <;> exact ⟨_, rfl⟩
  | _ => simp [Sys.readPc, pc, free]

theorem Late.flushing (h : Late cfg limit d s) {d' : Instant} (pc : s.sys.rd.pc = .flushing d') :
    Enabled (Loops.step cfg limit) Party.reader.moves s := by
  have reach := Loops.sys_reachable h.reach
  have idle : s.sys.rd.ops = [] := Poised.of_reachable reach (by rw [pc]; rfl)
  cases awaits : s.awaits with
  | true =>
    have same : d = d' := Option.some.inj (h.deadline.symm.trans ((Waiting.of_reachable reach).waits d' pc))
    refine enabled_step .timer ?_ ?_ rfl
    · rw [Loops.allows, pc]
      exact awaits
    · simp [Sys.step, Sys.onRunning, h.running, Sys.timer, idle, pc, ← same, h.past]
  | false =>
    cases pending : Sys.pending s.sys.link with
    | true =>
      refine ⟨.pend, { s with awaits := true }, trivial, ?_⟩
      rw [Loops.step, if_pos (by simp [Loops.pends, pc, h.running, idle, awaits, pending])]
    | false =>
      refine enabled_step .reader (by simp [Loops.allows, awaits]) ?_ rfl
      simp [Sys.step, Sys.onRunning, h.running, Sys.readerStep, idle, Sys.readPc, pc, pending]

/-- The waits of the read are over: the reader was told, or its timer has expired. -/
theorem Late.reading (h : Late cfg limit d s) (idle : s.sys.rd.ops = []) (free : s.sys.link.hold = [])
    (pc : s.sys.rd.pc = .read ∨ s.sys.rd.pc = .throttled) (stuck : s.stuck = false) :
    Enabled (Loops.step cfg limit) Party.reader.moves s := by
  cases permit : (s.cells .changed).permit with
  | true =>
    refine enabled_step .wake ?_ ?_ rfl
    · rcases pc with pc | pc <;> simp [Loops.allows, pc, permit]
    · simp [Sys.step, Sys.onRunning, h.running, idle, pc]
  | false =>
    rcases pc with pc | pc
    · have timely : s.timely = true := by simpa [Loops.stuck, idle, permit, pc] using stuck
      simp only [Loops.timely, h.deadline, Option.any_some, Option.any_eq_true, decide_eq_true_eq] at timely
      obtain ⟨t, target, le⟩ := timely
      refine enabled_step .timer ?_ ?_ rfl
      · rw [Loops.allows, pc]
        exact Timer.poll_iff.mpr ⟨t, target, Nat.le_trans le h.past⟩
      · cases beats : cfg.heartbeat <;> simp [Sys.step, Sys.onRunning, h.running, Sys.timer, idle, pc, free, beats]
    · simp [Loops.stuck, idle, permit, pc] at stuck

theorem Late.reader (h : Late cfg limit d s) (unfinished : ¬ s.Done) (free : s.sys.link.hold = []) (stuck : s.stuck = false) :
    Enabled (Loops.step cfg limit) Party.reader.moves s := by
  have reach := Loops.sys_reachable h.reach
  by_cases flushing : ∃ d, s.sys.rd.pc = .flushing d
  · obtain ⟨d, pc⟩ := flushing
    exact h.flushing pc
  have allowed : s.allows .reader = true := by
    rw [Loops.allows, Bool.not_eq_true', Bool.eq_false_iff]
    exact fun awaits => flushing (awaits_flushing h.reach awaits)
  cases ops : s.sys.rd.ops with
  | cons op rest =>
    refine enabled_step .reader allowed ?_ rfl
    simp [Sys.step, Sys.onRunning, h.running, Sys.readerStep, ops, Link.opStep, free]
  | nil =>
    by_cases wait : s.sys.rd.pc = .read ∨ s.sys.rd.pc = .throttled
    · exact h.reading ops free wait stuck
    by_cases finished : s.sys.rd.pc = .finished
    · rcases finished_concludes reach finished with closed | ⟨o, mem, -⟩
      · exact absurd (.inl closed) unfinished
      · rw [ops] at mem
        cases mem
    have goes := @readPc_isSome cfg s.sys free (by tauto) fun d pc => absurd ⟨d, pc⟩ flushing
    refine enabled_step .reader allowed ?_ rfl
    simpa [Sys.step, Sys.onRunning, h.running, Sys.readerStep, ops] using goes

theorem Late.enabled (h : Late cfg limit d s) (unfinished : ¬ s.Done) : Enabled (Loops.step cfg limit) s.turn.moves s := by
  rw [Loops.turn]
  split
  · rename_i free
    split
    · rename_i stuck
      exact h.told stuck
    · rename_i stuck
      exact h.reader unfinished free (Bool.eq_false_iff.mpr stuck)
  · rename_i held
    exact enabled_holder held

/-- Past the deadline the link closes, or its task is over. -/
theorem Late.ends {e : Execution (Loops.step cfg limit)} (fair : ∀ k : Party, e.Just k.moves) {i : Nat}
    (h : Late cfg limit d (e.state i)) : ∃ j, i ≤ j ∧ (e.state j).Done := by
  have helped : Helped (Loops.step cfg limit) Party.moves (Prod.Lex (· < ·) (· < ·)) (Late cfg limit d) Loops.Done
      Loops.toil Loops.turn := fun s m t hs _ ht => (hs.step ht).imp_right fun ht' => ⟨ht', hs.nearer ht⟩
  exact helped.reaches_just (Prod.lex Nat.lt_wfRel Nat.lt_wfRel).wf fair (fun s hs unfinished => hs.enabled unfinished) h

/-! ## Before the loops, and after them -/

/-- The task is over, and the call `i` that it left will close the link. -/
structure Leaving (cfg : Config) (limit : Instant) (i : Nat) (s : Loops) : Prop where
  reach : Reachable (Loops.step cfg limit) (.init cfg) s
  closing : s.sys.state = .closing
  finished : s.sys.task = .finished
  concludes : ∃ o ∈ s.sys.pool.getD i [], o.concludes = true

theorem finished_step {s s' : Sys} {lab : Label} (h : Acts cfg s lab s') (finished : s.task = .finished) :
    s'.task = .finished ∧ lab.reads = false := by
  cases h with
  | task h' =>
    cases h' with
    | establish task | opened task | started task => cases task.symm.trans finished
    | _ => exact ⟨rfl, rfl⟩
  | readerOp run | reader run | writerOp run | writer run => cases run.symm.trans finished
  | _ => exact ⟨finished, rfl⟩

namespace Leaving

variable {i : Nat}

def toil (i : Nat) (s : Loops) : Nat := opsWork (s.sys.pool.getD i []) + holdWork s.sys.link

def turn (i : Nat) (s : Loops) : Party := if s.sys.link.hold = [] then .pool i else .holder

theorem step (h : Leaving cfg limit i s) (hs : s.step cfg limit m = some t) :
    t.sys.state = .closed ∨ Leaving cfg limit i t := by
  have reach := h.reach.next hs
  cases Loops.moved hs with
  | @step lab s' allowed hs' =>
    rcases closing_step hs' h.closing with closing | closed
    · exact (pool_concludes hs' h.concludes).imp_right (⟨reach, closing, (finished_step (step_acts hs') h.finished).1, ·⟩)
    · exact .inl closed
  | _ => exact .inr ⟨reach, h.closing, h.finished, h.concludes⟩

theorem nearer (h : Leaving cfg limit i s) (hs : s.step cfg limit m = some t) :
    toil i t < toil i s ∨ toil i t = toil i s ∧ turn i t = turn i s ∧ ¬ (turn i s).moves m := by
  have idle (hm : ∀ lab, m ≠ .step lab) : ¬ (turn i s).moves m := by
    rw [turn]
    split <;> cases m <;> first | exact id | exact absurd rfl (hm _)
  cases Loops.moved hs with
  | @step lab s' allowed hs' =>
    have acts := step_acts hs'
    have reads := (finished_step acts h.finished).2
    obtain ⟨o, mem, -⟩ := h.concludes
    have hi := lt_of_mem_pool mem
    by_cases own : lab = .pool i
    · left
      subst own
      obtain ⟨op, rest, ops, free, rfl⟩ := pool_acts acts
      have less := @exec_work cfg s.sys.link op free
      simp only [toil, Loops.after, List.getD_eq_getElem?_getD, List.getElem?_set_self hi, Option.getD_some, opsWork_append]
      rw [← List.getD_eq_getElem?_getD, ops, opsWork_cons]
      omega
    · have kept := pool_kept acts hi own
      rcases others_ease (Loops.sys_reachable h.reach) acts reads h.closing (.inr h.finished) with less | ⟨other, same, hold, -⟩
      · left
        simp only [toil, Loops.after, kept]
        omega
      · refine .inr ⟨by simp only [toil, Loops.after, kept, same], ?_, ?_⟩
        · simp only [turn, Loops.after, hold]
        · rw [turn]
          split
          · cases lab <;> first | exact id | exact fun hp => own (congrArg Label.pool (Eq.symm hp))
          · cases lab <;> first | exact id | exact absurd rfl (other _)
  | lands | ready | flushed | pend | drained => exact .inr ⟨rfl, rfl, idle (by simp)⟩

theorem enabled (h : Leaving cfg limit i s) : Enabled (Loops.step cfg limit) (turn i s).moves s := by
  rw [turn]
  split
  · rename_i free
    obtain ⟨o, mem, -⟩ := h.concludes
    obtain ⟨op, rest, ops⟩ := List.exists_cons_of_ne_nil (List.ne_nil_of_mem mem)
    refine enabled_step (.pool i) rfl ?_ rfl
    rw [Sys.step, Sys.poolStep, ops]
    simp [Link.opStep, free]
  · rename_i held
    exact enabled_holder held

theorem ends {e : Execution (Loops.step cfg limit)} (fair : ∀ k : Party, e.Just k.moves) {j : Nat}
    (h : Leaving cfg limit i (e.state j)) : ∃ k, j ≤ k ∧ (e.state k).sys.state = .closed := by
  have helped : Helped (Loops.step cfg limit) Party.moves (· < ·) (Leaving cfg limit i) (·.sys.state = .closed)
      (toil i) (turn i) := fun s m t hs _ ht => (hs.step ht).imp_right fun ht' => ⟨ht', hs.nearer ht⟩
  exact helped.reaches_just Nat.lt_wfRel.wf fair (fun s hs _ => hs.enabled) h

end Leaving

/-- The loops of a link that closes early have still to start. -/
structure Opening (cfg : Config) (limit : Instant) (s : Loops) : Prop where
  reach : Reachable (Loops.step cfg limit) (.init cfg) s
  closing : s.sys.state = .closing
  opening : ∃ rest, s.sys.task = .opening rest

/-- They have started, or will never start. -/
def Loops.Started (s : Loops) : Prop :=
  s.sys.state = .closed ∨ s.sys.state = .closing ∧ (s.sys.task = .running ∨ s.sys.task = .finished)

theorem opening_acts {s s' : Sys} {lab : Label} {rest : Bytes} (h : Acts cfg s lab s') (opening : s.task = .opening rest) :
    (s'.task = .running ∨ s'.task = .finished) ∨ s'.task = .opening rest ∧ lab ≠ .task := by
  cases h with
  | task h' =>
    cases h' with
    | establish task | opened task => cases task.symm.trans opening
    | started => exact .inl (.inl rfl)
    | _ => exact .inl (.inr rfl)
  | readerOp run | reader run | writerOp run | writer run => cases run.symm.trans opening
  | _ => exact .inr ⟨opening, nofun⟩

theorem Opening.step (h : Opening cfg limit s) (hs : s.step cfg limit m = some t) :
    t.Started ∨ Opening cfg limit t ∧ ¬ Party.task.moves m := by
  have reach := h.reach.next hs
  obtain ⟨rest, opening⟩ := h.opening
  cases Loops.moved hs with
  | @step lab s' allowed hs' =>
    rcases closing_step hs' h.closing with closing | closed
    · rcases opening_acts (step_acts hs') opening with started | ⟨same, other⟩
      · exact .inl (.inr ⟨closing, started⟩)
      · refine .inr ⟨⟨reach, closing, rest, same⟩, ?_⟩
        cases lab <;> first | exact id | exact absurd rfl other
    · exact .inl (.inl closed)
  | lands | ready | flushed | pend | drained => exact .inr ⟨⟨reach, h.closing, rest, opening⟩, id⟩

theorem Opening.starts {e : Execution (Loops.step cfg limit)} (fair : ∀ k : Party, e.Just k.moves) {i : Nat}
    (h : Opening cfg limit (e.state i)) : ∃ j, i ≤ j ∧ (e.state j).Started := by
  have helped : Helped (Loops.step cfg limit) Party.moves (· < ·) (Opening cfg limit) Loops.Started
      (fun _ => 0) (fun _ => .task) := fun s m t hs _ ht =>
    (hs.step ht).imp_right fun ⟨ht', other⟩ => ⟨ht', .inr ⟨rfl, rfl, other⟩⟩
  refine helped.reaches_just Nat.lt_wfRel.wf fair (fun s hs _ => ?_) h
  obtain ⟨rest, opening⟩ := hs.opening
  refine enabled_step .task rfl ?_ trivial
  rw [Sys.step, Sys.taskStep, opening]
  dsimp only
  split <;> exact ⟨_, rfl⟩

/-! ## The end -/

section Main

variable {e : Execution (Loops.step cfg limit)} (start : e.state 0 = .init cfg) (fair : ∀ k : Party, e.Just k.moves)

include start in
theorem reachable_state (i : Nat) : Reachable (Loops.step cfg limit) (.init cfg) (e.state i) :=
  start ▸ e.reachable (Nat.zero_le i)

include start fair

theorem done_ends {i : Nat} (h : (e.state i).Done) : ∃ j, i ≤ j ∧ (e.state j).sys.state = .closed := by
  have reach := reachable_state start i
  rcases h with closed | ⟨closing, finished⟩
  · exact ⟨i, Nat.le_refl _, closed⟩
  · rcases left_concludes (Loops.sys_reachable reach) finished with closed | ⟨k, concludes⟩
    · exact ⟨i, Nat.le_refl _, closed⟩
    · exact Leaving.ends fair ⟨reach, closing, finished, concludes⟩

theorem running_ends (time : ∀ T, ∃ i, T ≤ (e.state i).sys.link.now) {i : Nat}
    (closing : (e.state i).sys.state = .closing) (running : (e.state i).sys.task = .running) :
    ∃ j, i ≤ j ∧ (e.state j).sys.state = .closed := by
  have reach := reachable_state start i
  obtain ⟨d, deadline⟩ := Option.isSome_iff_exists.mp (deadline_of_closing (Loops.sys_reachable reach) closing)
  obtain ⟨k, past⟩ := time d
  -- by then the link has ended, or it is still closing and late
  have meanwhile : ∀ j, i ≤ j → (∃ l, i ≤ l ∧ (e.state l).Done) ∨ Ending cfg limit d (e.state j) := by
    intro j hij
    induction hij with
    | refl => exact .inr ⟨reach, running, closing, deadline⟩
    | @step j hij ih =>
      rcases ih with done | ending
      · exact .inl done
      · exact (ending.step (e.next j)).imp_left fun done => ⟨j + 1, Nat.le_succ_of_le hij, done⟩
  have done : ∃ l, i ≤ l ∧ (e.state l).Done := by
    rcases meanwhile (max i k) (Nat.le_max_left ..) with done | ending
    · exact done
    · have now : (e.state k).sys.link.now ≤ (e.state (max i k)).sys.link.now := by
        apply (e.reachable (Nat.le_max_right i k)).invariant
          (I := fun u => (e.state k).sys.link.now ≤ u.sys.link.now) (Nat.le_refl _)
        intro u m v _ hu hv
        exact Nat.le_trans hu (now_move hv)
      obtain ⟨l, hl, done⟩ := Late.ends fair ⟨ending, Nat.le_trans past now⟩
      exact ⟨l, Nat.le_trans (Nat.le_max_left ..) hl, done⟩
  obtain ⟨l, hil, done⟩ := done
  obtain ⟨j, hlj, closed⟩ := done_ends start fair done
  exact ⟨j, Nat.le_trans hil hlj, closed⟩

omit start fair in
/-- A closing link closes, if time goes on and no thread of the program stands still: neither the peer nor
the transport, nor the application's other calls, nor the writer can hold it up. -/
theorem closing_ends (e : Execution (Loops.step cfg limit)) (start : e.state 0 = .init cfg)
    (fair : ∀ k : Party, e.Just k.moves) (time : ∀ T, ∃ i, T ≤ (e.state i).sys.link.now) {i : Nat}
    (closing : (e.state i).sys.state = .closing) : ∃ j, i ≤ j ∧ (e.state j).sys.state = .closed := by
  have reach := reachable_state start i
  have onward {j : Nat} (hij : i ≤ j) (started : (e.state j).Started) : ∃ j, i ≤ j ∧ (e.state j).sys.state = .closed := by
    have after : ∃ k, j ≤ k ∧ (e.state k).sys.state = .closed := by
      rcases started with closed | ⟨closing, running | finished⟩
      · exact ⟨j, Nat.le_refl _, closed⟩
      · exact running_ends start fair time closing running
      · exact done_ends start fair (.inr ⟨closing, finished⟩)
    obtain ⟨k, hjk, closed⟩ := after
    exact ⟨k, Nat.le_trans hij hjk, closed⟩
  rcases met_of_reachable (Loops.sys_reachable reach) with connecting | closed | underway | finished
  · cases closing.symm.trans connecting
  · exact ⟨i, Nat.le_refl _, closed⟩
  · cases task : (e.state i).sys.task with
    | running => exact onward (Nat.le_refl _) (.inr ⟨closing, .inl task⟩)
    | opening rest =>
      obtain ⟨j, hij, started⟩ := Opening.starts fair ⟨reach, closing, rest, task⟩
      exact onward hij started
    | _ =>
      rw [task] at underway
      cases underway
  · exact onward (Nat.le_refl _) (.inr ⟨closing, .inr finished⟩)

end Main

/-! ### A peer that says nothing -/

/-- The same state some time later. -/
def Loops.later (s : Loops) (n : Nat) : Loops :=
  { s with sys := { s.sys with link := { s.sys.link with now := s.sys.link.now + n } } }

theorem later_tick (s : Loops) (n : Nat) : (s.later n).step cfg limit (.step (.tick 1)) = some (s.later (n + 1)) := by
  simp [Loops.later, Loops.step, Loops.allows, Sys.step, Loops.after, Loops.cellsAfter, Loops.parkedAfter, Label.reads,
    Loops.deadlineAfter, Loops.timerAfter, Sys.notifies, Nat.add_assoc]

/-- Where the reader has ended and nobody is called, only the writer may move. -/
theorem disabled_of_finished (task : s.sys.task = .running) (hold : s.sys.link.hold = []) (pool : s.sys.pool = [[]])
    (pc : s.sys.rd.pc = .finished) (ops : s.sys.rd.ops = []) (wr : s.sys.wr.pc = .idle) (awaits : s.awaits = false)
    (cells : ∀ c, (s.cells c).flying = 0) (k : Party) : ¬ Enabled (Loops.step cfg limit) k.moves s := by
  rintro ⟨m, t, moves, hs⟩
  cases k with
  | reader =>
    cases m with
    | step lab =>
      cases lab <;> first
        | exact absurd moves Bool.false_ne_true
        | simp [Loops.step, Sys.step, Sys.onRunning, Sys.readerStep, Sys.readPc, Sys.input, Sys.readError, Sys.timer,
            Sys.haltReader, task, pc, ops] at hs
    | pend => simp [Loops.step, Loops.pends, pc] at hs
    | drained => simp [Loops.step, awaits] at hs
    | _ => cases moves
  | holder =>
    cases m with
    | step lab =>
      cases lab <;> first
        | exact False.elim moves
        | simp [Loops.step, Sys.step, Link.holdStep, hold] at hs
    | _ => cases moves
  | task =>
    cases m with
    | step lab =>
      cases lab <;> first
        | exact False.elim moves
        | simp [Loops.step, Sys.step, Sys.taskStep, task, wr] at hs
    | _ => cases moves
  | pool i =>
    cases m with
    | step lab =>
      cases lab <;> first
        | exact False.elim moves
        | cases i <;> simp [Loops.step, Sys.step, Sys.poolStep, pool, Link.opStep] at hs
    | _ => cases moves
  | told c =>
    cases m with
    | lands d => simp [Loops.step, Notify.land, cells] at hs
    | _ => cases moves

end Late

/-- The application closes a link whose peer is silent and whose transport takes no byte. -/
def stalledRun : List Move :=
  openRun.map .step ++ .step (.call (.close 1000 .empty)) :: .step (.hold ⟨0, 0, 0, 0⟩) ::
    List.replicate 4 (.step .reader) ++ .step (.tick CLOSE_TIMEOUT) :: .step .timer ::
    List.replicate 12 (.step .reader) ++ [.lands .changed, .lands .ready, .lands .ready, .lands .drained]

theorem closing_ends_stalled : ∃ e : Execution (Loops.step .small 0), e.state 0 = .init .small ∧
    (e.state 5).sys.state = .closing ∧ ∃ j, 5 ≤ j ∧ (e.state j).sys.state = .closed := by
  obtain ⟨s, run, task, hold, pool, pc, ops, wr, awaits, cells⟩ : ∃ s,
      runs (Loops.step .small 0) (.init .small) stalledRun = some s ∧ s.sys.task = .running ∧ s.sys.link.hold = [] ∧
      s.sys.pool = [[]] ∧ s.sys.rd.pc = .finished ∧ s.sys.rd.ops = [] ∧ s.sys.wr.pc = .idle ∧ s.awaits = false ∧
      ∀ c, (s.cells c).flying = 0 :=
    ⟨_, rfl, rfl, rfl, rfl, rfl, rfl, rfl, rfl, fun c => by cases c <;> rfl⟩
  let e : Execution (Loops.step .small 0) := .lasting stalledRun (.step (.tick 1)) s.later run (later_tick s)
  have tail (i : Nat) (hi : stalledRun.length ≤ i) : e.state i = s.later (i - stalledRun.length) := if_neg (by omega)
  refine ⟨e, rfl, rfl, closing_ends e rfl (fun k => .of_disabled (n := stalledRun.length) fun i hi => ?_) (fun T => ?_) rfl⟩
  · rw [tail i hi]
    exact @disabled_of_finished .small 0 (s.later _) task hold pool pc ops wr awaits cells k
  · refine ⟨stalledRun.length + T, ?_⟩
    rw [tail _ (Nat.le_add_right ..), Nat.add_sub_cancel_left]
    exact Nat.le_add_left ..

end WebSocket.Net
