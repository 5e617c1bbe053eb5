import WebSocket.Net.Deadline

/-!
# What is queued is written

The writer takes everything that was enqueued to the transport, in whatever order the threads run:
`queue_drains`. `Out.taken` counts the bytes the writer is done with, from the first one on;
nothing enqueued later comes before what is waiting, so others cannot put it off. Between two writes
the writer goes at most once round its loop (`WritePc.leg`).

On the way it takes the lock of `flags`, for a deferred pong and for `Drain`. A lock may be taken by
others again and again, so here the writer must get its turn whenever the lock is free often
enough; of the others it is enough that they do not stand still.
-/

namespace WebSocket.Net

open Proto Lib Lib.Transition

/-! ## How far the writer has come -/

namespace Out

/-- The bytes, and the `Shutdown`, that the writer is done with. -/
def taken (o : Out) : Nat := (entryTokens o.gone).length + (entryTokens o.inBatch).length - o.left.length

/-- What the application and the reader leave alone. -/
structure Kept (o o' : Out) : Prop where
  gone : o'.gone = o.gone
  inBatch : o'.inBatch = o.inBatch
  batch : o'.batch = o.batch
  cur : o'.cur = o.cur

theorem Kept.refl (o : Out) : Kept o o := ⟨rfl, rfl, rfl, rfl⟩

theorem Kept.left {o o' : Out} (h : Kept o o') : o'.left = o.left := by rw [Out.left, Out.left, h.batch, h.cur]

theorem Kept.taken {o o' : Out} (h : Kept o o') : o'.taken = o.taken := by
  rw [Out.taken, Out.taken, h.gone, h.inBatch, h.left]

end Out

theorem Carried.left_le {o : Out} (h : Carried o) : o.left.length ≤ (entryTokens o.inBatch).length := by
  obtain ⟨pre, batch, -⟩ := h.batch
  rw [batch, List.length_append]
  exact Nat.le_add_left ..

/-- What the writer is done with has been written. -/
theorem Carried.on_wire {o : Out} (h : Carried o) {es : List Entry} (logged : es <+: o.log)
    (taken : (entryTokens es).length ≤ o.taken) : entryBytes es <+: o.wire := by
  obtain ⟨pre, batch, wire⟩ := h.batch
  have count : (entryTokens o.gone ++ pre).length = o.taken := by
    rw [Out.taken, batch, List.length_append, List.length_append]
    omega
  have whole : entryTokens es <+: (entryTokens o.gone ++ pre) ++ (o.left ++ entryTokens o.queued) := by
    have split : (entryTokens o.gone ++ pre) ++ (o.left ++ entryTokens o.queued) = entryTokens o.log := by
      rw [Out.log, entryTokens_append, entryTokens_append, batch]
      simp only [List.append_assoc]
    rw [split]
    obtain ⟨rest, log⟩ := logged
    rw [← log, entryTokens_append]
    exact List.prefix_append ..
  have front : entryTokens es <+: entryTokens o.gone ++ pre :=
    List.prefix_of_prefix_length_le whole (List.prefix_append ..) (by rw [count]; exact taken)
  rw [wire, ← tokenBytes_entryTokens]
  exact (List.IsPrefix.filterMap Token.byte? front).trans (List.prefix_append ..)

section Writer

variable {cfg : Config} {s s' : Sys} {lab : Label}

/-! ## What the others leave alone -/

theorem kept_execSection (l : Link) (key : Key) (x : Section) : l.out.Kept (l.execSection cfg key x).1.out := by
  cases x with
  | pushFrame kind op payload =>
    rw [Link.execSection]
    dsimp only
    split <;> exact ⟨rfl, rfl, rfl, rfl⟩
  | recheck op payload =>
    rw [Link.execSection]
    split <;> exact ⟨rfl, rfl, rfl, rfl⟩
  | _ => exact ⟨rfl, rfl, rfl, rfl⟩

theorem kept_exec (l : Link) (op : Op) : l.out.Kept (l.exec cfg op).1.out := by
  rcases exec_out cfg l op with out | ⟨-, out⟩
  · rw [out]
    exact .refl _
  · rw [out]
    exact ⟨rfl, rfl, rfl, rfl⟩

/-- A step is a turn of the writer, a section of a call it is in, or not its own. -/
theorem writer_acts (h : Acts cfg s lab s') :
    s.wr.ops = [] ∧ WriterTurn cfg s lab s' ∨ s.link.out.Kept s'.link.out ∧
      (lab = .writer ∧ (∃ op rest, s.wr.ops = op :: rest ∧
          s'.wr = { s.wr with ops := (s.link.exec cfg op).2 ++ rest }) ∨
        lab.writes = false ∧ s'.wr = s.wr) := by
  have other (kept : s.link.out.Kept s'.link.out) (writes : lab.writes = false) (wr : s'.wr = s.wr) :
      s.wr.ops = [] ∧ WriterTurn cfg s lab s' ∨ s.link.out.Kept s'.link.out ∧
        (lab = .writer ∧ (∃ op rest, s.wr.ops = op :: rest ∧
            s'.wr = { s.wr with ops := (s.link.exec cfg op).2 ++ rest }) ∨
          lab.writes = false ∧ s'.wr = s.wr) := .inr ⟨kept, .inr ⟨writes, wr⟩⟩
  cases h with
  | sent => exact other (by rw [out_send]; exact .refl _) rfl rfl
  | close => exact other (by rw [Sys.spawn, out_close]; exact .refl _) rfl rfl
  | held hold => exact other (kept_execSection ..) rfl rfl
  | pool | readerOp => exact other (kept_exec ..) rfl rfl
  | task h => cases h <;> exact other ⟨rfl, rfl, rfl, rfl⟩ rfl rfl
  | reader run idle h =>
    cases h with
    | goes h => cases h <;> exact other (.refl _) rfl rfl
    | hub pc => rcases pc with ⟨rfl, -⟩ | ⟨rfl, -⟩ <;> exact other (.refl _) rfl rfl
    | _ => exact other (.refl _) rfl rfl
  | writerOp run ops => exact .inr ⟨kept_exec .., .inl ⟨rfl, _, _, ops, rfl⟩⟩
  | writer run idle h => exact .inl ⟨idle, h⟩
  | _ => exact other (.refl _) rfl rfl

theorem log_execSection (l : Link) (key : Key) (x : Section) : l.out.log <+: (l.execSection cfg key x).1.out.log := by
  have pushed {o : Out} {e : Entry} (h : o.log = if l.out.box.live then l.out.log ++ [e] else l.out.log) :
      l.out.log <+: o.log := by
    rw [h]
    split
    · exact List.prefix_append ..
    · exact List.prefix_refl _
  cases x with
  | pushFrame kind op payload =>
    rw [Link.execSection]
    dsimp only
    split <;> exact pushed (Out.log_pushFrame ..)
  | recheck op payload =>
    rw [Link.execSection]
    split <;> exact List.prefix_refl _
  | pushHeartbeat sent => exact pushed (Out.log_pushHeartbeat ..)
  | pushShutdown => exact pushed (Out.log_pushShutdown _)
  | clearPong | deferPong data => exact List.prefix_refl _

/-- The log only grows. -/
theorem log_step (hs : s.step cfg lab = some s') : s.link.out.log <+: s'.link.out.log := by
  obtain ⟨used, new, he⟩ := step_effect hs
  rcases he.locked.log with same | ⟨key, x, rest, hold, link⟩
  · rw [same]
  · rw [link]
    exact log_execSection ..

/-! ## The writer's own turns -/

/-- The item the writer is at. -/
def WritePc.Fits (o : Out) : WritePc → Prop
  | .idle => o.batch = [] ∧ o.cur = none
  | .flushPong | .next | .shutting | .shut => o.cur = none
  | .writing | .stamp _ => ∃ c, o.cur = some c ∧ c.flying = 0
  | .wrote => ∃ c, o.cur = some c ∧ c.flying ≠ 0
  | .finished => True

theorem fits_turn (h : WriterTurn cfg s lab s') (fits : s.wr.pc.Fits s.link.out) : s'.wr.pc.Fits s'.link.out := by
  cases h with
  | swap pc done hswap =>
    obtain ⟨-, cur, rfl⟩ := Out.swap_some hswap
    dsimp only
    split
    · exact cur
    · split
      · rename_i empty
        exact ⟨List.isEmpty_iff.mp empty, cur⟩
      · exact cur
  | flushPong pc free =>
    rw [pc] at fits
    rw [out_flushPong]
    exact fits
  | again pc batch =>
    rw [pc] at fits
    exact ⟨batch, fits⟩
  | @pop item t out pc batch hpop =>
    obtain ⟨cur, item', t', batch', rfl⟩ := Out.pop_some hpop
    cases batch.symm.trans batch'
    cases item with
    | data b | heartbeat b sent => exact ⟨_, rfl, rfl⟩
    | shutdown => exact rfl
  | written pc hfinish =>
    obtain ⟨c, -, -, -, rfl⟩ := Out.finish_some hfinish
    exact rfl
  | progress pc hp link =>
    obtain ⟨c, -, -, -, rfl⟩ := Out.progress_some hp
    rcases link with rfl | ⟨o, rfl⟩ <;> exact ⟨_, rfl, rfl⟩
  | stamp pc | shut pc | shutOut pc =>
    rw [pc] at fits
    exact fits
  | write pc hwrite =>
    obtain ⟨c, cur, -, pos, -, rfl⟩ := Out.write_some hwrite
    exact ⟨_, rfl, by dsimp only; omega⟩
  | _ => trivial

theorem WritePc.Fits.kept {o o' : Out} {pc : WritePc} (h : pc.Fits o) (kept : o.Kept o') : pc.Fits o' := by
  cases pc <;> simp only [Fits, kept.batch, kept.cur] at h ⊢ <;> exact h

theorem fits_of_reachable (h : Reachable (Sys.step cfg) (.init cfg) s) : s.wr.pc.Fits s.link.out := by
  apply h.invariant (I := fun u => u.wr.pc.Fits u.link.out) ⟨rfl, rfl⟩
  intro u l v hu hI hv
  rcases writer_acts (step_acts hv) with ⟨-, turn⟩ | ⟨kept, ⟨-, op, rest, -, wr⟩ | ⟨-, wr⟩⟩
  · exact fits_turn turn hI
  · rw [wr]
    exact hI.kept kept
  · rw [wr]
    exact hI.kept kept

/-! ## Once round the loop -/

def Out.unwrittenItem (o : Out) : Bool := o.cur.any fun c => decide (c.pos < c.data.length)

/-- How far the writer is from its next write, if there is something to write. -/
def WritePc.leg (o : Out) (parked permit : Bool) : WritePc → Nat
  | .wrote => 1
  | .writing => if o.unwrittenItem then 2 else 7
  | .next => if o.batch.isEmpty then 6 else 3
  | .flushPong => if o.batch.isEmpty then 7 else 4
  | .idle => if parked then if permit then 6 else 7 else 5
  | .stamp _ | .shutting => 8
  | .shut => 7
  | .finished => 0

theorem WritePc.leg_kept {o o' : Out} (pc : WritePc) (kept : o.Kept o') (parked permit : Bool) :
    pc.leg o' parked permit = pc.leg o parked permit := by
  have item : o'.unwrittenItem = o.unwrittenItem := by rw [Out.unwrittenItem, Out.unwrittenItem, kept.cur]
  cases pc <;> simp only [leg, item, kept.batch]

/-- No entry of the queue or the batch is empty. -/
def Out.Filled (o : Out) : Prop := ∀ item ∈ o.box.queue.items ++ o.batch, item.tokens ≠ []

theorem filled_pushBack {items : List Item} {joins : Bytes → Bool} {extend : Bytes → Bytes} {fresh : Bytes}
    (h : ∀ item ∈ items, item.tokens ≠ []) (longer : ∀ last, extend last ≠ []) (some : fresh ≠ []) :
    ∀ item ∈ Outbox.pushBack items joins extend fresh, item.tokens ≠ [] := by
  have data {b : Bytes} (hb : b ≠ []) : (Item.data b).tokens ≠ [] := by
    intro none
    exact hb (List.map_eq_nil_iff.mp none)
  have pushed {l : List Item} {b : Bytes} (hl : ∀ item ∈ l, item.tokens ≠ []) (hb : b ≠ []) :
      ∀ item ∈ l ++ [.data b], item.tokens ≠ [] := by
    intro item mem
    rcases List.mem_append.mp mem with mem | mem
    · exact hl item mem
    · rw [List.mem_singleton.mp mem]
      exact data hb
  rw [Outbox.pushBack]
  split
  · split
    · exact pushed (fun item mem => h item (List.dropLast_subset _ mem)) (longer _)
    · exact pushed h some
  · exact pushed h some

theorem filled_pushFrame {o : Outbox} {op : UInt8} {payload : Bytes} {key : Key}
    (h : ∀ item ∈ o.queue.items, item.tokens ≠ []) :
    ∀ item ∈ (o.pushFrame cfg op payload key).queue.items, item.tokens ≠ [] := by
  unfold Outbox.pushFrame Outbox.push Outbox.enqueue
  dsimp only
  split
  · split
    · split
      · exact h
      · split
        · exact h
        · rename_i some
          have some := mt List.isEmpty_iff.mpr some
          exact filled_pushBack h (fun last => List.append_ne_nil_of_right_ne_nil _ some) some
    · exact h
  · split
    · exact h
    · split
      · exact h
      · refine filled_pushBack h (fun last => ?_) ?_
        · rw [encodeInto_eq]
          exact List.append_ne_nil_of_right_ne_nil _ (List.cons_ne_nil _ _)
        · rw [encode_eq]
          exact List.cons_ne_nil _ _

theorem Out.Filled.step {o o' : Out} (h : o.Filled) (hs : OutStep cfg o o') : o'.Filled := by
  have queue : ∀ item ∈ o.box.queue.items, item.tokens ≠ [] := fun item mem => h item (List.mem_append_left _ mem)
  have batch : ∀ item ∈ o.batch, item.tokens ≠ [] := fun item mem => h item (List.mem_append_right _ mem)
  have both {p : Out} (hq : ∀ item ∈ p.box.queue.items, item.tokens ≠ []) (hb : ∀ item ∈ p.batch, item.tokens ≠ []) :
      p.Filled := fun item mem => (List.mem_append.mp mem).elim (hq item) (hb item)
  have pushed {x : Item} (hx : x.tokens ≠ []) : ∀ item ∈ o.box.queue.items ++ [x], item.tokens ≠ [] := by
    intro item mem
    rcases List.mem_append.mp mem with mem | mem
    · exact queue item mem
    · rw [List.mem_singleton.mp mem]
      exact hx
  cases hs with
  | frame other legal => exact both (filled_pushFrame queue) batch
  | @heartbeat sent key =>
    refine both ?_ batch
    cases live : o.box.live with
    | true =>
      simp only [Out.pushHeartbeat, Outbox.pushHeartbeat_live live]
      exact pushed (by simp [Item.tokens, tokens, Outbox.frame, encode_eq])
    | false =>
      simp only [Out.pushHeartbeat, Outbox.pushHeartbeat_dead live]
      exact queue
  | shutdown =>
    refine both ?_ batch
    cases live : o.box.live with
    | true =>
      simp only [Out.pushShutdown, Outbox.pushShutdown_live live]
      exact pushed (List.cons_ne_nil _ _)
    | false =>
      simp only [Out.pushShutdown, Outbox.pushShutdown_dead live]
      exact queue
  | stop => exact both (by rintro item ⟨⟩) batch
  | swap live hs =>
    obtain ⟨-, -, rfl⟩ := Out.swap_some hs
    exact both (by rintro item ⟨⟩) queue
  | pop hs =>
    obtain ⟨-, x, t, eq, rfl⟩ := Out.pop_some hs
    exact both queue fun item mem => batch item (by rw [eq]; exact List.mem_cons_of_mem _ mem)
  | write hs =>
    obtain ⟨_, -, -, -, -, rfl⟩ := Out.write_some hs
    exact h
  | progress hs =>
    obtain ⟨c, -, -, -, rfl⟩ := Out.progress_some hs
    refine both ?_ batch
    dsimp only
    rw [Outbox.progress_eq]
    exact queue
  | finish hs =>
    obtain ⟨_, -, -, -, rfl⟩ := Out.finish_some hs
    exact h
  | _ => exact h

theorem filled_of_reachable (h : Reachable (Sys.step cfg) (.init cfg) s) : s.link.out.Filled := by
  apply h.invariant (I := fun u => u.link.out.Filled) nofun
  intro u l v hu hI hv
  obtain ⟨used, new, he⟩ := step_effect hv
  rcases he.out (Sane.of_reachable hu).link.hold with same | out
  · rw [same]
    exact hI
  · exact hI.step out

/-- An item that was taken up has bytes to write; a `Shutdown` is done with at once. -/
theorem pop_taken {o o' : Out} {item : Item} {t : List Item} (carried : Carried o) (filled : o.Filled)
    (batch : o.batch = item :: t) (hpop : o.pop = some o') :
    o.taken < o'.taken ∨ o'.taken = o.taken ∧ item ≠ .shutdown ∧ o'.unwrittenItem = true := by
  have le := carried.left_le
  have some : item.tokens ≠ [] := filled item (List.mem_append_right _ (by rw [batch]; exact List.mem_cons_self))
  obtain ⟨cur, item', t', batch', rfl⟩ := Out.pop_some hpop
  cases batch.symm.trans batch'
  have left : o.left = item.tokens ++ itemTokens t := by
    rw [Out.left, cur, batch]
    rfl
  rw [left] at le
  rw [Out.taken, Out.taken, left]
  cases item with
  | shutdown =>
    left
    simp only [Out.left, Item.start, Item.tokens, Option.map_none, Option.getD_none, List.nil_append, List.cons_append,
      List.length_cons] at le ⊢
    omega
  | data b | heartbeat b sent =>
    exact .inr ⟨rfl, by simp, decide_eq_true (List.length_pos_iff.mpr (mt (congrArg _) some))⟩

theorem progress_taken {o o' : Out} {cleared : Option Nat} (carried : Carried o) (hp : o.progress cfg = some (o', cleared)) :
    o.taken < o'.taken := by
  have le := carried.left_le
  obtain ⟨c, cur, flying, -, rfl⟩ := Out.progress_some hp
  have bound := carried.cur c cur
  simp only [Out.taken, Out.left, cur, Option.map_some, Option.getD_some, Cur.tokens, List.length_append, length_tokens,
    List.length_drop] at le ⊢
  omega

theorem swap_taken {o o' : Out} (carried : Carried o) (live : o.box.queue.done = false) (hswap : o.swap = some o') :
    o'.taken = o.taken := by
  have queue := congrArg List.length (carried.queue live)
  obtain ⟨batch, cur, rfl⟩ := Out.swap_some hswap
  simp only [Out.taken, Out.left, cur, batch, entryTokens_append, Option.map_none, Option.getD_none, List.nil_append,
    List.length_append, queue]
  simp [itemTokens]

/-- What a turn of the writer comes to: the writer ends, something is done with, or the next write is nearer. -/
def Sys.Gains (s : Sys) (parked permit : Bool) (s' : Sys) : Prop :=
  s'.wr.pc = .finished ∨ s.link.out.taken < s'.link.out.taken ∨ s'.link.out.taken = s.link.out.taken ∧
    10 * s'.wr.pc.leg s'.link.out parked permit + opsWork s'.wr.ops <
      10 * s.wr.pc.leg s.link.out parked permit + opsWork s.wr.ops

theorem turn_gains (h : WriterTurn cfg s lab s') (idle : s.wr.ops = []) (carried : Carried s.link.out)
    (filled : s.link.out.Filled) (live : s.link.out.box.queue.done = false) (parked permit : Bool)
    (unparked : lab = .writer → parked = false)
    (more : s.wr.pc = .idle → s.link.out.box.queue.items ≠ []) : s.Gains parked permit s' := by
  -- most turns only move on
  have moves {q : WritePc} (pc : s.wr.pc = q) (ops : opsWork s'.wr.ops ≤ 1) (kept : s'.link.out.taken = s.link.out.taken)
      (less : s'.wr.pc.leg s'.link.out parked permit < q.leg s.link.out parked permit) : s.Gains parked permit s' := by
    refine .inr (.inr ⟨kept, ?_⟩)
    rw [idle, pc, opsWork_nil]
    omega
  have calm : opsWork s.wr.ops ≤ 1 := by
    rw [idle]
    exact Nat.zero_le _
  cases h with
  | finished | error | stopped | orphaned => exact .inl rfl
  | swap pc done hswap =>
    refine moves pc calm (swap_taken carried live hswap) ?_
    obtain ⟨-, -, rfl⟩ := Out.swap_some hswap
    have some : s.link.out.box.queue.items.isEmpty = false := by simpa using more pc
    cases pong : s.link.out.box.queue.pong.isSome <;> simp [WritePc.leg, some, unparked rfl]
  | flushPong pc free =>
    have kept : s.link.out.Kept s.link.flushPong.out := by
      rw [out_flushPong]
      exact ⟨rfl, rfl, rfl, rfl⟩
    refine moves pc (Nat.le_refl _) kept.taken ?_
    simp only [WritePc.leg, kept.batch]
    split <;> decide
  | again pc batch =>
    refine moves pc calm rfl ?_
    simp [WritePc.leg, batch, unparked rfl]
  | @pop item t out pc batch hpop =>
    rcases pop_taken carried filled batch hpop with more | ⟨same, other, some⟩
    · exact .inr (.inl more)
    · refine moves pc calm same ?_
      simp [WritePc.leg, batch, other, some]
  | written pc hfinish =>
    obtain ⟨c, cur, -, full, rfl⟩ := Out.finish_some hfinish
    have left : ({ s.link.out with cur := none } : Out).left = s.link.out.left := by
      simp [Out.left, cur, Cur.tokens, List.drop_eq_nil_of_le full, tokens]
    refine moves pc calm (by rw [Out.taken, Out.taken, left]) ?_
    have nothing : s.link.out.unwrittenItem = false := by simp [Out.unwrittenItem, cur, full]
    simp only [WritePc.leg, nothing, Bool.false_eq_true, if_false]
    split <;> decide
  | progress pc hp link =>
    have more := progress_taken carried hp
    rcases link with rfl | ⟨o, rfl⟩ <;> exact .inr (.inl more)
  | stamp pc =>
    have le (o : Out) : WritePc.writing.leg o parked permit < 8 := by
      rw [WritePc.leg]
      split <;> decide
    exact moves pc calm rfl (le _)
  | shut pc =>
    refine moves pc calm rfl ?_
    simp only [WritePc.leg]
    split <;> decide
  | write pc hwrite =>
    obtain ⟨c, cur, flying, pos, bound, rfl⟩ := Out.write_some hwrite
    refine moves pc calm ?_ ?_
    · simp [Out.taken, Out.left, cur, Cur.tokens]
    · simp only [WritePc.leg]
      split <;> decide
  | shutOut pc => exact moves pc calm rfl (by simp [WritePc.leg])

/-- The writer's calls are short. -/
theorem exec_other_work (l : Link) {op : Op} (h : op.takes = false) : opsWork (l.exec cfg op).2 < op.work := by
  cases op with
  | handle m => cases h
  | violation f => cases h
  | checkHub =>
    rw [Link.exec]
    dsimp only
    split <;> simp [Op.work, opsWork_terminate]
  | finish code reason =>
    rw [Link.exec]
    split <;> simp [Op.work]
  | deliver e | deliverOpen e =>
    rw [Link.exec]
    dsimp only
    split <;> simp [Op.work]
  | _ => simp [Link.exec, Op.work]

/-! ## The lock of `flags` -/

/-- While somebody holds `flags` only they go on with it. -/
theorem hold_kept (h : Acts cfg s lab s') (held : s.link.hold ≠ []) :
    (∃ key, lab = .hold key) ∧ holdWork s'.link < holdWork s.link ∨
      (∀ key, lab ≠ .hold key) ∧ s'.link.hold = s.link.hold ∧ holdWork s'.link ≤ holdWork s.link := by
  have same (other : ∀ key, lab ≠ .hold key) (hold : s'.link.hold = s.link.hold)
      (pong : s'.link.out.box.queue.pong = s.link.out.box.queue.pong ∨ s'.link.out.box.queue.pong = none) :
      (∃ key, lab = .hold key) ∧ holdWork s'.link < holdWork s.link ∨
        (∀ key, lab ≠ .hold key) ∧ s'.link.hold = s.link.hold ∧ holdWork s'.link ≤ holdWork s.link := by
    refine .inr ⟨other, hold, ?_⟩
    rw [holdWork, holdWork, hold]
    rcases pong with pong | pong
    · rw [pong]
    · simp [pong]
  have exec {op : Op} (other : ∀ key, lab ≠ .hold key) (free : op.locks = true → s.link.hold = [])
      (link : s'.link = (s.link.exec cfg op).1) :
      (∃ key, lab = .hold key) ∧ holdWork s'.link < holdWork s.link ∨
        (∀ key, lab ≠ .hold key) ∧ s'.link.hold = s.link.hold ∧ holdWork s'.link ≤ holdWork s.link := by
    have takes : op.takes = false := by
      cases op with
      | handle m | violation f => exact absurd (free rfl) held
      | _ => rfl
    refine same other (by rw [link, hold_exec_other takes]) ?_
    rw [link]
    rcases exec_out cfg s.link op with out | ⟨-, out⟩ <;> rw [out]
    · exact .inl rfl
    · exact .inr rfl
  cases h with
  | sent _ free | close _ free => exact absurd free held
  | held hold => exact .inl ⟨⟨_, rfl⟩, holdWork_held hold⟩
  | pool ops free | readerOp run ops free | writerOp run ops free => exact exec (by simp) free rfl
  | task h => cases h <;> exact same (by simp) rfl (.inl rfl)
  | reader run idle h =>
    cases h with
    | goes h => cases h <;> exact same (by simp) rfl (.inl rfl)
    | hub pc => rcases pc with ⟨rfl, -⟩ | ⟨rfl, -⟩ <;> exact same (by simp) rfl (.inl rfl)
    | ping pc free => exact absurd free held
    | _ => exact same (by simp) rfl (.inl rfl)
  | writer run idle h =>
    cases h with
    | swap pc done hswap =>
      obtain ⟨-, -, rfl⟩ := Out.swap_some hswap
      exact same (by simp) rfl (.inl rfl)
    | flushPong pc free => exact absurd free held
    | pop pc batch hpop =>
      obtain ⟨-, _, _, -, rfl⟩ := Out.pop_some hpop
      exact same (by simp) rfl (.inl rfl)
    | written pc hfinish =>
      obtain ⟨_, -, -, -, rfl⟩ := Out.finish_some hfinish
      exact same (by simp) rfl (.inl rfl)
    | progress pc hp link =>
      obtain ⟨c, -, -, -, rfl⟩ := Out.progress_some hp
      rcases link with rfl | ⟨o, rfl⟩ <;> exact same (by simp) rfl (.inl (by simp [Outbox.progress_eq, Link.note]))
    | write pc hwrite =>
      obtain ⟨_, -, -, -, -, rfl⟩ := Out.write_some hwrite
      exact same (by simp) rfl (.inl rfl)
    | _ => exact same (by simp) rfl (.inl rfl)
  | _ => exact same (by simp) rfl (.inl rfl)

end Writer

section Loops

variable {cfg : Config} {limit : Instant} {n : Nat} {s t : Loops} {m : Move}

/-- Whoever holds `flags` lets go of them. -/
theorem released_again {e : Execution (Loops.step cfg limit)} (just : e.Just Party.holder.moves) (i : Nat) :
    ∃ j, i ≤ j ∧ (e.state j).sys.link.hold = [] := by
  have helped : Helped (Loops.step cfg limit) (fun (_ : Unit) => Party.holder.moves) (· < ·) (fun _ => True)
      (fun s => s.sys.link.hold = []) (fun s => holdWork s.sys.link) (fun _ => ()) := by
    intro s m t _ held ht
    refine .inr ⟨trivial, ?_⟩
    cases Loops.moved ht with
    | @step lab s' allowed hs =>
      rcases hold_kept (step_acts hs) held with ⟨-, less⟩ | ⟨other, -, le⟩
      · exact .inl less
      · rcases Nat.lt_or_eq_of_le le with less | same
        · exact .inl less
        · refine .inr ⟨same, rfl, ?_⟩
          cases lab <;> first | exact id | exact absurd rfl (other _)
    | _ => exact .inr ⟨rfl, rfl, id⟩
  exact helped.reaches_just Nat.lt_wfRel.wf (fun _ => just) (fun s _ held => enabled_holder held) trivial

/-- The turn that finds nothing to do is the writer's own and starts no call. -/
theorem turn_idle {s s' : Sys} {lab : Label} (h : WriterTurn cfg s lab s') (pc : s.wr.pc = .idle) (next : s'.wr.pc = .idle) :
    s'.wr.ops = s.wr.ops ∧ lab = .writer := by
  cases h with
  | swap => exact ⟨rfl, rfl⟩
  | flushPong at_ | again at_ | pop at_ | written at_ | progress at_ | stamp at_ | shut at_ => cases pc.symm.trans at_
  | _ => cases next

theorem parked_idle (h : Reachable (Loops.step cfg limit) (.init cfg) s) :
    s.parked = true → s.sys.wr.pc = .idle ∧ s.sys.wr.ops = [] := by
  apply h.invariant (I := fun u => u.parked = true → u.sys.wr.pc = .idle ∧ u.sys.wr.ops = []) (by rintro ⟨⟩)
  intro u m v hu hI hv
  cases Loops.moved hv with
  | @step lab s' allowed hs =>
    intro parked
    rcases writer_acts (step_acts hs) with ⟨idle, turn⟩ | ⟨-, ⟨rfl, op, rest, ops, -⟩ | ⟨writes, wr⟩⟩
    · by_cases writer : lab = .writer
      · subst writer
        obtain ⟨-, pc, pc'⟩ := of_decide_eq_true parked
        exact ⟨pc', (turn_idle turn pc pc').1.trans idle⟩
      · have before : u.parked = true := by
          cases turn <;> first | exact absurd rfl writer | exact parked | cases parked
        obtain ⟨pc, -⟩ := hI before
        cases turn with
        | write at_ | shutOut at_ => cases pc.symm.trans at_
        | error => cases parked
        | stopped => cases parked
        | orphaned => cases parked
        | _ => exact absurd rfl writer
    · obtain ⟨idle, -⟩ := of_decide_eq_true parked
      cases ops.symm.trans idle
    · rw [Loops.after, wr]
      apply hI
      cases lab <;> first | exact parked | cases writes
  | ready | flushed => rintro ⟨⟩
  | _ => exact hI

/-! ## The writer gets on -/

/-- Whose move the writer waits for: its own, a call of `ready`, or the transport's. -/
inductive Sender where
  | writer
  | told
  | transport

def Sender.moves : Sender → Move → Prop
  | .writer, .step .writer | .writer, .ready => True
  | .told, .lands .ready => True
  | .transport, .step (.write _) | .transport, .step .shutOut => True
  | _, _ => False

namespace Loops

/-- The writer has ended, or is about to: the link is closed. -/
def Halted (s : Loops) : Prop := s.sys.task ≠ .running ∨ s.sys.state = .closed ∨ s.sys.wr.pc = .finished

def backlog (n : Nat) (s : Loops) : Nat × Nat :=
  (n - s.sys.link.out.taken,
    10 * s.sys.wr.pc.leg s.sys.link.out s.parked (s.cells .ready).permit + opsWork s.sys.wr.ops)

def sender (s : Loops) : Sender :=
  if s.sys.wr.ops = [] then
    match s.sys.wr.pc with
    | .writing => if s.sys.link.out.unwrittenItem then .transport else .writer
    | .shutting => .transport
    | .idle => if s.parked && !(s.cells .ready).permit then .told else .writer
    | _ => .writer
  else .writer

end Loops

/-- The first `n` bytes of the log are not all written, and the writer is at work. -/
structure Draining (cfg : Config) (limit : Instant) (n : Nat) (s : Loops) : Prop where
  reach : Reachable (Loops.step cfg limit) (.init cfg) s
  running : s.sys.task = .running
  live : s.sys.state ≠ .closed
  writes : s.sys.wr.pc ≠ .finished
  owed : n ≤ (entryTokens s.sys.link.out.log).length

namespace Draining

theorem step (h : Draining cfg limit n s) (hs : s.step cfg limit m = some t) : t.Halted ∨ Draining cfg limit n t := by
  have reach := h.reach.next hs
  cases Loops.moved hs with
  | @step lab s' allowed hs' =>
    by_cases running : s'.task = .running
    · by_cases live : s'.state = .closed
      · exact .inl (.inr (.inl live))
      · by_cases writes : s'.wr.pc = .finished
        · exact .inl (.inr (.inr writes))
        · obtain ⟨more, log⟩ := log_step hs'
          refine .inr ⟨reach, running, live, writes, Nat.le_trans h.owed ?_⟩
          rw [Loops.after, ← log, entryTokens_append, List.length_append]
          exact Nat.le_add_right ..
    · exact .inl (.inl running)
  | _ => exact .inr ⟨reach, h.running, h.live, h.writes, h.owed⟩

theorem undone (h : Draining cfg limit n s) : s.sys.link.out.box.queue.done = false :=
  Bool.eq_false_iff.mpr fun done => h.live ((Stopping.of_reachable (Loops.sys_reachable h.reach)).done done)

/-- An idle writer that is behind finds something in the queue. -/
theorem more (h : Draining cfg limit n s) (behind : s.sys.link.out.taken < n) (pc : s.sys.wr.pc = .idle) :
    s.sys.link.out.box.queue.items ≠ [] := by
  have reach := Loops.sys_reachable h.reach
  intro empty
  have fits := fits_of_reachable reach
  rw [pc] at fits
  have queued := (Carried.of_reachable reach).queue h.undone
  have owed := h.owed
  rw [Out.log, entryTokens_append, entryTokens_append, ← queued, empty] at owed
  simp [Out.taken, Out.left, fits.1, fits.2, itemTokens] at behind owed
  omega

/-- Less is left before the first `n` bytes are written, or the same party has the turn. -/
def Nearer (n : Nat) (s : Loops) (m : Move) (t : Loops) : Prop :=
  Prod.Lex (· < ·) (· < ·) (t.backlog n) (s.backlog n) ∨
    t.backlog n = s.backlog n ∧ t.sender = s.sender ∧ ¬ s.sender.moves m

/-- What concerns the writer is as it was. -/
structure Apart (s t : Loops) : Prop where
  wr : t.sys.wr = s.sys.wr
  kept : s.sys.link.out.Kept t.sys.link.out
  parked : t.parked = s.parked
  permit : s.parked = true → (t.cells .ready).permit = (s.cells .ready).permit

theorem Apart.nearer (h : Apart s t) (other : ¬ s.sender.moves m) : Nearer n s m t := by
  have item : t.sys.link.out.unwrittenItem = s.sys.link.out.unwrittenItem := by
    rw [Out.unwrittenItem, Out.unwrittenItem, h.kept.cur]
  have leg : s.sys.wr.pc.leg s.sys.link.out s.parked (t.cells .ready).permit =
      s.sys.wr.pc.leg s.sys.link.out s.parked (s.cells .ready).permit := by
    cases parked : s.parked with
    | true => rw [h.permit parked]
    | false => cases s.sys.wr.pc <;> rfl
  refine .inr ⟨?_, ?_, other⟩
  · rw [Loops.backlog, Loops.backlog, h.kept.taken, h.wr, h.parked, WritePc.leg_kept _ h.kept, leg]
  · cases parked : s.parked with
    | true => simp only [Loops.sender, h.wr, h.parked, h.permit parked, item]
    | false => simp only [Loops.sender, h.wr, h.parked, parked, item, Bool.false_and]

theorem nearer_of_leg (taken : t.sys.link.out.taken = s.sys.link.out.taken)
    (less : (t.backlog n).2 < (s.backlog n).2) : Nearer n s m t :=
  .inl (Prod.lex_iff.mpr (.inr ⟨by rw [Loops.backlog, Loops.backlog, taken], less⟩))

/-- A turn of the writer, or a section of its call. -/
theorem writes_nearer (h : Draining cfg limit n s) (behind : s.sys.link.out.taken < n) {lab : Label} {s' : Sys}
    (allowed : s.allows lab = true) (hs : s.sys.step cfg lab = some s') (idle : s.sys.wr.ops = [])
    (turn : WriterTurn cfg s.sys lab s') :
    (s.after cfg limit lab s').Halted ∨ Nearer n s (.step lab) (s.after cfg limit lab s') := by
  have reach := Loops.sys_reachable h.reach
  have unparked : lab = .writer → s.parked = false := by
    rintro rfl
    simpa [Loops.allows] using allowed
  have wake : lab ≠ .wake := by
    rintro rfl
    cases turn
  rcases turn_gains turn idle (Carried.of_reachable reach) (filled_of_reachable reach) h.undone s.parked
    (s.cells .ready).permit unparked (h.more behind) with ended | more | ⟨same, less⟩
  · exact .inl (.inr (.inr ended))
  · refine .inr (.inl (Prod.lex_iff.mpr (.inl ?_)))
    simp only [Loops.backlog, Loops.after]
    omega
  · by_cases ended : s'.wr.pc = .finished
    · exact .inl (.inr (.inr ended))
    · right
      have parked : s.parkedAfter s' lab = s.parked := by
        by_cases writer : lab = .writer
        · -- an empty turn is no progress, and there is something to do
          rw [unparked writer, writer]
          apply decide_eq_false
          rintro ⟨-, pc, pc'⟩
          rw [pc, pc', (turn_idle turn pc pc').1] at less
          exact Nat.lt_irrefl _ less
        · cases turn <;> first | rfl | exact absurd rfl writer | exact absurd rfl ended
      refine nearer_of_leg same ?_
      rw [Loops.backlog, Loops.backlog, Loops.after]
      dsimp only
      rw [parked, permit_after wake]
      exact less

/-- A wake-up of the reader takes no permit of the writer's. -/
theorem permit_ready (lab : Label) : (s.cellsAfter lab .ready).permit = (s.cells .ready).permit := by
  by_cases wake : lab = .wake
  · rw [wake, Loops.cellsAfter, Loops.setCell, Loops.woken]
    split <;> rfl
  · exact permit_after wake

theorem op_nearer (h : Draining cfg limit n s) {op : Op} {rest : List Op} {s' : Sys} (ops : s.sys.wr.ops = op :: rest)
    (allowed : s.allows .writer = true) (kept : s.sys.link.out.Kept s'.link.out)
    (wr : s'.wr = { s.sys.wr with ops := (s.sys.link.exec cfg op).2 ++ rest }) :
    Nearer n s (.step .writer) (s.after cfg limit .writer s') := by
  have mem : op ∈ s.sys.wr.ops := by
    rw [ops]
    exact List.mem_cons_self
  have less := @exec_other_work cfg s.sys.link op ((sole_takes (Loops.sys_reachable h.reach)).writer op mem)
  have before : s.parked = false := by simpa [Loops.allows] using allowed
  have parked : s.parkedAfter s' .writer = s.parked := by
    rw [before]
    apply decide_eq_false
    rintro ⟨idle, -⟩
    cases ops.symm.trans idle
  refine nearer_of_leg kept.taken ?_
  rw [Loops.backlog, Loops.backlog, Loops.after]
  dsimp only
  rw [parked, permit_ready, WritePc.leg_kept _ kept, wr, ops, opsWork_append, opsWork_cons]
  dsimp only
  omega

/-- Only a parked writer waits to be told. -/
theorem sender_told {c : Cell} (h : s.sender.moves (.lands c)) :
    c = .ready ∧ s.parked = true ∧ (s.cells .ready).permit = false := by
  have told : s.sender = .told ∧ c = .ready := by
    cases sender : s.sender <;> rw [sender] at h <;> cases c <;> first | exact ⟨rfl, rfl⟩ | exact h.elim
  refine ⟨told.2, ?_⟩
  have sender := told.1
  rw [Loops.sender] at sender
  split at sender
  · split at sender
    · split at sender <;> cases sender
    · cases sender
    · split at sender
      · rename_i waits
        simpa using waits
      · cases sender
    · cases sender
  · cases sender

theorem nearer (h : Draining cfg limit n s) (behind : s.sys.link.out.taken < n) (hs : s.step cfg limit m = some t) :
    t.Halted ∨ Nearer n s m t := by
  cases Loops.moved hs with
  | @step lab s' allowed hs' =>
    rcases writer_acts (step_acts hs') with ⟨idle, turn⟩ | ⟨kept, ⟨rfl, op, rest, ops, wr⟩ | ⟨writes, wr⟩⟩
    · exact h.writes_nearer behind allowed hs' idle turn
    · exact .inr (h.op_nearer ops allowed kept wr)
    · right
      refine Apart.nearer ⟨wr, kept, ?_, fun _ => permit_ready lab⟩ ?_
      · cases lab <;> first | rfl | cases writes
      · cases s.sender <;> cases lab <;> first | exact id | cases writes
  | @lands c n' hn =>
    right
    by_cases waits : c = .ready ∧ s.parked = true ∧ (s.cells .ready).permit = false
    · -- the call that the writer waits for
      obtain ⟨rfl, parked, permit⟩ := waits
      obtain ⟨pc, -⟩ := parked_idle h.reach parked
      refine nearer_of_leg rfl ?_
      simp [Loops.backlog, WritePc.leg, pc, parked, permit, Loops.setCell, Notify.permit_land hn]
    · refine Apart.nearer ⟨rfl, .refl _, rfl, ?_⟩ ?_
      · intro parked
        by_cases cell : c = .ready
        · have permit : (s.cells .ready).permit = true := by
            by_contra missing
            exact waits ⟨cell, parked, Bool.eq_false_iff.mpr missing⟩
          rw [cell] at hn
          simp only [Loops.setCell, cell, if_true, Notify.permit_land hn, permit]
        · simp only [Loops.setCell, if_neg (Ne.symm cell)]
      · intro told
        exact waits (sender_told told)
  | ready parked permit =>
    obtain ⟨pc, ops⟩ := parked_idle h.reach parked
    refine .inr (nearer_of_leg rfl ?_)
    simp [Loops.backlog, WritePc.leg, pc, parked, permit]
  | flushed parked =>
    obtain ⟨pc, ops⟩ := parked_idle h.reach parked
    refine .inr (nearer_of_leg rfl ?_)
    cases permit : (s.cells .ready).permit <;> simp [Loops.backlog, WritePc.leg, pc, parked, permit]
  | pend | drained =>
    refine .inr (Apart.nearer ⟨rfl, .refl _, rfl, fun _ => rfl⟩ ?_)
    cases s.sender <;> exact id

/-- Nobody holds `flags`: the writer goes on, unless it waits for the transport. -/
theorem writePc_isSome {s : Sys} (free : s.link.hold = []) (fits : s.wr.pc.Fits s.link.out) (ended : s.wr.pc ≠ .finished)
    (shutting : s.wr.pc ≠ .shutting) (written : s.wr.pc = .writing → s.link.out.unwrittenItem = false) :
    ∃ s', s.writePc cfg = some s' := by
  cases pc : s.wr.pc with
  | idle =>
    rw [pc] at fits
    simp only [Sys.writePc, pc, Sys.swapBatch, Out.swap, fits.1, fits.2]
    split <;> exact ⟨_, rfl⟩
  | flushPong => exact ⟨_, by simp only [Sys.writePc, pc, free]; rfl⟩
  | next =>
    rw [pc] at fits
    cases batch : s.link.out.batch with
    | nil => exact ⟨_, by simp only [Sys.writePc, pc, batch]; rfl⟩
    | cons item t =>
      have cur : s.link.out.cur = none := fits
      cases item <;> exact ⟨_, by simp only [Sys.writePc, pc, batch, Out.pop, cur]; rfl⟩
  | writing =>
    rw [pc] at fits
    obtain ⟨c, cur, flying⟩ := fits
    have full : c.data.length ≤ c.pos := by simpa [Out.unwrittenItem, cur] using written pc
    exact ⟨_, by simp only [Sys.writePc, pc, Out.finish, cur, flying, full, and_self, if_true]; rfl⟩
  | wrote =>
    rw [pc] at fits
    obtain ⟨c, cur, flying⟩ := fits
    simp only [Sys.writePc, pc, Sys.progress, Out.progress, cur, if_neg flying]
    split <;> exact ⟨_, rfl⟩
  | stamp transmitted | shut => exact ⟨_, by simp only [Sys.writePc, pc]; rfl⟩
  | shutting => exact absurd pc shutting
  | finished => exact absurd pc ended

/-- The writer itself, when nobody holds `flags`. -/
theorem writer_enabled (h : Draining cfg limit n s) (turn : s.sender = .writer) (free : s.sys.link.hold = []) :
    Enabled (Loops.step cfg limit) Sender.writer.moves s := by
  rw [Loops.sender] at turn
  cases parked : s.parked with
  | true =>
    obtain ⟨pc, ops⟩ := parked_idle h.reach parked
    have permit : (s.cells .ready).permit = true := by simpa [ops, pc, parked] using turn
    exact ⟨.ready, _, trivial, by rw [Loops.step, if_pos parked, Notify.take, if_pos permit]; rfl⟩
  | false =>
    refine enabled_step .writer (by simp [Loops.allows, parked]) ?_ trivial
    cases ops : s.sys.wr.ops with
    | cons op rest => simp [Sys.step, Sys.onRunning, h.running, Sys.writerStep, ops, Link.opStep, free]
    | nil =>
      rw [if_pos ops] at turn
      have goes := @writePc_isSome cfg s.sys free (fits_of_reachable (Loops.sys_reachable h.reach)) h.writes
        (fun pc => by rw [pc] at turn; cases turn) (fun pc => by simpa [pc] using turn)
      simpa [Sys.step, Sys.onRunning, h.running, Sys.writerStep, ops] using goes

/-- A parked writer that is behind has been called, or is about to be. -/
theorem told_enabled (h : Draining cfg limit n s) (behind : s.sys.link.out.taken < n) (turn : s.sender = .told) :
    Enabled (Loops.step cfg limit) Sender.told.moves s := by
  have moves : s.sender.moves (.lands .ready) := by
    rw [turn]
    trivial
  obtain ⟨-, parked, permit⟩ := sender_told moves
  have wants : s.sys.link.out.wants = true := by
    have more := h.more behind (parked_idle h.reach parked).1
    simp [Out.wants, more]
  obtain ⟨n, land, -⟩ := Notify.land_isSome ((Awake.of_reachable h.reach).writer parked wants) permit
  exact ⟨.lands .ready, _, trivial, by rw [Loops.step, land]; rfl⟩

theorem transport_enabled (h : Draining cfg limit n s) (chunk : 0 < cfg.chunk) (turn : s.sender = .transport) :
    Enabled (Loops.step cfg limit) Sender.transport.moves s := by
  have fits := fits_of_reachable (Loops.sys_reachable h.reach)
  rw [Loops.sender] at turn
  split at turn
  · rename_i ops
    split at turn
    · rename_i pc
      split at turn
      · rename_i item
        rw [pc] at fits
        obtain ⟨c, cur, flying⟩ := fits
        have some : c.pos < c.data.length := by simpa [Out.unwrittenItem, cur] using item
        have room : 1 ≤ min cfg.chunk (c.data.length - c.pos) := by omega
        refine enabled_step (.write 1) rfl ?_ trivial
        rw [Sys.step, Sys.onRunning, if_pos h.running, Sys.write, if_pos ⟨ops, pc⟩, Out.write, cur]
        dsimp only
        rw [if_pos ⟨flying, Nat.le_refl _, room⟩]
        exact ⟨_, rfl⟩
      · cases turn
    · rename_i pc
      refine enabled_step .shutOut rfl ?_ trivial
      rw [Sys.step, Sys.onRunning, if_pos h.running, Sys.shutOut, if_pos ⟨ops, pc⟩]
      exact ⟨_, rfl⟩
    · split at turn <;> cases turn
    · cases turn
  · cases turn

/-- The first `n` bytes are written at last, or the writer ends. -/
theorem drains {e : Execution (Loops.step cfg limit)} (chunk : 0 < cfg.chunk) (holder : e.Just Party.holder.moves)
    (told : e.Just Sender.told.moves) (transport : e.Just Sender.transport.moves)
    (writer : e.Compassionate Sender.writer.moves) {i : Nat} (h : Draining cfg limit n (e.state i)) :
    ∃ j, i ≤ j ∧ ((e.state j).Halted ∨ n ≤ (e.state j).sys.link.out.taken) := by
  have helped : Helped (Loops.step cfg limit) Sender.moves (Prod.Lex (· < ·) (· < ·)) (Draining cfg limit n)
      (fun s => s.Halted ∨ n ≤ s.sys.link.out.taken) (Loops.backlog n) Loops.sender := by
    intro s m t hs left ht
    have behind := Nat.lt_of_not_le fun le => left (.inr le)
    rcases hs.step ht with halted | hs'
    · exact .inl (.inl halted)
    · rcases hs.nearer behind ht with halted | nearer
      · exact .inl (.inl halted)
      · exact .inr ⟨hs', nearer⟩
  refine helped.reaches (Prod.lex Nat.lt_wfRel Nat.lt_wfRel).wf (fun i k turn => ?_) h
  have behind {j : Nat} (hij : i ≤ j) : (e.state j).sys.link.out.taken < n :=
    Nat.lt_of_not_le fun le => (turn j hij).2.1 (.inr le)
  cases k with
  | writer =>
    -- the turn stays with the writer until the lock is free
    refine writer i fun j hij => ?_
    obtain ⟨k, hjk, free⟩ := released_again holder j
    obtain ⟨hk, -, at_⟩ := turn k (Nat.le_trans hij hjk)
    exact ⟨k, hjk, hk.writer_enabled at_ free⟩
  | told => exact told i fun j hij => (turn j hij).1.told_enabled (behind hij) (turn j hij).2.2
  | transport => exact transport i fun j hij => (turn j hij).1.transport_enabled chunk (turn j hij).2.2

end Draining

/-- Whatever is in the log of an open link is written in the order of the log, or the link closes.
Whoever holds `flags`, the pending calls of the writer and the transport are not left out for ever;
the writer, which may have to wait for `flags` and whose turn includes the transport's flush, gets its
turn if it can take it again and again. -/
theorem queue_drains (e : Execution (Loops.step cfg limit)) (start : e.state 0 = .init cfg) (chunk : 0 < cfg.chunk)
    (holder : e.Just Party.holder.moves) (told : e.Just Sender.told.moves) (transport : e.Just Sender.transport.moves)
    (writer : e.Compassionate Sender.writer.moves) {i : Nat} (running : (e.state i).sys.task = .running) :
    ∃ j, i ≤ j ∧ ((e.state j).Halted ∨
      entryBytes (e.state i).sys.link.out.log <+: (e.state j).sys.link.out.wire) := by
  by_cases halted : (e.state i).Halted
  · exact ⟨i, Nat.le_refl _, .inl halted⟩
  have reach (j : Nat) : Reachable (Loops.step cfg limit) (.init cfg) (e.state j) := start ▸ e.reachable (Nat.zero_le j)
  obtain ⟨j, hij, found⟩ := Draining.drains chunk holder told transport writer
    (⟨reach i, running, fun closed => halted (.inr (.inl closed)), fun ended => halted (.inr (.inr ended)),
      Nat.le_refl _⟩ : Draining cfg limit (entryTokens (e.state i).sys.link.out.log).length (e.state i))
  refine ⟨j, hij, found.imp_right fun taken => ?_⟩
  have logged : (e.state i).sys.link.out.log <+: (e.state j).sys.link.out.log := by
    apply (e.reachable hij).invariant (I := fun u => (e.state i).sys.link.out.log <+: u.sys.link.out.log)
      (List.prefix_refl _)
    intro u m v _ hu hv
    cases Loops.moved hv with
    | step allowed hs => exact hu.trans (log_step hs)
    | _ => exact hu
  exact (Carried.of_reachable (Loops.sys_reachable (reach j))).on_wire logged taken

/-- Where the writer has found nothing to do and nobody calls it, nobody has anything to do for it. -/
theorem disabled_of_parked (hold : s.sys.link.hold = []) (pc : s.sys.wr.pc = .idle) (parked : s.parked = true)
    (permit : (s.cells .ready) = .new) :
    (¬ Enabled (Loops.step cfg limit) Party.holder.moves s) ∧ ∀ k : Sender, ¬ Enabled (Loops.step cfg limit) k.moves s := by
  constructor
  · rintro ⟨m, t, moves, hs⟩
    cases m with
    | step lab =>
      cases lab <;> first
        | exact False.elim moves
        | simp [Loops.step, Sys.step, Link.holdStep, hold] at hs
    | _ => cases moves
  · rintro k ⟨m, t, moves, hs⟩
    cases m with
    | step lab =>
      cases k <;> cases lab <;> first
        | exact False.elim moves
        | simp [Loops.step, Loops.allows, Sys.step, Sys.onRunning, Sys.write, Sys.shutOut, pc, parked] at hs
    | lands c =>
      cases k <;> cases c <;> first
        | exact False.elim moves
        | simp [Loops.step, permit, Notify.land, Notify.new] at hs
    | ready => simp [Loops.step, parked, permit, Notify.take, Notify.new] at hs
    | _ => cases k <;> cases moves

end Loops

/-- A message is sent and written, and the writer waits for the next. -/
def writtenRun : List Move :=
  (openRun ++ sendRun).map .step ++ .lands .ready :: .step .writer :: .step .writer :: .step (.write 4) ::
    List.replicate 5 (.step .writer) ++ [.ready, .step .writer]

theorem queue_drains_written : ∃ e : Execution (Loops.step .small 0), e.state 0 = .init .small ∧
    entryBytes (e.state 5).sys.link.out.log = [0x82, 2, 7, 8] ∧ (e.state 5).sys.link.out.wire = [] ∧
    ∃ j, 5 ≤ j ∧ ((e.state j).Halted ∨ [0x82, 2, 7, 8] <+: (e.state j).sys.link.out.wire) := by
  obtain ⟨s, run, hold, pc, parked, permit⟩ : ∃ s,
      runs (Loops.step .small 0) (.init .small) writtenRun = some s ∧ s.sys.link.hold = [] ∧ s.sys.wr.pc = .idle ∧
      s.parked = true ∧ s.cells .ready = .new := ⟨_, rfl, rfl, rfl, rfl, rfl⟩
  let e : Execution (Loops.step .small 0) := .lasting writtenRun (.step (.tick 1)) s.later run (later_tick s)
  have idle (i : Nat) (hi : writtenRun.length ≤ i) : (¬ Enabled (Loops.step .small 0) Party.holder.moves (e.state i)) ∧
      ∀ k : Sender, ¬ Enabled (Loops.step .small 0) k.moves (e.state i) := by
    have tail : e.state i = s.later (i - writtenRun.length) := if_neg (by omega)
    rw [tail]
    exact @disabled_of_parked .small 0 (s.later _) hold pc parked permit
  refine ⟨e, rfl, rfl, rfl, @queue_drains .small 0 e rfl (by decide) ?_ ?_ ?_ ?_ 5 rfl⟩
  · exact .of_disabled fun i hi => (idle i hi).1
  · exact .of_disabled fun i hi => (idle i hi).2 .told
  · exact .of_disabled fun i hi => (idle i hi).2 .transport
  · exact .of_disabled fun i hi => (idle i hi).2 .writer

end WebSocket.Net
