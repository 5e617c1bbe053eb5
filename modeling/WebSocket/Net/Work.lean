import WebSocket.Net.Awake
import WebSocket.Net.Pongs

/-!
# What a closing link has still to do

Once the close deadline has passed every step of the reader brings the end nearer. `ReadLoop.work`
counts what it may still have to do: the calls in progress, the bytes that are not parsed, the
place in the loop; `holdWork` counts the sections it may have to wait for. The other threads add
nothing to this (`others_ease`).

In `flush_close` the writer may call the reader again and again. Those calls are bounded by
`Sys.calls`: each is for bytes that leave the queue.
-/

namespace WebSocket.Net

open Proto Lib Lib.Transition

/-! ## Work -/

/-- An upper bound of the sections a call still runs, and of those it leaves to the queue. -/
def Op.work : Op → Nat
  | .stopWriter | .setStopped | .shutdownIo | .released => 1
  | .finish .. | .violation _ => 4
  | .checkHub | .endLink => 5
  | .emit _ => 6
  | .deliverNow _ => 7
  | .deliverOpen _ => 8
  | .deliver _ => 9
  | .handle _ => 17

/-- A deferred pong is a section of the writer still to come. -/
def Section.work : Section → Nat
  | .recheck .. => 2
  | .deferPong _ => 6
  | _ => 1

def opsWork (ops : List Op) : Nat := (ops.map Op.work).sum

def holdWork (l : Link) : Nat := (l.hold.map Section.work).sum + if l.out.box.queue.pong.isSome then 4 else 0

/-- How far `read_loop` is from its end, with a read that may bring bytes to parse. -/
def ReadPc.rank : ReadPc → Nat
  | .finished => 0
  | .ending => 6
  | .flushing _ => 7
  | .flush => 8
  | .handled true true => 9
  | .dispatch true => 20
  | .handled false true => 21
  | .leave => 33
  | .check => 34
  | .handled true false => 35
  | .dispatch false => 46
  | .handled false false => 47
  | .top => 48
  | .pinging => 49
  | .beat _ => 50
  | .throttled => 51
  | .read => 51 + 20 * READ_CHUNK
  | .checkInbox _ => 52 + 20 * READ_CHUNK

def ReadPc.stops : ReadPc → Bool
  | .handled true _ => true
  | _ => false

/-- The bytes that `dispatch` may still parse. -/
def ReadLoop.unparsed (rd : ReadLoop) : Nat := bif rd.ok && !rd.pc.stops then rd.reader.unread.length else 0

def ReadLoop.work (rd : ReadLoop) : Nat := rd.pc.rank + 20 * rd.unparsed + opsWork rd.ops

section Work

variable {cfg : Config} {s s' : Sys} {lab : Label}

@[simp] theorem opsWork_nil : opsWork [] = 0 := rfl

@[simp] theorem opsWork_cons (op : Op) (ops : List Op) : opsWork (op :: ops) = op.work + opsWork ops := rfl

@[simp] theorem opsWork_append (a b : List Op) : opsWork (a ++ b) = opsWork a + opsWork b := by
  rw [opsWork, List.map_append, List.sum_append]
  rfl

theorem opsWork_terminate : opsWork Link.terminate = 4 := rfl

theorem opsWork_fail (error : String) : opsWork (Link.fail error) = 10 := rfl

theorem holdWork_closeSections (sent shutdown : Bool) (payload : Bytes) :
    ((Link.closeSections sent payload shutdown).map Section.work).sum ≤ 2 := by
  cases sent <;> cases shutdown <;> simp [Link.closeSections, Section.work]

/-- A section that ran left less to do, for its own thread and for the holder of `flags`. -/
theorem exec_work (l : Link) (op : Op) (free : op.locks = true → l.hold = []) :
    opsWork (l.exec cfg op).2 + holdWork (l.exec cfg op).1 < op.work + holdWork l := by
  -- most sections leave the queue alone
  have plain {more : List Op} {l' : Link} (hold : l'.hold = l.hold) (out : l'.out = l.out)
      (less : opsWork more < op.work) : opsWork more + holdWork l' < op.work + holdWork l := by
    rw [holdWork, hold, out, ← holdWork]
    exact Nat.add_lt_add_right less _
  have locked {more : List Op} {l' : Link} (locks : op.locks = true) (out : l'.out = l.out)
      (less : opsWork more + (l'.hold.map Section.work).sum < op.work) :
      opsWork more + holdWork l' < op.work + holdWork l := by
    rw [holdWork, holdWork, out, free locks, List.map_nil, List.sum_nil]
    omega
  cases op with
  | emit e | finish code reason =>
    rw [Link.exec]
    split <;> exact plain rfl rfl (by simp [Op.work])
  | checkHub =>
    rw [Link.exec]
    refine plain rfl rfl ?_
    split <;> simp [Op.work, opsWork_terminate]
  | stopWriter =>
    rw [Link.exec, holdWork, holdWork]
    dsimp only [Out.stopWriter, Outbox.stopWriter]
    simp only [opsWork_nil, Option.isSome_none, Bool.false_eq_true, if_false, Op.work]
    omega
  | setStopped | shutdownIo | endLink | released | deliverNow e => exact plain rfl rfl (by simp [Link.exec, Op.work])
  | handle m =>
    cases m with
    | text data | binary data | pong data =>
      rw [Link.exec, Link.handle]
      refine plain rfl rfl ?_
      split <;> simp [Op.work]
    | ping data =>
      rw [Link.exec, Link.handle, Link.handlePing]
      split
      · refine locked rfl rfl ?_
        dsimp only
        split <;> simp [Op.work, Section.work]
      · exact plain rfl rfl (by simp [Op.work])
    | close status =>
      rw [Link.exec, Link.handle, Link.closing]
      split
      · exact plain rfl rfl (by simp [Op.work])
      · refine locked rfl rfl ?_
        have := holdWork_closeSections l.flags.sentClose cfg.server (Link.echo status)
        simp only [opsWork_cons, opsWork_nil, Op.work]
        omega
  | deliver e | deliverOpen e =>
    rw [Link.exec]
    refine plain rfl rfl ?_
    split <;> simp [Op.work]
  | violation f =>
    rw [Link.exec, Link.violate]
    split
    · exact plain rfl rfl (by simp [Op.work])
    · refine locked rfl rfl ?_
      have := holdWork_closeSections l.flags.sentClose true (closePayload f.code .empty)
      simp only [opsWork_cons, opsWork_nil, Op.work]
      omega

/-- So did the holder's. -/
theorem section_work (l : Link) (key : Key) (x : Section) :
    ((l.execSection cfg key x).2.map Section.work).sum +
        (if (l.execSection cfg key x).1.out.box.queue.pong.isSome then 4 else 0) <
      x.work + if l.out.box.queue.pong.isSome then 4 else 0 := by
  have same {more : List Section} {o : Out} (pong : o.box.queue.pong = l.out.box.queue.pong)
      (less : (more.map Section.work).sum < x.work) :
      (more.map Section.work).sum + (if o.box.queue.pong.isSome then 4 else 0) <
        x.work + if l.out.box.queue.pong.isSome then 4 else 0 := by
    rw [pong]
    exact Nat.add_lt_add_right less _
  cases x with
  | pushFrame kind op payload =>
    rw [Link.execSection]
    dsimp only
    split <;> exact same (Outbox.pong_pushFrame ..) Nat.one_pos
  | recheck op payload =>
    rw [Link.execSection]
    split
    · exact same rfl (by simp [Section.work])
    · exact same rfl (by simp [Section.work])
  | pushHeartbeat sent =>
    refine same ?_ Nat.one_pos
    cases live : l.out.box.live with
    | true => simp only [Link.execSection, Out.pushHeartbeat, Outbox.pushHeartbeat_live live]
    | false => simp only [Link.execSection, Out.pushHeartbeat, Outbox.pushHeartbeat_dead live]
  | pushShutdown =>
    cases live : l.out.box.live with
    | true =>
      simp only [Link.execSection, Out.pushShutdown, Outbox.pushShutdown_live live, List.map_nil, List.sum_nil,
        Option.isSome_none, Bool.false_eq_true, if_false, Section.work]
      omega
    | false =>
      refine same ?_ Nat.one_pos
      simp only [Link.execSection, Out.pushShutdown, Outbox.pushShutdown_dead live]
  | clearPong =>
    simp only [Link.execSection, Out.setPong, List.map_nil, List.sum_nil, Option.isSome_none, Bool.false_eq_true,
      if_false, Section.work]
    omega
  | deferPong data =>
    simp only [Link.execSection, Out.setPong, List.map_nil, List.sum_nil, Option.isSome_some, if_true, Section.work]
    omega

theorem holdWork_held {l : Link} {key : Key} {x : Section} {rest : List Section} (hold : l.hold = x :: rest) :
    holdWork { (l.execSection cfg key x).1 with hold := (l.execSection cfg key x).2 ++ rest } < holdWork l := by
  have less := @section_work cfg l key x
  rw [holdWork, holdWork, hold, List.map_append, List.sum_append, List.map_cons, List.sum_cons]
  dsimp only
  omega

/-- The writer's reply to a deferred ping was counted when it was deferred. -/
theorem holdWork_flushPong {l : Link} (free : l.hold = []) : holdWork l.flushPong ≤ holdWork l ∧
    (l.flushPong.hold ≠ [] → holdWork l.flushPong < holdWork l) := by
  unfold Link.flushPong
  dsimp only
  split
  · rename_i data pong
    have before : holdWork l = 4 := by simp [holdWork, free, pong]
    rw [before]
    split
    · exact ⟨by simp [holdWork, Out.setPong, Section.work], fun _ => by simp [holdWork, Out.setPong, Section.work]⟩
    · exact ⟨by simp [holdWork, Out.setPong, free], fun h => absurd free h⟩
  · rename_i pong
    exact ⟨by simp [holdWork, Out.setPong, free], fun h => absurd free h⟩

/-! ### The reader's turns -/

theorem unread_decoded {r r' : Reader} {m : Msg} {server : Bool} {max : Nat} (h : r.Standing server max)
    (msg : r.message = (r', .ok (some m))) : r'.unread.length < r.unread.length := by
  obtain ⟨p, b, h⟩ := h
  have polls := h.message
  rw [msg] at polls
  cases hp : (decoder server max).poll p b with
  | fail f =>
    rw [hp] at polls
    cases polls
  | idle q c =>
    rw [hp] at polls
    cases polls.1
  | out m' q c =>
    rw [hp] at polls
    rw [polls.2.unread, h.unread]
    exact Incremental.Decoder.poll_out_shrinks _ hp

theorem unread_silent {r r' : Reader} {server : Bool} {max : Nat} (h : r.Standing server max)
    (msg : r.message = (r', .ok none)) : r'.unread.length ≤ r.unread.length := by
  obtain ⟨p, b, h⟩ := h
  have polls := h.message
  rw [msg] at polls
  cases hp : (decoder server max).poll p b with
  | fail f =>
    rw [hp] at polls
    cases polls
  | idle q c =>
    rw [hp] at polls
    rw [polls.2.unread, h.unread]
    exact Incremental.Decoder.poll_idle_le _ hp
  | out m' q c =>
    rw [hp] at polls
    cases polls.1

/-- The permit that a woken reader has taken. -/
def Label.spends : Label → Nat
  | .wake => 1
  | _ => 0

/-- Past the deadline a step inside the loop leads towards its end. -/
theorem goes_work {pc : ReadPc} (h : Goes cfg s lab pc) (closing : s.state = .closing)
    (past : s.link.flags.deadline.any (· ≤ s.link.now) = true) :
    pc.rank + lab.spends < s.rd.pc.rank ∧ s.rd.pc.stops = false ∧ pc.stops = false := by
  have leads {q : ReadPc} (pc₀ : s.rd.pc = q)
      (h : pc.rank + lab.spends < q.rank ∧ q.stops = false ∧ pc.stops = false) :
      pc.rank + lab.spends < s.rd.pc.rank ∧ s.rd.pc.stops = false ∧ pc.stops = false := by
    rw [pc₀]
    exact h
  cases h with
  | parse pc | skip pc | expired pc | throttled pc => exact leads pc (by decide)
  | @again last pc => cases last <;> exact leads pc (by decide)
  | check _ _ early =>
    rw [past] at early
    cases early
  | read pc | flushing pc | flushed pc | timeout pc | cut pc =>
    exact leads pc (by simp [ReadPc.rank, ReadPc.stops, Label.spends])
  | unsent pc => exact leads pc (by decide)
  | final pc => exact leads pc (by decide)
  | flush pc => exact leads pc (by decide)
  | unrecorded pc => exact leads pc (by decide)
  | eof pc => exact leads pc (by decide)
  | wake pc | stopped pc => rcases pc with pc | pc <;> exact leads pc (by decide)
  | expires pc => exact leads pc (by decide)
  | beat _ state => cases closing.symm.trans state

/-- The loop's own steps leave less for the reader to do, and nothing more for others. -/
theorem readerTurn_work (h : ReaderTurn cfg s lab s') (idle : s.rd.ops = []) (closing : s.state = .closing)
    (past : s.link.flags.deadline.any (· ≤ s.link.now) = true) (stands : s.rd.reader.Standing cfg.server cfg.max)
    (parses : ∀ last, s.rd.pc = .dispatch last → s.rd.ok = true) :
    s'.rd.work + lab.spends < s.rd.work ∧ holdWork s'.link = holdWork s.link := by
  cases h with
  | goes h =>
    obtain ⟨rank, stops, stops'⟩ := goes_work h closing past
    refine ⟨?_, rfl⟩
    simp only [ReadLoop.work, ReadLoop.unparsed, stops, stops']
    omega
  | hub pc =>
    refine ⟨?_, rfl⟩
    simp only [ReadLoop.work, ReadLoop.unparsed, idle, opsWork_nil, opsWork_terminate]
    rcases pc with ⟨rfl, pc⟩ | ⟨rfl, pc | pc⟩ <;>
    · simp only [pc, ReadPc.rank, ReadPc.stops, Label.spends]
      omega
  | @silent last r pc msg =>
    refine ⟨?_, rfl⟩
    have le := unread_silent stands msg
    simp only [ReadLoop.work, ReadLoop.unparsed, idle, pc]
    cases last <;> cases s.rd.ok <;>
      simp [ReadPc.rank, ReadPc.stops, Label.spends, Sys.afterDispatch] <;> omega
  | @decoded last r m pc msg =>
    refine ⟨?_, rfl⟩
    have lt := unread_decoded stands msg
    simp only [ReadLoop.work, ReadLoop.unparsed, idle, pc, parses last pc]
    cases last <;> cases Sys.isClose m <;> simp [ReadPc.rank, ReadPc.stops, Label.spends, Op.work] <;> omega
  | @failed last r f pc msg =>
    refine ⟨?_, rfl⟩
    simp only [ReadLoop.work, ReadLoop.unparsed, idle, pc]
    cases last <;> simp [ReadPc.rank, ReadPc.stops, Label.spends, Op.work] <;> omega
  | @stop st last pc why =>
    refine ⟨?_, rfl⟩
    simp only [ReadLoop.work, ReadLoop.unparsed, idle, pc]
    cases last <;> cases st <;> simp [ReadPc.rank, Label.spends, Sys.afterDispatch] <;> omega
  | quiet pc | probe pc =>
    refine ⟨?_, rfl⟩
    simp only [ReadLoop.work, ReadLoop.unparsed, idle, pc, ReadPc.rank, ReadPc.stops, Label.spends]
    omega
  | dead pc =>
    refine ⟨?_, rfl⟩
    simp only [ReadLoop.work, ReadLoop.unparsed, idle, pc, ReadPc.rank, ReadPc.stops, Label.spends, opsWork_fail,
      opsWork_nil]
    omega
  | ping pc free state => cases closing.symm.trans state
  | ending pc =>
    refine ⟨?_, rfl⟩
    simp only [ReadLoop.work, ReadLoop.unparsed, idle, pc, ReadPc.rank, ReadPc.stops, Label.spends, opsWork_cons,
      opsWork_nil, Op.work]
    omega
  | @input bytes pc size =>
    refine ⟨?_, rfl⟩
    obtain ⟨p, b, stands⟩ := stands
    simp only [ReadLoop.work, ReadLoop.unparsed, idle, pc, ReadPc.rank, ReadPc.stops, Label.spends]
    cases s.rd.ok with
    | true =>
      have unread := (stands.push bytes).unread
      simp only [Bool.not_false, Bool.and_true, cond_true, if_true, unread, stands.unread, List.length_append]
      omega
    | false =>
      simp only [Bool.not_false, Bool.and_true, cond_false]
      omega
  | error pc hops =>
    refine ⟨?_, rfl⟩
    simp only [ReadLoop.work, ReadLoop.unparsed, idle, pc, ReadPc.rank, ReadPc.stops, Label.spends]
    rcases hops with rfl | ⟨e, rfl⟩
    · omega
    · rw [opsWork_fail, opsWork_nil]
      omega

/-- Past the deadline of a closing link every step of the reader leaves less to do. -/
theorem reader_work (hr : Reachable (Sys.step cfg) (.init cfg) s) (h : Acts cfg s lab s') (reads : lab.reads = true)
    (closing : s.state = .closing) (past : s.link.flags.deadline.any (· ≤ s.link.now) = true) :
    s'.rd.work + holdWork s'.link + lab.spends < s.rd.work + holdWork s.link := by
  cases h with
  | @readerOp op rest run ops free =>
    have less := @exec_work cfg s.link op free
    simp only [ReadLoop.work, ReadLoop.unparsed, ops, opsWork_append, opsWork_cons, Label.spends]
    omega
  | reader run idle h =>
    obtain ⟨less, same⟩ :=
      readerTurn_work h idle closing past (Sane.of_reachable hr).reader (Single.of_reachable hr).dispatch
    omega
  | task h | writer run idle h => cases h <;> cases reads
  | _ => cases reads

/-! ### The others -/

/-- What the writer has still to write, a `Shutdown` counted as one byte. -/
def Out.remaining (o : Out) : Nat := o.left.length + (itemTokens o.box.queue.items).length

def WritePc.shuts : WritePc → Nat
  | .shutting | .shut => 1
  | _ => 0

/-- How often the writer may still call `flush_close`: once for each write, and for the shutdown. -/
def Sys.calls (s : Sys) : Nat := s.link.out.remaining + s.wr.pc.shuts

def Sys.rings (s : Sys) (lab : Label) : Nat := if .drained ∈ s.notifies lab then 1 else 0

theorem rings_of_silent (h : .drained ∉ s.notifies lab) : s.rings lab = 0 := if_neg h

/-- The application's calls are no business of `flush_close`. -/
theorem call_silent (c : Call) : .drained ∉ s.notifies (.call c) := by
  cases c with
  | close code reason =>
    rw [Sys.notifies]
    split <;> simp
  | consumed bytes => simp [Sys.notifies]
  | _ => exact List.not_mem_nil

theorem remaining_pop {o o' : Out} (h : o.pop = some o') :
    ∃ item t, o.batch = item :: t ∧ o'.remaining + (if item = .shutdown then 1 else 0) = o.remaining := by
  obtain ⟨cur, item, t, batch, rfl⟩ := Out.pop_some h
  refine ⟨item, t, batch, ?_⟩
  cases item <;> simp [Out.remaining, Out.left, cur, batch, Item.start, Cur.tokens, itemTokens, Item.tokens]
  omega

theorem remaining_progress {o o' : Out} {cleared : Option Nat} (carried : Carried o)
    (h : o.progress cfg = some (o', cleared)) : o'.remaining + 1 ≤ o.remaining := by
  obtain ⟨c, cur, flying, -, rfl⟩ := Out.progress_some h
  have bound := carried.cur c cur
  simp only [Out.remaining, Out.left, Outbox.progress_eq, cur, Option.map_some, Option.getD_some, Cur.tokens,
    List.length_append, length_tokens, List.length_drop]
  omega

/-- Of the writer's places only two call `flush_close`. -/
theorem rings_writer (idle : s.wr.ops = []) (pc : s.wr.pc ≠ .wrote ∧ s.wr.pc ≠ .shut) : s.rings .writer = 0 := by
  apply rings_of_silent
  rw [Sys.notifies, idle]
  dsimp only
  cases hpc : s.wr.pc with
  | wrote => exact absurd hpc pc.1
  | shut => exact absurd hpc pc.2
  | stamp t =>
    rw [WritePc.notifies]
    split
    · split <;> simp
    · simp
  | _ => simp [WritePc.notifies]

theorem rings_le (lab : Label) : s.rings lab ≤ 1 := by
  rw [Sys.rings]
  split <;> omega

theorem writerTurn_calls (h : WriterTurn cfg s lab s') (idle : s.wr.ops = []) (carried : Carried s.link.out) :
    s'.calls + s.rings lab ≤ s.calls := by
  have quiet {out : Out} {q : WritePc} (pc : s.wr.pc = q) (other : q ≠ .wrote ∧ q ≠ .shut) (pc' : s'.wr.pc.shuts = 0)
      (link : s'.link.out = out) (le : out.remaining ≤ s.link.out.remaining) : s'.calls + s.rings .writer ≤ s.calls := by
    rw [rings_writer idle (by rw [pc]; exact other), Sys.calls, Sys.calls, pc', link]
    omega
  cases h with
  | finished pc | again pc batch => exact quiet pc (by decide) rfl rfl (Nat.le_refl _)
  | swap pc done hswap =>
    obtain ⟨batch, cur, rfl⟩ := Out.swap_some hswap
    refine quiet pc (by decide) ?_ rfl (by simp [Out.remaining, Out.left, cur, itemTokens])
    dsimp only
    split
    · rfl
    · split <;> rfl
  | flushPong pc free => exact quiet pc (by decide) rfl (out_flushPong _) (Nat.le_refl _)
  | @pop item t out pc batch hpop =>
    obtain ⟨item', t', batch', remaining⟩ := remaining_pop hpop
    cases batch.symm.trans batch'
    rw [rings_writer idle (by rw [pc]; decide), Sys.calls, Sys.calls, pc, ← remaining]
    dsimp only
    split <;> simp only [WritePc.shuts] <;> omega
  | written pc hfinish =>
    obtain ⟨c, cur, -, -, rfl⟩ := Out.finish_some hfinish
    exact quiet pc (by decide) rfl rfl (by simp [Out.remaining, Out.left])
  | @progress out cleared l ops t pc hp link =>
    have less := remaining_progress carried hp
    have eq : l.out = out := by rcases link with rfl | ⟨o, rfl⟩ <;> rfl
    have once := @rings_le s .writer
    rw [Sys.calls, Sys.calls, pc, eq]
    simp only [WritePc.shuts]
    omega
  | stamp pc => exact quiet pc (by simp) rfl rfl (Nat.le_refl _)
  | shut pc =>
    have once := @rings_le s .writer
    rw [Sys.calls, Sys.calls, pc]
    simp only [WritePc.shuts, Out.endShutdown, Out.remaining, Out.left]
    omega
  | write pc hwrite =>
    obtain ⟨c, cur, -, -, -, rfl⟩ := Out.write_some hwrite
    rw [rings_of_silent (by simp [Sys.notifies]), Sys.calls, Sys.calls, pc]
    simp [WritePc.shuts, Out.remaining, Out.left, cur, Cur.tokens]
  | error waits | stopped waits | orphaned waits =>
    rw [rings_of_silent (by simp [Sys.notifies]), Sys.calls, Sys.calls]
    exact Nat.add_le_add_left (Nat.zero_le _) _
  | shutOut pc =>
    rw [rings_of_silent (by simp [Sys.notifies]), Sys.calls, Sys.calls, pc]
    exact Nat.le_refl _

/-- A call outside the reader takes no part in what is enqueued. -/
theorem hold_exec_other {l : Link} {op : Op} (h : op.takes = false) : (l.exec cfg op).1.hold = l.hold := by
  cases op with
  | handle m => cases h
  | violation f => cases h
  | emit e =>
    rw [Link.exec]
    dsimp only
    split <;> rfl
  | finish code reason =>
    rw [Link.exec]
    split <;> rfl
  | _ => rfl

/-- Less is left to the holder of `flags` and the writer, or as much and in no worse order. -/
def Sys.Eases (s : Sys) (lab : Label) (s' : Sys) : Prop :=
  holdWork s'.link < holdWork s.link ∨
    (∀ key, lab ≠ .hold key) ∧ holdWork s'.link = holdWork s.link ∧ (s'.link.hold = [] ↔ s.link.hold = []) ∧
      s'.calls + s.rings lab ≤ s.calls

theorem eases_of_same (other : ∀ key, lab ≠ .hold key) (hold : s'.link.hold = s.link.hold)
    (pong : s'.link.out.box.queue.pong = s.link.out.box.queue.pong) (calls : s'.calls + s.rings lab ≤ s.calls) :
    s.Eases lab s' := by
  refine .inr ⟨other, ?_, by rw [hold], calls⟩
  rw [holdWork, holdWork, hold, pong]

theorem eases_of_idle (hold : s'.link.hold = s.link.hold) (out : s'.link.out = s.link.out) (wr : s'.wr.pc = s.wr.pc)
    (other : ∀ key, lab ≠ .hold key) (silent : .drained ∉ s.notifies lab) : s.Eases lab s' := by
  apply eases_of_same other hold (by rw [out])
  rw [rings_of_silent silent, Sys.calls, Sys.calls, out, wr]
  exact Nat.le_refl _

theorem eases_exec {op : Op} (takes : op.takes = false) (other : ∀ key, lab ≠ .hold key)
    (link : s'.link = (s.link.exec cfg op).1) (wr : s'.wr.pc = s.wr.pc) (silent : .drained ∉ s.notifies lab) :
    s.Eases lab s' := by
  have hold : s'.link.hold = s.link.hold := by rw [link, hold_exec_other takes]
  rcases exec_out cfg s.link op with out | ⟨-, out⟩
  · exact eases_of_idle hold (by rw [link, out]) wr other silent
  · have le : s'.calls ≤ s.calls := by
      simp [Sys.calls, Out.remaining, Out.left, link, out, wr, Out.stopWriter, Outbox.stopWriter, itemTokens]
    cases pong : s.link.out.box.queue.pong with
    | none =>
      refine eases_of_same other hold ?_ (by rw [rings_of_silent silent]; exact le)
      rw [link, out, pong]
      rfl
    | some data =>
      left
      rw [holdWork, holdWork, hold, pong, link, out]
      simp [Out.stopWriter, Outbox.stopWriter]

theorem writerTurn_eases (h : WriterTurn cfg s lab s') (idle : s.wr.ops = []) (carried : Carried s.link.out) :
    s.Eases lab s' := by
  have calls := writerTurn_calls h idle carried
  have same (other : ∀ key, lab ≠ .hold key) (hold : s'.link.hold = s.link.hold)
      (pong : s'.link.out.box.queue.pong = s.link.out.box.queue.pong) : s.Eases lab s' :=
    eases_of_same other hold pong calls
  cases h with
  | swap pc done hswap =>
    obtain ⟨-, -, rfl⟩ := Out.swap_some hswap
    exact same (by simp) rfl rfl
  | flushPong pc free =>
    obtain ⟨le, lt⟩ := holdWork_flushPong free
    by_cases held : s.link.flushPong.hold = []
    · rcases Nat.lt_or_eq_of_le le with less | equal
      · exact .inl less
      · exact .inr ⟨by simp, equal, iff_of_true held free, calls⟩
    · exact .inl (lt held)
  | pop pc batch hpop =>
    obtain ⟨-, _, _, -, rfl⟩ := Out.pop_some hpop
    exact same (by simp) rfl rfl
  | written pc hfinish =>
    obtain ⟨_, -, -, -, rfl⟩ := Out.finish_some hfinish
    exact same (by simp) rfl rfl
  | progress pc hp link =>
    obtain ⟨c, -, -, -, rfl⟩ := Out.progress_some hp
    rcases link with rfl | ⟨o, rfl⟩ <;> exact same (by simp) rfl (by simp [Outbox.progress_eq, Link.note])
  | write pc hwrite =>
    obtain ⟨_, -, -, -, -, rfl⟩ := Out.write_some hwrite
    exact same (by simp) rfl rfl
  | _ => exact same (by simp) rfl rfl

theorem sole_takes (h : Reachable (Sys.step cfg) (.init cfg) s) : Sole Op.takes s :=
  Sole.of_reachable (fun _ => Op.takes_of_plain) rfl (fun l op _ => exec_takes l op) h

/-- While the link is closing nobody adds to what the reader waits for. -/
theorem others_ease (hr : Reachable (Sys.step cfg) (.init cfg) s) (h : Acts cfg s lab s') (reads : lab.reads = false)
    (closing : s.state = .closing) (connected : s.task = .running ∨ s.task = .finished) : s.Eases lab s' := by
  have sole := sole_takes hr
  -- a call that tells the end would find the link closed
  have silent {op : Op} (mem : op ∈ s.ops) : .drained ∉ op.notifies := by
    intro told
    cases op with
    | setStopped => cases closing.symm.trans ((Halted.of_reachable hr).ops mem)
    | stopWriter => simp [Op.notifies] at told
    | _ => cases told
  have state : s.link.flags.state = .closing := closing
  cases h with
  | @sent c op payload hc free =>
    have link : s.link.send cfg op payload = s.link.note (.returned op payload (.error "closed")) := by
      simp [Link.send, state]
    refine eases_of_idle ?_ ?_ rfl (by simp) ?_
    · rw [link]
      rfl
    · rw [link]
      rfl
    · exact call_silent c
  | refused | rejected | terminate | consumed => exact eases_of_idle rfl rfl rfl (by simp) (call_silent _)
  | @close code reason valid free =>
    have noted : (s.link.note (.closeCalled code reason)).flags.state = .closing := closing
    have link : (s.link.close code reason).1 = s.link.note (.closeCalled code reason) := by simp [Link.close, noted]
    refine eases_of_idle ?_ ?_ rfl (by simp) (call_silent _)
    · rw [Sys.spawn, link]
      rfl
    · rw [Sys.spawn, link]
      rfl
  | held hold => exact .inl (holdWork_held hold)
  | @pool i op rest ops free =>
    have mem : op ∈ s.pool.flatten :=
      List.mem_flatten.mpr ⟨_, List.mem_of_getElem? (getElem?_of_getD ops), List.mem_cons_self⟩
    refine eases_exec (sole.pool op mem) (by simp) rfl rfl ?_
    rw [Sys.notifies, ops]
    exact silent (by simp only [Sys.ops, List.mem_append, mem, or_true])
  | task h =>
    have other {t : Task} (task : s.task = t) (h₁ : t ≠ .running) (h₂ : t ≠ .finished) : False := by
      rcases connected with c | c
      · exact h₁ (task.symm.trans c)
      · exact h₂ (task.symm.trans c)
    cases h with
    | establish task | opened task => exact (other task (by simp) (by simp)).elim
    | _ => exact eases_of_idle rfl rfl rfl (by simp) (by simp [Sys.notifies])
  | readerOp => cases reads
  | reader run idle h =>
    cases h with
    | goes h => cases h <;> cases reads
    | hub pc => rcases pc with ⟨rfl, -⟩ | ⟨rfl, -⟩ <;> cases reads
    | _ => cases reads
  | @writerOp op rest run ops free =>
    have mem : op ∈ s.wr.ops := by rw [ops]; exact List.mem_cons_self
    refine eases_exec (sole.writer op mem) (by simp) rfl rfl ?_
    rw [Sys.notifies, ops]
    exact silent (by simp only [Sys.ops, List.mem_append, mem, true_or, or_true])
  | writer run idle h => exact writerTurn_eases h idle (Carried.of_reachable hr)
  | _ => exact eases_of_idle rfl rfl rfl (by simp) (by simp [Sys.notifies])

end Work

end WebSocket.Net
