import WebSocket.Net.Effects
import WebSocket.Net.Tokens

/-!
# Only legal frames are enqueued

Frames come from the application, from pings and closes the reader decoded, from
violations and from the heartbeat. `Sane` follows each of them from its origin to the
queue: what waits in a call, under `flags`, as a deferred pong, and what was enqueued.
The reader's part is `Reader.At`: it always stands before some unread bytes.
-/

namespace WebSocket.Proto

open Lib Lib.Incremental

/-- What `handle` relies on in a decoded message. -/
def Msg.Sound : Msg → Prop
  | .ping data => data.length ≤ 125
  | .close (some (code, _)) => validCloseCode code = true
  | _ => True

theorem checkFirst_code {server isOpen : Bool} {b0 b1 : UInt8} {f : Fail}
    (h : checkFirst server isOpen b0 b1 = some f) : f.code = 1002 := by
  unfold checkFirst at h
  dsimp only at h
  repeat' split at h
  all_goals first | (cases h; rfl) | cases h

theorem checkLen_code {max pending len at_ : Nat} {fin : Bool} {op : UInt8} {f : Fail}
    (h : checkLen max pending fin op len at_ = some f) : f.code = 1002 ∨ f.code = 1009 := by
  unfold checkLen at h
  repeat' split at h
  all_goals first | (cases h; exact .inl rfl) | (cases h; exact .inr rfl) | cases h

theorem head_code {server : Bool} {max : Nat} {p : Option Partial} {b : Bytes} {f : Fail}
    (h : head server max p b = .error f) : f.code = 1002 ∨ f.code = 1009 := by
  unfold head at h
  dsimp only at h
  split at h
  · cases h
  split at h
  · rename_i g hg
    cases h
    exact .inl (checkFirst_code hg)
  split at h
  · cases h
  split at h
  · rename_i g hg
    cases h
    exact checkLen_code hg
  split at h <;> cases h

theorem close_code {payload : Bytes} {f : Fail} (h : close payload = .error f) :
    f.code = 1002 ∨ f.code = 1007 := by
  unfold close at h
  dsimp only at h
  repeat' split at h
  all_goals first | (cases h; exact .inl rfl) | (cases h; exact .inr rfl) | cases h

theorem close_sound {payload : Bytes} {m : Msg} (h : close payload = .ok m) : m.Sound := by
  unfold close at h
  dsimp only at h
  split at h
  · cases h
    trivial
  · cases h
  · split at h
    · cases h
    · rename_i hv
      split at h
      · cases h
      · cases h
        simpa [Msg.Sound] using hv

/-- A failure carries a code that may be sent. -/
theorem assemblePayload_code {p q : Option Partial} {fin : Bool} {op : UInt8} {payload : Bytes} {f : Fail}
    (h : assemblePayload p fin op payload = (q, .error f)) : f.code = 1002 ∨ f.code = 1007 := by
  unfold assemblePayload at h
  split at h
  · cases h
  split at h
  · cases h
  split at h
  · cases hc : close payload with
    | error g =>
      rw [hc] at h
      cases h
      exact close_code hc
    | ok m =>
      rw [hc] at h
      cases h
  · dsimp only at h
    split at h
    · cases h
      exact .inr rfl
    · split at h <;> cases h

/-- A checked header of a control frame announces at most 125 bytes. -/
theorem head_control {server : Bool} {max : Nat} {p : Option Partial} {b : Bytes} {h : Head}
    (hh : head server max p b = .ok (some h)) (hop : CLOSE ≤ h.op) : h.len ≤ 125 := by
  unfold head at hh
  dsimp only at hh
  split at hh
  · cases hh
  split at hh
  · cases hh
  split at hh
  · cases hh
  split at hh
  · cases hh
  rename_i hlen
  split at hh
  · cases hh
  cases hh
  unfold checkLen at hlen
  rw [if_pos hop] at hlen
  split at hlen
  · cases hlen
  split at hlen
  · cases hlen
  rename_i hc
  simp only [Bool.or_eq_true, decide_eq_true_eq, not_or] at hc
  exact Nat.not_lt.mp hc.2

theorem length_unmasked_le (h : Head) (b : Bytes) : (unmasked h b).length ≤ h.len := by
  unfold unmasked
  dsimp only
  split
  · rw [length_applyMask]
    exact List.length_take_le _ _
  · exact List.length_take_le _ _

theorem nextFrame_sound {server : Bool} {max : Nat} {p q : Option Partial} {b rest : Bytes} {m : Msg}
    (h : nextFrame server max p b = .item (some m) q rest) : m.Sound := by
  rcases nextFrame_cases h with h0 | ⟨f, _, h0⟩ | ⟨hd, hh, _, ⟨_, _, _, h0⟩ | ⟨q', out, ha, h0⟩⟩
  all_goals cases h0
  unfold assemblePayload at ha
  split at ha
  · rename_i hop
    cases ha
    exact Nat.le_trans (length_unmasked_le hd b) (head_control hh (by rw [hop]; decide))
  split at ha
  · cases ha
    trivial
  split at ha
  · cases hc : close (unmasked hd b) with
    | error g =>
      rw [hc] at ha
      cases ha
    | ok m' =>
      rw [hc] at ha
      cases ha
      exact close_sound hc
  · dsimp only at ha
    split at ha
    · cases ha
    · split at ha
      · cases ha
      · cases ha
        split <;> trivial

theorem nextFrame_code {server : Bool} {max : Nat} {p : Option Partial} {b : Bytes} {f : Fail}
    (h : nextFrame server max p b = .fail f) : validCloseCode f.code = true := by
  have hcode : f.code = 1002 ∨ f.code = 1007 ∨ f.code = 1009 := by
    rcases nextFrame_cases h with h0 | ⟨g, hh, h0⟩ | ⟨hd, hh, _, ⟨_, g, ha, h0⟩ | ⟨_, _, _, h0⟩⟩
    all_goals cases h0
    · exact (head_code hh).imp id .inr
    · exact (assemblePayload_code ha).imp id .inl
  rcases hcode with hc | hc | hc <;> rw [hc] <;> decide

/-- The reader stands before some unread bytes. -/
def Reader.Standing (server : Bool) (max : Nat) (r : Reader) : Prop := ∃ p b, r.At server max p b

namespace Reader.Standing

variable {r : Reader} {server : Bool} {max : Nat}

theorem push (h : r.Standing server max) (c : Bytes) : (r.push c).Standing server max := by
  obtain ⟨p, b, h⟩ := h
  exact ⟨p, b ++ c, h.push c⟩

theorem messageWith : ∀ (fuel : Nat) {r : Reader}, r.Standing server max →
    (r.messageWith fuel).1.Standing server max
  | 0, _, h => h
  | fuel + 1, r, ⟨p, b, h⟩ => by
    rw [Reader.messageWith]
    rcases h.frame with ⟨f, _, hf⟩ | ⟨_, hf⟩ | ⟨hd, r', f, _, _, hf, _, _, _, hat⟩
    · rw [hf]
      exact ⟨p, b, h⟩
    · rw [hf]
      exact ⟨p, b, h⟩
    · rw [hf]
      dsimp only
      -- the payload may be refused, but the reader is past the frame in any case
      have hat' (q : Option Partial) : ({ r' with partialMsg := q } : Reader).Standing server max :=
        ⟨q, _, hat.server, hat.max, rfl, hat.unread, hat.pos⟩
      unfold assemble
      dsimp only
      split
      all_goals
        rename_i heq
        obtain ⟨rfl, -⟩ := Prod.mk.inj heq
      · exact hat' _
      · exact hat' _
      · exact messageWith fuel (hat' _)

theorem message (h : r.Standing server max) : r.message.1.Standing server max := messageWith _ h

/-- What `message` returns is sound. -/
theorem sound (h : r.Standing server max) {m : Msg} (hm : r.message.2 = .ok (some m)) : m.Sound := by
  obtain ⟨p, b, h⟩ := h
  have hpoll := h.message
  cases hp : (decoder server max).poll p b with
  | fail f =>
    rw [hp] at hpoll
    rw [show r.message.2 = .error f from hpoll] at hm
    cases hm
  | idle p' b' =>
    rw [hp] at hpoll
    rw [hpoll.1] at hm
    cases hm
  | out m' p' b' =>
    rw [hp] at hpoll
    rw [hpoll.1] at hm
    cases hm
    obtain ⟨t, c, hn⟩ := (decoder server max).exists_next_of_poll_out hp
    exact nextFrame_sound hn

/-- A failure carries a code that may be sent. -/
theorem code (h : r.Standing server max) {f : Fail} (hf : r.message.2 = .error f) : validCloseCode f.code = true := by
  obtain ⟨p, b, h⟩ := h
  have hpoll := h.message
  cases hp : (decoder server max).poll p b with
  | fail f' =>
    rw [hp] at hpoll
    rw [show r.message.2 = .error f' from hpoll] at hf
    cases hf
    obtain ⟨t, c, hn⟩ := (decoder server max).exists_next_of_poll_fail hp
    exact nextFrame_code hn
  | idle p' b' =>
    rw [hp] at hpoll
    rw [hpoll.1] at hf
    cases hf
  | out m' p' b' =>
    rw [hp] at hpoll
    rw [hpoll.1] at hf
    cases hf

end Reader.Standing

end WebSocket.Proto

namespace WebSocket.Net

open Proto Lib.Transition

/-! ## The invariant -/

def Section.Legal : Section → Prop
  | .pushFrame kind op payload => kind ≠ .heartbeat ∧ Net.Legal kind op payload
  | .recheck op payload => Net.Legal .app op payload
  | .deferPong data => data.length ≤ 125
  | _ => True

def Op.Sound : Op → Prop
  | .handle m => m.Sound
  | .violation f => validCloseCode f.code = true
  | _ => True

/-- A whole frame, masked as the role asks, with a payload its producer may send. -/
def Entry.Legal (cfg : Config) : Entry → Prop
  | .frame kind w => w.fin = true ∧ w.mask.isSome = (!cfg.server) ∧ Net.Legal kind w.op w.payload
  | .shutdown => True

/-- The frames on their way to the queue, and those in it. -/
structure Link.Sane (cfg : Config) (l : Link) : Prop where
  hold : ∀ x ∈ l.hold, x.Legal
  pong : ∀ d, l.out.box.queue.pong = some d → d.length ≤ 125
  log : ∀ e ∈ l.out.log, e.Legal cfg

structure Sane (cfg : Config) (s : Sys) : Prop where
  link : s.link.Sane cfg
  ops : ∀ op ∈ s.ops, op.Sound
  reader : s.rd.reader.Standing cfg.server cfg.max

/-! ## The producers -/

section Producers

variable {cfg : Config}

theorem legal_closePayload {code : UInt16} {reason : Str} (valid : validCloseCode code = true)
    (short : reason.bytes.length ≤ 123) : Legal .close CLOSE (closePayload code reason) :=
  ⟨rfl, by rw [length_closePayload]; omega, _, .some valid⟩

theorem legal_echo {status : Option (UInt16 × Str)} (h : (Msg.close status).Sound) :
    Legal .close CLOSE (Link.echo status) := by
  cases status with
  | none => exact ⟨rfl, Nat.zero_le _, _, .none⟩
  | some st => exact @legal_closePayload _ .empty h (Nat.zero_le _)

theorem legal_closeSections {sentClose shutdown : Bool} {payload : Bytes} (h : Legal .close CLOSE payload) :
    ∀ x ∈ Link.closeSections sentClose payload shutdown, x.Legal := by
  rw [Link.closeSections, List.forall_mem_append]
  constructor
  · split
    · exact fun _ hx => nomatch hx
    · exact List.forall_mem_singleton.mpr ⟨by decide, h⟩
  · split
    · exact List.forall_mem_singleton.mpr trivial
    · exact fun _ hx => nomatch hx

/-- The sections left under `flags` by a function are legal if it was given sound data. -/
theorem legal_send {l : Link} {op : UInt8} {payload : Bytes} (h : ∀ x ∈ l.hold, x.Legal)
    (legal : Legal .app op payload) : ∀ x ∈ (l.send cfg op payload).hold, x.Legal := by
  rw [Link.send]
  split
  · exact h
  · split
    · exact List.forall_mem_singleton.mpr ⟨by decide, legal⟩
    · exact List.forall_mem_singleton.mpr legal

theorem legal_close {l : Link} {code : UInt16} {reason : Str} (h : ∀ x ∈ l.hold, x.Legal)
    (valid : validCloseCode code = true) (short : reason.bytes.length ≤ 123) :
    ∀ x ∈ (l.close code reason).1.hold, x.Legal := by
  unfold Link.close
  dsimp only
  split
  · exact h
  · exact List.forall_mem_singleton.mpr ⟨by decide, legal_closePayload valid short⟩
  · exact h

theorem legal_violate {l : Link} {f : Fail} (h : ∀ x ∈ l.hold, x.Legal) (valid : validCloseCode f.code = true) :
    ∀ x ∈ (l.violate f).hold, x.Legal := by
  rw [Link.violate]
  split
  · exact h
  · exact legal_closeSections (legal_closePayload valid (Nat.zero_le _))

theorem legal_closing {l : Link} {status : Option (UInt16 × Str)} (h : ∀ x ∈ l.hold, x.Legal)
    (sound : (Msg.close status).Sound) : ∀ x ∈ (l.closing cfg status).hold, x.Legal := by
  rw [Link.closing]
  split
  · exact h
  · exact legal_closeSections (legal_echo sound)

theorem legal_handlePing {l : Link} {data : Bytes} (h : ∀ x ∈ l.hold, x.Legal) (short : data.length ≤ 125) :
    ∀ x ∈ (l.handlePing data).hold, x.Legal := by
  rw [Link.handlePing]
  split
  · dsimp only
    split
    · exact List.forall_mem_cons.mpr ⟨trivial, List.forall_mem_singleton.mpr ⟨by decide, rfl, short⟩⟩
    · exact List.forall_mem_singleton.mpr short
  · exact h

theorem legal_flushPong {l : Link} (h : ∀ x ∈ l.hold, x.Legal)
    (short : ∀ d, l.out.box.queue.pong = some d → d.length ≤ 125) : ∀ x ∈ l.flushPong.hold, x.Legal := by
  unfold Link.flushPong
  dsimp only
  split
  · rename_i d hd
    split
    · exact List.forall_mem_singleton.mpr ⟨by decide, rfl, short d hd⟩
    · exact h
  · exact h

theorem legal_exec {l : Link} {op : Op} (h : ∀ x ∈ l.hold, x.Legal) (sound : op.Sound) :
    ∀ x ∈ (l.exec cfg op).1.hold, x.Legal := by
  cases op with
  | emit e =>
    rw [Link.exec]
    split <;> exact h
  | finish code reason =>
    rw [Link.exec]
    split <;> exact h
  | handle m =>
    cases m with
    | text data => exact h
    | binary data => exact h
    | ping data => exact legal_handlePing h sound
    | pong data => exact h
    | close status => exact legal_closing h sound
  | violation f => exact legal_violate h sound
  | checkHub => exact h
  | stopWriter => exact h
  | setStopped => exact h
  | shutdownIo => exact h
  | endLink => exact h
  | released => exact h
  | deliver e => exact h
  | deliverOpen e => exact h
  | deliverNow e => exact h

theorem legal_holdStep {l l' : Link} {key : Key} (h : ∀ x ∈ l.hold, x.Legal)
    (hs : l.holdStep cfg key = some l') : ∀ x ∈ l'.hold, x.Legal := by
  obtain ⟨x, rest, hhold, rfl⟩ := Link.holdStep_some hs
  rw [hhold, List.forall_mem_cons] at h
  refine List.forall_mem_append.mpr ⟨?_, h.2⟩
  cases x with
  | recheck op payload =>
    rw [Link.execSection]
    split
    · exact List.forall_mem_singleton.mpr ⟨by decide, h.1⟩
    · exact fun _ hx => nomatch hx
  | pushFrame kind op payload => exact fun _ hx => nomatch hx
  | pushHeartbeat sent => exact fun _ hx => nomatch hx
  | pushShutdown => exact fun _ hx => nomatch hx
  | clearPong => exact fun _ hx => nomatch hx
  | deferPong data => exact fun _ hx => nomatch hx

end Producers

/-! ## Steps of the outbound side -/

/-- Everything that happens to the queue and the writer's locals. -/
inductive OutStep (cfg : Config) (o : Out) : Out → Prop where
  | frame {kind op payload key} (other : kind ≠ .heartbeat) (legal : Legal kind op payload) :
      OutStep cfg o (o.pushFrame cfg kind op payload key)
  | heartbeat {sent key} : OutStep cfg o (o.pushHeartbeat cfg sent key)
  | shutdown : OutStep cfg o o.pushShutdown
  | pong {d} (short : ∀ x, d = some x → x.length ≤ 125) : OutStep cfg o (o.setPong d)
  | register {len} (full : o.box.fits cfg len = false) : OutStep cfg o (o.register len)
  | stop : OutStep cfg o o.stopWriter
  | io : OutStep cfg o o.setIo
  | swap {o'} (live : o.box.queue.done = false) (h : o.swap = some o') : OutStep cfg o o'
  | pop {o'} (h : o.pop = some o') : OutStep cfg o o'
  | write {n o'} (h : o.write cfg n = some o') : OutStep cfg o o'
  | progress {o' cleared} (h : o.progress cfg = some (o', cleared)) : OutStep cfg o o'
  | finish {o'} (h : o.finish = some o') : OutStep cfg o o'
  | endShutdown : OutStep cfg o o.endShutdown

section Steps

variable {cfg : Config} {s s' : Sys} {lab : Label} {used new : List Op}

/-- Outside `flags`, only `stop_writer` touches the queue. -/
theorem exec_out (cfg : Config) (l : Link) (op : Op) :
    (l.exec cfg op).1.out = l.out ∨ op = .stopWriter ∧ (l.exec cfg op).1.out = l.out.stopWriter := by
  cases op with
  | stopWriter => exact .inr ⟨rfl, rfl⟩
  | emit e =>
    rw [Link.exec]
    split <;> exact .inl rfl
  | finish code reason =>
    rw [Link.exec]
    split <;> exact .inl rfl
  | handle m =>
    cases m with
    | ping data =>
      rw [Link.exec, Link.handle, Link.handlePing]
      split <;> exact .inl rfl
    | close status =>
      rw [Link.exec, Link.handle, Link.closing]
      split <;> exact .inl rfl
    | text data => exact .inl rfl
    | binary data => exact .inl rfl
    | pong data => exact .inl rfl
  | violation f =>
    rw [Link.exec, Link.violate]
    split <;> exact .inl rfl
  | checkHub => exact .inl rfl
  | setStopped => exact .inl rfl
  | shutdownIo => exact .inl rfl
  | endLink => exact .inl rfl
  | released => exact .inl rfl
  | deliver e => exact .inl rfl
  | deliverOpen e => exact .inl rfl
  | deliverNow e => exact .inl rfl

theorem outStep_holdStep {l l' : Link} {key : Key} (legal : ∀ x ∈ l.hold, x.Legal)
    (hs : l.holdStep cfg key = some l') : l'.out = l.out ∨ OutStep cfg l.out l'.out := by
  obtain ⟨x, rest, hhold, rfl⟩ := Link.holdStep_some hs
  rw [hhold, List.forall_mem_cons] at legal
  cases x with
  | pushFrame kind op payload =>
    rw [Link.execSection]
    dsimp only
    split <;> exact .inr (.frame legal.1.1 legal.1.2)
  | recheck op payload =>
    rw [Link.execSection]
    dsimp only
    split
    · exact .inl rfl
    · rename_i hfull
      exact .inr (.register (Bool.eq_false_iff.mpr hfull))
  | pushHeartbeat sent => exact .inr .heartbeat
  | pushShutdown => exact .inr .shutdown
  | clearPong => exact .inr (.pong fun _ h => nomatch h)
  | deferPong data => exact .inr (.pong fun x h => by cases h; exact legal.1)

theorem Effect.out (h : Effect cfg s lab s' used new) (sane : ∀ x ∈ s.link.hold, x.Legal) :
    s'.link.out = s.link.out ∨ OutStep cfg s.link.out s'.link.out := by
  have exec (op : Op) : (s.link.exec cfg op).1.out = s.link.out ∨
      OutStep cfg s.link.out (s.link.exec cfg op).1.out := by
    rcases exec_out cfg s.link op with h | ⟨-, h⟩
    · exact .inl h
    · exact .inr (h ▸ .stop)
  cases h with
  | env q => exact .inl q.out
  | left q => exact .inl q.out
  | sent free legal =>
    left
    dsimp only
    rw [Link.send]
    split
    · rfl
    · split <;> rfl
  | close =>
    left
    simp only [Sys.spawn]
    unfold Link.close
    dsimp only
    split <;> rfl
  | held h => exact outStep_holdStep sane h
  | execPool ops free => exact exec _
  | execReader run ops free => exact exec _
  | execWriter run ops free => exact exec _
  | connected task => exact .inr .io
  | swap run idle at_ live h goes => exact .inr (.swap live h)
  | flushPong run idle pc free =>
    right
    have : s.link.flushPong.out = s.link.out.setPong none := by
      unfold Link.flushPong
      dsimp only
      split
      · split <;> rfl
      · rfl
    simp only [this]
    exact .pong fun _ h => by cases h
  | pop run idle at_ h goes => exact .inr (.pop h)
  | write run idle pc h => exact .inr (.write h)
  | progress run idle pc h => exact .inr (.progress h)
  | drain run idle pc h => exact .inr (.progress h)
  | finish run idle pc h => exact .inr (.finish h)
  | endShutdown run idle pc => exact .inr .endShutdown
  | _ => exact .inl rfl

theorem Legal.bound {kind : Kind} {op : UInt8} {payload : Bytes} (h : Legal kind op payload) :
    payload.length ≤ isizeMax := by
  have small : 125 ≤ isizeMax := by decide
  cases kind with
  | app => exact h.1
  | pong => exact Nat.le_trans h.2 small
  | deferred => exact Nat.le_trans h.2 small
  | heartbeat => exact Nat.le_trans (Nat.le_of_eq h.2) (by decide)
  | close => exact Nat.le_trans h.2.1 small

theorem isSome_mask (cfg : Config) (key : Key) : (cfg.mask key).isSome = !cfg.server := by
  cases hs : cfg.server <;> simp [Config.mask, hs]

/-- An enqueue of a legal entry keeps the log legal. -/
theorem legal_log {o o' : Out} {e : Entry} (log : ∀ e ∈ o.log, e.Legal cfg)
    (h : o'.log = if o.box.live then o.log ++ [e] else o.log) (he : e.Legal cfg) : ∀ e ∈ o'.log, e.Legal cfg := by
  rw [h]
  split
  · exact List.forall_mem_append.mpr ⟨log, List.forall_mem_singleton.mpr he⟩
  · exact log

/-- Steps of the outbound side keep the deferred pong short and enqueue only legal frames. -/
theorem OutStep.sane {o o' : Out} (h : OutStep cfg o o')
    (pong : ∀ d, o.box.queue.pong = some d → d.length ≤ 125) (log : ∀ e ∈ o.log, e.Legal cfg) :
    (∀ d, o'.box.queue.pong = some d → d.length ≤ 125) ∧ ∀ e ∈ o'.log, e.Legal cfg := by
  cases h with
  | @frame kind op payload key other legal =>
    refine ⟨?_, legal_log log (Out.log_pushFrame ..) ⟨rfl, isSome_mask cfg key, legal⟩⟩
    cases hl : o.box.live with
    | true =>
      obtain ⟨items, -, hp⟩ := Outbox.pushFrame_live cfg op key hl legal.bound
      simpa only [Out.pushFrame, hp] using pong
    | false => simpa only [Out.pushFrame, Outbox.pushFrame_dead hl] using pong
  | @heartbeat sent key =>
    refine ⟨?_, legal_log log (Out.log_pushHeartbeat ..) ⟨rfl, isSome_mask cfg key, rfl, cfg.token_length⟩⟩
    cases hl : o.box.live with
    | true => simpa only [Out.pushHeartbeat, Outbox.pushHeartbeat_live hl] using pong
    | false => simpa only [Out.pushHeartbeat, Outbox.pushHeartbeat_dead hl] using pong
  | shutdown =>
    refine ⟨?_, legal_log log o.log_pushShutdown trivial⟩
    cases hl : o.box.live with
    | true =>
      simp only [Out.pushShutdown, Outbox.pushShutdown_live hl]
      exact fun _ h => nomatch h
    | false => simpa only [Out.pushShutdown, Outbox.pushShutdown_dead hl] using pong
  | pong short => exact ⟨short, log⟩
  | register full => exact ⟨pong, log⟩
  | stop => exact ⟨(fun _ h => nomatch h), log⟩
  | io => exact ⟨pong, log⟩
  | swap live h =>
    obtain ⟨-, -, rfl⟩ := Out.swap_some h
    exact ⟨pong, by simpa only [Out.log, List.append_nil] using log⟩
  | pop h =>
    obtain ⟨-, item, t, -, rfl⟩ := Out.pop_some h
    exact ⟨pong, log⟩
  | write h =>
    obtain ⟨c, -, -, -, -, rfl⟩ := Out.write_some h
    exact ⟨pong, log⟩
  | progress h =>
    obtain ⟨c, -, -, -, rfl⟩ := Out.progress_some h
    simp only [Outbox.progress_eq]
    exact ⟨pong, log⟩
  | finish h =>
    obtain ⟨c, -, -, -, rfl⟩ := Out.finish_some h
    exact ⟨pong, log⟩
  | endShutdown => exact ⟨pong, log⟩

/-- A step of the reader keeps it standing. -/
theorem Effect.reader (h : Effect cfg s lab s' used new) (sane : s.rd.reader.Standing cfg.server cfg.max) :
    s'.rd.reader.Standing cfg.server cfg.max := by
  have message {r : Reader} {res : Except Fail (Option Msg)} (hm : s.rd.reader.message = (r, res)) :
      r.Standing cfg.server cfg.max := by
    have := sane.message
    rwa [hm] at this
  cases h with
  | started task => exact sane.push _
  | decoded run idle pc msg => exact message msg
  | failed run idle pc msg => exact message msg
  | reading run idle h =>
    cases h with
    | silent pc msg => exact message msg
    | input pc hlab =>
      dsimp only
      split
      · exact sane.push _
      · exact sane
    | _ => exact sane
  | _ => exact sane

/-- Sections that take in what the reader decoded. -/
def Op.takes : Op → Bool
  | .handle _ | .violation _ => true
  | _ => false

/-- Only the dispatch of a message starts such a section. -/
theorem exec_takes (l : Link) (op : Op) : ∀ o ∈ (l.exec cfg op).2, o.takes = false := by
  have split_nil {P : Prop} [Decidable P] {a : Op} (ha : a.takes = false) :
      ∀ o ∈ (if P then [] else [a]), o.takes = false := by
    split
    · exact fun _ h => nomatch h
    · exact List.forall_mem_singleton.mpr ha
  cases op with
  | handle m =>
    cases m with
    | text data => exact split_nil rfl
    | binary data => exact split_nil rfl
    | ping data => exact List.forall_mem_cons.mpr ⟨rfl, List.forall_mem_singleton.mpr rfl⟩
    | pong data => exact split_nil rfl
    | close status => exact List.forall_mem_singleton.mpr rfl
  | emit e => exact List.forall_mem_singleton.mpr rfl
  | checkHub =>
    rw [Link.exec]
    split
    · exact List.forall_mem_singleton.mpr rfl
    · exact fun _ h => nomatch h
  | finish code reason =>
    rw [Link.exec]
    split
    · exact fun _ h => nomatch h
    · show ∀ o ∈ [Op.stopWriter, .setStopped, .shutdownIo], o.takes = false
      decide
  | endLink => exact List.forall_mem_singleton.mpr rfl
  | deliver e =>
    rw [Link.exec]
    split <;> exact List.forall_mem_singleton.mpr rfl
  | deliverOpen e =>
    rw [Link.exec]
    split
    · exact List.forall_mem_singleton.mpr rfl
    · exact fun _ h => nomatch h
  | deliverNow e => exact List.forall_mem_singleton.mpr rfl
  | violation f => exact List.forall_mem_singleton.mpr rfl
  | stopWriter => exact fun _ h => nomatch h
  | setStopped => exact fun _ h => nomatch h
  | shutdownIo => exact fun _ h => nomatch h
  | released => exact fun _ h => nomatch h

theorem Op.Sound.of_takes {op : Op} (h : op.takes = false) : op.Sound := by
  cases op <;> trivial

theorem Op.takes_of_plain {op : Op} (h : op.plain = true) : op.takes = false := by
  cases op <;> first | rfl | cases h

/-- The sections a step starts, apart from the reader's dispatch, take in nothing. -/
theorem Effect.new_takes (h : Effect cfg s lab s' used new) :
    (∀ o ∈ new, o.takes = false) ∨
      (∃ last, s.rd.pc = .dispatch last ∧ used = [] ∧
        ((∃ m, s.rd.reader.message.2 = .ok (some m) ∧ s'.rd.pc = .handled (Sys.isClose m) last ∧ new = [.handle m]) ∨
        ∃ f, s.rd.reader.message.2 = .error f ∧ s'.rd.pc = .handled true last ∧
          new = [.emit (.error f.why), .violation f])) := by
  have plain {ops : List Op} (h : ∀ op ∈ ops, op.plain = true) : ∀ o ∈ ops, o.takes = false :=
    fun o ho => Op.takes_of_plain (h o ho)
  cases h with
  | decoded run idle pc msg => exact .inr ⟨_, pc, rfl, .inl ⟨_, by rw [msg], rfl, rfl⟩⟩
  | failed run idle pc msg => exact .inr ⟨_, pc, rfl, .inr ⟨_, by rw [msg], rfl, rfl⟩⟩
  | close free valid short hlab =>
    left
    unfold Link.close
    dsimp only
    split
    · exact plain (plain_fail _)
    · exact fun _ h => nomatch h
    · exact fun _ h => nomatch h
  | terminate => exact .inl (plain plain_terminate)
  | execPool ops free => exact .inl (exec_takes _ _)
  | execReader run ops free => exact .inl (exec_takes _ _)
  | execWriter run ops free => exact .inl (exec_takes _ _)
  | left q stopped hub hplain why => exact .inl (plain hplain)
  | reading run idle h =>
    left
    cases h with
    | hub pc h => exact plain plain_terminate
    | ending pc => exact List.forall_mem_singleton.mpr rfl
    | error pc hlab hplain => exact plain hplain
    | dead pc verdict => exact plain (plain_fail _)
    | _ => exact fun _ h => nomatch h
  | writing run idle h =>
    left
    cases h with
    | hub waits h => exact plain plain_terminate
    | error waits hlab => exact List.forall_mem_singleton.mpr rfl
    | _ => exact fun _ h => nomatch h
  | ping => exact .inl (List.forall_mem_singleton.mpr rfl)
  | flushPong => exact .inl (List.forall_mem_singleton.mpr rfl)
  | drain => exact .inl (List.forall_mem_singleton.mpr rfl)
  | _ => exact .inl fun _ h => nomatch h

/-- The sections under `flags` stay legal. -/
theorem Effect.hold (h : Effect cfg s lab s' used new) (sane : Sane cfg s) : ∀ x ∈ s'.link.hold, x.Legal := by
  have sound : ∀ op ∈ used, op.Sound := fun op hop => sane.ops op (h.used_mem hop)
  cases h with
  | env q => exact q.hold ▸ sane.link.hold
  | left q => exact q.hold ▸ sane.link.hold
  | sent free legal => exact legal_send sane.link.hold legal
  | close free valid short => exact legal_close sane.link.hold valid short
  | held h => exact legal_holdStep sane.link.hold h
  | execPool ops free => exact legal_exec sane.link.hold (List.forall_mem_singleton.mp sound)
  | execReader run ops free => exact legal_exec sane.link.hold (List.forall_mem_singleton.mp sound)
  | execWriter run ops free => exact legal_exec sane.link.hold (List.forall_mem_singleton.mp sound)
  | ping => exact List.forall_mem_singleton.mpr trivial
  | flushPong => exact legal_flushPong sane.link.hold sane.link.pong
  | _ => exact sane.link.hold

theorem Sane.step (sane : Sane cfg s) (h : s.step cfg lab = some s') : Sane cfg s' := by
  obtain ⟨used, new, he⟩ := step_effect h
  refine ⟨?_, ?_, he.reader sane.reader⟩
  · have hout : (∀ d, s'.link.out.box.queue.pong = some d → d.length ≤ 125) ∧
        ∀ e ∈ s'.link.out.log, e.Legal cfg := by
      rcases he.out sane.link.hold with ho | ho
      · rw [ho]
        exact ⟨sane.link.pong, sane.link.log⟩
      · exact ho.sane sane.link.pong sane.link.log
    exact ⟨he.hold sane, hout.1, hout.2⟩
  · intro op hop
    rcases he.mem_ops hop with hop | hop
    · exact sane.ops op hop
    · rcases he.new_takes with hn | ⟨last, -, -, ⟨m, hm, -, rfl⟩ | ⟨f, hf, -, rfl⟩⟩
      · exact .of_takes (hn op hop)
      · rw [List.mem_singleton.mp hop]
        exact sane.reader.sound hm
      · simp only [List.mem_cons, List.not_mem_nil, or_false] at hop
        rcases hop with rfl | rfl
        · trivial
        · exact sane.reader.code hf

theorem Sane.init (cfg : Config) : Sane cfg (.init cfg) where
  link := ⟨(fun _ h => nomatch h), (fun _ h => nomatch h), fun _ h => nomatch h⟩
  ops := fun _ h => nomatch h
  reader := ⟨none, [], Reader.new_at cfg.server cfg.max⟩

/-- **Only legal frames are ever enqueued**, whatever the threads do. -/
theorem Sane.of_reachable (h : Reachable (Sys.step cfg) (.init cfg) s) : Sane cfg s :=
  h.invariant (.init cfg) fun _ _ _ _ sane hs => sane.step hs

end Steps

end WebSocket.Net
