import WebSocket.Net.Lifecycle

/-!
# What happens under `flags`

`flags` guards the state, what is known of the close, and which sections of `queue` are
to come. `Locked` lists what a step does to them: the functions that take `flags`, the
sections run while it is held, and everything else, which leaves both alone and enqueues
nothing.
-/

namespace WebSocket.Net

open Proto Lib.Transition

/-- The opcode and payload of a `send` that returned `Ok`. -/
def Obs.sent? : Obs → Option (UInt8 × Bytes)
  | .returned op payload (.ok _) => some (op, payload)
  | _ => none

/-- Only the state and the trace of the link changed: an event was sent. -/
structure Link.Turns (l l' : Link) : Prop where
  flags : ∃ state, l'.flags = { l.flags with state := state }
  hold : l'.hold = l.hold
  log : l'.out.log = l.out.log

/-- What a step does under `flags`. -/
inductive Locked (cfg : Config) (s s' : Sys) (used : List Op) : Prop where
  | other (flags : s'.link.flags = s.link.flags) (hold : s'.link.hold = s.link.hold)
      (log : s'.link.out.log = s.link.out.log)
      (sends : s'.link.trace.filterMap Obs.sent? = s.link.trace.filterMap Obs.sent?)
  | turns (free : s.link.hold = []) (turns : s.link.Turns s'.link)
      (sends : s'.link.trace.filterMap Obs.sent? = s.link.trace.filterMap Obs.sent?)
  | held {key x rest} (hold : s.link.hold = x :: rest)
      (link : s'.link = { (s.link.execSection cfg key x).1 with hold := (s.link.execSection cfg key x).2 ++ rest })
  | sent {op payload} (free : s.link.hold = []) (legal : Legal .app op payload)
      (link : s'.link = s.link.send cfg op payload)
  | close {code reason} (free : s.link.hold = []) (link : s'.link = (s.link.close code reason).1)
  | took {op} (free : s.link.hold = []) (used : used = [op]) (takes : op.takes = true)
      (link : s'.link = (s.link.exec cfg op).1)
  | flushPong (free : s.link.hold = []) (run : s.task = .running) (pc : s.wr.pc = .flushPong)
      (link : s'.link = s.link.flushPong)
  | ping (free : s.link.hold = []) (state : s.state = .opened)
      (link : s'.link = { s.link with
        hold := [.pushHeartbeat s.link.cells.length], cells := s.link.cells ++ [none] })

section Steps

variable {cfg : Config} {s s' : Sys} {lab : Label} {used new : List Op}

/-- The log does not change where the outbound side does not. -/
theorem Locked.of_out (flags : s'.link.flags = s.link.flags) (hold : s'.link.hold = s.link.hold)
    (out : s'.link.out = s.link.out) (trace : s'.link.trace = s.link.trace) : Locked cfg s s' used :=
  .other flags hold (by rw [out]) (by rw [trace])

/-- An observation that is not an accepted `send`. -/
theorem sends_note {o : Obs} (h : s'.link.trace = s.link.trace ++ [o]) (ho : o.sent? = none) :
    s'.link.trace.filterMap Obs.sent? = s.link.trace.filterMap Obs.sent? := by
  rw [h, List.filterMap_append]
  simp [ho]

theorem locked_exec {op : Op} (free : op.locks = true → s.link.hold = []) (h : s'.link = (s.link.exec cfg op).1) :
    Locked cfg s s' [op] := by
  cases op with
  | emit e =>
    rw [Link.exec] at h
    dsimp only at h
    split at h
    · exact .of_out (by rw [h]) (by rw [h]) (by rw [h]) (by rw [h])
    · exact .other (by rw [h]; rfl) (by rw [h]; rfl) (by rw [h]; rfl)
        (sends_note (o := .event e (!s.link.hubClosed)) (by rw [h]; rfl) rfl)
  | finish code reason =>
    rw [Link.exec] at h
    split at h
    · exact .of_out (by rw [h]) (by rw [h]) (by rw [h]) (by rw [h])
    · exact .turns (free rfl) ⟨⟨_, by rw [h]; rfl⟩, by rw [h]; rfl, by rw [h]; rfl⟩
        (sends_note (o := .event (.close code reason) (!s.link.hubClosed)) (by rw [h]; rfl) rfl)
  | handle m => exact .took (free rfl) rfl rfl h
  | violation f => exact .took (free rfl) rfl rfl h
  | checkHub => exact .of_out (by rw [h]; rfl) (by rw [h]; rfl) (by rw [h]; rfl) (by rw [h]; rfl)
  | stopWriter => exact .other (by rw [h]; rfl) (by rw [h]; rfl) (by rw [h]; rfl) (by rw [h]; rfl)
  | setStopped => exact .of_out (by rw [h]; rfl) (by rw [h]; rfl) (by rw [h]; rfl) (by rw [h]; rfl)
  | shutdownIo => exact .of_out (by rw [h]; rfl) (by rw [h]; rfl) (by rw [h]; rfl) (by rw [h]; rfl)
  | endLink => exact .of_out (by rw [h]; rfl) (by rw [h]; rfl) (by rw [h]; rfl) (by rw [h]; rfl)
  | released => exact .of_out (by rw [h]; rfl) (by rw [h]; rfl) (by rw [h]; rfl) (by rw [h]; rfl)
  | deliver e => exact .of_out (by rw [h]; rfl) (by rw [h]; rfl) (by rw [h]; rfl) (by rw [h]; rfl)
  | deliverOpen e => exact .of_out (by rw [h]; rfl) (by rw [h]; rfl) (by rw [h]; rfl) (by rw [h]; rfl)
  | deliverNow e => exact .of_out (by rw [h]; rfl) (by rw [h]; rfl) (by rw [h]; rfl) (by rw [h]; rfl)

theorem Effect.locked (h : Effect cfg s lab s' used new) : Locked cfg s s' used := by
  cases h with
  | env q => exact .of_out q.flags q.hold q.out q.trace
  | left q => exact .of_out q.flags q.hold q.out q.trace
  | sent free legal => exact .sent free legal rfl
  | refused => exact .other rfl rfl rfl (sends_note rfl rfl)
  | close free => exact .close free rfl
  | held h =>
    obtain ⟨x, rest, hhold, rfl⟩ := Link.holdStep_some h
    exact .held hhold rfl
  | execPool ops free => exact locked_exec free rfl
  | execReader run ops free => exact locked_exec free rfl
  | execWriter run ops free => exact locked_exec free rfl
  | opened task free state => exact .turns free ⟨⟨_, rfl⟩, rfl, rfl⟩ (sends_note rfl rfl)
  | decoded => exact .other rfl rfl rfl (sends_note rfl rfl)
  | ping run idle free state => exact .ping free state rfl
  | flushPong run idle pc free => exact .flushPong free run pc rfl
  | swap run idle at_ live h =>
    obtain ⟨-, -, rfl⟩ := Out.swap_some h
    exact .other rfl rfl (by simp only [Out.log, List.append_nil]) rfl
  | pop run idle at_ h =>
    obtain ⟨-, item, t, -, rfl⟩ := Out.pop_some h
    exact .other rfl rfl rfl rfl
  | write run idle pc h =>
    obtain ⟨c, -, -, -, -, rfl⟩ := Out.write_some h
    exact .other rfl rfl rfl rfl
  | progress run idle pc h =>
    obtain ⟨c, -, -, -, rfl⟩ := Out.progress_some h
    exact .other rfl rfl rfl rfl
  | drain run idle pc h =>
    obtain ⟨c, -, -, -, rfl⟩ := Out.progress_some h
    exact .other rfl rfl rfl (sends_note rfl rfl)
  | finish run idle pc h =>
    obtain ⟨c, -, -, -, rfl⟩ := Out.finish_some h
    exact .other rfl rfl rfl rfl
  | _ => exact .other rfl rfl rfl rfl

/-- A section that takes in a message enqueues nothing itself. -/
theorem exec_took (l : Link) {op : Op} (h : op.takes = true) :
    (l.exec cfg op).1.out = l.out ∧ (l.exec cfg op).1.trace = l.trace := by
  cases op with
  | handle m =>
    cases m with
    | ping data =>
      rw [Link.exec, Link.handle, Link.handlePing]
      dsimp only
      split <;> exact ⟨rfl, rfl⟩
    | close status =>
      rw [Link.exec, Link.handle, Link.closing]
      dsimp only
      split <;> exact ⟨rfl, rfl⟩
    | _ => exact ⟨rfl, rfl⟩
  | violation f =>
    rw [Link.exec, Link.violate]
    dsimp only
    split <;> exact ⟨rfl, rfl⟩
  | _ => cases h

theorem out_send (l : Link) (op : UInt8) (payload : Bytes) : (l.send cfg op payload).out = l.out := by
  rw [Link.send]
  split
  · rfl
  · split <;> rfl

theorem out_close (l : Link) (code : UInt16) (reason : Str) : (l.close code reason).1.out = l.out := by
  unfold Link.close
  dsimp only
  split <;> rfl

theorem out_flushPong (l : Link) : l.flushPong.out = l.out.setPong none := by
  unfold Link.flushPong
  dsimp only
  split
  · split <;> rfl
  · rfl

/-- Only a section under `flags` changes the log. -/
theorem Locked.log (h : Locked cfg s s' used) : s'.link.out.log = s.link.out.log ∨
    ∃ key x rest, s.link.hold = x :: rest ∧
      s'.link = { (s.link.execSection cfg key x).1 with hold := (s.link.execSection cfg key x).2 ++ rest } := by
  cases h with
  | other flags hold log => exact .inl log
  | turns free turns => exact .inl turns.log
  | held hold link => exact .inr ⟨_, _, _, hold, link⟩
  | sent free legal link => exact .inl (by rw [link, out_send])
  | close free link => exact .inl (by rw [link, out_close])
  | took free hused takes link => exact .inl (by rw [link, (exec_took s.link takes).1])
  | flushPong free run pc link => exact .inl (by rw [link, out_flushPong]; rfl)
  | ping free state link => exact .inl (by rw [link])

end Steps

end WebSocket.Net
