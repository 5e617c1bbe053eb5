import WebSocket.Net.Legal
import WebSocket.Lib.History

/-!
# What a step adds to the trace

A step adds at most one observation. `Noted` says which, and under which guard: the
events go out in the section of `emit` or `finish`, or when the link opens, and only
before it is closed.
-/

namespace WebSocket.Net

open Proto Lib.Transition

/-- The observations of a step `lab` from `s` to `s'` that runs the section `used`. -/
inductive Noted (cfg : Config) (s : Sys) (lab : Label) (s' : Sys) (used : List Op) : Obs → Prop where
  | returned {op payload r} : Noted cfg s lab s' used (.returned op payload r)
  | closeCalled {code reason} (hlab : lab = .call (.close code reason)) :
      Noted cfg s lab s' used (.closeCalled code reason)
  | event {e} (h : used = [.emit e]) (state : s.link.flags.state ≠ .closed) :
      Noted cfg s lab s' used (.event e (!s.link.hubClosed))
  | close {code reason} (h : used = [.finish code reason]) (state : s.link.flags.state ≠ .closed) :
      Noted cfg s lab s' used (.event (.close code reason) (!s.link.hubClosed))
  | opened {rest} (h : used = []) (task : s.task = .starting rest) (state : s.link.flags.state = .connecting) :
      Noted cfg s lab s' used (.event .opened (!s.link.hubClosed))
  | cleared {out len} (h : used = []) (progress : s.link.out.progress cfg = some (out, some len)) :
      Noted cfg s lab s' used (.cleared len out.box.buffered)
  | decoded {m} (h : used = []) (pc : s'.rd.pc ≠ s.rd.pc) : Noted cfg s lab s' used (.decoded m)

section Trace

variable {cfg : Config} {s s' : Sys} {lab : Label} {used new : List Op}

theorem trace_send (cfg : Config) (l : Link) (op : UInt8) (payload : Bytes) :
    (l.send cfg op payload).trace = l.trace ∨
      ∃ why, (l.send cfg op payload).trace = l.trace ++ [.returned op payload (.error why)] ∧
        why ≠ "send buffer is full" := by
  rw [Link.send]
  split
  · exact .inr ⟨_, rfl, by split <;> decide⟩
  · split <;> exact .inl rfl

theorem trace_close (l : Link) (code : UInt16) (reason : Str) :
    (l.close code reason).1.trace = l.trace ++ [.closeCalled code reason] := by
  unfold Link.close
  dsimp only
  split <;> rfl

theorem trace_holdStep {l l' : Link} {key : Key} (h : l.holdStep cfg key = some l') :
    l'.trace = l.trace ∨ ∃ op payload r, l'.trace = l.trace ++ [.returned op payload r] := by
  obtain ⟨x, rest, -, rfl⟩ := Link.holdStep_some h
  cases x with
  | pushFrame kind op payload =>
    rw [Link.execSection]
    dsimp only
    split
    · exact .inr ⟨_, _, _, rfl⟩
    · exact .inl rfl
  | recheck op payload =>
    rw [Link.execSection]
    dsimp only
    split
    · exact .inl rfl
    · exact .inr ⟨_, _, _, rfl⟩
  | pushHeartbeat sent => exact .inl rfl
  | pushShutdown => exact .inl rfl
  | clearPong => exact .inl rfl
  | deferPong data => exact .inl rfl

/-- A section leaves no observation, or the event of `emit` or `finish`. -/
theorem trace_exec (cfg : Config) (l : Link) (op : Op) :
    (l.exec cfg op).1.trace = l.trace ∨
      ∃ e, (l.exec cfg op).1.trace = l.trace ++ [.event e (!l.hubClosed)] ∧ l.flags.state ≠ .closed ∧
        (op = .emit e ∨ ∃ code reason, op = .finish code reason ∧ e = .close code reason) := by
  cases op with
  | emit e =>
    rw [Link.exec]
    split
    · exact .inl rfl
    · rename_i hstate
      exact .inr ⟨e, rfl, hstate, .inl rfl⟩
  | finish code reason =>
    rw [Link.exec]
    split
    · exact .inl rfl
    · rename_i hstate
      exact .inr ⟨_, rfl, hstate, .inr ⟨code, reason, rfl, rfl⟩⟩
  | handle m =>
    left
    cases m with
    | ping data =>
      rw [Link.exec, Link.handle, Link.handlePing]
      split <;> rfl
    | close status =>
      rw [Link.exec, Link.handle, Link.closing]
      split <;> rfl
    | text data => rfl
    | binary data => rfl
    | pong data => rfl
  | violation f =>
    left
    rw [Link.exec, Link.violate]
    split <;> rfl
  | checkHub => exact .inl rfl
  | stopWriter => exact .inl rfl
  | setStopped => exact .inl rfl
  | shutdownIo => exact .inl rfl
  | endLink => exact .inl rfl
  | released => exact .inl rfl
  | deliver e => exact .inl rfl
  | deliverOpen e => exact .inl rfl
  | deliverNow e => exact .inl rfl

theorem noted_exec {op : Op} :
    (s.link.exec cfg op).1.trace = s.link.trace ∨
      ∃ o, (s.link.exec cfg op).1.trace = s.link.trace ++ [o] ∧ Noted cfg s lab s' [op] o := by
  rcases trace_exec cfg s.link op with h | ⟨e, h, hs, rfl | ⟨code, reason, rfl, rfl⟩⟩
  · exact .inl h
  · exact .inr ⟨_, h, .event rfl hs⟩
  · exact .inr ⟨_, h, .close rfl hs⟩

theorem trace_flushPong (l : Link) : l.flushPong.trace = l.trace := by
  unfold Link.flushPong
  dsimp only
  split
  · split <;> rfl
  · rfl

theorem Effect.trace (h : Effect cfg s lab s' used new) :
    s'.link.trace = s.link.trace ∨ ∃ o, s'.link.trace = s.link.trace ++ [o] ∧ Noted cfg s lab s' used o := by
  cases h with
  | env q => exact .inl q.trace
  | left q => exact .inl q.trace
  | sent free legal =>
    rcases trace_send cfg s.link _ _ with h | ⟨why, h, -⟩
    · exact .inl h
    · exact .inr ⟨_, h, .returned⟩
  | refused => exact .inr ⟨_, rfl, .returned⟩
  | close free valid short hlab => exact .inr ⟨_, trace_close .., .closeCalled hlab⟩
  | held h =>
    rcases trace_holdStep h with h | ⟨op, payload, r, h⟩
    · exact .inl h
    · exact .inr ⟨_, h, .returned⟩
  | execPool ops free => exact noted_exec
  | execReader run ops free => exact noted_exec
  | execWriter run ops free => exact noted_exec
  | opened task free state => exact .inr ⟨_, rfl, .opened rfl task state⟩
  | decoded run idle pc msg => exact .inr ⟨_, rfl, .decoded rfl (by rw [pc]; exact nofun)⟩
  | drain run idle pc h => exact .inr ⟨_, rfl, .cleared rfl h⟩
  | flushPong run idle pc free => exact .inl (trace_flushPong _)
  | _ => exact .inl rfl

/-! ## The events still to come -/

/-- The event a section will emit, now or after its delivery. -/
def Op.emits : Op → Option Event
  | .emit e | .deliver e | .deliverOpen e | .deliverNow e => some e
  | _ => none

/-- The events of decoded messages. -/
def Event.inbound : Event → Bool
  | .message _ _ | .ping _ | .pong _ => true
  | _ => false

/-- A section passes its event on; only the handling of a message brings a new one. -/
theorem exec_emits {l : Link} {op o : Op} {e : Event} (h : o ∈ (l.exec cfg op).2) (he : o.emits = some e) :
    op.emits = some e ∨ (∃ m, op = .handle m) ∧ e.inbound = true := by
  have none_of {P : Prop} [Decidable P] {a : Op} (h : o ∈ (if P then [] else [a])) : o = a := by
    split at h
    · cases h
    · exact List.mem_singleton.mp h
  cases op with
  | handle m =>
    refine .inr ⟨⟨m, rfl⟩, ?_⟩
    cases m with
    | text data => cases none_of h; cases he; rfl
    | binary data => cases none_of h; cases he; rfl
    | ping data =>
      rcases List.mem_cons.mp h with rfl | h
      · cases he
      · cases List.mem_singleton.mp h
        cases he
        rfl
    | pong data => cases none_of h; cases he; rfl
    | close status => cases List.mem_singleton.mp h; cases he
  | emit e' => cases List.mem_singleton.mp h; cases he
  | checkHub =>
    rw [Link.exec] at h
    split at h
    · cases List.mem_singleton.mp h
      cases he
    · cases h
  | finish code reason =>
    rw [Link.exec] at h
    split at h
    · cases h
    · simp only [List.mem_cons, List.not_mem_nil, or_false] at h
      rcases h with rfl | rfl | rfl <;> cases he
  | endLink => cases List.mem_singleton.mp h; cases he
  | deliver e' =>
    rw [Link.exec] at h
    split at h <;> cases List.mem_singleton.mp h <;> exact .inl he
  | deliverOpen e' =>
    rw [Link.exec] at h
    split at h
    · cases List.mem_singleton.mp h
      exact .inl he
    · cases h
  | deliverNow e' =>
    cases List.mem_singleton.mp h
    exact .inl he
  | violation f => cases List.mem_singleton.mp h; cases he
  | stopWriter => cases h
  | setStopped => cases h
  | shutdownIo => cases h
  | released => cases h

theorem Op.emits_of_plain {op : Op} (h : op.plain = true) {e : Event} (he : op.emits = some e) :
    ∃ text, e = .error text := by
  cases op with
  | emit e' =>
    cases he
    cases e with
    | error text => exact ⟨text, rfl⟩
    | _ => cases h
  | _ => cases h <;> cases he

end Trace

end WebSocket.Net
