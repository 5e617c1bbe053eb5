import WebSocket.Net.Effects

/-!
# What the threads leave to each other

A field of the link that is no part of `flags`, the queue, the heartbeats' cells or the trace can
only change by a section that is about it, or from outside: time passes, the transport is active,
the hub closes, the application consumes an event. `Untouched.step` says so once, for any such
field.

And there are sections that only the reader runs: the application, the writer and the network task
start none but those that report an error or end the link (`Sole`).
-/

namespace WebSocket.Net

open Proto Lib.Transition

/-- `f` does not look at what the functions under `flags`, the writer and the handshake change. -/
structure Untouched {β : Type} (f : Link → β) : Prop where
  flags : ∀ l x, f { l with flags := x } = f l
  hold : ∀ l x, f { l with hold := x } = f l
  out : ∀ l x, f { l with out := x } = f l
  trace : ∀ l x, f { l with trace := x } = f l
  cells : ∀ l x, f { l with cells := x } = f l
  ioShut : ∀ l x, f { l with ioShut := x } = f l

/-- The step ran the section `op` of one of the threads. -/
inductive Ran (cfg : Config) (s s' : Sys) (op : Op) : Prop where
  | reader {rest} (ops : s.rd.ops = op :: rest) (link : s'.link = (s.link.exec cfg op).1)
      (ops' : s'.rd.ops = (s.link.exec cfg op).2 ++ rest)
  | writer {rest} (ops : s.wr.ops = op :: rest) (link : s'.link = (s.link.exec cfg op).1)
  | pool {i rest} (ops : s.pool.getD i [] = op :: rest) (link : s'.link = (s.link.exec cfg op).1)

/-- Steps from outside the connection's own threads. -/
def Label.outer : Label → Bool
  | .call (.consumed _) | .closeHub | .tick _ | .activity _ => true
  | _ => false

namespace Untouched

variable {β : Type} {f : Link → β} {cfg : Config} (hf : Untouched f)

include hf

/-! ## Under `flags` -/

theorem send (l : Link) (op : UInt8) (payload : Bytes) : f (l.send cfg op payload) = f l := by
  rw [Link.send]
  split
  · exact hf.trace ..
  · split <;> exact hf.hold ..

theorem close (l : Link) (code : UInt16) (reason : Str) : f (l.close code reason).1 = f l := by
  have noted : f (l.note (.closeCalled code reason)) = f l := hf.trace ..
  unfold Link.close
  dsimp only
  split
  · exact noted
  · exact (hf.hold ..).trans ((hf.flags ..).trans noted)
  · exact noted

theorem execSection (l : Link) (key : Key) (x : Section) : f (l.execSection cfg key x).1 = f l := by
  cases x with
  | pushFrame kind op payload =>
    rw [Link.execSection]
    dsimp only
    split
    · exact (hf.trace ..).trans (hf.out ..)
    · exact hf.out ..
  | recheck op payload =>
    rw [Link.execSection]
    split
    · rfl
    · exact (hf.trace ..).trans (hf.out ..)
  | _ => exact hf.out ..

theorem holdStep {l l' : Link} {key : Key} (h : l.holdStep cfg key = some l') : f l' = f l := by
  obtain ⟨x, rest, -, rfl⟩ := Link.holdStep_some h
  exact (hf.hold ..).trans (hf.execSection ..)

theorem flushPong (l : Link) : f l.flushPong = f l := by
  unfold Link.flushPong
  dsimp only
  split
  · split
    · exact (hf.hold { l with out := l.out.setPong none } _).trans (hf.out l _)
    · exact hf.out ..
  · exact hf.out ..

/-! ## A step -/

variable {s s' : Sys} {lab : Label}

theorem call {c : Call} (h : s.call cfg c = some s') (hc : (Label.call c).outer = false) : f s'.link = f s.link := by
  have sendOp {op payload} (h : s.sendOp cfg op payload = some s') : f s'.link = f s.link := by
    rw [Sys.sendOp] at h
    split at h
    · cases h
      exact hf.send ..
    · cases h
  cases c with
  | send data binary =>
    rw [Sys.call] at h
    split at h
    · exact sendOp h
    · split at h
      · exact sendOp h
      · cases h
        exact hf.trace ..
  | sendText data bound => exact sendOp h
  | ping data =>
    rw [Sys.call] at h
    split at h
    · cases h
      exact hf.trace ..
    · exact sendOp h
  | close code reason =>
    rw [Sys.call] at h
    split at h
    · cases h
      rfl
    · split at h
      · cases h
      · cases h
        exact hf.close ..
  | terminate =>
    cases h
    rfl
  | consumed bytes => cases hc

theorem taskStep (h : s.taskStep = some s') : f s'.link = f s.link := by
  unfold Sys.taskStep at h
  repeat' split at h
  all_goals first
    | (cases h; rfl)
    | (cases h; exact hf.ioShut ..)
    | (cases h; exact (hf.trace { s.link with flags := _ } _).trans (hf.flags s.link _))
    | cases h

theorem readPc (h : s.readPc cfg = some s') : f s'.link = f s.link := by
  have pinged (hold : List Section) (cells : List (Option Instant)) :
      f { s.link with hold := hold, cells := cells } = f s.link :=
    (hf.cells { s.link with hold := hold } cells).trans (hf.hold s.link hold)
  unfold Sys.readPc Sys.dispatch Sys.sendPing Sys.beat at h
  dsimp only at h
  split at h
  all_goals repeat' split at h
  all_goals first
    | (cases h; rfl)
    | (cases h; exact hf.trace ..)
    | (cases h; exact pinged _ _)
    | cases h

theorem writePc (h : s.writePc cfg = some s') : f s'.link = f s.link := by
  unfold Sys.writePc Sys.swapBatch Sys.progress Sys.stampProbe at h
  dsimp only at h
  split at h
  all_goals repeat' split at h
  all_goals first
    | (cases h; rfl)
    | (cases h; exact hf.out ..)
    | (cases h; exact hf.cells ..)
    | (cases h; exact hf.flushPong ..)
    | (cases h; exact (hf.trace { s.link with out := _ } _).trans (hf.out s.link _))
    | (obtain ⟨out, -, rfl⟩ := Option.map_eq_some_iff.mp h; exact hf.out ..)
    | cases h

theorem step (h : s.step cfg lab = some s') (hlab : lab.outer = false) :
    f s'.link = f s.link ∨ ∃ op, Ran cfg s s' op := by
  have guarded {c : Prop} [Decidable c] {t : Sys} (h : (if c then some t else none) = some s') (ht : f t.link = f s.link) :
      f s'.link = f s.link := Sys.of_guarded (P := fun u => f u.link = f s.link) h ht
  cases lab with
  | call c => exact .inl (hf.call h hlab)
  | closeHub => cases hlab
  | tick d => cases hlab
  | activity inbound => cases hlab
  | hold key =>
    obtain ⟨l, hl, rfl⟩ := Option.map_eq_some_iff.mp h
    exact .inl (hf.holdStep hl)
  | pool i =>
    rw [Sys.step, Sys.poolStep] at h
    split at h
    · rename_i hstep
      obtain ⟨op, rest, hops, -, hl, -⟩ := opStep_some hstep
      cases h
      exact .inr ⟨op, .pool hops hl⟩
    · cases h
  | establish rest => exact .inl (guarded h (hf.out ..))
  | refuse error => exact .inl (guarded h rfl)
  | task => exact .inl (hf.taskStep h)
  | abandon => exact .inl (guarded h rfl)
  | reader =>
    have h := Sys.onRunning_some h
    unfold Sys.readerStep at h
    split at h
    · exact .inl (hf.readPc h)
    · split at h
      · rename_i hstep
        obtain ⟨op, rest, hops, -, hl, hops'⟩ := opStep_some hstep
        cases h
        exact .inr ⟨op, .reader hops hl hops'⟩
      · cases h
  | input bytes => exact .inl (guarded (Sys.onRunning_some h) rfl)
  | eof => exact .inl (guarded (Sys.onRunning_some h) rfl)
  | readError tls => exact .inl (guarded (Sys.onRunning_some h) rfl)
  | wake => exact .inl (guarded (Sys.onRunning_some h) rfl)
  | timer =>
    have h := Sys.onRunning_some h
    unfold Sys.timer at h
    repeat' split at h
    all_goals first | (cases h; exact .inl rfl) | cases h
  | haltReader =>
    have h := Sys.onRunning_some h
    unfold Sys.haltReader at h
    repeat' split at h
    all_goals first | (cases h; exact .inl rfl) | cases h
  | writer =>
    have h := Sys.onRunning_some h
    unfold Sys.writerStep at h
    split at h
    · exact .inl (hf.writePc h)
    · split at h
      · rename_i hstep
        obtain ⟨op, rest, hops, -, hl, -⟩ := opStep_some hstep
        cases h
        exact .inr ⟨op, .writer hops hl⟩
      · cases h
  | write n =>
    obtain ⟨-, h⟩ := Option.ite_none_right_eq_some.mp (Sys.onRunning_some h)
    split at h
    · cases h
      exact .inl (hf.out ..)
    · cases h
  | writeError => exact .inl (guarded (Sys.onRunning_some h) rfl)
  | shutOut => exact .inl (guarded (Sys.onRunning_some h) rfl)
  | haltWriter =>
    obtain ⟨-, h⟩ := Option.ite_none_right_eq_some.mp (Sys.onRunning_some h)
    split at h
    · cases h
      exact .inl rfl
    · split at h
      · cases h
        exact .inl rfl
      · cases h

end Untouched

/-! ## The reader's and the writer's own labels -/

/-- Steps of the reader. -/
def Label.reads : Label → Bool
  | .reader | .input _ | .eof | .readError _ | .wake | .timer | .haltReader => true
  | _ => false

/-- Only those move it. -/
theorem rd_step {cfg : Config} {s s' : Sys} {lab : Label} (h : s.step cfg lab = some s') (hlab : lab.reads = false) :
    s'.rd.pc = s.rd.pc ∧ s'.rd.ops = s.rd.ops := by
  have guarded {c : Prop} [Decidable c] {t : Sys} (h : (if c then some t else none) = some s') (ht : t.rd = s.rd) :
      s'.rd.pc = s.rd.pc ∧ s'.rd.ops = s.rd.ops := by
    rw [Sys.of_guarded (P := fun u => u.rd = s.rd) h ht]
    exact ⟨rfl, rfl⟩
  cases lab with
  | call c =>
    rw [Sys.step] at h
    unfold Sys.call Sys.sendOp at h
    repeat' split at h
    all_goals first | (cases h; exact ⟨rfl, rfl⟩) | cases h
  | closeHub => cases h; exact ⟨rfl, rfl⟩
  | tick d => cases h; exact ⟨rfl, rfl⟩
  | activity inbound => exact guarded h rfl
  | hold key =>
    obtain ⟨l, -, rfl⟩ := Option.map_eq_some_iff.mp h
    exact ⟨rfl, rfl⟩
  | pool i =>
    rw [Sys.step, Sys.poolStep] at h
    split at h
    · cases h
      exact ⟨rfl, rfl⟩
    · cases h
  | establish rest => exact guarded h rfl
  | refuse error => exact guarded h rfl
  | task =>
    rw [Sys.step] at h
    unfold Sys.taskStep at h
    repeat' split at h
    all_goals first | (cases h; exact ⟨rfl, rfl⟩) | cases h
  | abandon => exact guarded h rfl
  | reader => cases hlab
  | input bytes => cases hlab
  | eof => cases hlab
  | readError tls => cases hlab
  | wake => cases hlab
  | timer => cases hlab
  | haltReader => cases hlab
  | writer =>
    have h := Sys.onRunning_some h
    unfold Sys.writerStep Sys.writePc Sys.swapBatch Sys.progress at h
    dsimp only at h
    repeat' split at h
    all_goals first
      | (cases h; exact ⟨rfl, rfl⟩)
      | (obtain ⟨out, -, rfl⟩ := Option.map_eq_some_iff.mp h; exact ⟨rfl, rfl⟩)
      | cases h
  | write n =>
    obtain ⟨-, h⟩ := Option.ite_none_right_eq_some.mp (Sys.onRunning_some h)
    split at h
    · cases h
      exact ⟨rfl, rfl⟩
    · cases h
  | writeError => exact guarded (Sys.onRunning_some h) rfl
  | shutOut => exact guarded (Sys.onRunning_some h) rfl
  | haltWriter =>
    obtain ⟨-, h⟩ := Option.ite_none_right_eq_some.mp (Sys.onRunning_some h)
    repeat' split at h
    all_goals first | (cases h; exact ⟨rfl, rfl⟩) | cases h

/-- Steps of the writer. -/
def Label.writes : Label → Bool
  | .writer | .write _ | .writeError | .shutOut | .haltWriter => true
  | _ => false

/-- Only those move it. -/
theorem wr_step {cfg : Config} {s s' : Sys} {lab : Label} (h : s.step cfg lab = some s') (hlab : lab.writes = false) :
    s'.wr = s.wr := by
  have guarded {c : Prop} [Decidable c] {t : Sys} (h : (if c then some t else none) = some s') (ht : t.wr = s.wr) :
      s'.wr = s.wr := Sys.of_guarded (P := fun u => u.wr = s.wr) h ht
  cases lab with
  | call c =>
    rw [Sys.step] at h
    unfold Sys.call Sys.sendOp at h
    repeat' split at h
    all_goals first | (cases h; rfl) | cases h
  | closeHub => cases h; rfl
  | tick d => cases h; rfl
  | activity inbound => exact guarded h rfl
  | hold key =>
    obtain ⟨l, -, rfl⟩ := Option.map_eq_some_iff.mp h
    rfl
  | pool i =>
    rw [Sys.step, Sys.poolStep] at h
    split at h
    · cases h
      rfl
    · cases h
  | establish rest => exact guarded h rfl
  | refuse error => exact guarded h rfl
  | task =>
    rw [Sys.step] at h
    unfold Sys.taskStep at h
    repeat' split at h
    all_goals first | (cases h; rfl) | cases h
  | abandon => exact guarded h rfl
  | reader =>
    have h := Sys.onRunning_some h
    unfold Sys.readerStep Sys.readPc Sys.dispatch Sys.sendPing Sys.beat at h
    dsimp only at h
    repeat' split at h
    all_goals first | (cases h; rfl) | cases h
  | input bytes => exact guarded (Sys.onRunning_some h) rfl
  | eof => exact guarded (Sys.onRunning_some h) rfl
  | readError tls => exact guarded (Sys.onRunning_some h) rfl
  | wake => exact guarded (Sys.onRunning_some h) rfl
  | timer =>
    have h := Sys.onRunning_some h
    unfold Sys.timer at h
    repeat' split at h
    all_goals first | (cases h; rfl) | cases h
  | haltReader =>
    have h := Sys.onRunning_some h
    unfold Sys.haltReader at h
    repeat' split at h
    all_goals first | (cases h; rfl) | cases h
  | writer => cases hlab
  | write n => cases hlab
  | writeError => cases hlab
  | shutOut => cases hlab
  | haltWriter => cases hlab

/-- Where the reader waits. -/
def ReadPc.waits : ReadPc → Bool
  | .throttled | .read | .flushing _ => true
  | _ => false

/-- Its own step apart, they end a wait. -/
theorem woken_step {cfg : Config} {s s' : Sys} {lab : Label} (h : s.step cfg lab = some s') (hlab : lab.reads = true)
    (other : lab ≠ .reader) : s.rd.ops = [] ∧ s.rd.pc.waits = true := by
  have read {c : Prop} [Decidable c] {t : Sys} (h : (if s.rd.ops = [] ∧ c then some t else none) = some s')
      (hc : c → s.rd.pc.waits = true) : s.rd.ops = [] ∧ s.rd.pc.waits = true := by
    obtain ⟨⟨idle, why⟩, -⟩ := Option.ite_none_right_eq_some.mp h
    exact ⟨idle, hc why⟩
  cases lab with
  | reader => exact absurd rfl other
  | input bytes => exact read (Sys.onRunning_some h) fun why => by rw [why.1]; rfl
  | eof => exact read (Sys.onRunning_some h) fun why => by rw [why]; rfl
  | readError tls => exact read (Sys.onRunning_some h) fun why => by rw [why]; rfl
  | wake => exact read (Sys.onRunning_some h) fun why => by rcases why with pc | pc <;> rw [pc] <;> rfl
  | timer =>
    have h := Sys.onRunning_some h
    unfold Sys.timer at h
    split at h
    · cases h
    · refine ⟨Decidable.not_not.mp ‹_›, ?_⟩
      split at h
      · rw [‹s.rd.pc = _›]; rfl
      · rw [‹s.rd.pc = _›]; rfl
      · cases h
  | haltReader =>
    have h := Sys.onRunning_some h
    unfold Sys.haltReader at h
    split at h
    · cases h
    · refine ⟨Decidable.not_not.mp ‹_›, ?_⟩
      split at h
      · rw [‹s.rd.pc = _›]; rfl
      · rw [‹s.rd.pc = _›]; rfl
      · rw [‹s.rd.pc = _›]; rfl
      · cases h
  | _ => cases hlab

/-! ## The reader's own sections -/

/-- No thread but the reader runs a section with `P`. -/
structure Sole (P : Op → Bool) (s : Sys) : Prop where
  writer : ∀ op ∈ s.wr.ops, P op = false
  pool : ∀ op ∈ s.pool.flatten, P op = false

theorem close_plain (l : Link) (code : UInt16) (reason : Str) : ∀ op ∈ (l.close code reason).2, op.plain = true := by
  unfold Link.close
  dsimp only
  split
  · exact plain_fail _
  · exact fun _ h => by cases h
  · exact fun _ h => by cases h

theorem Writes.plain {s : Sys} {lab : Label} {wr : WriteLoop} {new : List Op} (h : Writes s lab wr new) : ∀ op ∈ new, op.plain = true := by
  cases h with
  | error => exact List.forall_mem_singleton.mpr rfl
  | hub => exact plain_terminate
  | _ => exact fun _ h => by cases h

namespace Sole

variable {P : Op → Bool} {cfg : Config} {s s' : Sys} {lab : Label} {used new : List Op}

theorem step (h : Sole P s) (plain : ∀ op, op.plain = true → P op = false) (drain : P (.emit .drain) = false)
    (exec : ∀ l op, P op = false → ∀ o ∈ (Link.exec cfg l op).2, P o = false) (he : Effect cfg s lab s' used new) :
    Sole P s' := by
  have spawned {ops : List Op} (hops : ∀ op ∈ ops, op.plain = true) :
      ∀ op ∈ (s.pool ++ [ops]).flatten, P op = false := by
    rw [List.flatten_append, List.flatten_singleton]
    exact List.forall_mem_append.mpr ⟨h.pool, fun op hop => plain op (hops op hop)⟩
  cases he with
  | close => exact ⟨h.writer, spawned (close_plain s.link _ _)⟩
  | terminate => exact ⟨h.writer, spawned plain_terminate⟩
  | left q stopped hub hplain => exact ⟨h.writer, spawned hplain⟩
  | @execPool i op rest ops free =>
    refine ⟨h.writer, fun o ho => ?_⟩
    have before (x : Op) (hx : x ∈ op :: rest) : P x = false :=
      h.pool x (List.mem_flatten.mpr ⟨_, List.mem_of_getElem? ops, hx⟩)
    obtain ⟨l, hl, ho⟩ := List.mem_flatten.mp ho
    rcases List.mem_or_eq_of_mem_set hl with hl | rfl
    · exact h.pool o (List.mem_flatten.mpr ⟨l, hl, ho⟩)
    · rcases List.mem_append.mp ho with ho | ho
      · exact exec _ _ (before op List.mem_cons_self) o ho
      · exact before o (List.mem_cons_of_mem _ ho)
  | @execWriter op rest run ops free =>
    have before (x : Op) (hx : x ∈ op :: rest) : P x = false := h.writer x (by rw [ops]; exact hx)
    refine ⟨List.forall_mem_append.mpr ⟨exec _ _ (before op List.mem_cons_self), fun o ho => ?_⟩, h.pool⟩
    exact before o (List.mem_cons_of_mem _ ho)
  | writing run idle hw =>
    refine ⟨fun o ho => plain o (hw.plain o ?_), h.pool⟩
    rw [← hw.ops_eq idle]
    exact ho
  | flushPong => exact ⟨List.forall_mem_singleton.mpr (plain _ rfl), h.pool⟩
  | drain => exact ⟨List.forall_mem_singleton.mpr drain, h.pool⟩
  | _ => exact ⟨h.writer, h.pool⟩

theorem of_reachable (plain : ∀ op, op.plain = true → P op = false) (drain : P (.emit .drain) = false)
    (exec : ∀ l op, P op = false → ∀ o ∈ (Link.exec cfg l op).2, P o = false)
    (h : Reachable (Sys.step cfg) (.init cfg) s) : Sole P s := by
  refine h.invariant ⟨by simp [Sys.init], by simp [Sys.init]⟩ ?_
  intro u l v hu hI hv
  obtain ⟨used, new, he⟩ := step_effect hv
  exact hI.step plain drain exec he

end Sole

end WebSocket.Net
