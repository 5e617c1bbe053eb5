import WebSocket.Net.Trace

/-!
# States and events of one connection

Many functions on different threads emit events and move the state, in sections that
interleave. `Lives` says what one step does to the state and the events together; the
order of events follows from it, with one fact about the sections in flight (`Sections`):
what can emit a message, a ping, a pong or a drain exists only once the link has opened.
-/

namespace WebSocket.Net

open Proto Lib.Transition Lib.History

/-- The event of an observation. -/
def Obs.event? : Obs → Option Event
  | .event e _ => some e
  | _ => none

/-- The event the hub took. -/
def Obs.accepted? : Obs → Option Event
  | .event e true => some e
  | _ => none

namespace Sys

/-- The events handed to the hub. -/
def handed (s : Sys) : List Event := s.link.trace.filterMap Obs.event?

/-- The events sent to the hub: those it did not refuse. -/
def sentEvents (s : Sys) : List Event := s.link.trace.filterMap Obs.accepted?

def state (s : Sys) : State := s.link.flags.state

end Sys

/-- What a step does to the state and the events. -/
inductive Lives (s s' : Sys) (used : List Op) : Prop where
  | keeps (state : s'.state = s.state) {t : List Obs} (trace : s'.link.trace = s.link.trace ++ t)
      (quiet : ∀ o ∈ t, o.event? = none)
  | emits {e : Event} (op : used = [.emit e]) (state : s'.state = s.state) (alive : s.state ≠ .closed)
      (trace : s'.link.trace = s.link.trace ++ [.event e (!s.link.hubClosed)])
  | opens {rest : Bytes} (task : s.task = .starting rest) (state : s.state = .connecting) (state' : s'.state = .opened)
      (trace : s'.link.trace = s.link.trace ++ [.event .opened (!s.link.hubClosed)])
  | closes (alive : s.state ≠ .closed) (state' : s'.state = .closing)
      (why : (∃ op ∈ used, op.takes = true) ∨ s.state = .opened)
      {t : List Obs} (trace : s'.link.trace = s.link.trace ++ t) (quiet : ∀ o ∈ t, o.event? = none)
  | finishes {code : UInt16} {reason : Str} (op : used = [.finish code reason]) (alive : s.state ≠ .closed)
      (state' : s'.state = .closed)
      (trace : s'.link.trace = s.link.trace ++ [.event (.close code reason) (!s.link.hubClosed)])

section Steps

variable {cfg : Config} {s s' : Sys} {lab : Label} {used new : List Op}

theorem Lives.quiet (state : s'.state = s.state) (trace : s'.link.trace = s.link.trace) : Lives s s' used :=
  .keeps state (t := []) (by simpa using trace) fun _ h => nomatch h

theorem Lives.noted {o : Obs} (state : s'.state = s.state) (trace : s'.link.trace = s.link.trace ++ [o])
    (h : o.event? = none) : Lives s s' used :=
  .keeps state trace (List.forall_mem_singleton.mpr h)

theorem lives_exec {op : Op} (hl : s'.link = (s.link.exec cfg op).1) : Lives s s' [op] := by
  have closes (op : Op) (takes : op.takes = true) (alive : s.state ≠ .closed) (st : s'.link.flags.state = .closing)
      (tr : s'.link.trace = s.link.trace) : Lives s s' [op] :=
    .closes alive st (.inl ⟨op, List.mem_singleton_self op, takes⟩) (t := []) (by simpa using tr) fun _ h => nomatch h
  cases op with
  | emit e =>
    rw [Link.exec] at hl
    dsimp only at hl
    split at hl
    · exact .quiet (by rw [Sys.state, hl]; rfl) (by rw [hl])
    · rename_i alive
      exact .emits rfl (by rw [Sys.state, hl]; rfl) alive (by rw [hl]; rfl)
  | finish code reason =>
    rw [Link.exec] at hl
    split at hl
    · exact .quiet (by rw [Sys.state, hl]; rfl) (by rw [hl])
    · rename_i alive
      exact .finishes rfl alive (by rw [Sys.state, hl]; rfl) (by rw [hl]; rfl)
  | handle m =>
    cases m with
    | ping data =>
      rw [Link.exec, Link.handle, Link.handlePing] at hl
      dsimp only at hl
      split at hl <;> exact .quiet (by rw [Sys.state, hl]; rfl) (by rw [hl])
    | close status =>
      rw [Link.exec, Link.handle, Link.closing] at hl
      dsimp only at hl
      split at hl
      · exact .quiet (by rw [Sys.state, hl]; rfl) (by rw [hl])
      · rename_i h
        exact closes _ rfl (fun hc => h (.inl hc)) (by rw [hl]) (by rw [hl])
    | text data => exact .quiet (by rw [Sys.state, hl]; rfl) (by rw [hl]; rfl)
    | binary data => exact .quiet (by rw [Sys.state, hl]; rfl) (by rw [hl]; rfl)
    | pong data => exact .quiet (by rw [Sys.state, hl]; rfl) (by rw [hl]; rfl)
  | violation f =>
    rw [Link.exec, Link.violate] at hl
    dsimp only at hl
    split at hl
    · exact .quiet (by rw [Sys.state, hl]; rfl) (by rw [hl])
    · rename_i alive
      exact closes _ rfl alive (by rw [hl]) (by rw [hl])
  | checkHub => exact .quiet (by rw [Sys.state, hl]; rfl) (by rw [hl]; rfl)
  | stopWriter => exact .quiet (by rw [Sys.state, hl]; rfl) (by rw [hl]; rfl)
  | setStopped => exact .quiet (by rw [Sys.state, hl]; rfl) (by rw [hl]; rfl)
  | shutdownIo => exact .quiet (by rw [Sys.state, hl]; rfl) (by rw [hl]; rfl)
  | endLink => exact .quiet (by rw [Sys.state, hl]; rfl) (by rw [hl]; rfl)
  | released => exact .quiet (by rw [Sys.state, hl]; rfl) (by rw [hl]; rfl)
  | deliver e => exact .quiet (by rw [Sys.state, hl]; rfl) (by rw [hl]; rfl)
  | deliverOpen e => exact .quiet (by rw [Sys.state, hl]; rfl) (by rw [hl]; rfl)
  | deliverNow e => exact .quiet (by rw [Sys.state, hl]; rfl) (by rw [hl]; rfl)

theorem flags_execSection (l : Link) (key : Key) (x : Section) : (l.execSection cfg key x).1.flags = l.flags := by
  cases x with
  | pushFrame kind op payload =>
    rw [Link.execSection]
    dsimp only
    split <;> rfl
  | recheck op payload =>
    rw [Link.execSection]
    split <;> rfl
  | pushHeartbeat sent => rfl
  | pushShutdown => rfl
  | clearPong => rfl
  | deferPong data => rfl

theorem flags_holdStep {l l' : Link} {key : Key} (h : l.holdStep cfg key = some l') : l'.flags = l.flags := by
  obtain ⟨x, rest, -, rfl⟩ := Link.holdStep_some h
  exact flags_execSection ..

theorem flags_flushPong (l : Link) : l.flushPong.flags = l.flags := by
  unfold Link.flushPong
  dsimp only
  split
  · split <;> rfl
  · rfl

theorem flags_send (cfg : Config) (l : Link) (op : UInt8) (payload : Bytes) :
    (l.send cfg op payload).flags = l.flags := by
  rw [Link.send]
  split
  · rfl
  · split <;> rfl

theorem lives_close {code : UInt16} {reason : Str} (hl : s'.link = (s.link.close code reason).1) : Lives s s' [] := by
  have tr : s'.link.trace = s.link.trace ++ [.closeCalled code reason] := by rw [hl, trace_close]
  unfold Link.close at hl
  dsimp only at hl
  split at hl
  · exact .noted (by rw [Sys.state, hl]; rfl) tr rfl
  · rename_i hopen
    have ho : s.state = .opened := hopen
    exact .closes (by rw [ho]; decide) (by rw [Sys.state, hl]) (.inr ho) tr (List.forall_mem_singleton.mpr rfl)
  · exact .noted (by rw [Sys.state, hl]; rfl) tr rfl

theorem Effect.lives (h : Effect cfg s lab s' used new) : Lives s s' used := by
  cases h with
  | env q => exact .quiet (by rw [Sys.state, q.flags]; rfl) q.trace
  | left q => exact .quiet (by rw [Sys.state, Sys.spawn, q.flags]; rfl) q.trace
  | @sent op payload free legal =>
    have st : (s.link.send cfg op payload).flags.state = s.state := by rw [flags_send]; rfl
    rcases trace_send cfg s.link _ _ with h | ⟨why, h, -⟩
    · exact .quiet st h
    · exact .noted st h rfl
  | refused => exact .noted rfl rfl rfl
  | close => exact lives_close rfl
  | held h =>
    have st : Sys.state { s with link := _ } = s.state := congrArg Flags.state (flags_holdStep h)
    rcases trace_holdStep h with h | ⟨op, payload, r, h⟩
    · exact .quiet st h
    · exact .noted st h rfl
  | execPool ops free => exact lives_exec rfl
  | execReader run ops free => exact lives_exec rfl
  | execWriter run ops free => exact lives_exec rfl
  | opened task free state => exact .opens task state rfl rfl
  | decoded => exact .noted rfl rfl rfl
  | drain => exact .noted rfl rfl rfl
  | flushPong => exact .quiet (congrArg Flags.state (flags_flushPong _)) (trace_flushPong _)
  | _ => exact .quiet rfl rfl

/-! ## Sections in flight -/

/-- The section takes in a message, or will emit an event of an open link. -/
def Op.Loud (op : Op) : Prop := op.takes = true ∨ ∃ e, op.emits = some e ∧ (e.inbound = true ∨ e = .drain)

/-- Events that `emit` never carries. -/
def Event.edge : Event → Bool
  | .opened | .close _ _ => true
  | _ => false

theorem Op.not_loud_of_plain {op : Op} (h : op.plain = true) : ¬ op.Loud := by
  rintro (ht | ⟨e, he, hl⟩)
  · rw [Op.takes_of_plain h] at ht
    cases ht
  · obtain ⟨text, rfl⟩ := Op.emits_of_plain h he
    rcases hl with hl | hl <;> cases hl

theorem loud_exec {l : Link} {op o : Op} (h : o ∈ (l.exec cfg op).2) (hl : o.Loud) : op.Loud := by
  rcases hl with ht | ⟨e, he, hl⟩
  · rw [exec_takes l op o h] at ht
    cases ht
  · rcases exec_emits h he with h' | ⟨⟨m, rfl⟩, -⟩
    · exact .inr ⟨e, h', hl⟩
    · exact .inl rfl

theorem edge_exec {l : Link} {op o : Op} {e : Event} (h : o ∈ (l.exec cfg op).2) (he : o.emits = some e)
    (hl : e.edge = true) : op.emits = some e := by
  rcases exec_emits h he with h' | ⟨-, h'⟩
  · exact h'
  · cases e <;> first | exact absurd h' Bool.false_ne_true | exact absurd hl Bool.false_ne_true

theorem edge_plain {op : Op} {e : Event} (h : op.plain = true) (he : op.emits = some e) : e.edge = false := by
  obtain ⟨text, rfl⟩ := Op.emits_of_plain h he
  rfl

/-- A loud section is started by a loud one, or by the reader or the writer. -/
theorem Effect.new_loud (h : Effect cfg s lab s' used new) :
    ∀ o ∈ new, o.Loud → s.task = .running ∨ ∃ op ∈ used, op.Loud := by
  have plain {ops : List Op} (hp : ∀ op ∈ ops, op.plain = true) {P : Prop} : ∀ o ∈ ops, o.Loud → P :=
    fun o ho hl => absurd hl (Op.not_loud_of_plain (hp o ho))
  have exec (op : Op) : ∀ o ∈ (s.link.exec cfg op).2, o.Loud → s.task = .running ∨ ∃ op' ∈ [op], op'.Loud :=
    fun o ho hl => .inr ⟨op, List.mem_singleton_self op, loud_exec ho hl⟩
  cases h with
  | close =>
    unfold Link.close
    dsimp only
    split
    · exact plain (plain_fail _)
    · exact fun _ h => nomatch h
    · exact fun _ h => nomatch h
  | terminate => exact plain plain_terminate
  | left q stopped hub hp => exact plain hp
  | execPool ops free => exact exec _
  | execReader run ops free => exact exec _
  | execWriter run ops free => exact exec _
  | reading run => exact fun _ _ _ => .inl run
  | decoded run => exact fun _ _ _ => .inl run
  | failed run => exact fun _ _ _ => .inl run
  | ping run => exact fun _ _ _ => .inl run
  | writing run => exact fun _ _ _ => .inl run
  | flushPong run => exact fun _ _ _ => .inl run
  | drain run => exact fun _ _ _ => .inl run
  | _ => exact fun _ h => nomatch h

/-- `opened` and `close` are never left to a section of `emit`. -/
theorem Effect.new_edge (h : Effect cfg s lab s' used new) {e : Event} (hl : e.edge = true) :
    ∀ o ∈ new, o.emits = some e → ∃ op ∈ used, op.emits = some e := by
  have plain {ops : List Op} (hp : ∀ op ∈ ops, op.plain = true) {P : Prop} : ∀ o ∈ ops, o.emits = some e → P :=
    fun o ho he => absurd (edge_plain (hp o ho) he) (by simp [hl])
  have exec (op : Op) : ∀ o ∈ (s.link.exec cfg op).2, o.emits = some e → ∃ op' ∈ [op], op'.emits = some e :=
    fun o ho he => ⟨op, List.mem_singleton_self op, edge_exec ho he hl⟩
  have nothing : ∀ o ∈ ([] : List Op), o.emits = some e → ∃ op ∈ ([] : List Op), op.emits = some e :=
    fun _ h => nomatch h
  cases h with
  | close =>
    unfold Link.close
    dsimp only
    split
    · exact plain (plain_fail _)
    · exact nothing
    · exact nothing
  | terminate => exact plain plain_terminate
  | left q stopped hub hp => exact plain hp
  | execPool ops free => exact exec _
  | execReader run ops free => exact exec _
  | execWriter run ops free => exact exec _
  | reading run idle h =>
    cases h with
    | hub => exact plain plain_terminate
    | ending => exact List.forall_mem_singleton.mpr fun he => nomatch he
    | error pc hlab hp => exact plain hp
    | dead => exact plain (plain_fail _)
    | _ => exact nothing
  | writing run idle h =>
    cases h with
    | hub => exact plain plain_terminate
    | error => exact List.forall_mem_singleton.mpr fun he => nomatch he
    | _ => exact nothing
  | decoded => exact List.forall_mem_singleton.mpr fun he => nomatch he
  | failed =>
    refine List.forall_mem_cons.mpr ⟨fun he => ?_, List.forall_mem_singleton.mpr fun he => nomatch he⟩
    cases he
    cases hl
  | ping => exact List.forall_mem_singleton.mpr fun he => nomatch he
  | flushPong => exact List.forall_mem_singleton.mpr fun he => nomatch he
  | drain =>
    refine List.forall_mem_singleton.mpr fun he => ?_
    cases he
    cases hl
  | _ => exact nothing

/-- The link opened and its task goes on. -/
def Task.underway : Task → Bool
  | .opening _ | .running => true
  | _ => false

theorem Effect.underway (h : Effect cfg s lab s' used new) (ht : s'.task.underway = true) :
    s.task.underway = true ∨ s'.state ≠ .connecting := by
  cases h with
  | opened => exact .inr nofun
  | started task => exact .inl (by rw [task]; rfl)
  | connected => cases ht
  | left => cases ht
  | _ => exact .inl ht

theorem Lives.left_connecting (h : Lives s s' used) (hs : s.state ≠ .connecting) : s'.state ≠ .connecting := by
  cases h with
  | keeps state => rwa [state]
  | emits op state => rwa [state]
  | opens task state => exact absurd state hs
  | closes alive state' => rw [state']; exact nofun
  | finishes op alive state' => rw [state']; exact nofun

theorem Lives.rank_le (h : Lives s s' used) : s.state.rank ≤ s'.state.rank := by
  cases h with
  | keeps state => rw [state]
  | emits op state => rw [state]
  | opens task state state' => rw [state, state']; decide
  | closes alive state' =>
    rw [state']
    revert alive
    cases s.state <;> decide
  | finishes op alive state' =>
    rw [state']
    cases s.state <;> decide

/-- Before the link opens nothing waits that would show it open, and no waiting section opens or
closes it by an event. -/
structure Sections (s : Sys) : Prop where
  loud : ∀ op ∈ s.ops, op.Loud → s.state ≠ .connecting
  edge : ∀ op ∈ s.ops, ∀ e, op.emits = some e → e.edge = false
  task : s.task.underway = true → s.state ≠ .connecting

theorem Sections.step (h : Sections s) (he : Effect cfg s lab s' used new) : Sections s' := by
  have away := he.lives.left_connecting
  refine ⟨fun op hop hl => ?_, fun op hop e hem => ?_, fun ht => ?_⟩
  · rcases he.mem_ops hop with hop | hop
    · exact away (h.loud op hop hl)
    · rcases he.new_loud op hop hl with run | ⟨o, ho, hl⟩
      · exact away (h.task (by rw [run]; rfl))
      · exact away (h.loud o (he.used_mem ho) hl)
  · rcases he.mem_ops hop with hop | hop
    · exact h.edge op hop e hem
    · refine Bool.eq_false_iff.mpr fun hed => ?_
      obtain ⟨o, ho, heo⟩ := he.new_edge hed op hop hem
      exact absurd (h.edge o (he.used_mem ho) e heo) (by simp [hed])
  · rcases he.underway ht with hu | hu
    · exact away (h.task hu)
    · exact hu

theorem Sections.of_reachable (h : Reachable (Sys.step cfg) (.init cfg) s) : Sections s := by
  refine h.invariant ⟨fun _ h => (nomatch h), fun _ h => (nomatch h), fun h => (nomatch h)⟩ ?_
  intro u l v hu hI hv
  obtain ⟨used, new, he⟩ := step_effect hv
  exact hI.step he

end Steps

/-! ## The order of events -/

/-- The events of an open link. -/
def Event.lively (e : Event) : Prop := e.inbound = true ∨ e = .drain

def Event.isClose : Event → Bool
  | .close _ _ => true
  | _ => false

/-- How events follow each other. -/
structure Orderly (es : List Event) : Prop where
  opened_once : es.count .opened ≤ 1
  opened_first : ∀ a e b, es = a ++ e :: b → e.lively → .opened ∈ a
  close_last : ∀ a e b, es = a ++ e :: b → e.isClose = true → b = []

namespace Orderly

variable {es t : List Event} {e : Event}

theorem of_append (h : Orderly (es ++ t)) : Orderly es := by
  refine ⟨?_, fun a e b heq he => ?_, fun a e b heq he => ?_⟩
  · exact ((List.sublist_append_left es t).count_le _).trans h.opened_once
  · exact h.opened_first a e (b ++ t) (by simp [heq]) he
  · exact (List.append_eq_nil_iff.mp (h.close_last a e (b ++ t) (by simp [heq]) he)).1

/-- Only the last event can be a close. -/
theorem not_isClose_of_snoc (h : Orderly (es ++ [e])) : ∀ x ∈ es, x.isClose = false := by
  intro x hx
  obtain ⟨a, b, rfl⟩ := List.append_of_mem hx
  refine Bool.eq_false_iff.mpr fun hc => ?_
  have hb := h.close_last a x (b ++ [e]) (by simp) hc
  exact absurd hb (by simp)

theorem countP_isClose_le (h : Orderly es) : es.countP Event.isClose ≤ 1 := by
  rcases List.eq_nil_or_concat es with rfl | ⟨d, z, rfl⟩
  · exact Nat.zero_le 1
  · rw [List.concat_eq_append] at h ⊢
    have hd : d.countP Event.isClose = 0 := by
      rw [List.countP_eq_zero]
      intro x hx
      simp [h.not_isClose_of_snoc x hx]
    rw [List.countP_append, hd, Nat.zero_add]
    exact List.countP_le_length

theorem snoc (h : Orderly es) (open_ : .opened ∈ es → e ≠ .opened) (lively : e.lively → .opened ∈ es)
    (alive : ∀ x ∈ es, x.isClose = false) : Orderly (es ++ [e]) := by
  refine ⟨?_, fun a x b heq hx => ?_, fun a x b heq hx => ?_⟩
  · rw [List.count_append]
    by_cases ho : .opened ∈ es
    · have : List.count Event.opened [e] = 0 := List.count_eq_zero.mpr (by simpa using (open_ ho).symm)
      rw [this]
      exact h.opened_once
    · rw [List.count_eq_zero.mpr ho, Nat.zero_add]
      exact List.count_le_length
  · rcases snoc_cases heq with ⟨rfl, rfl⟩ | ⟨d, hd⟩
    · exact lively hx
    · exact h.opened_first a x d hd hx
  · rcases List.eq_nil_or_concat b with rfl | ⟨d, z, rfl⟩
    · rfl
    · rcases split_snoc (b := d) (c := []) (by simpa using heq) with ⟨-, -, hd⟩ | ⟨_, hc, -⟩
      · have := alive x (by rw [hd]; simp)
        exact absurd hx (by simp [this])
      · exact absurd hc (by simp)

end Orderly

/-- What a link has handed to the hub, by its state. -/
structure Handed (s : Sys) : Prop where
  orderly : Orderly s.handed
  early : s.state = .connecting → .opened ∉ s.handed
  lively : s.state = .opened ∨ s.state = .closing → .opened ∈ s.handed
  closed : s.state = .closed ↔ ∃ e ∈ s.handed, e.isClose = true

namespace Handed

variable {cfg : Config} {s s' : Sys} {lab : Label} {used new : List Op}

theorem alive (h : Handed s) (hs : s.state ≠ .closed) : ∀ e ∈ s.handed, e.isClose = false := by
  intro e he
  exact Bool.eq_false_iff.mpr fun hc => hs (h.closed.mpr ⟨e, he, hc⟩)

theorem opened_mem (h : Handed s) (h1 : s.state ≠ .connecting) (h2 : s.state ≠ .closed) : .opened ∈ s.handed := by
  refine h.lively ?_
  revert h1 h2
  cases s.state <;> simp

theorem handed_append {t : List Obs} (h : s'.link.trace = s.link.trace ++ t) :
    s'.handed = s.handed ++ t.filterMap Obs.event? := by
  rw [Sys.handed, h, List.filterMap_append, Sys.handed]

theorem handed_quiet {t : List Obs} (h : s'.link.trace = s.link.trace ++ t) (quiet : ∀ o ∈ t, o.event? = none) :
    s'.handed = s.handed := by
  rw [handed_append h, List.filterMap_eq_nil_iff.mpr quiet, List.append_nil]

theorem step (h : Handed s) (hsec : Sections s) (he : Effect cfg s lab s' used new) : Handed s' := by
  cases he.lives with
  | keeps state trace quiet =>
    have hh := handed_quiet trace quiet
    exact ⟨hh ▸ h.orderly, by rw [state, hh]; exact h.early, by rw [state, hh]; exact h.lively,
      by rw [state, hh]; exact h.closed⟩
  | @emits e op state alive trace =>
    have hmem : Op.emit e ∈ s.ops := he.used_mem (by rw [op]; exact List.mem_singleton_self _)
    have hedge := hsec.edge _ hmem e rfl
    have hh : s'.handed = s.handed ++ [e] := handed_append trace
    have hno : e ≠ .opened := by rintro rfl; cases hedge
    have hnc : e.isClose = false := by cases e <;> first | rfl | cases hedge
    refine ⟨?_, ?_, ?_, ?_⟩
    · rw [hh]
      refine h.orderly.snoc (fun _ => hno) (fun hl => ?_) (h.alive alive)
      exact h.opened_mem (hsec.loud _ hmem (.inr ⟨e, rfl, hl⟩)) alive
    · rw [state, hh]
      intro hc
      simpa [Ne.symm hno] using h.early hc
    · rw [state, hh]
      exact fun ho => List.mem_append_left _ (h.lively ho)
    · rw [state, hh]
      simpa [hnc, or_and_right, exists_or] using h.closed
  | opens task state state' trace =>
    have hh : s'.handed = s.handed ++ [.opened] := handed_append trace
    have halive := h.alive (by rw [state]; exact nofun)
    refine ⟨?_, by rw [state']; exact nofun, fun _ => by rw [hh]; simp, ?_⟩
    · rw [hh]
      exact h.orderly.snoc (fun ho => absurd ho (h.early state)) (by rintro (h | h) <;> cases h) halive
    · rw [state', hh]
      refine ⟨nofun, ?_⟩
      rintro ⟨e, hm, hc⟩
      rcases List.mem_append.mp hm with hm | hm
      · exact absurd hc (by simp [halive e hm])
      · cases List.mem_singleton.mp hm
        cases hc
  | closes alive state' why trace quiet =>
    have hh := handed_quiet trace quiet
    have hcon : s.state ≠ .connecting := by
      rcases why with ⟨op, hop, ht⟩ | ho
      · exact hsec.loud op (he.used_mem hop) (.inl ht)
      · rw [ho]; exact nofun
    refine ⟨hh ▸ h.orderly, by rw [state']; exact nofun, fun _ => hh ▸ h.opened_mem hcon alive, ?_⟩
    rw [state', hh, ← h.closed]
    exact ⟨nofun, fun hc => absurd hc alive⟩
  | finishes op alive state' trace =>
    have hh := handed_append trace
    refine ⟨?_, by rw [state']; exact nofun, (by rw [state']; rintro (h | h) <;> cases h), ?_⟩
    · rw [hh]
      exact h.orderly.snoc (fun _ => nofun) (by rintro (h | h) <;> cases h) (h.alive alive)
    · rw [state', hh]
      exact ⟨fun _ => ⟨_, List.mem_append_right _ (List.mem_singleton_self _), rfl⟩, fun _ => rfl⟩

theorem of_reachable (h : Reachable (Sys.step cfg) (.init cfg) s) : Handed s := by
  have nil : Handed (.init cfg) := by
    refine ⟨⟨Nat.zero_le 1, ?_, ?_⟩, fun _ => (nomatch ·), (by rintro (h | h) <;> cases h), nofun, ?_⟩
    · intro a e b h
      exact absurd h (by simp [Sys.handed, Sys.init, Link.new])
    · intro a e b h
      exact absurd h (by simp [Sys.handed, Sys.init, Link.new])
    · rintro ⟨e, he, -⟩
      cases he
  refine h.invariant nil ?_
  intro u l v hu hI hv
  obtain ⟨used, new, he⟩ := step_effect hv
  exact hI.step (.of_reachable hu) he

end Handed

/-! ## The hub -/

section Hub

variable {cfg : Config} {s s' : Sys} {lab : Label} {used new : List Op}

/-- The hub's end and the heartbeats' cells: no function under `flags` touches them. -/
structure Link.Steady (l l' : Link) : Prop where
  hub : l'.hubClosed = l.hubClosed
  cells : l'.cells = l.cells

theorem steady_exec (l : Link) (op : Op) : l.Steady (l.exec cfg op).1 := by
  cases op with
  | emit e => rw [Link.exec]; dsimp only; split <;> exact ⟨rfl, rfl⟩
  | finish code reason => rw [Link.exec]; split <;> exact ⟨rfl, rfl⟩
  | handle m =>
    cases m with
    | ping data => rw [Link.exec, Link.handle, Link.handlePing]; dsimp only; split <;> exact ⟨rfl, rfl⟩
    | close status => rw [Link.exec, Link.handle, Link.closing]; dsimp only; split <;> exact ⟨rfl, rfl⟩
    | _ => exact ⟨rfl, rfl⟩
  | violation f => rw [Link.exec, Link.violate]; dsimp only; split <;> exact ⟨rfl, rfl⟩
  | _ => exact ⟨rfl, rfl⟩

theorem steady_send (l : Link) (op : UInt8) (payload : Bytes) : l.Steady (l.send cfg op payload) := by
  rw [Link.send]
  split
  · exact ⟨rfl, rfl⟩
  · split <;> exact ⟨rfl, rfl⟩

theorem steady_close (l : Link) (code : UInt16) (reason : Str) : l.Steady (l.close code reason).1 := by
  unfold Link.close
  dsimp only
  split <;> exact ⟨rfl, rfl⟩

theorem steady_holdStep {l l' : Link} {key : Key} (h : l.holdStep cfg key = some l') : l.Steady l' := by
  obtain ⟨x, rest, -, rfl⟩ := Link.holdStep_some h
  cases x with
  | pushFrame => rw [Link.execSection]; dsimp only; split <;> exact ⟨rfl, rfl⟩
  | recheck => rw [Link.execSection]; dsimp only; split <;> exact ⟨rfl, rfl⟩
  | _ => exact ⟨rfl, rfl⟩

theorem steady_flushPong (l : Link) : l.Steady l.flushPong := by
  unfold Link.flushPong
  dsimp only
  split
  · split <;> exact ⟨rfl, rfl⟩
  · exact ⟨rfl, rfl⟩

theorem Effect.hubClosed (h : Effect cfg s lab s' used new) (hlab : lab ≠ .closeHub) :
    s'.link.hubClosed = s.link.hubClosed := by
  cases h with
  | env q stopped hub => exact hub hlab
  | left q stopped hub => exact hub
  | sent => exact (steady_send ..).hub
  | close => exact (steady_close ..).hub
  | held h => exact (steady_holdStep h).hub
  | flushPong => exact (steady_flushPong _).hub
  | execPool => exact (steady_exec ..).hub
  | execReader => exact (steady_exec ..).hub
  | execWriter => exact (steady_exec ..).hub
  | _ => rfl

theorem hubClosed_step (h : s.step cfg lab = some s') (hs : s.link.hubClosed = true) : s'.link.hubClosed = true := by
  by_cases hlab : lab = .closeHub
  · cases hlab
    cases h
    rfl
  · obtain ⟨used, new, he⟩ := step_effect h
    rw [he.hubClosed hlab, hs]

/-- The hub takes every event until it is gone, and none after that. -/
structure Taken (s : Sys) : Prop where
  isPrefix : s.sentEvents <+: s.handed
  all : s.link.hubClosed = false → s.sentEvents = s.handed

theorem Lives.events (h : Lives s s' used) :
    s'.handed = s.handed ∧ s'.sentEvents = s.sentEvents ∨
      ∃ e, s'.handed = s.handed ++ [e] ∧
        s'.sentEvents = s.sentEvents ++ (if s.link.hubClosed then [] else [e]) := by
  have quiet {t : List Obs} (trace : s'.link.trace = s.link.trace ++ t) (quiet : ∀ o ∈ t, o.event? = none) :
      s'.handed = s.handed ∧ s'.sentEvents = s.sentEvents := by
    refine ⟨Handed.handed_quiet trace quiet, ?_⟩
    have : t.filterMap Obs.accepted? = [] := by
      refine List.filterMap_eq_nil_iff.mpr fun o ho => ?_
      have := quiet o ho
      cases o <;> first | rfl | cases this
    rw [Sys.sentEvents, trace, List.filterMap_append, this, List.append_nil, Sys.sentEvents]
  have event {e : Event} (trace : s'.link.trace = s.link.trace ++ [.event e (!s.link.hubClosed)]) :
      s'.handed = s.handed ++ [e] ∧ s'.sentEvents = s.sentEvents ++ (if s.link.hubClosed then [] else [e]) := by
    refine ⟨Handed.handed_append trace, ?_⟩
    rw [Sys.sentEvents, trace, List.filterMap_append, Sys.sentEvents]
    cases s.link.hubClosed <;> rfl
  cases h with
  | keeps state trace hq => exact .inl (quiet trace hq)
  | closes alive state' why trace hq => exact .inl (quiet trace hq)
  | emits op state alive trace => exact .inr ⟨_, event trace⟩
  | opens task state state' trace => exact .inr ⟨_, event trace⟩
  | finishes op alive state' trace => exact .inr ⟨_, event trace⟩

theorem Taken.step (h : Taken s) (hl : Lives s s' used) (hub : s.link.hubClosed = true → s'.link.hubClosed = true) :
    Taken s' := by
  have before (hf : s'.link.hubClosed = false) : s.link.hubClosed = false :=
    Bool.eq_false_iff.mpr fun ht => Bool.eq_false_iff.mp hf (hub ht)
  rcases hl.events with ⟨h1, h2⟩ | ⟨e, h1, h2⟩
  · exact ⟨by rw [h1, h2]; exact h.isPrefix, fun hf => by rw [h1, h2, h.all (before hf)]⟩
  · cases hc : s.link.hubClosed with
    | true =>
      rw [hc, if_pos rfl, List.append_nil] at h2
      refine ⟨?_, fun hf => ?_⟩
      · rw [h1, h2]
        exact h.isPrefix.trans (List.prefix_append ..)
      · rw [before hf] at hc
        cases hc
    | false =>
      rw [hc, if_neg Bool.false_ne_true, h.all hc] at h2
      have heq := h2.trans h1.symm
      exact ⟨by simp [heq], fun _ => heq⟩

theorem Taken.of_reachable (h : Reachable (Sys.step cfg) (.init cfg) s) : Taken s := by
  refine h.invariant ⟨List.prefix_refl _, fun _ => rfl⟩ ?_
  intro u l v hu hI hv
  obtain ⟨used, new, he⟩ := step_effect hv
  exact hI.step he.lives (hubClosed_step hv)

end Hub

/-- Of the events a hub gets from one link, at most one is the opening and it comes before every
message, ping, pong and drain; at most one is the close and it comes last. The state never goes
back along a run, and it is closed exactly when the close was handed over. -/
theorem event_order {cfg : Config} {s t : Sys} (hs : Reachable (Sys.step cfg) (.init cfg) s)
    (ht : Reachable (Sys.step cfg) s t) :
    s.sentEvents.count .opened ≤ 1 ∧
      (∀ a e b, s.sentEvents = a ++ e :: b → e.inbound = true ∨ e = .drain → .opened ∈ a) ∧
      s.sentEvents.countP Event.isClose ≤ 1 ∧
      (∀ a e b, s.sentEvents = a ++ e :: b → e.isClose = true → b = []) ∧
      s.state.rank ≤ t.state.rank ∧
      (s.state = .closed ↔ ∃ e ∈ s.handed, e.isClose = true) := by
  have handed := Handed.of_reachable hs
  obtain ⟨rest, hrest⟩ := (Taken.of_reachable hs).isPrefix
  have sent : Orderly s.sentEvents := .of_append (t := rest) (hrest ▸ handed.orderly)
  refine ⟨sent.opened_once, sent.opened_first, sent.countP_isClose_le, sent.close_last, ?_, handed.closed⟩
  refine hs.monotone (R := fun a b => a.state.rank ≤ b.state.rank) ht (fun _ => Nat.le_refl _)
    (fun _ _ _ => Nat.le_trans) ?_
  intro a l b ha hb
  obtain ⟨used, new, he⟩ := step_effect hb
  exact he.lives.rank_le

/-- An open link is terminated: its close is the last of two events. -/
theorem event_order_terminated :
    ∃ s, runs (Sys.step .small) (.init .small) (openRun ++ [.call .terminate, .pool 0]) = some s ∧
      s.sentEvents = [.opened, .close 1006 .empty] ∧ s.sentEvents.countP Event.isClose ≤ 1 ∧
      ∀ t, Reachable (Sys.step .small) s t → 3 ≤ t.state.rank :=
  have h {t} := @event_order .small _ t ⟨openRun ++ [.call .terminate, .pool 0], rfl⟩
  ⟨_, rfl, rfl, (h (.refl _)).2.2.1, fun _ ht => (h ht).2.2.2.2.1⟩

end WebSocket.Net
