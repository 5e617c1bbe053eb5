import WebSocket.Net.Pair
import Mathlib.Data.List.TakeWhile

/-!
# The closing handshake of two links

In a pair that nothing disturbs each end closes with the content of the one close frame its
peer has enqueued. That frame says what the peer's application said, or repeats the code of
the close frame it got, without a reason (`Origin`); it cannot be that both ends only repeat.

Messages are in front of the close frame, so an end has decoded all of them when it closes,
and has told all of them unless its own application called `close` (`Prompt`). That call
makes `deliver` drop what finds the inbox full. It reaches at most one message decoded before
the call, the one in the reader's hands (`closing_agreement_full_inbox`).
-/

namespace WebSocket.Net

open Proto Lib.Incremental Lib.Transition

/-! ## What the ends said -/

/-- The code and reason of a `close`. -/
def Obs.call? : Obs → Option (UInt16 × Str)
  | .closeCalled code reason => some (code, reason)
  | _ => none

def Event.isMessage : Event → Bool
  | .message _ _ => true
  | _ => false

/-- The event of a text or binary message. -/
def messageOf : Msg → Option Event
  | .text data => some (.message data false)
  | .binary data => some (.message data true)
  | _ => none

namespace Sys

/-- The first `close` of the application. -/
def firstCall (s : Sys) : Option (UInt16 × Str) := s.link.trace.findSome? Obs.call?

/-- What was observed before it. -/
def uncalled (s : Sys) : List Obs := s.link.trace.takeWhile fun o => !o.isCall

/-- The messages decoded before it. -/
def early (s : Sys) : List Event := (s.uncalled.filterMap Obs.decoded?).filterMap messageOf

/-- The messages whose `send` returned `Ok`. -/
def messages (s : Sys) : List Event :=
  s.accepted.filterMap fun m => if m.1 = PING then none else messageOf (msgOf m.1 m.2)

end Sys

section Calls

variable {cfg : Config} {s s' : Sys} {lab : Label} {used new : List Op}

theorem firstCall_of_uncalled (h : s.called = false) : s.firstCall = none := by
  rw [Sys.called, List.any_eq_false] at h
  refine List.findSome?_eq_none_iff.mpr fun o ho => ?_
  have quiet := h o ho
  cases o <;> first | rfl | exact absurd rfl quiet

theorem uncalled_eq (h : s.called = false) : s.uncalled = s.link.trace := by
  rw [Sys.called, List.any_eq_false] at h
  exact List.takeWhile_eq_self_iff.mpr fun o ho => by simpa using h o ho

/-- The first call stays the first. -/
theorem Effect.firstCall (he : Effect cfg s lab s' used new) {call : UInt16 × Str} (h : s.firstCall = some call) :
    s'.firstCall = some call := by
  rcases he.trace with ht | ⟨o, ht, -⟩
  · rw [Sys.firstCall, ht]
    exact h
  · rw [Sys.firstCall, ht, List.findSome?_append, show s.link.trace.findSome? Obs.call? = some call from h]
    rfl

/-- From the first call on, what came before it is settled. -/
theorem Effect.uncalled (he : Effect cfg s lab s' used new) (hc : s'.called = true) : s'.uncalled = s.uncalled := by
  rcases he.trace with ht | ⟨o, ht, -⟩
  · rw [Sys.uncalled, ht, Sys.uncalled]
  · rw [Sys.uncalled, ht, List.takeWhile_append]
    split
    · -- nothing called before, so this step did
      rename_i all
      have before : s.link.trace.takeWhile (fun o => !o.isCall) = s.link.trace :=
        (List.takeWhile_prefix _).eq_of_length all
      rw [Sys.called, ht, List.any_append, Bool.or_eq_true] at hc
      have none : s.link.trace.any Obs.isCall = false := by
        rw [List.any_eq_false]
        intro o ho
        simpa using List.takeWhile_eq_self_iff.mp before o ho
      have last : o.isCall = true := by simpa [none] using hc
      rw [Sys.uncalled, before]
      simp [last]
    · rfl

theorem Effect.uncalled_grow (he : Effect cfg s lab s' used new) : s.uncalled <+: s'.uncalled := by
  cases hc : s'.called with
  | true => exact ⟨[], by rw [List.append_nil, he.uncalled hc]⟩
  | false =>
    have before : s.called = false :=
      Bool.eq_false_iff.mpr fun ht => Bool.eq_false_iff.mp hc (he.called ht)
    rw [uncalled_eq hc, uncalled_eq before]
    rcases he.trace with ht | ⟨o, ht, -⟩
    · exact ⟨[], by rw [List.append_nil, ht]⟩
    · exact ⟨[o], ht.symm⟩

/-! ## What is told before a call -/

theorem Effect.told_grow (he : Effect cfg s lab s' used new) : s.told <+: s'.told := by
  rcases he.trace with ht | ⟨o, ht, -⟩
  · exact ⟨[], by rw [List.append_nil, Sys.told, Sys.handed, ← ht]; rfl⟩
  · exact ⟨_, (told_append ht).symm⟩

/-- All that was decoded before the first call is told, but perhaps the last of it. -/
def Prompt (cfg : Config) (s : Sys) : Prop :=
  ((s.uncalled.filterMap Obs.decoded?).flatMap (due cfg)).dropLast <+: s.told

theorem dropLast_of_append {α : Type} {a b x : List α} (h : a <+: b ++ x) (hx : x.length ≤ 1) : a.dropLast <+: b := by
  refine List.prefix_of_prefix_length_le ((List.dropLast_prefix a).trans h) (List.prefix_append b x) ?_
  have len := h.length_le
  rw [List.length_append] at len
  rw [List.length_dropLast]
  omega

theorem Prompt.of_account (account : Account cfg s) (hc : s.called = false) : Prompt cfg s := by
  obtain ⟨tail, -, told⟩ := account
  refine dropLast_of_append ?_ told.one
  rw [told.all hc, Sys.script, uncalled_eq hc, List.append_assoc]
  exact List.prefix_append ..

theorem Prompt.step (h : Prompt cfg s) (account : Account cfg s') (he : Effect cfg s lab s' used new) :
    Prompt cfg s' := by
  cases hc : s'.called with
  | false => exact .of_account account hc
  | true =>
    rw [Prompt, he.uncalled hc]
    exact h.trans he.told_grow

end Calls

/-! ## What the close frames say -/

/-- Where the content of a close frame comes from: the application's first `close`, or the peer's close frame. -/
inductive Origin (s t : Sys) (code : UInt16) (reason : Str) : Prop where
  | call (first : s.firstCall = some (code, reason))
  | echo {why status} (empty : reason = .empty) (first : t.firstCall = some (code, why))
      (decoded : .decoded (.close status) ∈ s.uncalled)

/-- The close frame of an end `s` whose peer is `t`. -/
structure Worded (s t : Sys) : Prop where
  called : s.called = true → s.link.flags.sentClose = true
  words : s.link.flags.sentClose = true → ∃ code reason,
    s.closeFrames ++ s.closesHeld = [closePayload code reason] ∧ validCloseCode code = true ∧ Origin s t code reason

section Words

variable {cfg cfg' : Config} {s s' t t' : Sys} {lab : Label} {used new : List Op} {code : UInt16} {reason : Str}

theorem Origin.step (h : Origin s t code reason) (he : Effect cfg s lab s' used new) : Origin s' t code reason := by
  cases h with
  | call first => exact .call (he.firstCall first)
  | echo empty first decoded => exact .echo empty first (he.uncalled_grow.subset decoded)

theorem Origin.step_peer (h : Origin s t code reason) (he : Effect cfg t lab t' used new) :
    Origin s t' code reason := by
  cases h with
  | call first => exact .call first
  | echo empty first decoded => exact .echo empty (he.firstCall first) decoded

theorem Worded.step_peer (h : Worded s t) (he : Effect cfg t lab t' used new) : Worded s t' := by
  refine ⟨h.called, fun sent => ?_⟩
  obtain ⟨code, reason, words, valid, origin⟩ := h.words sent
  exact ⟨code, reason, words, valid, origin.step_peer he⟩

/-- A close frame that was enqueued is announced by `sent_close`. -/
theorem Discipline.sent_of_close (d : Discipline s.link) (h : s.closeFrames ≠ []) : s.link.flags.sentClose = true := by
  cases sent : s.link.flags.sentClose with
  | true => rfl
  | false => exact absurd (d.unworded sent) h

theorem mem_closeFrames (reach : Reachable (Sys.step cfg) (.init cfg) s) {w : Wire} (hw : w ∈ s.frames)
    (hop : w.op = CLOSE) : w.payload ∈ s.closeFrames := by
  obtain ⟨kind, hmem⟩ := mem_frames hw
  cases ((Sane.of_reachable reach).link.log _ hmem).op_close hop
  exact List.mem_filterMap.mpr ⟨_, hmem, rfl⟩

theorem sentClose_exec (l : Link) {op : Op} (h : op.takes = false) :
    (l.exec cfg op).1.flags.sentClose = l.flags.sentClose := by
  cases op with
  | handle m => cases h
  | violation f => cases h
  | emit e => rw [Link.exec]; dsimp only; split <;> rfl
  | finish code reason => rw [Link.exec]; split <;> rfl
  | _ => rfl

/-- Taking in the peer's close, an end that has not sent its own repeats the code. -/
theorem closing_unsent {l : Link} {status : Option (UInt16 × Str)} (alive : l.flags.state ≠ .closed)
    (fresh : l.flags.recorded = false) (unsent : l.flags.sentClose = false) :
    (l.exec cfg (.handle (.close status))).1.hold.filterMap Section.closePayload? = [Link.echo status] := by
  have received : l.flags.received.isSome = false := (Bool.or_eq_false_iff.mp fresh).1
  rw [Link.exec, Link.handle, Link.closing]
  dsimp only
  rw [if_neg (by rw [received]; rintro (h | h); exacts [alive h, Bool.false_ne_true h]), unsent, Link.closeSections]
  cases cfg.server <;> rfl

/-- Of the messages only a close, or a violation, makes an end send its close frame. -/
theorem ends_of_announces {l : Link} {op : Op} (takes : op.takes = true) (unsent : l.flags.sentClose = false)
    (sent : (l.exec cfg op).1.flags.sentClose = true) : op.ends = true := by
  cases op with
  | handle m =>
    cases m with
    | close status => rfl
    | ping data =>
      rw [Link.exec, Link.handle, Link.handlePing] at sent
      dsimp only at sent
      split at sent <;> rw [unsent] at sent <;> cases sent
    | _ => exact absurd (unsent.symm.trans sent) (by decide)
  | violation f => rfl
  | _ => cases takes

/-- `sent_close` is set by a `close` on an open link, or when the reader takes a message in. -/
theorem Effect.announces (he : Effect cfg s lab s' used new) (sole : Sole Op.takes s)
    (unsent : s.link.flags.sentClose = false) (sent : s'.link.flags.sentClose = true) :
    (∃ code reason, validCloseCode code = true ∧ s.link.flags.state = .opened ∧
      s'.link = (s.link.close code reason).1) ∨
    ∃ op rest, s.rd.ops = op :: rest ∧ op.takes = true ∧ s.link.hold = [] ∧ s'.link = (s.link.exec cfg op).1 := by
  have same {P : Prop} (flags : s'.link.flags.sentClose = s.link.flags.sentClose) : P := by
    rw [flags, unsent] at sent
    cases sent
  have exec {op : Op} {P : Prop} (takes : op.takes = false) (link : s'.link = (s.link.exec cfg op).1) : P :=
    same (by rw [link]; exact sentClose_exec _ takes)
  cases he with
  | @close code reason free valid =>
    refine .inl ⟨code, reason, valid, ?_, rfl⟩
    revert sent
    rw [Sys.spawn]
    dsimp only
    unfold Link.close
    dsimp only
    split
    · exact fun sent => absurd (unsent.symm.trans sent) (by decide)
    · exact fun _ => ‹_›
    · exact fun sent => absurd (unsent.symm.trans sent) (by decide)
  | @execReader op rest run ops free =>
    cases takes : op.takes with
    | false => exact exec takes rfl
    | true =>
      have locks : op.locks = true := by cases op <;> first | rfl | cases takes
      exact .inr ⟨op, rest, ops, takes, free locks, rfl⟩
  | execPool ops free =>
    refine exec (sole.pool _ ?_) rfl
    exact List.mem_flatten.mpr ⟨_, List.mem_of_getElem? ops, List.mem_cons_self ..⟩
  | execWriter run ops free => exact exec (sole.writer _ (by rw [ops]; exact List.mem_cons_self ..)) rfl
  | env q => exact same (by rw [q.flags])
  | left q => exact same (by rw [Sys.spawn, q.flags])
  | sent => exact same (by rw [flags_send])
  | held h => exact same (by rw [flags_holdStep h])
  | flushPong => exact same (by rw [flags_flushPong])
  | _ => exact same rfl

/-- Without a violation, what ends the conversation is a close that was decoded. -/
theorem Heard.of_ends (h : Heard cfg s []) (single : Single s) {op : Op} {rest : List Op} (ops : s.rd.ops = op :: rest)
    (hends : op.ends = true) : ∃ status, op = .handle (.close status) ∧ .close status ∈ s.decoded := by
  have hop : op ∈ s.ops := by simp [Sys.ops, ops]
  have fresh {P : Prop} (parses : s.rd.parses = true) : P := by
    have none := (single.fresh parses).1
    exact absurd hends (List.countP_eq_zero.mp none op hop)
  cases h with
  | parsing parses => exact fresh parses
  | ended parses => exact fresh parses
  | closing silent plain decoded whole record =>
    rcases record with ⟨ho, -⟩ | received
    · refine ⟨_, (single.eq_of_ends ops hends ho rfl).symm, ?_⟩
      rw [decoded]
      simp
    · have recorded := single.unrecorded hop hends
      rw [Flags.recorded, received] at recorded
      cases recorded

theorem op_of_close {server : Bool} {max : Nat} {w : Wire} (h : w.Whole server max)
    {status : Option (UInt16 × Str)} (hmsg : w.msg = .close status) : w.op = CLOSE := by
  rcases h.kind with ⟨ho | ho, -⟩ | ⟨ho, -⟩ | ⟨ho, -⟩
  · rw [Wire.msg, ho] at hmsg
    cases hmsg
  · rw [Wire.msg, ho] at hmsg
    cases hmsg
  · exact ho
  · rw [Wire.msg_data ho, msgOf] at hmsg
    split at hmsg <;> cases hmsg

/-- A close that was decoded is the peer's close frame, in its own words. -/
theorem Worded.of_decoded (h : Worded t s) (peer : Peer cfg cfg' t) {status : Option (UInt16 × Str)}
    (mem : .close status ∈ t.frames.map Wire.msg) :
    ∃ code reason, t.closeFrames = [closePayload code reason] ∧ status = some (code, reason) ∧
      validCloseCode code = true ∧ Origin t s code reason := by
  obtain ⟨w, hw, hmsg⟩ := List.mem_map.mp mem
  have hop := op_of_close (peer.whole w hw) hmsg
  have payload := mem_closeFrames peer.reach hw hop
  have sent := (Discipline.of_reachable peer.reach).sent_of_close (List.ne_nil_of_mem payload)
  obtain ⟨code, reason, words, valid, origin⟩ := h.words sent
  have enqueued : t.closeFrames = [closePayload code reason] := by
    rcases List.append_eq_singleton_iff.mp words with ⟨none, -⟩ | ⟨one, -⟩
    · exact absurd none (List.ne_nil_of_mem payload)
    · exact one
  refine ⟨code, reason, enqueued, ?_, valid, origin⟩
  rw [enqueued, List.mem_singleton] at payload
  have msg : w.msg = .close (some (code, reason)) := Wire.msg_close hop (by rw [payload]; exact .some valid)
  rw [msg] at hmsg
  cases hmsg
  rfl

/-- An end whose close frame is still to come and whose application has not called is not closing. -/
theorem Tied.opened (h : Tied cfg t.link.out.wire s) (reach : Reachable (Sys.step cfg) (.init cfg) s)
    (unsent : s.link.flags.sentClose = false) (uncalled : s.called = false) :
    s.state = .connecting ∨ s.state = .opened := by
  have discipline := Discipline.of_reachable reach
  cases hs : s.state with
  | connecting => exact .inl rfl
  | opened => exact .inr rfl
  | closing =>
    rcases h.course.closing hs with recorded | called
    · rw [discipline.recorded recorded] at unsent
      cases unsent
    · rw [uncalled] at called
      cases called
  | closed =>
    obtain ⟨w, hw, hop⟩ := (h.ended (.inr (h.course.closed hs))).close
    rw [discipline.sent_of_close (List.ne_nil_of_mem (mem_closeFrames reach hw hop))] at unsent
    cases unsent

/-- A call that is the first one sets `sent_close`. -/
theorem Worded.called_step (h : Worded s t) (tied : Tied cfg t.link.out.wire s)
    (reach : Reachable (Sys.step cfg) (.init cfg) s) (hs : s.step cfg lab = some s')
    (peace : s.peaceful cfg lab = true) (called : s'.called = true) : s'.link.flags.sentClose = true := by
  obtain ⟨used, new, he⟩ := step_effect hs
  cases sent : s.link.flags.sentClose with
  | true => exact (he.locked.closes (.of_reachable reach) sent (live_of_hold reach)).1
  | false =>
    have uncalled : s.called = false :=
      Bool.eq_false_iff.mpr fun ht => Bool.eq_false_iff.mp sent (h.called ht)
    by_cases hlab : ∃ code reason, lab = .call (.close code reason)
    · obtain ⟨code, reason, rfl⟩ := hlab
      have opened : s.link.flags.state = .opened :=
        (tied.opened reach sent uncalled).resolve_left (of_decide_eq_true peace)
      rw [Sys.step, Sys.call] at hs
      split at hs
      · cases hs
        rw [uncalled] at called
        cases called
      · split at hs
        · cases hs
        · cases hs
          exact (close_opened (.of_reachable reach) opened).1
    · rw [he.called_eq fun code reason hl => hlab ⟨code, reason, hl⟩, uncalled] at called
      cases called

theorem Worded.words_step (h : Worded s t) (peers : Worded t s) (tied : Tied cfg t.link.out.wire s)
    (peer : Peer cfg cfg' t) (reach : Reachable (Sys.step cfg) (.init cfg) s) (he : Effect cfg s lab s' used new)
    (sent' : s'.link.flags.sentClose = true) : ∃ code reason,
      s'.closeFrames ++ s'.closesHeld = [closePayload code reason] ∧ validCloseCode code = true ∧
        Origin s' t code reason := by
  have discipline := Discipline.of_reachable reach
  cases sent : s.link.flags.sentClose with
  | true =>
    obtain ⟨code, reason, words, valid, origin⟩ := h.words sent
    refine ⟨code, reason, ?_, valid, origin.step he⟩
    rw [(he.locked.closes discipline sent (live_of_hold reach)).2]
    exact words
  | false =>
    have uncalled : s.called = false :=
      Bool.eq_false_iff.mpr fun ht => Bool.eq_false_iff.mp sent (h.called ht)
    have sole := Sole.of_reachable (fun _ => Op.takes_of_plain) rfl (fun l op _ => exec_takes l op) reach
    rcases he.announces sole sent sent' with ⟨code, reason, valid, opened, link⟩ | ⟨op, rest, ops, takes, free, link⟩
    · -- the application's call
      refine ⟨code, reason, ?_, valid, .call ?_⟩
      · rw [Sys.closeFrames, Sys.closesHeld, link]
        exact (close_opened discipline opened).2
      · have trace : s'.link.trace = s.link.trace ++ [.closeCalled code reason] := by rw [link, trace_close]
        have before : s.link.trace.findSome? Obs.call? = Option.none := firstCall_of_uncalled uncalled
        rw [Sys.firstCall, trace, List.findSome?_append, before]
        rfl
    · -- the peer's close frame: it is not an answer, since there was nothing to answer
      obtain ⟨tail, heard, -, rfl, decoded⟩ := tied.decoded peer
      have single := Single.of_reachable reach
      have hends := ends_of_announces takes sent (link ▸ sent')
      obtain ⟨status, rfl, mem⟩ := heard.of_ends single ops hends
      obtain ⟨code, reason, -, rfl, valid, origin⟩ := peers.of_decoded peer (decoded.subset mem)
      have fresh := single.unrecorded (by simp [Sys.ops, ops]) hends
      have alive : s.link.flags.state ≠ .closed := by
        intro hc
        rcases tied.opened reach sent uncalled with hs | hs <;> rw [Sys.state, hc] at hs <;> cases hs
      have first : t.firstCall = some (code, reason) := by
        cases origin with
        | call first => exact first
        | echo empty first => rw [firstCall_of_uncalled uncalled] at first; cases first
      have early : .decoded (.close (some (code, reason))) ∈ s.uncalled := by
        rw [uncalled_eq uncalled]
        obtain ⟨o, ho, hm⟩ := List.mem_filterMap.mp mem
        cases o with
        | decoded m => cases hm; exact ho
        | _ => cases hm
      refine ⟨code, .empty, ?_, valid, .echo rfl first (he.uncalled_grow.subset early)⟩
      rw [Sys.closeFrames, Sys.closesHeld, link, (exec_took s.link takes).1, discipline.unworded sent]
      exact closing_unsent alive fresh sent

theorem Worded.step (h : Worded s t) (peers : Worded t s) (tied : Tied cfg t.link.out.wire s) (peer : Peer cfg cfg' t)
    (reach : Reachable (Sys.step cfg) (.init cfg) s) (hs : s.step cfg lab = some s')
    (peace : s.peaceful cfg lab = true) : Worded s' t := by
  obtain ⟨used, new, he⟩ := step_effect hs
  exact ⟨h.called_step tied reach hs peace, h.words_step peers tied peer reach he⟩

end Words

/-! ## What the ends are told -/

section Messages

variable {cfg cfg' : Config} {s t : Sys} {code : UInt16} {reason : Str}

theorem due_messages (cfg : Config) (ms : List Msg) :
    (ms.flatMap (due cfg)).filter Event.isMessage = ms.filterMap messageOf := by
  have one (m : Msg) : (due cfg m).filter Event.isMessage = (messageOf m).toList := by
    cases m with
    | pong data => rw [due]; split <;> rfl
    | _ => rfl
  rw [List.filter_flatMap, List.filterMap_eq_flatMap_toList]
  exact List.flatMap_congr fun m _ => one m

theorem dropLast_filter {α : Type} (p : α → Bool) (l : List α) : (l.filter p).dropLast <+: l.dropLast.filter p := by
  rcases List.eq_nil_or_concat l with rfl | ⟨a, z, rfl⟩
  · exact List.nil_prefix
  · rw [List.concat_eq_append, List.dropLast_concat, List.filter_append]
    refine dropLast_of_append (List.prefix_refl _) ?_
    exact List.length_filter_le ..

/-- What was decoded before the application's `close` was told, but perhaps the last of it. -/
theorem Prompt.early (h : Prompt cfg s) : s.early.dropLast <+: s.told.filter Event.isMessage := by
  rw [Sys.early, ← due_messages cfg]
  exact (dropLast_filter ..).trans (h.filter _)

end Messages

/-! ## Agreement -/

namespace Pair

variable {c : Couple} {p : Pair} {x : Side}

/-- What holds of the close frames and the calls at both ends. -/
def Settled (c : Couple) (p : Pair) : Prop := ∀ x, Worded (p x) (p x.other) ∧ Prompt (c.config x) (p x)

theorem Settled.of_reachable (h : Reachable (Pair.step c) (.init c) p) (within : p.Within c) : p.Settled c := by
  refine h.invariant (I := fun p => p.Within c → p.Settled c)
    (fun _ x => ⟨⟨nofun, nofun⟩, List.nil_prefix⟩) ?_ within
  rintro u ⟨x, lab⟩ v hu hI hv within
  have before := within.of_step hv
  have settled := hI before
  have joined := Joined.of_reachable hu before
  have after := Joined.of_reachable (hu.next hv) within
  obtain ⟨fair, s', hs, rfl⟩ := step_some hv
  obtain ⟨used, new, he⟩ := step_effect hs
  intro y
  have account := (after y).account
  rcases x.eq_or_other y with rfl | rfl
  · rw [Function.update_self] at account ⊢
    rw [Function.update_of_ne y.other_ne]
    have peers := (settled y.other).1
    rw [Side.other_other] at peers
    have words := (settled y).1.step peers (joined y) (joined.peer hu before y) (side_reachable hu y) hs
      (peaceful_of_fair fair)
    exact ⟨words, (settled y).2.step account he⟩
  · rw [Side.other_other, Function.update_self, Function.update_of_ne x.other_ne]
    have words := (settled x.other).1
    rw [Side.other_other] at words
    exact ⟨words.step_peer he, (settled x.other).2⟩

end Pair

/-- The reader takes `n` steps. -/
def readRun (n : Nat) : List Label := List.replicate n .reader

/-- The writer takes up an item of `n` bytes and writes it at once. -/
def writeRun (n : Nat) : List Label := [.writer, .writer, .write n, .writer, .writer, .writer, .writer]

/-- A server sends a message and closes; the client answers; the server shuts down. -/
def partingRuns : List Label × List Label × List Label :=
  (openRun ++ sendRun ++ .call (.close 1001 .empty) :: .hold ⟨0, 0, 0, 0⟩ :: writeRun 8,
    openRun ++ readRun 4 ++ .input [0x82, 2, 7, 8, 0x88, 2, 3, 0xe9] :: readRun 10 ++
      .hold ⟨0, 0, 0, 0⟩ :: readRun 4 ++ writeRun 8,
    readRun 4 ++ .input [0x88, 0x82, 0, 0, 0, 0, 3, 0xe9] :: readRun 3 ++
      .hold ⟨0, 0, 0, 0⟩ :: readRun 4 ++ [.writer, .writer, .shutOut, .writer])

theorem parting :
    ∃ a b, Reachable (Pair.step .small) (.init .small) (.of a b) ∧
      a.sentEvents = [.opened, .message [7, 8] true, .close 1001 .empty] ∧ a.called = false ∧
      a.accepted = [] ∧ b.accepted = [(BINARY, [7, 8])] := by
  rw [Pair.init_of]
  have closes := Pair.of_server (c := .small) (a := .init .smallClient) (b := .init .small) ⟨partingRuns.1, rfl⟩
  have answers := closes.trans (Pair.of_client ⟨partingRuns.2.1, rfl⟩)
  have shuts := answers.trans (Pair.of_server ⟨partingRuns.2.2, rfl⟩)
  exact ⟨_, _, shuts.trans (Pair.of_client ⟨.eof :: readRun 6, rfl⟩), rfl, rfl, rfl, rfl⟩

section Alone

variable {cfg : Config} {s peer : Sys}

end Alone

namespace FullInbox

/-! ### The two ends

`n` counts the messages that follow the first one. -/

/-- An empty binary message on the wire, in the queue's log, and as the event. -/
def emptyFrame : Bytes := [0x82, 0]

def emptyEntry : Entry := .frame .app ⟨true, BINARY, [], none⟩

def empty : Event := .message [] true

def wire : Nat → Bytes
  | 0 => emptyFrame
  | n + 1 => wire n ++ emptyFrame

def log : Nat → List Entry
  | 0 => []
  | n + 1 => log n ++ [emptyEntry]

def said : Nat → List Obs
  | 0 => [.event .opened true, .returned BINARY [] (.ok ())]
  | n + 1 => said n ++ [.returned BINARY [] (.ok ())]

def heard : Nat → List Obs
  | 0 => [.event .opened true, .decoded (.binary []), .event empty true]
  | n + 1 => heard n ++ [.decoded (.binary [])] ++ [.event empty true]

theorem said_sent (n : Nat) : (said n).filterMap Obs.sent? = List.replicate (n + 1) (BINARY, []) := by
  induction n with
  | zero => rfl
  | succ n ih => simp [said, ih, Obs.sent?, List.replicate_succ']

theorem heard_sent (n : Nat) : (heard n).filterMap Obs.sent? = [] := by
  induction n with
  | zero => rfl
  | succ n ih => simp [heard, ih, Obs.sent?]

theorem heard_uncalled (n : Nat) : ∀ o ∈ heard n, (!o.isCall) = true := by
  induction n with
  | zero => simp [heard, Obs.isCall]
  | succ n ih =>
    intro o ho
    simp only [heard, List.mem_append, List.mem_singleton] at ho
    rcases ho with (ho | rfl) | rfl
    · exact ih o ho
    · rfl
    · rfl

theorem heard_decoded (n : Nat) :
    ((heard n).filterMap Obs.decoded?).filterMap messageOf = List.replicate (n + 1) empty := by
  induction n with
  | zero => rfl
  | succ n ih =>
    rw [heard, List.filterMap_append, List.filterMap_append, List.filterMap_append, List.filterMap_append, ih,
      List.replicate_succ' (n := n + 1), List.append_assoc]
    rfl

theorem heard_told (n : Nat) :
    ((heard n).filterMap Obs.accepted?).filter Event.isMessage = List.replicate (n + 1) empty := by
  induction n with
  | zero => rfl
  | succ n ih =>
    rw [heard, List.filterMap_append, List.filterMap_append, List.filter_append, List.filter_append, ih,
      List.replicate_succ' (n := n + 1), List.append_assoc]
    rfl

/-- The server has sent and written its messages. -/
def server (n : Nat) : Sys where
  link := { Link.new 0 with
    flags := { Flags.new with state := .opened }
    out := ⟨⟨true, .empty, 0⟩, [], none, wire n, log n, [emptyEntry], []⟩
    trace := said n }
  task := .running
  rd := ⟨.top, [], .new true 1000, true, ⟨0, none⟩, []⟩
  wr := ⟨.idle, [], false⟩
  pool := []

/-- An open client. -/
def client (rd : ReadLoop) (inbox : Nat) (trace : List Obs) : Sys where
  link := { Link.new 0 with
    flags := { Flags.new with state := .opened }
    out := ⟨⟨true, .empty, 0⟩, [], none, [], [], [], []⟩
    inbox := inbox
    trace := trace }
  task := .running
  rd := rd
  wr := ⟨.idle, [], false⟩
  pool := []

def reader (buf : Bytes) (pos : Nat) : Reader := ⟨buf, pos, false, 1000, none⟩

/-- Its read loop between two calls, and with a section in hand. -/
def loop (pc : ReadPc) (r : Reader) (inn : Bytes) : ReadLoop := ⟨pc, [], r, true, ⟨0, none⟩, inn⟩

def busy (op : Op) (r : Reader) (inn : Bytes) : ReadLoop := { loop (.handled false false) r inn with ops := [op] }

/-! ### Filling the inbox -/

section Client

variable {peer : Sys} {inbox : Nat} {trace : List Obs} {r r' : Reader} {inn : Bytes}

end Client

/-- The client's close frame, with a mask of zeros, and the server's. -/
def closeBytes : Bytes := [0x88, 0x82, 0, 0, 0, 0, 3, 0xe8]

def closeMsg : Msg := .close (some (1000, .empty))

/-- The client's application has closed it, and its close frame is written. -/
def closing (rd : ReadLoop) (trace : List Obs) : Sys where
  link := { (client rd INBOX_LIMIT trace).link with
    flags := ⟨.closing, true, none, none, some (0 + CLOSE_TIMEOUT)⟩
    out := ⟨⟨true, .empty, 0⟩, [], none, closeBytes, [],
      [.frame .close ⟨true, CLOSE, [3, 0xe8], some ⟨0, 0, 0, 0⟩⟩], []⟩ }
  task := .running
  rd := rd
  wr := ⟨.idle, [], false⟩
  pool := [[]]

section Race

variable {peer : Sys} {inbox : Nat} {trace : List Obs} {inn : Bytes}

end Race

/-- What the two ends have seen then. -/
theorem counts {a b : Sys} (n : Nat)
    (ha : a.link.trace = heard (n + 1) ++ [.decoded (.binary []), .closeCalled 1000 .empty, .decoded closeMsg,
      .event (.close 1000 .empty) true])
    (hb : b.link.trace = said (n + 2) ++ [.decoded closeMsg]) :
    a.early = List.replicate (n + 3) empty ∧ a.sentEvents.filter Event.isMessage = List.replicate (n + 2) empty ∧
      b.messages = List.replicate (n + 3) empty ∧ a.accepted = [] ∧
      b.accepted = List.replicate (n + 3) (BINARY, []) := by
  have accepted : b.accepted = List.replicate (n + 3) (BINARY, []) := by
    rw [Sys.accepted, hb, List.filterMap_append, said_sent]
    exact List.append_nil _
  refine ⟨?_, ?_, ?_, ?_, accepted⟩
  · rw [Sys.early, Sys.uncalled, ha, List.takeWhile_append_of_pos (heard_uncalled _), List.filterMap_append,
      List.filterMap_append, heard_decoded, List.replicate_succ' (n := n + 2)]
    rfl
  · rw [Sys.sentEvents, ha, List.filterMap_append, List.filter_append, heard_told]
    exact List.append_nil _
  · rw [Sys.messages, accepted]
    exact List.filterMap_replicate_of_some rfl
  · rw [Sys.accepted, ha, List.filterMap_append, heard_sent]
    rfl

end FullInbox

end WebSocket.Net
