import WebSocket.Net.Delivery

/-!
# The closing discipline of the outbound side

Close frames come from the application, from the echo of the peer's close and from
violations; pongs may be deferred to the writer. That they never break the order rests on
two facts. The reader ends the conversation at most once (`Single`): after a close or a
violation it parses nothing more. And whoever holds `flags` to enqueue does so for one of
three reasons, each tied to what `flags` says at that time (`Holding`).
-/

namespace WebSocket.Net

open Proto Lib.Transition Lib.History

/-! ## The reader ends the conversation once -/

/-- Sections that end the conversation. -/
def Op.ends : Op → Bool
  | .handle (.close _) | .violation _ => true
  | _ => false

/-- The peer's close or a violation was recorded. -/
def Flags.recorded (f : Flags) : Bool := f.received.isSome || f.failed.isSome

/-- The reader may still parse frames. -/
def ReadLoop.parses (rd : ReadLoop) : Bool :=
  rd.ok && match rd.pc with
    | .handled stop _ => !stop
    | _ => true

/-- A section that ends the conversation is pending, or has ended it, at most once; while the
reader parses it has not happened. -/
structure Single (s : Sys) : Prop where
  once : s.ops.countP Op.ends + s.link.flags.recorded.toNat ≤ 1
  fresh : s.rd.parses = true → s.ops.countP Op.ends = 0 ∧ s.link.flags.recorded = false
  dispatch : ∀ last, s.rd.pc = .dispatch last → s.rd.ok = true
  handled : ∀ last, s.rd.pc = .handled false last → s.rd.ok = true

theorem Op.takes_of_ends {op : Op} (h : op.ends = true) : op.takes = true := by
  cases op with
  | handle m => rfl
  | violation f => rfl
  | _ => cases h

section Single

variable {cfg : Config} {s s' : Sys} {lab : Label} {used new : List Op}

theorem recorded_exec {l : Link} {op : Op} (h : (l.exec cfg op).1.flags.recorded = true) :
    l.flags.recorded = true ∨ op.ends = true := by
  cases op with
  | handle m =>
    cases m with
    | close status => exact .inr rfl
    | ping data =>
      rw [Link.exec, Link.handle, Link.handlePing] at h
      dsimp only at h
      split at h <;> exact .inl h
    | _ => exact .inl h
  | violation f => exact .inr rfl
  | emit e =>
    rw [Link.exec] at h
    dsimp only at h
    split at h <;> exact .inl h
  | finish code reason =>
    rw [Link.exec] at h
    split at h <;> exact .inl h
  | _ => exact .inl h

/-- Only a section that ends the conversation records its end. -/
theorem Locked.recorded (h : Locked cfg s s' used) (hr : s'.link.flags.recorded = true) :
    s.link.flags.recorded = true ∨ ∃ op ∈ used, op.ends = true := by
  cases h with
  | other flags => exact .inl (flags ▸ hr)
  | turns free turns =>
    obtain ⟨state, hf⟩ := turns.flags
    rw [hf] at hr
    exact .inl hr
  | held hold link =>
    refine .inl ?_
    rw [link] at hr
    dsimp only at hr
    rwa [flags_execSection] at hr
  | sent free legal link =>
    rw [link, flags_send] at hr
    exact .inl hr
  | close free link =>
    refine .inl ?_
    rw [link] at hr
    unfold Link.close at hr
    dsimp only at hr
    split at hr <;> exact hr
  | took free hused takes link =>
    rw [link] at hr
    exact (recorded_exec hr).imp id fun h => ⟨_, by rw [hused]; exact List.mem_singleton_self _, h⟩
  | flushPong free run pc link =>
    rw [link, flags_flushPong] at hr
    exact .inl hr
  | ping free state link =>
    rw [link] at hr
    exact .inl hr

/-- After a message the reader goes on to the next one, or stops parsing. -/
theorem Reads.handled {rd : ReadLoop} {stop last : Bool} (h : Reads cfg s lab rd new)
    (pc : s.rd.pc = .handled stop last) :
    stop = false ∧ s.link.flags.state ≠ .closed ∧ rd = { s.rd with pc := .dispatch last } ∨
      (stop = true ∨ s.link.flags.state = .closed) ∧ rd = { s.rd with ok := false, pc := Sys.afterDispatch last } := by
  cases h with
  | goto h =>
    cases h with
    | again pc' state =>
      rw [pc] at pc'
      cases pc'
      exact .inl ⟨rfl, state, rfl⟩
    | _ => simp_all
  | stop pc' why =>
    rw [pc] at pc'
    cases pc'
    exact .inr ⟨why, rfl⟩
  | _ => simp_all

/-- The reader does not start to parse again. -/
theorem Effect.parses (h : Effect cfg s lab s' used new) (hp : s'.rd.parses = true) : s.rd.parses = true := by
  have keeps (ok : s'.rd.ok = true → s.rd.ok = true)
      (pc : ∀ stop last, s'.rd.ok = true → s.rd.pc = .handled stop last → stop = false) : s.rd.parses = true := by
    rw [ReadLoop.parses, Bool.and_eq_true] at hp ⊢
    refine ⟨ok hp.1, ?_⟩
    split
    · rename_i stop last hpc
      rw [pc stop last hp.1 hpc]
      rfl
    · rfl
  cases h with
  | reading run idle h =>
    refine keeps (fun ok => ?_) fun stop last ok hpc => ?_
    · cases h <;> first | exact ok | cases ok
    · rcases h.handled hpc with ⟨hs, -⟩ | ⟨-, rfl⟩
      · exact hs
      · cases ok
  | decoded run idle pc msg => exact keeps id fun stop last _ hpc => by rw [hpc] at pc; cases pc
  | failed run idle pc msg => exact keeps id fun stop last _ hpc => by rw [hpc] at pc; cases pc
  | ping run idle free state pc => exact keeps id fun stop last _ hpc => by rw [hpc] at pc; cases pc
  | _ => exact hp

theorem countP_ends_eq_zero {ops : List Op} (h : ∀ o ∈ ops, o.takes = false) : ops.countP Op.ends = 0 := by
  rw [List.countP_eq_zero]
  intro o ho he
  exact absurd (Op.takes_of_ends he) (by rw [h o ho]; decide)

/-- Only a dispatch starts a section that ends the conversation, and then the reader parses no more. -/
theorem Effect.new_ends (h : Effect cfg s lab s' used new) : new.countP Op.ends = 0 ∨
    new.countP Op.ends = 1 ∧ used = [] ∧ (∃ last, s.rd.pc = .dispatch last) ∧ s'.rd.parses = false := by
  have stops {last : Bool} (pc : s'.rd.pc = .handled true last) : s'.rd.parses = false := by
    rw [ReadLoop.parses, pc]
    exact Bool.and_false _
  rcases h.new_takes with hn | ⟨last, pc, hu, ⟨m, -, pc', rfl⟩ | ⟨f, -, pc', rfl⟩⟩
  · exact .inl (countP_ends_eq_zero hn)
  · cases m with
    | close status => exact .inr ⟨rfl, hu, ⟨last, pc⟩, stops pc'⟩
    | _ => exact .inl rfl
  · exact .inr ⟨rfl, hu, ⟨last, pc⟩, stops pc'⟩

/-- Where the reader may be about to parse. -/
theorem Effect.parsing (h : Effect cfg s lab s' used new) {last : Bool}
    (pc : s'.rd.pc = .dispatch last ∨ s'.rd.pc = .handled false last) :
    s'.rd.ok = s.rd.ok ∧
      (s.rd.ok = true ∨ (∃ last, s.rd.pc = .dispatch last) ∨ ∃ last, s.rd.pc = .handled false last) := by
  cases h with
  | reading run idle h =>
    cases h with
    | goto h =>
      refine ⟨rfl, ?_⟩
      cases h with
      | parse _ ok => exact .inl ok
      | final _ ok => exact .inl ok
      | again pc' => exact .inr (.inr ⟨_, pc'⟩)
      | _ => rcases pc with pc | pc <;> cases pc
    | silent pc' =>
      rw [Sys.afterDispatch] at pc
      dsimp only at pc
      split at pc <;> rcases pc with pc | pc <;> cases pc
    | stop pc' =>
      rw [Sys.afterDispatch] at pc
      dsimp only at pc
      split at pc <;> rcases pc with pc | pc <;> cases pc
    | _ => rcases pc with pc | pc <;> cases pc
  | decoded run idle pc' msg => exact ⟨rfl, .inr (.inl ⟨_, pc'⟩)⟩
  | failed run idle pc' msg => rcases pc with pc | pc <;> cases pc
  | ping => rcases pc with pc | pc <;> cases pc
  | _ =>
    refine ⟨rfl, .inr ?_⟩
    exact pc.imp (fun h => ⟨_, h⟩) fun h => ⟨_, h⟩

theorem Single.step (h : Single s) (he : Effect cfg s lab s' used new) : Single s' := by
  obtain ⟨rest, hs, hs'⟩ := he.perm
  have count : s.ops.countP Op.ends = used.countP Op.ends + rest.countP Op.ends := by
    rw [hs.countP_eq, List.countP_append]
  have count' : s'.ops.countP Op.ends = new.countP Op.ends + rest.countP Op.ends := by
    rw [hs'.countP_eq, List.countP_append]
  -- what is recorded was recorded before, or is what the section that ran stood for
  have recorded : s'.link.flags.recorded.toNat ≤ used.countP Op.ends + s.link.flags.recorded.toNat := by
    cases hr : s'.link.flags.recorded with
    | false => exact Nat.zero_le _
    | true =>
      rcases he.locked.recorded hr with hr | ⟨op, hop, hends⟩
      · rw [hr]
        exact Nat.le_add_left ..
      · exact Nat.le_add_right_of_le (List.countP_pos_iff.mpr ⟨op, hop, hends⟩)
  have ok (pc : (∃ last, s.rd.pc = .dispatch last) ∨ ∃ last, s.rd.pc = .handled false last) : s.rd.ok = true :=
    pc.elim (fun ⟨last, hpc⟩ => h.dispatch last hpc) fun ⟨last, hpc⟩ => h.handled last hpc
  refine ⟨?_, fun hp => ?_, fun last pc => ?_, fun last pc => ?_⟩
  · rcases he.new_ends with hn | ⟨hn, hu, ⟨last, pc⟩, -⟩
    · have := h.once
      omega
    · obtain ⟨h0, hr0⟩ := h.fresh (by rw [ReadLoop.parses, pc, h.dispatch last pc]; rfl)
      rw [hu, hr0] at recorded
      rw [hu] at count
      simp only [List.countP_nil, Bool.toNat_false] at count recorded
      omega
  · obtain ⟨h0, hr0⟩ := h.fresh (he.parses hp)
    rw [hr0, Bool.toNat_false] at recorded
    have hn : new.countP Op.ends = 0 := by
      rcases he.new_ends with hn | ⟨-, -, -, hn⟩
      · exact hn
      · rw [hp] at hn
        cases hn
    refine ⟨by omega, ?_⟩
    cases hr : s'.link.flags.recorded with
    | false => rfl
    | true =>
      rw [hr, Bool.toNat_true] at recorded
      omega
  · obtain ⟨h1, h2⟩ := he.parsing (.inl pc)
    exact h1.trans (h2.elim id ok)
  · obtain ⟨h1, h2⟩ := he.parsing (.inr pc)
    exact h1.trans (h2.elim id ok)

theorem Single.of_reachable (h : Reachable (Sys.step cfg) (.init cfg) s) : Single s := by
  refine h.invariant ⟨Nat.zero_le 1, fun _ => ⟨rfl, rfl⟩, fun _ h => (nomatch h), fun _ h => (nomatch h)⟩ ?_
  intro u l v hu hI hv
  obtain ⟨used, new, he⟩ := step_effect hv
  exact hI.step he

end Single

/-! ## Who holds `flags`, and why -/

/-- Frames of a conversation: the application's and heartbeats. -/
def Section.talks : Section → Bool
  | .pushFrame .app _ _ | .recheck _ _ | .pushHeartbeat _ => true
  | _ => false

/-- Replies to pings. -/
def Section.replies : Section → Bool
  | .pushFrame .pong _ _ | .pushFrame .deferred _ _ | .clearPong | .deferPong _ => true
  | _ => false

def Section.closes : Section → Bool
  | .pushFrame .close _ _ => true
  | _ => false

def Entry.isClose : Entry → Bool
  | .frame .close _ => true
  | _ => false

def Entry.isReply : Entry → Bool
  | .frame .pong _ | .frame .deferred _ => true
  | _ => false

/-- The close frame or the `Shutdown`. -/
def Entry.isLast (e : Entry) : Bool := e.isClose || e == .shutdown

/-- Which entry may come, at once or later, behind which. -/
def Follows (a b : Entry) : Prop := a ≠ .shutdown ∧ (a.isClose = true → b.isReply = true ∨ b = .shutdown)

/-- The sections under `flags`, by the reason they were started for. -/
inductive Holding (f : Flags) (log : List Entry) : List Section → Prop where
  | talk {hold} (sections : ∀ x ∈ hold, x.talks = true) (unsent : f.sentClose = false) : Holding f log hold
  | reply {hold} (sections : ∀ x ∈ hold, x.replies = true) (unrecorded : f.recorded = false) : Holding f log hold
  | close {payload hold} (unclosed : ∀ e ∈ log, e.isLast = false) (sent : f.sentClose = true)
      (rest : hold = [] ∨ hold = [.pushShutdown] ∧ f.recorded = true) :
      Holding f log (.pushFrame .close CLOSE payload :: hold)
  | shutdown (open_ : .shutdown ∉ log) (recorded : f.recorded = true) (sent : f.sentClose = true) :
      Holding f log [.pushShutdown]
  | free : Holding f log []

/-- The order of what was enqueued, and what `flags` says of it. -/
structure Discipline (l : Link) : Prop where
  log : l.out.log.Pairwise Follows
  unsent : l.flags.sentClose = false → ∀ e ∈ l.out.log, e.isLast = false
  unrecorded : l.flags.recorded = false → .shutdown ∉ l.out.log
  sent : l.flags.sentClose = true → 2 ≤ l.flags.state.rank
  recorded : l.flags.recorded = true → l.flags.sentClose = true
  hold : Holding l.flags l.out.log l.hold

namespace Discipline

variable {cfg : Config} {l l' : Link}

theorem not_shutdown {e : Entry} (h : e.isLast = false) : e ≠ .shutdown := by
  rintro rfl
  cases h

theorem not_close {e : Entry} (h : e.isLast = false) : e.isClose = false := by
  rw [Entry.isLast, Bool.or_eq_false_iff] at h
  exact h.1

/-- An enqueue behind entries it may follow. -/
theorem pairwise_push {log log' : List Entry} {live : Bool} {e : Entry} (h : log.Pairwise Follows)
    (hlog : log' = if live then log ++ [e] else log) (he : ∀ a ∈ log, Follows a e) : log'.Pairwise Follows := by
  rw [hlog]
  split
  · exact List.pairwise_append.mpr ⟨h, List.pairwise_singleton .., fun a ha b hb => List.mem_singleton.mp hb ▸ he a ha⟩
  · exact h

theorem forall_push {P : Entry → Prop} {log log' : List Entry} {live : Bool} {e : Entry} (h : ∀ a ∈ log, P a)
    (hlog : log' = if live then log ++ [e] else log) (he : P e) : ∀ a ∈ log', P a := by
  rw [hlog]
  split
  · exact List.forall_mem_append.mpr ⟨h, List.forall_mem_singleton.mpr he⟩
  · exact h

/-- Nothing of the queue changed under `flags`. -/
theorem same (h : Discipline l) (flags : l'.flags = l.flags) (hold : l'.hold = l.hold)
    (log : l'.out.log = l.out.log) : Discipline l' := by
  constructor
  · rw [log]; exact h.log
  · rw [flags, log]; exact h.unsent
  · rw [flags, log]; exact h.unrecorded
  · rw [flags]; exact h.sent
  · rw [flags]; exact h.recorded
  · rw [flags, hold, log]; exact h.hold

/-- `flags` was taken to enqueue `hold`. -/
theorem takes (h : Discipline l) (flags : l'.flags = l.flags) (log : l'.out.log = l.out.log)
    (hold : Holding l.flags l.out.log l'.hold) : Discipline l' := by
  constructor
  · rw [log]; exact h.log
  · rw [flags, log]; exact h.unsent
  · rw [flags, log]; exact h.unrecorded
  · rw [flags]; exact h.sent
  · rw [flags]; exact h.recorded
  · rw [flags, log]; exact hold

/-- An enqueue of `e` under `flags`, with `hold` still to come. -/
theorem push {e : Entry} (h : Discipline l) (flags : l'.flags = l.flags)
    (log : l'.out.log = if l.out.box.live then l.out.log ++ [e] else l.out.log) (follows : ∀ a ∈ l.out.log, Follows a e)
    (unsent : l.flags.sentClose = false → e.isLast = false) (unrecorded : l.flags.recorded = false → e ≠ .shutdown)
    (hold : Holding l.flags l'.out.log l'.hold) : Discipline l' := by
  constructor
  · exact pairwise_push h.log log follows
  · rw [flags]
    exact fun hs => forall_push (h.unsent hs) log (unsent hs)
  · rw [flags]
    intro hr hmem
    exact forall_push (P := (· ≠ .shutdown)) (fun a ha he => h.unrecorded hr (he ▸ ha)) log (unrecorded hr) _ hmem rfl
  · rw [flags]; exact h.sent
  · rw [flags]; exact h.recorded
  · rw [flags]; exact hold

/-- Behind entries that are neither a close nor a `Shutdown` anything may come. -/
theorem follows_of_talk {log : List Entry} (h : ∀ a ∈ log, a.isLast = false) (e : Entry) : ∀ a ∈ log, Follows a e := by
  intro a ha
  exact ⟨not_shutdown (h a ha), fun hc => absurd hc (by simp [not_close (h a ha)])⟩

theorem held_talk {key : Key} {x : Section} {rest : List Section} (h : Discipline l) (unsent : l.flags.sentClose = false)
    (hx : x.talks = true) (hrest : ∀ y ∈ rest, y.talks = true)
    (link : l' = { (l.execSection cfg key x).1 with hold := (l.execSection cfg key x).2 ++ rest }) : Discipline l' := by
  have flags : l'.flags = l.flags := by rw [link]; exact flags_execSection ..
  have follows := follows_of_talk (h.unsent unsent)
  cases x with
  | pushFrame kind op payload =>
    cases kind with
    | app =>
      refine h.push flags (e := .frame .app ⟨true, op, payload, cfg.mask key⟩) ?_ (follows _) (fun _ => rfl)
        (fun _ => (by simp)) (.talk ?_ unsent)
      · rw [link]
        exact Out.log_pushFrame ..
      · rw [link]
        exact hrest
    | _ => cases hx
  | recheck op payload =>
    rw [Link.execSection] at link
    dsimp only at link
    split at link
    · refine h.takes flags (by rw [link]) (.talk ?_ unsent)
      rw [link]
      exact List.forall_mem_append.mpr ⟨List.forall_mem_singleton.mpr rfl, hrest⟩
    · refine h.takes flags (by rw [link]; rfl) (.talk ?_ unsent)
      rw [link]
      exact hrest
  | pushHeartbeat sent =>
    refine h.push flags (e := .frame .heartbeat ⟨true, PING, cfg.token, cfg.mask key⟩) ?_ (follows _) (fun _ => rfl)
      (fun _ => (by simp)) (.talk ?_ unsent)
    · rw [link]
      exact Out.log_pushHeartbeat ..
    · rw [link]
      exact hrest
  | _ => cases hx

theorem held_reply {key : Key} {x : Section} {rest : List Section} (h : Discipline l)
    (unrecorded : l.flags.recorded = false) (hx : x.replies = true) (hrest : ∀ y ∈ rest, y.replies = true)
    (link : l' = { (l.execSection cfg key x).1 with hold := (l.execSection cfg key x).2 ++ rest }) : Discipline l' := by
  have flags : l'.flags = l.flags := by rw [link]; exact flags_execSection ..
  have reply {e : Entry} (he : e.isReply = true) : ∀ a ∈ l.out.log, Follows a e := fun a ha =>
    ⟨fun hs => h.unrecorded unrecorded (hs ▸ ha), fun _ => .inl he⟩
  cases x with
  | pushFrame kind op payload =>
    refine h.push flags (e := .frame kind ⟨true, op, payload, cfg.mask key⟩) ?_ (reply ?_) (fun _ => ?_)
      (fun _ => nofun) (.reply ?_ unrecorded)
    · rw [link, Link.execSection]
      dsimp only
      split <;> exact Out.log_pushFrame ..
    · cases kind <;> first | rfl | cases hx
    · cases kind <;> first | rfl | cases hx
    · rw [link]
      exact hrest
  | clearPong => exact h.takes flags (by rw [link]; rfl) (.reply (by rw [link]; exact hrest) unrecorded)
  | deferPong data => exact h.takes flags (by rw [link]; rfl) (.reply (by rw [link]; exact hrest) unrecorded)
  | _ => cases hx

theorem held {key : Key} {x : Section} {rest : List Section} (h : Discipline l) (hold : l.hold = x :: rest)
    (link : l' = { (l.execSection cfg key x).1 with hold := (l.execSection cfg key x).2 ++ rest }) : Discipline l' := by
  have hh := h.hold
  rw [hold] at hh
  have flags : l'.flags = l.flags := by rw [link]; exact flags_execSection ..
  cases hh with
  | talk sections unsent =>
    rw [List.forall_mem_cons] at sections
    exact h.held_talk unsent sections.1 sections.2 link
  | reply sections unrecorded =>
    rw [List.forall_mem_cons] at sections
    exact h.held_reply unrecorded sections.1 sections.2 link
  | @close payload _ unclosed sent hrest =>
    have log : l'.out.log = if l.out.box.live then l.out.log ++ [.frame .close ⟨true, CLOSE, payload, cfg.mask key⟩]
        else l.out.log := by
      rw [link]
      exact Out.log_pushFrame ..
    refine h.push flags log (follows_of_talk unclosed _) (fun hs => by rw [sent] at hs; cases hs) (fun _ => nofun) ?_
    have hold' : l'.hold = rest := by rw [link]; rfl
    rw [hold']
    rcases hrest with rfl | ⟨rfl, recorded⟩
    · exact .free
    · refine .shutdown (fun hmem => ?_) recorded sent
      exact forall_push (P := (· ≠ .shutdown)) (fun a ha => not_shutdown (unclosed a ha)) log nofun _ hmem rfl
  | shutdown open_ recorded sent =>
    have log : l'.out.log = if l.out.box.live then l.out.log ++ [.shutdown] else l.out.log := by
      rw [link]
      exact Out.log_pushShutdown ..
    refine h.push flags log (fun a ha => ⟨fun hs => open_ (hs ▸ ha), fun _ => .inr rfl⟩)
      (fun hs => by rw [sent] at hs; cases hs) (fun hr => by rw [recorded] at hr; cases hr) ?_
    have hold' : l'.hold = [] := by rw [link]; rfl
    rw [hold']
    exact .free

theorem unsent_of_opened (h : Discipline l) (hs : l.flags.state = .opened) : l.flags.sentClose = false := by
  refine Bool.eq_false_iff.mpr fun hc => ?_
  have := h.sent hc
  rw [hs] at this
  exact absurd this (by decide)

theorem recorded_of_answers {f : Flags} (h : Link.answers f = true) : f.recorded = false := by
  simp only [Link.answers, Bool.and_eq_true, decide_eq_true_eq, Option.isNone_iff_eq_none] at h
  rw [Flags.recorded, h.1.2, h.2]
  rfl

/-- The end of the conversation is recorded: the close frame still owed, and perhaps the `Shutdown`. -/
theorem ended {payload : Bytes} {shutdown : Bool} (h : Discipline l) (unrecorded : l.flags.recorded = false)
    (sent : l'.flags.sentClose = true) (recorded : l'.flags.recorded = true) (state : l'.flags.state = .closing)
    (log : l'.out.log = l.out.log)
    (hold : l'.hold = Link.closeSections l.flags.sentClose payload shutdown) : Discipline l' := by
  have open_ := h.unrecorded unrecorded
  constructor
  · rw [log]; exact h.log
  · rw [sent]; exact nofun
  · rw [recorded]; exact nofun
  · rw [state]; exact fun _ => Nat.le_refl 2
  · exact fun _ => sent
  · rw [hold, log, Link.closeSections]
    cases hs : l.flags.sentClose with
    | true =>
      cases shutdown with
      | true => exact .shutdown open_ recorded sent
      | false => exact .free
    | false =>
      cases shutdown with
      | true => exact .close (h.unsent hs) sent (.inr ⟨rfl, recorded⟩)
      | false => exact .close (h.unsent hs) sent (.inl rfl)

theorem took {op : Op} (h : Discipline l) (takes : op.takes = true)
    (unrecorded : op.ends = true → l.flags.recorded = false) (link : l' = (l.exec cfg op).1) : Discipline l' := by
  cases op with
  | handle m =>
    cases m with
    | text data => exact link ▸ h
    | binary data => exact link ▸ h
    | pong data => exact link ▸ h
    | ping data =>
      rw [Link.exec, Link.handle, Link.handlePing] at link
      dsimp only at link
      split at link
      · rename_i ha
        refine h.takes (by rw [link]) (by rw [link]) (.reply ?_ (recorded_of_answers ha))
        rw [link]
        dsimp only
        split
        · exact List.forall_mem_cons.mpr ⟨rfl, List.forall_mem_singleton.mpr rfl⟩
        · exact List.forall_mem_singleton.mpr rfl
      · exact link ▸ h
    | close status =>
      rw [Link.exec, Link.handle, Link.closing] at link
      dsimp only at link
      split at link
      · exact link ▸ h
      · exact h.ended (unrecorded rfl) (by rw [link]) (by rw [link]; rfl) (by rw [link]) (by rw [link]) (by rw [link])
  | violation f =>
    rw [Link.exec, Link.violate] at link
    dsimp only at link
    split at link
    · exact link ▸ h
    · exact h.ended (unrecorded rfl) (by rw [link]) (by rw [link]; exact Bool.or_true _) (by rw [link]) (by rw [link])
        (by rw [link])
  | _ => cases takes

theorem close {code : UInt16} {reason : Str} (h : Discipline l) (link : l' = (l.close code reason).1) :
    Discipline l' := by
  unfold Link.close at link
  dsimp only at link
  split at link
  · exact h.same (by rw [link]; rfl) (by rw [link]; rfl) (by rw [link]; rfl)
  · rename_i hs
    have unsent := h.unsent_of_opened hs
    have log : l'.out.log = l.out.log := by rw [link]; rfl
    constructor
    · rw [log]; exact h.log
    · rw [link]; exact nofun
    · rw [link]; exact h.unrecorded
    · rw [link]; exact fun _ => Nat.le_refl 2
    · rw [link]; exact fun _ => rfl
    · rw [link]; exact .close (h.unsent unsent) rfl (.inl rfl)
  · exact h.same (by rw [link]; rfl) (by rw [link]; rfl) (by rw [link]; rfl)

theorem step {s s' : Sys} {lab : Label} {used new : List Op} (h : Discipline s.link) (single : Single s)
    (he : Effect cfg s lab s' used new) : Discipline s'.link := by
  cases he.locked with
  | other flags hold log sends => exact h.same flags hold log
  | turns free turns =>
    obtain ⟨state, flags⟩ := turns.flags
    have rank := he.lives.rank_le
    rw [Sys.state, Sys.state] at rank
    have sent : s'.link.flags.sentClose = s.link.flags.sentClose := by rw [flags]
    have recorded : s'.link.flags.recorded = s.link.flags.recorded := by rw [flags]; rfl
    constructor
    · rw [turns.log]; exact h.log
    · rw [sent, turns.log]; exact h.unsent
    · rw [recorded, turns.log]; exact h.unrecorded
    · rw [sent]; exact fun hc => (h.sent hc).trans rank
    · rw [sent, recorded]; exact h.recorded
    · rw [turns.hold, free]; exact .free
  | held hold link => exact h.held hold link
  | sent free legal link =>
    rw [Link.send] at link
    split at link
    · exact h.same (by rw [link]; rfl) (by rw [link]; rfl) (by rw [link]; rfl)
    · rename_i hs
      have unsent : s.link.flags.sentClose = false := Bool.eq_false_iff.mpr fun hc => hs (.inr hc)
      split at link <;>
        exact h.takes (by rw [link]) (by rw [link])
          (.talk (by rw [link]; exact List.forall_mem_singleton.mpr rfl) unsent)
  | close free link => exact h.close link
  | @took op free hused takes link =>
    refine h.took takes (fun hends => ?_) link
    have mem : op ∈ s.ops := he.used_mem (by rw [hused]; exact List.mem_singleton_self op)
    have pos := List.countP_pos_iff.mpr ⟨op, mem, hends⟩
    have once := single.once
    refine Bool.eq_false_iff.mpr fun hr => ?_
    rw [hr, Bool.toNat_true] at once
    omega
  | flushPong free run pc link =>
    unfold Link.flushPong at link
    dsimp only at link
    split at link
    · split at link
      · rename_i ha
        refine h.takes (by rw [link]) (by rw [link]; rfl) (.reply ?_ (recorded_of_answers ha))
        rw [link]
        exact List.forall_mem_singleton.mpr rfl
      · exact h.same (by rw [link]) (by rw [link]) (by rw [link]; rfl)
    · exact h.same (by rw [link]) (by rw [link]) (by rw [link]; rfl)
  | ping free state link =>
    refine h.takes (by rw [link]) (by rw [link]) (.talk ?_ (h.unsent_of_opened state))
    rw [link]
    exact List.forall_mem_singleton.mpr rfl

theorem of_reachable {s : Sys} (h : Reachable (Sys.step cfg) (.init cfg) s) : Discipline s.link := by
  have nil : Discipline (Sys.init cfg).link :=
    ⟨.nil, (fun _ _ h => nomatch h), (fun _ h => nomatch h), nofun, nofun, .free⟩
  refine h.invariant (I := fun s => Discipline s.link) nil ?_
  intro u l v hu hI hv
  obtain ⟨used, new, he⟩ := step_effect hv
  exact hI.step (.of_reachable hu) he

end Discipline

/-! ## After the end was recorded -/

/-- The opcode of a frame; a `Shutdown` has none. -/
def Entry.op? : Entry → Option UInt8
  | .frame _ w => some w.op
  | .shutdown => none

/-- What a section may enqueue. -/
def Section.ops : Section → List (Option UInt8)
  | .pushFrame _ op _ | .recheck op _ => [some op]
  | .pushHeartbeat _ => [some PING]
  | .pushShutdown => [none]
  | .clearPong | .deferPong _ => []

/-- `t` enqueued, of what was to come at `s`, some at most, and the rest is still to come. -/
def Spends (s t : Sys) : Prop :=
  t.link.flags.recorded = true ∧ ∃ ext, t.link.out.log = s.link.out.log ++ ext ∧
    (ext.map Entry.op? ++ t.link.hold.flatMap Section.ops).Sublist (s.link.hold.flatMap Section.ops)

theorem Spends.trans {s t u : Sys} (h : Spends s t) (h' : Spends t u) : Spends s u := by
  obtain ⟨-, a, ha, hs⟩ := h
  obtain ⟨hr, b, hb, ht⟩ := h'
  refine ⟨hr, a ++ b, by rw [hb, ha, List.append_assoc], ?_⟩
  rw [List.map_append, List.append_assoc]
  exact ((List.Sublist.refl _).append ht).trans hs

section Recorded

variable {cfg : Config} {s s' : Sys} {lab : Label} {used new : List Op}

theorem Spends.same (hr : s'.link.flags.recorded = true) (hold : s'.link.hold = s.link.hold)
    (log : s'.link.out.log = s.link.out.log) : Spends s s' :=
  ⟨hr, [], by rw [log, List.append_nil], by rw [hold]; exact .refl _⟩

/-- A section enqueues at most what it may. -/
theorem execSection_ops (l : Link) (key : Key) (x : Section) :
    ∃ ext, (l.execSection cfg key x).1.out.log = l.out.log ++ ext ∧
      (ext.map Entry.op? ++ (l.execSection cfg key x).2.flatMap Section.ops).Sublist x.ops := by
  have push {log : List Entry} {e : Entry} {t : List (Option UInt8)} (he : [e.op?] = t)
      (h : log = if l.out.box.live then l.out.log ++ [e] else l.out.log) :
      ∃ ext, log = l.out.log ++ ext ∧ (ext.map Entry.op? ++ []).Sublist t := by
    rw [h]
    split
    · exact ⟨[e], rfl, by rw [← he]; exact .refl _⟩
    · exact ⟨[], (List.append_nil _).symm, List.nil_sublist _⟩
  cases x with
  | pushFrame kind op payload =>
    rw [Link.execSection]
    dsimp only
    refine push (e := .frame kind ⟨true, op, payload, cfg.mask key⟩) rfl ?_
    split <;> exact Out.log_pushFrame ..
  | recheck op payload =>
    rw [Link.execSection]
    split
    · exact ⟨[], (List.append_nil _).symm, .refl _⟩
    · exact ⟨[], (List.append_nil _).symm, List.nil_sublist _⟩
  | pushHeartbeat sent =>
    exact push (e := .frame .heartbeat ⟨true, PING, cfg.token, cfg.mask key⟩) rfl (Out.log_pushHeartbeat ..)
  | pushShutdown => exact push (e := .shutdown) rfl (Out.log_pushShutdown ..)
  | clearPong => exact ⟨[], (List.append_nil _).symm, .refl _⟩
  | deferPong data => exact ⟨[], (List.append_nil _).symm, .refl _⟩

theorem answers_of_recorded {f : Flags} (h : f.recorded = true) : Link.answers f = false := by
  refine Bool.eq_false_iff.mpr fun ha => ?_
  rw [Discipline.recorded_of_answers ha] at h
  cases h

/-- Behind the end nothing is enqueued but what is under way, and `flags` keeps its record. -/
theorem Locked.still (h : Locked cfg s s' used) (closing : s.link.flags.state ≠ .opened)
    (silent : Link.answers s.link.flags = false)
    (quiet : ∀ op ∈ used, op.ends = false ∨ s.link.flags.state = .closed) :
    (∃ state, s'.link.flags = { s.link.flags with state := state }) ∧
      ((s'.link.hold = s.link.hold ∧ s'.link.out.log = s.link.out.log) ∨
        ∃ key x rest, s.link.hold = x :: rest ∧
          s'.link = { (s.link.execSection cfg key x).1 with hold := (s.link.execSection cfg key x).2 ++ rest }) := by
  have same (flags : s'.link.flags = s.link.flags) (hold : s'.link.hold = s.link.hold)
      (log : s'.link.out.log = s.link.out.log) :
      (∃ state, s'.link.flags = { s.link.flags with state := state }) ∧
        ((s'.link.hold = s.link.hold ∧ s'.link.out.log = s.link.out.log) ∨
          ∃ key x rest, s.link.hold = x :: rest ∧
            s'.link = { (s.link.execSection cfg key x).1 with hold := (s.link.execSection cfg key x).2 ++ rest }) :=
    ⟨⟨s.link.flags.state, flags⟩, .inl ⟨hold, log⟩⟩
  cases h with
  | other flags hold log => exact same flags hold log
  | turns free turns => exact ⟨turns.flags, .inl ⟨turns.hold, turns.log⟩⟩
  | @held key x rest hold link =>
    refine ⟨⟨s.link.flags.state, ?_⟩, .inr ⟨key, x, rest, hold, link⟩⟩
    rw [link]
    exact flags_execSection s.link key x
  | sent free legal link =>
    rw [Link.send, if_pos (.inl closing)] at link
    exact same (by rw [link]; rfl) (by rw [link]; rfl) (by rw [link]; rfl)
  | close free link =>
    unfold Link.close at link
    dsimp only at link
    split at link
    · exact same (by rw [link]; rfl) (by rw [link]; rfl) (by rw [link]; rfl)
    · exact absurd ‹_› closing
    · exact same (by rw [link]; rfl) (by rw [link]; rfl) (by rw [link]; rfl)
  | @took op free hused takes link =>
    have quiet := quiet op (by rw [hused]; exact List.mem_singleton_self op)
    have link : s'.link = s.link := by
      cases op with
      | handle m =>
        cases m with
        | ping data =>
          rw [Link.exec, Link.handle, Link.handlePing, if_neg (by rw [silent]; exact Bool.false_ne_true)] at link
          exact link
        | close status =>
          rw [Link.exec, Link.handle, Link.closing, if_pos (.inl (quiet.resolve_left Bool.noConfusion))] at link
          exact link
        | _ => exact link
      | violation f =>
        rw [Link.exec, Link.violate, if_pos (quiet.resolve_left Bool.noConfusion)] at link
        exact link
      | _ => cases takes
    exact same (by rw [link]) (by rw [link]) (by rw [link])
  | flushPong free run pc link =>
    unfold Link.flushPong at link
    dsimp only at link
    split at link
    · rw [if_neg (by rw [silent]; exact Bool.false_ne_true)] at link
      exact same (by rw [link]) (by rw [link]) (by rw [link]; rfl)
    · exact same (by rw [link]) (by rw [link]) (by rw [link]; rfl)
  | ping free state link => exact absurd state closing

theorem Discipline.closing_of_recorded (d : Discipline s.link) (hr : s.link.flags.recorded = true) :
    s.link.flags.state ≠ .opened := by
  intro hs
  have := d.unsent_of_opened hs
  rw [d.recorded hr] at this
  cases this

/-- A recorded end is not recorded again. -/
theorem Single.quiet (single : Single s) (hr : s.link.flags.recorded = true) (he : Effect cfg s lab s' used new) :
    ∀ op ∈ used, op.ends = false := by
  intro op hop
  refine Bool.eq_false_iff.mpr fun hends => ?_
  have pos := List.countP_pos_iff.mpr ⟨op, he.used_mem hop, hends⟩
  have once := single.once
  rw [hr, Bool.toNat_true] at once
  omega

/-- Once the end is recorded, `flags` is not taken to enqueue anything more. -/
theorem Spends.step (hr : s.link.flags.recorded = true) (d : Discipline s.link) (single : Single s)
    (he : Effect cfg s lab s' used new) : Spends s s' := by
  have quiet := single.quiet hr he
  obtain ⟨⟨state, flags⟩, still⟩ :=
    he.locked.still (d.closing_of_recorded hr) (answers_of_recorded hr) fun op hop => .inl (quiet op hop)
  have hr' : s'.link.flags.recorded = true := by
    rw [flags]
    exact hr
  rcases still with ⟨hold, log⟩ | ⟨key, x, rest, hold, link⟩
  · exact .same hr' hold log
  · obtain ⟨ext, hlog, hops⟩ := @execSection_ops cfg s.link key x
    refine ⟨hr', ext, by rw [link]; exact hlog, ?_⟩
    rw [link, hold, List.flatMap_cons, List.flatMap_append, ← List.append_assoc]
    exact hops.append_right _

/-- From then on at most the close frame, then at most one `Shutdown`. -/
theorem Discipline.pending (h : Discipline s.link) (hr : s.link.flags.recorded = true) :
    (s.link.hold.flatMap Section.ops).Sublist [some CLOSE, none] := by
  have sent := h.recorded hr
  have hh := h.hold
  generalize s.link.hold = hold at hh
  cases hh with
  | talk sections unsent => rw [sent] at unsent; cases unsent
  | reply sections unrecorded => rw [hr] at unrecorded; cases unrecorded
  | close unclosed sent rest =>
    rcases rest with rfl | ⟨rfl, -⟩
    · exact List.Sublist.cons_cons _ (List.nil_sublist _)
    · exact .refl _
  | shutdown => exact List.Sublist.cons _ (.refl _)
  | free => exact List.nil_sublist _

theorem spends_of_reachable {t : Sys} (h : Reachable (Sys.step cfg) (.init cfg) s) (ht : Reachable (Sys.step cfg) s t)
    (hr : s.link.flags.recorded = true) : Spends s t := by
  refine ht.invariant (I := Spends s) (.same hr rfl rfl) ?_
  intro u l v hu hI hv
  obtain ⟨used, new, he⟩ := step_effect hv
  exact hI.trans (.step hI.1 (.of_reachable (h.trans hu)) (.of_reachable (h.trans hu)) he)

end Recorded

/-! ## The order on the wire -/

section Order

variable {cfg : Config} {s : Sys}

/-- Opcodes tell the producers of a legal log apart. -/
theorem Entry.Legal.op_close {kind : Kind} {w : Wire} (h : (Entry.frame kind w).Legal cfg) (hop : w.op = CLOSE) :
    kind = .close := by
  obtain ⟨-, -, h⟩ := h
  have ne (op : UInt8) (ho : w.op = op) (hc : op ≠ CLOSE) : kind = .close := absurd (ho.symm.trans hop) hc
  cases kind with
  | app =>
    rcases h.2 with ⟨ho, -⟩ | ho | ⟨ho, -⟩
    · exact ne _ ho (by decide)
    · exact ne _ ho (by decide)
    · exact ne _ ho (by decide)
  | pong => exact ne _ h.1 (by decide)
  | deferred => exact ne _ h.1 (by decide)
  | heartbeat => exact ne _ h.1 (by decide)
  | close => rfl

theorem Entry.Legal.op_reply {kind : Kind} {w : Wire} (h : (Entry.frame kind w).Legal cfg)
    (hr : (Entry.frame kind w).isReply = true) : w.op = PONG := by
  cases kind with
  | pong => exact h.2.2.1
  | deferred => exact h.2.2.1
  | _ => cases hr

/-- Behind a close frame there are only pongs. -/
theorem frames_pairwise (h : Reachable (Sys.step cfg) (.init cfg) s) :
    s.frames.Pairwise fun a b => a.op = CLOSE → b.op = PONG := by
  have legal := (Sane.of_reachable h).link.log
  rw [Sys.frames, List.pairwise_filterMap]
  refine (Discipline.of_reachable h).log.imp_of_mem fun {a b} ha hb hab => ?_
  intro v hv w hw hop
  cases a with
  | shutdown => cases hv
  | frame kind v' =>
    cases b with
    | shutdown => cases hw
    | frame kind' w' =>
      cases hv
      cases hw
      cases (legal _ ha).op_close hop
      rcases hab.2 rfl with hr | hr
      · exact (legal _ hb).op_reply hr
      · cases hr

/-- A close frame of the log is accepted by a reader of the other role, whatever message is open. -/
theorem close_accepted (h : Reachable (Sys.step cfg) (.init cfg) s) {w : Wire} (hw : w ∈ s.frames) (hop : w.op = CLOSE)
    {r : Reader} {max : Nat} {p : Option Partial} (hr : r.At (!cfg.server) max p []) :
    ∃ status, (r.push w.bytes).message.2 = .ok (some (.close status)) := by
  obtain ⟨kind, hmem⟩ := mem_frames hw
  have legal := (Sane.of_reachable h).link.log _ hmem
  cases legal.op_close hop
  obtain ⟨hfin, hmask, -, hlen, status, hst⟩ := legal
  obtain ⟨fin, op, payload, mask⟩ := w
  obtain rfl : fin = true := hfin
  obtain rfl : op = CLOSE := hop
  have hnext : (decoder (!cfg.server) max).next p (Wire.bytes ⟨true, CLOSE, payload, mask⟩) =
      .item (some (.close status)) p [] := by
    have admits : Admits (!cfg.server) max p ⟨true, CLOSE, payload, mask⟩ := admits_control (.inl rfl) hmask hlen
    have := nextFrame_bytes admits []
    rw [List.append_nil] at this
    rw [decoder_next, this, verdict, assemblePayload_close, close_ok_iff.mpr ⟨status, hst, rfl⟩]
    rfl
  have hm := (hr.push (Wire.bytes ⟨true, CLOSE, payload, mask⟩)).message
  rw [List.nil_append, Lib.Incremental.Decoder.poll_some _ hnext] at hm
  exact ⟨status, hm.1⟩

/-- **Outbound closing discipline.** At most one close frame is ever enqueued, and behind it only
pongs. Once the peer's close or a violation is recorded, at most that close frame and then at most
one `Shutdown` are enqueued; nothing comes behind a `Shutdown`. Every close frame is one that a
reader of the opposite role accepts. -/
theorem closing_discipline {t : Sys} (hs : Reachable (Sys.step cfg) (.init cfg) s) (ht : Reachable (Sys.step cfg) s t) :
    s.frames.countP (fun w => w.op = CLOSE) ≤ 1 ∧
    (∀ a w b, s.frames = a ++ w :: b → w.op = CLOSE → ∀ v ∈ b, v.op = PONG) ∧
    (s.link.flags.received.isSome = true ∨ s.link.flags.failed.isSome = true →
      ∃ ext, t.link.out.log = s.link.out.log ++ ext ∧ (ext.map Entry.op?).Sublist [some CLOSE, none]) ∧
    (∀ a b, s.link.out.log = a ++ .shutdown :: b → b = []) ∧
    ∀ w ∈ s.frames, w.op = CLOSE → ∀ r max p, Reader.At r (!cfg.server) max p [] →
      ∃ status, (r.push w.bytes).message.2 = .ok (some (.close status)) := by
  have pairs := frames_pairwise hs
  refine ⟨countP_le_one (pairs.imp ?_), fun a w b heq hop => ?_, fun hr => ?_, fun a b heq => ?_,
    fun w hw hop r max p hr => close_accepted hs hw hop hr⟩
  · intro a b hab ha
    have hb := hab (of_decide_eq_true ha)
    exact decide_eq_false fun hc => absurd (hb.symm.trans hc) (by decide)
  · rw [heq, List.pairwise_append, List.pairwise_cons] at pairs
    exact fun v hv => pairs.2.1.1 v hv hop
  · have recorded : s.link.flags.recorded = true := by rwa [Flags.recorded, Bool.or_eq_true]
    obtain ⟨-, ext, hlog, hsub⟩ := spends_of_reachable hs ht recorded
    refine ⟨ext, hlog, ?_⟩
    exact (List.sublist_append_left ..).trans (hsub.trans ((Discipline.of_reachable hs).pending recorded))
  · have log := (Discipline.of_reachable hs).log
    rw [heq, List.pairwise_append, List.pairwise_cons] at log
    cases b with
    | nil => rfl
    | cons e b => exact absurd rfl (log.2.1.1 e List.mem_cons_self).1

end Order

/-- The steps in which a server's reader takes in an empty close frame. -/
def peerCloseRun : List Label :=
  [.reader, .reader, .reader, .reader, .input [0x88, 0x80, 0, 0, 0, 0], .reader, .reader, .reader]

/-- A server answers the peer's close: after it is recorded, a close frame and a `Shutdown` follow. -/
theorem closing_discipline_echo :
    ∃ s t, runs (Sys.step .small) (.init .small) (openRun ++ peerCloseRun) = some s ∧
      runs (Sys.step .small) s [.hold ⟨0, 0, 0, 0⟩, .hold ⟨0, 0, 0, 0⟩] = some t ∧
      s.link.flags.received.isSome = true ∧ t.link.out.log.map Entry.op? = [some CLOSE, none] ∧
      ∃ ext, t.link.out.log = s.link.out.log ++ ext ∧ (ext.map Entry.op?).Sublist [some CLOSE, none] :=
  have run : runs (Sys.step .small) (.init .small) (openRun ++ peerCloseRun) = some _ := rfl
  ⟨_, _, run, rfl, rfl, rfl, (closing_discipline ⟨_, run⟩ ⟨[.hold ⟨0, 0, 0, 0⟩, .hold ⟨0, 0, 0, 0⟩], rfl⟩).2.2.1 (.inl rfl)⟩

end WebSocket.Net
