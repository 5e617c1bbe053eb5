import WebSocket.Net.Heard

/-!
# Inbound events are a function of the input

The input of a link is one byte string, cut in any way between what the handshake left
over and the reads, with the end of the stream behind it. For a link that nobody closes
and nothing disturbs, the events about it are those of one `Reader` that gets the whole
string at once (`expected`): frames behind a close or a violation never show, and nothing
in front of them is lost.
-/

namespace WebSocket.Net

open Proto Lib.Incremental Lib.Transition

/-! ## What one reader makes of the input -/

/-- The events of decoded messages up to the first close, and `ending` if there is none. -/
def outline (cfg : Config) : List Msg → List Event → List Event
  | [], ending => ending
  | .close status :: _, _ => [.close (closeStatus status).1 (closeStatus status).2]
  | m :: ms, ending => due cfg m ++ outline cfg ms ending

/-- A failure is told and closes with its code; an input that just ends closes abnormally. -/
def ending : Option Fail → List Event
  | some f => [.error f.why, .close f.code .empty]
  | none => [.close 1006 .empty]

/-- The events of the input `b`, decoded in one go. -/
def expected (cfg : Config) (b : Bytes) : List Event :=
  let decoded := ((Reader.new cfg.server cfg.max).push b).drain
  outline cfg decoded.2.1 (ending decoded.2.2)

/-! ## Runs on an input -/

namespace Sys

/-- The step is undisturbed, is not a `close`, and reads what comes next of `b`. -/
def calm (cfg : Config) (b : Bytes) (s : Sys) (lab : Label) : Bool :=
  s.peaceful cfg lab && match lab with
    | .call (.close _ _) => false
    | .establish rest => rest.isPrefixOf b
    | .input bytes => (s.rd.inn ++ bytes).isPrefixOf b
    | .eof => decide (s.rd.inn = b)
    | _ => true

/-- The steps of a link with the input `b`. -/
def calmStep (cfg : Config) (b : Bytes) (s : Sys) (lab : Label) : Option Sys :=
  if s.calm cfg b lab then s.step cfg lab else none

end Sys

section Calm

variable {cfg : Config} {b : Bytes} {s s' : Sys} {lab : Label} {used new : List Op}

theorem calmStep_some (h : s.calmStep cfg b lab = some s') : s.calm cfg b lab = true ∧ s.step cfg lab = some s' := by
  rw [Sys.calmStep] at h
  split at h
  · exact ⟨‹_›, h⟩
  · cases h

theorem calm_reachable (h : Reachable (Sys.calmStep cfg b) (.init cfg) s) : Reachable (Sys.step cfg) (.init cfg) s :=
  h.invariant (.refl _) fun _ _ _ _ hu hv => hu.next (calmStep_some hv).2

theorem peaceful_of_calm (h : s.calm cfg b lab = true) : s.peaceful cfg lab = true := (Bool.and_eq_true_iff.mp h).1

theorem not_close_of_calm (h : s.calm cfg b lab = true) (code : UInt16) (reason : Str) :
    lab ≠ .call (.close code reason) := by
  rintro rfl
  cases (Bool.and_eq_true_iff.mp h).2

/-- The reader has left its loop. -/
def ReadPc.left : ReadPc → Bool
  | .dispatch last | .handled _ last => last
  | .leave | .flush | .flushing _ | .ending | .finished => true
  | _ => false

/-- What has been read of the input `b`. -/
structure Fed (b : Bytes) (s : Sys) : Prop where
  called : s.called = false
  rest : ∀ rest, s.task = .starting rest ∨ s.task = .opening rest → rest <+: b
  inn : s.rd.inn <+: b
  deadline : s.link.flags.deadline.isSome = true → s.link.flags.recorded = true
  left : s.rd.pc.left = true → s.link.flags.recorded = false → s.rd.inn = b

/-- Without a `close` of the application only the end of the conversation sets a deadline. -/
theorem Effect.deadline (h : Effect cfg s lab s' used new) (hlab : ∀ code reason, lab ≠ .call (.close code reason)) :
    s'.link.flags.deadline = s.link.flags.deadline ∨ s'.link.flags.recorded = true := by
  have took (op : Op) :
      (s.link.exec cfg op).1.flags.deadline = s.link.flags.deadline ∨
        (s.link.exec cfg op).1.flags.recorded = true := by
    by_cases ht : op.takes = true
    · exact (closing_took cfg s.link ht).symm.imp (fun h => by rw [h]) id
    · left
      cases op with
      | emit e => rw [Link.exec]; dsimp only; split <;> rfl
      | finish code reason => rw [Link.exec]; split <;> rfl
      | handle m => exact absurd rfl ht
      | violation f => exact absurd rfl ht
      | _ => rfl
  cases h with
  | env q => exact .inl (by rw [q.flags])
  | left q => exact .inl (by rw [Sys.spawn, q.flags])
  | sent => exact .inl (by rw [flags_send])
  | close free valid short h => exact absurd h (hlab _ _)
  | held h => exact .inl (by rw [flags_holdStep h])
  | flushPong => exact .inl (by rw [flags_flushPong])
  | execPool ops free => exact took _
  | execReader run ops free => exact took _
  | execWriter run ops free => exact took _
  | _ => exact .inl rfl

/-- What waits for the reader to start was left over by the handshake. -/
theorem Effect.rest (he : Effect cfg s lab s' used new) {rest : Bytes}
    (ht : s'.task = .starting rest ∨ s'.task = .opening rest) :
    (s.task = .starting rest ∨ s.task = .opening rest) ∨ lab = .establish rest := by
  cases he with
  | connected task hlab =>
    rcases ht with ht | ht <;> cases ht
    exact .inr hlab
  | opened task =>
    rcases ht with ht | ht <;> cases ht
    exact .inl (.inl task)
  | started => rcases ht with ht | ht <;> cases ht
  | left => rcases ht with ht | ht <;> cases ht
  | _ => exact .inl ht

/-- The input grows by reads, and begins with what waited for the reader. -/
theorem Effect.inn (he : Effect cfg s lab s' used new) :
    s'.rd.inn = s.rd.inn ∨ (∃ bytes, lab = .input bytes ∧ s'.rd.inn = s.rd.inn ++ bytes) ∨
      s.task = .opening s'.rd.inn := by
  cases he with
  | reading run idle h =>
    cases h with
    | input pc hlab => exact .inr (.inl ⟨_, hlab, rfl⟩)
    | _ => exact .inl rfl
  | started task => exact .inr (.inr task)
  | _ => exact .inl rfl

/-- An undisturbed reader leaves its loop at the end of the stream or at the close deadline. -/
theorem Next.leaves (course : Course cfg s) {pc : ReadPc} (h : Next cfg s lab pc) (hl : pc.left = true) :
    s.rd.pc.left = true ∨ lab = .eof ∨
      lab = .reader ∧ s.rd.pc = .check ∧ s.link.flags.deadline.any (· ≤ s.link.now) = true := by
  have alive {pc' : ReadPc} (hpc : s.rd.pc = pc') (hne : pc' ≠ .finished) : s.state ≠ .closed := by
    intro hc
    exact hne (hpc.symm.trans (course.closed hc))
  cases h with
  | eof pc hlab => exact .inr (.inl hlab)
  | expired pc hlab h => exact .inr (.inr ⟨hlab, pc, h.resolve_left (alive pc nofun)⟩)
  | stopped pc h => rcases pc with pc | pc <;> exact absurd (course.stopped h) (alive pc nofun)
  | again pc => exact .inl (by rw [pc]; exact hl)
  | final pc => exact .inl (by rw [pc]; rfl)
  | flush pc => exact .inl (by rw [pc]; rfl)
  | unrecorded pc => exact .inl (by rw [pc]; rfl)
  | flushing pc => exact .inl (by rw [pc]; rfl)
  | flushed pc => exact .inl (by rw [pc]; rfl)
  | _ => cases hl

theorem Effect.leaves (he : Effect cfg s lab s' used new) (course : Course cfg s) (peace : s.peaceful cfg lab = true)
    (hl : s'.rd.pc.left = true) :
    s'.rd.inn = s.rd.inn ∧ (s.rd.pc.left = true ∨ lab = .eof ∨
      lab = .reader ∧ s.rd.pc = .check ∧ s.link.flags.deadline.any (· ≤ s.link.now) = true) := by
  have after {last : Bool} (h : (Sys.afterDispatch last).left = true) : last = true := by
    cases last with
    | false => cases h
    | true => rfl
  cases he with
  | reading run idle h =>
    cases h with
    | goto h => exact ⟨rfl, h.leaves course hl⟩
    | hub pc h => rw [course.hub] at h; cases h
    | silent pc => exact ⟨rfl, .inl (by rw [pc]; exact after hl)⟩
    | stop pc => exact ⟨rfl, .inl (by rw [pc]; exact after hl)⟩
    | ending pc => exact ⟨rfl, .inl (by rw [pc]; rfl)⟩
    | error pc hlab => rw [hlab] at peace; cases peace
    | dead pc hlab verdict =>
      rw [hlab, Sys.peaceful, pc] at peace
      exact absurd verdict (of_decide_eq_true peace)
    | _ => cases hl
  | decoded run idle pc => exact ⟨rfl, .inl (by rw [pc]; exact hl)⟩
  | failed run idle pc => exact ⟨rfl, .inl (by rw [pc]; exact hl)⟩
  | ping => cases hl
  | started task =>
    rw [(course.idle_of_early (by rw [task]; simp) (by rw [task]; simp)).2] at hl
    cases hl
  | _ => exact ⟨rfl, .inl hl⟩

theorem Fed.rest_step (fed : Fed b s) (he : Effect cfg s lab s' used new) (calm : s.calm cfg b lab = true)
    (rest : Bytes) (ht : s'.task = .starting rest ∨ s'.task = .opening rest) : rest <+: b := by
  rcases he.rest ht with ht | hlab
  · exact fed.rest rest ht
  · rw [hlab] at calm
    exact List.isPrefixOf_iff_prefix.mp (Bool.and_eq_true_iff.mp calm).2

theorem Fed.inn_step (fed : Fed b s) (he : Effect cfg s lab s' used new) (calm : s.calm cfg b lab = true) :
    s'.rd.inn <+: b := by
  rcases he.inn with inn | ⟨bytes, hlab, inn⟩ | task
  · rw [inn]
    exact fed.inn
  · rw [hlab] at calm
    rw [inn]
    exact List.isPrefixOf_iff_prefix.mp (Bool.and_eq_true_iff.mp calm).2
  · exact fed.rest _ (.inr task)

/-- The reader leaves its loop at the end of the input, or because the conversation has ended. -/
theorem Fed.left_step (fed : Fed b s) (course : Course cfg s) (he : Effect cfg s lab s' used new)
    (calm : s.calm cfg b lab = true) (hl : s'.rd.pc.left = true) (hr' : s'.link.flags.recorded = false) :
    s'.rd.inn = b := by
  have hr : s.link.flags.recorded = false :=
    Bool.eq_false_iff.mpr fun ht => Bool.eq_false_iff.mp hr' (he.locked.stays_recorded ht)
  obtain ⟨inn, left | hlab | ⟨-, -, hd⟩⟩ := he.leaves course (peaceful_of_calm calm) hl
  · rw [inn]
    exact fed.left left hr
  · rw [hlab] at calm
    rw [inn]
    exact of_decide_eq_true (Bool.and_eq_true_iff.mp calm).2
  · have some : s.link.flags.deadline.isSome = true := by
      cases hs : s.link.flags.deadline with
      | none => rw [hs] at hd; cases hd
      | some d => rfl
    rw [fed.deadline some] at hr
    cases hr

theorem Fed.step (fed : Fed b s) (course : Course cfg s) (he : Effect cfg s lab s' used new)
    (calm : s.calm cfg b lab = true) : Fed b s' where
  called := (he.called_eq (not_close_of_calm calm)).trans fed.called
  rest := fed.rest_step he calm
  inn := fed.inn_step he calm
  deadline := by
    intro hd
    rcases he.deadline (not_close_of_calm calm) with h | h
    · exact he.locked.stays_recorded (fed.deadline (h ▸ hd))
    · exact h
  left := fed.left_step course he calm

/-- A link on its way through the input `b`. -/
structure Calm (cfg : Config) (b : Bytes) (s : Sys) : Prop where
  course : Course cfg s
  account : Account cfg s
  fed : Fed b s

theorem Calm.of_reachable (h : Reachable (Sys.calmStep cfg b) (.init cfg) s) : Calm cfg b s := by
  refine h.invariant ⟨.init cfg, .init cfg, ?_⟩ ?_
  · exact ⟨rfl, fun _ h => h.elim nofun nofun, List.nil_prefix, nofun, nofun⟩
  · intro u lab v hu hI hv
    obtain ⟨calm, hstep⟩ := calmStep_some hv
    obtain ⟨used, new, he⟩ := step_effect hstep
    have peace := peaceful_of_calm calm
    exact ⟨hI.course.step he peace, hI.account.step hI.course (calm_reachable hu) he peace,
      hI.fed.step hI.course he calm⟩

/-! ## The events against the input -/

theorem outline_append {ms : List Msg} (plain : ∀ m ∈ ms, Sys.isClose m = false) (rest : List Msg) (e : List Event) :
    outline cfg (ms ++ rest) e = ms.flatMap (due cfg) ++ outline cfg rest e := by
  induction ms with
  | nil => rfl
  | cons m ms ih =>
    rw [List.forall_mem_cons] at plain
    have head : outline cfg (m :: (ms ++ rest)) e = due cfg m ++ outline cfg (ms ++ rest) e := by
      cases m with
      | close status => cases plain.1
      | _ => rfl
    rw [List.cons_append, head, ih plain.2, List.flatMap_cons, List.append_assoc]

theorem outline_plain {ms : List Msg} (plain : ∀ m ∈ ms, Sys.isClose m = false) (e : List Event) :
    outline cfg ms e = ms.flatMap (due cfg) ++ e := by
  have h := @outline_append cfg ms plain [] e
  rwa [List.append_nil] at h

/-- The failure of an outcome. -/
def failure {α : Type} : Except Fail α → Option Fail
  | .error f => some f
  | .ok _ => none

/-- The events an outcome of the decoder stands for. -/
def forecast (cfg : Config) (o : Decoder.Outcome (Option Partial) UInt8 Msg Fail) : List Event :=
  outline cfg o.1 (ending (failure o.2))

theorem expected_eq (cfg : Config) (b : Bytes) :
    expected cfg b = forecast cfg ((decoder cfg.server cfg.max).drain none b) := by
  have reports := ((Reader.new_at cfg.server cfg.max).push b).drain
  rw [List.nil_append] at reports
  obtain ⟨hms, hres⟩ := reports
  rw [expected, forecast, hms]
  cases hr : ((decoder cfg.server cfg.max).drain none b).2 with
  | error f =>
    rw [hr] at hres
    rw [show _ = some f from hres]
    rfl
  | ok left =>
    rw [hr] at hres
    rw [hres.1]
    rfl

/-- A closed link has told everything it had in hand. -/
theorem Course.told_all (course : Course cfg s) (hc : s.state = .closed) :
    s.owed cfg = [] ∧ ∀ op ∈ s.rd.ops, op.ends = false := by
  rcases course.final (course.closed hc) with ⟨-, clears⟩ | ⟨hne, -⟩
  · refine ⟨?_, fun op hop => ?_⟩
    · rw [Sys.owed, List.flatMap_eq_nil_iff]
      intro op hop
      have := clears op hop
      cases op <;> first | rfl | cases this
    · have := clears op hop
      cases op <;> first | rfl | cases this
  · exact absurd hc hne

/-- What is told, in hand, and still to come makes up what the input stands for; nothing is to come
once the link is closed. -/
theorem Calm.complete (h : Calm cfg b s) (single : Single s) :
    ∃ x, s.told ++ s.owed cfg ++ x = expected cfg b ∧ (s.state = .closed → x = []) := by
  obtain ⟨course, ⟨tail, heard, told⟩, fed⟩ := h
  obtain ⟨u, hu⟩ := fed.inn
  rw [told.all fed.called, Sys.script]
  -- the close that is told last, or is still to come
  have closes (st : UInt16 × Str) {y : List Event} (hx : y = [.close st.1 st.2])
      (status : s.state = .closed → Link.endStatus s.link.flags = st) :
      ∃ x, s.last ++ x = y ∧ (s.state = .closed → x = []) := by
    by_cases hc : s.state = .closed
    · exact ⟨[], by rw [Sys.last, if_pos hc, status hc, hx]; rfl, fun _ => rfl⟩
    · exact ⟨y, by rw [last_nil hc]; rfl, fun h => absurd h hc⟩
  have he : expected cfg b = forecast cfg (s.whole cfg u) := by
    rw [expected_eq, ← hu]
    rfl
  cases heard with
  | parsing parses here plain whole =>
    have alive : s.state ≠ .closed := by
      intro hc
      rw [course.closed hc] at here
      cases here
    rw [whole u, forecast, outline_append plain] at he
    refine ⟨forecast cfg (s.rd.reader.ahead u), ?_, fun hc => absurd hc alive⟩
    rw [last_nil alive, List.append_nil, List.append_nil, he]
    rfl
  | @closing ms status silent plain decoded whole record =>
    obtain ⟨ms', hms⟩ := whole u
    rw [forecast, ← hms, decoded, List.append_assoc, outline_append plain] at he
    obtain ⟨x, hx, hcx⟩ := closes (closeStatus status) rfl fun hc => by
      rcases record with ⟨ho, -⟩ | hr
      · cases (course.told_all hc).2 _ ho
      · rw [Link.endStatus, hr]
    refine ⟨x, ?_, hcx⟩
    rw [he, decoded]
    simp only [List.flatMap_append, List.append_assoc, List.nil_append, hx]
    rfl
  | @failing f silent plain whole record =>
    rw [whole u, forecast, outline_plain plain] at he
    obtain ⟨x, hx, hcx⟩ := closes (f.code, .empty) rfl fun hc => by
      rcases record with ⟨ho, -⟩ | ⟨hr, hf⟩
      · cases (course.told_all hc).2 _ ho
      · rw [Link.endStatus, hr, hf]
    refine ⟨x, ?_, hcx⟩
    rw [he]
    simp only [List.append_assoc, hx]
    rfl
  | ended parses past plain whole =>
    obtain ⟨left, whole⟩ := whole
    have fresh := (single.fresh parses).2
    have hleft : s.rd.pc.left = true := by
      revert past
      cases s.rd.pc <;> first | exact fun _ => rfl | exact fun h => by cases h
    obtain rfl : u = [] := by
      have := fed.left hleft fresh
      rw [this] at hu
      simpa using hu
    rw [whole, forecast, outline_plain plain] at he
    obtain ⟨x, hx, hcx⟩ := closes (1006, .empty) rfl fun _ => by
      have hr := Bool.or_eq_false_iff.mp fresh
      rw [Link.endStatus, show s.link.flags.received = none by simpa using hr.1,
        show s.link.flags.failed = none by simpa using hr.2]
    refine ⟨x, ?_, hcx⟩
    rw [he]
    simp only [List.append_assoc, List.nil_append, hx]
    rfl

/-- **Inbound events are a function of the input.** Whatever the cuts, the hub has been told a beginning
of what the input stands for, and all of it once the link is closed. -/
theorem inbound_events (h : Reachable (Sys.calmStep cfg b) (.init cfg) s) :
    s.sentEvents.filter Event.isTold <+: expected cfg b ∧
      (s.state = .closed → s.sentEvents.filter Event.isTold = expected cfg b) := by
  have reach := calm_reachable h
  have calm := Calm.of_reachable h
  obtain ⟨x, hx, hc⟩ := calm.complete (Single.of_reachable reach)
  have told : s.sentEvents.filter Event.isTold = s.told := by
    rw [(Taken.of_reachable reach).all calm.course.hub]
    rfl
  rw [told]
  refine ⟨⟨s.owed cfg ++ x, by rw [← List.append_assoc]; exact hx⟩, fun closed => ?_⟩
  rw [hc closed, (calm.course.told_all closed).1, List.append_nil, List.append_nil] at hx
  exact hx

/-- A masked ping with no data. -/
def pingBytes : Bytes := [0x89, 0x80, 0, 0, 0, 0]

/-- The link reads one ping, answers it and comes to the end of the stream. -/
def pingRun : List Label :=
  openRun ++ List.replicate 4 .reader ++ [.input pingBytes] ++ List.replicate 3 .reader ++
    [.hold ⟨0, 0, 0, 0⟩, .hold ⟨0, 0, 0, 0⟩] ++ List.replicate 9 .reader ++ [.eof] ++ List.replicate 6 .reader

/-- One ping and the end of the stream: the ping is told, and an abnormal close. -/
theorem inbound_events_ping :
    ∃ s, runs (Sys.calmStep .small pingBytes) (.init .small) pingRun = some s ∧ s.state = .closed ∧
      expected .small pingBytes = [.ping [], .close 1006 .empty] ∧
      s.sentEvents.filter Event.isTold = expected .small pingBytes :=
  ⟨_, rfl, rfl, rfl, (@inbound_events .small pingBytes _ ⟨pingRun, rfl⟩).2 rfl⟩

end Calm

end WebSocket.Net
