import WebSocket.Net.Drain
import WebSocket.Net.Lifecycle

/-!
# The drain owed to a refused send

There is one slot for a refused length, and every refusal writes it. While each refused
frame is no longer than the one registered before it (`Sys.modest`), the registered length
is the least of those refused since the last report, so no refused frame fits before the
report. A longer frame postpones the report to the shorter ones refused before it
(`drain_postponed`).
-/

namespace WebSocket.Net

open Proto Lib.Transition Lib.History

/-- The refusal of a frame with this payload. -/
def Obs.refusal (op : UInt8) (payload : Bytes) : Obs := .returned op payload (.error "send buffer is full")

/-- A frame with this payload would be accepted. -/
def Sys.Fits (cfg : Config) (s : Sys) (payload : Bytes) : Prop :=
  s.link.out.box.buffered = 0 ∨
    s.link.out.box.buffered + encodedLen payload.length (!cfg.server) ≤ cfg.buffer

namespace Sys

/-- The step does not refuse a longer frame than the one that is registered. -/
def modest (cfg : Config) (s : Sys) : Label → Bool
  | .hold _ =>
    match s.link.hold, s.drain with
    | .recheck _ payload :: _, some len =>
      s.link.out.box.fits cfg (encodedLen payload.length (!cfg.server)) ||
        decide (encodedLen payload.length (!cfg.server) ≤ len)
    | _, _ => true
  | _ => true

/-- The steps of a link that is never refused a longer frame while a shorter one is registered. -/
def modestStep (cfg : Config) (s : Sys) (lab : Label) : Option Sys :=
  if s.modest cfg lab then s.step cfg lab else none

end Sys

section Refusal

variable {cfg : Config} {s s' : Sys} {lab : Label} {used new : List Op}

theorem modestStep_some (h : s.modestStep cfg lab = some s') : s.modest cfg lab = true ∧ s.step cfg lab = some s' := by
  rw [Sys.modestStep] at h
  split at h
  · exact ⟨‹_›, h⟩
  · cases h

theorem modest_reachable (h : Reachable (Sys.modestStep cfg) (.init cfg) s) : Reachable (Sys.step cfg) (.init cfg) s :=
  h.invariant (.refl _) fun _ _ _ _ hu hv => hu.next (modestStep_some hv).2

/-! ## The registration is the least length refused -/

/-- Everything refused since the last report is at least as long as what is registered. -/
def Least (cfg : Config) (s : Sys) : Prop :=
  ∀ a op payload b, s.link.trace = a ++ .refusal op payload :: b → (∀ o ∈ b, ¬ o.IsReport) →
    ∃ len, s.drain = some len ∧ len ≤ encodedLen payload.length (!cfg.server)

/-- One more observation leaves an earlier one where it was. -/
theorem before_quiet {t u a b : List Obs} {x : Obs} (h : t ++ u = a ++ x :: b) (hx : x ∉ u) :
    ∃ d, t = a ++ x :: d ∧ b = d ++ u := by
  rcases List.append_eq_append_iff.mp h with ⟨l, rfl, hl⟩ | ⟨l, rfl, hl⟩
  · exact absurd (by rw [hl]; simp) hx
  · cases l with
    | nil =>
      rw [List.nil_append] at hl
      exact absurd (by rw [← hl]; exact List.mem_cons_self ..) hx
    | cons y l =>
      rw [List.cons_append, List.cons.injEq] at hl
      exact ⟨l, by rw [hl.1], hl.2⟩

theorem Least.step (h : Least cfg s) (hr : Registers cfg s lab s') (modest : s.modest cfg lab = true) :
    Least cfg s' := by
  intro a op payload b ht none
  cases hr with
  | keeps drain trace quiet accepts =>
    obtain ⟨d, hd, rfl⟩ := before_quiet (trace.symm.trans ht) fun hm => accepts _ hm ⟨_, _, rfl⟩
    rw [drain]
    exact h a op payload d hd fun o ho => none o (List.mem_append_left _ ho)
  | @refuses key op' payload' rest hlab hold full drain trace =>
    refine ⟨_, drain, ?_⟩
    rcases snoc_cases (trace.symm.trans ht) with ⟨heq, -⟩ | ⟨d, hd⟩
    · cases heq
      exact Nat.le_refl _
    · -- an earlier refusal: its registration is the one overwritten, with a length that is no greater
      have hb : b = d ++ [.refusal op' payload'] := by
        have := trace.symm.trans ht
        rw [hd, List.append_assoc, List.append_cancel_left_eq, List.cons_append, List.cons.injEq] at this
        exact this.2.symm
      obtain ⟨len, hlen, hle⟩ := h a op payload d hd fun o ho =>
        none o (by rw [hb]; exact List.mem_append_left _ ho)
      rw [hlab, Sys.modest, hold, hlen] at modest
      dsimp only at modest
      rw [full, Bool.false_or, decide_eq_true_eq] at modest
      exact modest.trans hle
  | reports progress trace =>
    rcases snoc_cases (trace.symm.trans ht) with ⟨heq, -⟩ | ⟨d, hd⟩
    · cases heq
    · have := trace.symm.trans ht
      rw [hd, List.append_assoc, List.append_cancel_left_eq, List.cons_append, List.cons.injEq] at this
      exact absurd ⟨_, _, rfl⟩ (none _ (by rw [← this.2]; exact List.mem_append_right _ (List.mem_singleton_self _)))

theorem Least.of_reachable (h : Reachable (Sys.modestStep cfg) (.init cfg) s) : Least cfg s := by
  refine h.invariant ?_ ?_
  · intro a op payload b ht
    exact absurd ht (by simp [Sys.init, Link.new])
  · intro u lab v hu hI hv
    obtain ⟨modest, hstep⟩ := modestStep_some hv
    obtain ⟨used, new, he⟩ := step_effect hstep
    exact hI.step he.registers modest

/-! ## A report is told -/

/-- A report is followed by its `Drain`, unless the writer is about to emit it or the link is closed. -/
def Announced (s : Sys) : Prop :=
  ∀ a x b, s.link.trace = a ++ x :: b → x.IsReport →
    (∃ o ∈ b, o.IsDrain) ∨ s.wr.ops = [.emit .drain] ∨ s.state = .closed

theorem Announced.next (h : Announced s) {t : List Obs} (trace : s'.link.trace = s.link.trace ++ t)
    (quiet : ∀ o ∈ t, ¬ o.IsReport) (rank : s.state.rank ≤ s'.state.rank)
    (wr : s.wr.ops = [.emit .drain] → s'.wr.ops = [.emit .drain] ∨ s'.state = .closed ∨ ∃ o ∈ t, o.IsDrain) :
    Announced s' := by
  intro a x b ht hx
  obtain ⟨d, hd, rfl⟩ := before_quiet (trace.symm.trans ht) fun hm => quiet x hm hx
  rcases h a x d hd hx with ⟨o, ho, hdrain⟩ | hops | hc
  · exact .inl ⟨o, List.mem_append_left _ ho, hdrain⟩
  · rcases wr hops with h | h | ⟨o, ho, hdrain⟩
    · exact .inr (.inl h)
    · exact .inr (.inr h)
    · exact .inl ⟨o, List.mem_append_right _ ho, hdrain⟩
  · refine .inr (.inr ?_)
    rw [hc] at rank
    revert rank
    cases s'.state <;> simp [State.rank]

/-- What a step leaves of a `Drain` that the writer is about to emit. -/
theorem Effect.drain_kept (h : Effect cfg s lab s' used new) (hops : s.wr.ops = [.emit .drain]) :
    s'.wr.ops = [.emit .drain] ∨ s'.state = .closed ∨ s'.link.trace = s.link.trace ++ [.event .drain (!s.link.hubClosed)] := by
  have busy {P : Prop} (idle : s.wr.ops = []) : P := by
    rw [hops] at idle
    cases idle
  cases h with
  | @execWriter op rest run ops free =>
    rw [hops] at ops
    cases ops
    refine .inr ?_
    rw [Sys.state, Link.exec]
    dsimp only
    split
    · exact .inl ‹_›
    · exact .inr rfl
  | writing run idle => exact busy idle
  | swap run idle => exact busy idle
  | flushPong run idle => exact busy idle
  | pop run idle => exact busy idle
  | write run idle => exact busy idle
  | progress run idle => exact busy idle
  | drain run idle => exact busy idle
  | stamp run idle => exact busy idle
  | finish run idle => exact busy idle
  | endShutdown run idle => exact busy idle
  | _ => exact .inl hops

theorem Announced.step (h : Announced s) (he : Effect cfg s lab s' used new) : Announced s' := by
  have rank := he.lives.rank_le
  have kept {t : List Obs} (trace : s'.link.trace = s.link.trace ++ t) (hops : s.wr.ops = [.emit .drain]) :
      s'.wr.ops = [.emit .drain] ∨ s'.state = .closed ∨ ∃ o ∈ t, o.IsDrain := by
    refine (he.drain_kept hops).imp_right (Or.imp_right fun ht => ?_)
    rw [List.append_cancel_left (trace.symm.trans ht)]
    exact ⟨_, List.mem_singleton_self _, _, rfl⟩
  cases he.registers with
  | keeps drain trace quiet => exact h.next trace quiet rank (kept trace)
  | refuses hlab hold full drain trace =>
    exact h.next trace (List.forall_mem_singleton.mpr not_report_returned) rank (kept trace)
  | reports progress trace next =>
    -- the report itself: its `Drain` is the writer's next section
    exact fun _ _ _ _ _ => .inr (.inl next)

theorem Announced.of_reachable (h : Reachable (Sys.step cfg) (.init cfg) s) : Announced s := by
  refine h.invariant ?_ ?_
  · intro a x b ht
    exact absurd ht (by simp [Sys.init, Link.new])
  · intro u lab v hu hI hv
    obtain ⟨used, new, he⟩ := step_effect hv
    exact hI.step he

/-! ## The promise -/

/-- **A drain is owed to every refused send.** If no frame is refused that is longer than the registered
one, a refused frame fits in an open link only after a report since its refusal, and once the
writer is through with the report its `Drain` is out. -/
theorem drain_owed (h : Reachable (Sys.modestStep cfg) (.init cfg) s) (opened : s.state = .opened)
    {a b : List Obs} {op : UInt8} {payload : Bytes} (ht : s.link.trace = a ++ .refusal op payload :: b)
    (fits : s.Fits cfg payload) :
    (∃ o ∈ b, o.IsReport) ∧ (s.wr.ops = [] → ∃ o ∈ b, o.IsDrain) := by
  have reach := modest_reachable h
  have report : ∃ o ∈ b, o.IsReport := by
    by_contra none
    obtain ⟨len, hlen, hle⟩ := Least.of_reachable h a op payload b ht fun o ho hr => none ⟨o, ho, hr⟩
    have blocked := Outbox.room_eq_false_iff.mp (Blocked.of_reachable reach len hlen)
    have sum : saturatingAdd s.link.out.box.buffered len ≤ s.link.out.box.buffered + len := Nat.min_le_left ..
    rcases fits with h0 | hfit
    · exact blocked.1 h0
    · omega
  refine ⟨report, fun idle => ?_⟩
  obtain ⟨x, hx, hr⟩ := report
  obtain ⟨b₁, b₂, rfl⟩ := List.append_of_mem hx
  have split : s.link.trace = (a ++ .refusal op payload :: b₁) ++ x :: b₂ := by
    rw [ht, List.append_assoc, List.cons_append]
  rcases Announced.of_reachable reach _ x b₂ split hr with ⟨o, ho, hd⟩ | hops | hc
  · exact ⟨o, List.mem_append_right _ (List.mem_cons_of_mem _ ho), hd⟩
  · rw [idle] at hops
    cases hops
  · rw [opened] at hc
    cases hc

/-- The writer takes two bytes of a frame and reports them. -/
def twoBytesRun : List Label := [.writer, .writer, .write 2, .writer]

/-- A refused frame of four bytes fits once two of the four buffered are written, and its `Drain` is told. -/
theorem drain_owed_told :
    ∃ s, runs (Sys.modestStep .small) (.init .small)
        (openRun ++ sendRun ++ sendRun ++ twoBytesRun ++ [.writer, .writer]) = some s ∧
      s.state = .opened ∧ s.wr.ops = [] ∧ s.Fits .small [7, 8] ∧
      ∃ a b, s.link.trace = a ++ .refusal BINARY [7, 8] :: b ∧ ∃ o ∈ b, o.IsDrain :=
  ⟨_, rfl, rfl, rfl, .inr (by decide), [_, _], _, rfl,
    (@drain_owed .small _ ⟨openRun ++ sendRun ++ sendRun ++ twoBytesRun ++ [.writer, .writer], rfl⟩ rfl
      [_, _] _ BINARY [7, 8] rfl (.inr (by decide))).2 rfl⟩

/-- A frame of four bytes is refused, then one of six. When two of the four buffered bytes are written
the first fits, and nothing is reported: the registration is the second's. -/
theorem drain_postponed :
    ∃ s s', runs (Sys.step .small) (.init .small)
        (openRun ++ sendRun ++ sendRun ++
          [.call (.send ⟨[1, 2, 3, 4], by decide⟩ true), .hold ⟨0, 0, 0, 0⟩] ++ [.writer, .writer, .write 2]) = some s ∧
      s.step .small .writer = some s' ∧ s.wr.pc = .wrote ∧ s.wr.ops = [] ∧
      s'.state = .opened ∧ s'.wr.ops = [] ∧ s'.Fits .small [7, 8] ∧
      ∃ a b, s'.link.trace = a ++ .refusal BINARY [7, 8] :: b ∧ ∀ o ∈ b, ¬ o.IsReport ∧ ¬ o.IsDrain :=
  ⟨_, _, rfl, rfl, rfl, rfl, rfl, rfl, .inr (by decide), [_, _], [.refusal BINARY [1, 2, 3, 4]], rfl,
    List.forall_mem_singleton.mpr ⟨not_report_returned, fun ⟨_, h⟩ => nomatch h⟩⟩

end Refusal

end WebSocket.Net
