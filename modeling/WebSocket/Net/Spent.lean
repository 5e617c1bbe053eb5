import WebSocket.Net.Graceful

/-!
# A sending side that is shut down

The peer takes the end of the stream for the end of the conversation, so a sending side may
be shut down only behind everything that was enqueued, with the close frame in it. `Spent`
is such a link: it has written all there is, and there will not be more (`Spent.step`).

The writer shuts the sending side down when it comes to the `Shutdown` of its batch. That
entry is the last of the log, and by then it is alone in the batch (`spent_of_shutdown`).
-/

namespace WebSocket.Net

open Proto Lib.Transition

/-- Everything enqueued is written, a close frame among it, and nothing will be enqueued any more. -/
structure Spent (s : Sys) : Prop where
  shut : Over s
  wire : s.link.out.wire = s.frames.flatMap Wire.bytes
  close : ∃ w ∈ s.frames, w.op = CLOSE

section Steps

variable {cfg : Config} {s s' : Sys} {lab : Label} {used new : List Op}

/-- What is written stays written. -/
theorem OutStep.wire_grow {o o' : Out} (h : OutStep cfg o o') : o.wire <+: o'.wire := by
  cases h with
  | swap live hs =>
    obtain ⟨-, -, rfl⟩ := Out.swap_some hs
    exact List.prefix_refl _
  | pop hs =>
    obtain ⟨-, item, t, -, rfl⟩ := Out.pop_some hs
    exact List.prefix_refl _
  | write hs =>
    obtain ⟨c, -, -, -, -, rfl⟩ := Out.write_some hs
    exact List.prefix_append ..
  | progress hs =>
    obtain ⟨c, -, -, -, rfl⟩ := Out.progress_some hs
    exact List.prefix_refl _
  | finish hs =>
    obtain ⟨c, -, -, -, rfl⟩ := Out.finish_some hs
    exact List.prefix_refl _
  | _ => exact List.prefix_refl _

theorem Effect.wire_grow (he : Effect cfg s lab s' used new) (sane : Sane cfg s) :
    s.link.out.wire <+: s'.link.out.wire := by
  rcases he.out sane.link.hold with out | out
  · exact (congrArg Out.wire out).symm ▸ List.prefix_refl _
  · exact out.wire_grow

theorem Spent.step (h : Spent s) (reach : Reachable (Sys.step cfg) (.init cfg) s) (hs : s.step cfg lab = some s') :
    Spent s' := by
  obtain ⟨used, new, he⟩ := step_effect hs
  obtain ⟨shut, log⟩ := h.shut.step (.of_reachable reach) (.of_reachable reach) he
  have frames : s'.frames = s.frames := by rw [Sys.frames, log, Sys.frames]
  refine ⟨shut, ?_, by rw [frames]; exact h.close⟩
  -- what was written before is all there is to write
  have before := he.wire_grow (.of_reachable reach)
  have after := wire_beginning (reach.next hs)
  rw [frames, ← h.wire] at after
  rw [frames, ← h.wire]
  exact after.eq_of_length_le before.length_le

/-- Behind the `Shutdown` nobody holds `flags`. -/
theorem Discipline.over_of_shutdown (d : Discipline s.link) (mem : .shutdown ∈ s.link.out.log) : Over s := by
  have recorded : s.link.flags.recorded = true := by
    cases hr : s.link.flags.recorded with
    | true => rfl
    | false => exact absurd mem (d.unrecorded hr)
  refine ⟨?_, .inl recorded⟩
  have held := d.hold
  have sent := d.recorded recorded
  generalize s.link.hold = hold at held
  cases held with
  | talk sections unsent => rw [sent] at unsent; cases unsent
  | reply sections unrecorded => rw [recorded] at unrecorded; cases unrecorded
  | close unclosed => cases unclosed _ mem
  | shutdown open_ => exact absurd mem open_
  | free => rfl

theorem shutdown_mem_tokens {es : List Entry} (h : .shutdown ∈ entryTokens es) : .shutdown ∈ es := by
  obtain ⟨e, he, ht⟩ := List.mem_flatMap.mp h
  cases e with
  | shutdown => exact he
  | frame kind w =>
    obtain ⟨b, -, hb⟩ := List.mem_map.mp ht
    cases hb

/-- A list whose last element is nowhere else in it is cut there only at its end. -/
theorem nil_of_append_singleton {α : Type} {l pre t : List α} {x : α} (hx : x ∉ l) (h : l ++ [x] = pre ++ x :: t) :
    t = [] := by
  rcases t.eq_nil_or_concat with ht | ⟨t', y, rfl⟩
  · exact ht
  · rw [List.concat_eq_append, ← List.cons_append, ← List.append_assoc] at h
    obtain ⟨rfl, -⟩ := List.append_inj' h rfl
    exact absurd (by simp) hx

/-- The `Shutdown` at the head of the batch is all that is left. -/
theorem spent_of_shutdown (reach : Reachable (Sys.step cfg) (.init cfg) s) {t : List Item}
    (cur : s.link.out.cur = none) (batch : s.link.out.batch = .shutdown :: t) : Spent s := by
  have carried := Carried.of_reachable reach
  have discipline := Discipline.of_reachable reach
  obtain ⟨pre, tokens, -⟩ := carried.batch
  have left : s.link.out.left = .shutdown :: itemTokens t := by rw [Out.left, cur, batch]; rfl
  rw [left] at tokens
  have mem : .shutdown ∈ s.link.out.inBatch := shutdown_mem_tokens (by rw [tokens]; simp)
  have shut := discipline.over_of_shutdown (by rw [Out.log]; simp [mem])
  -- it is the last entry of the log, so the last of the batch, and the queue is empty
  obtain ⟨a, b, split⟩ := List.append_of_mem mem
  have log := discipline.log
  rw [Out.log, split] at log
  simp only [List.append_assoc, List.cons_append] at log
  have behind := (List.pairwise_cons.mp (List.pairwise_append.mp (List.pairwise_append.mp log).2.1).2.1).1
  have ends : b ++ s.link.out.queued = [] := by
    refine List.eq_nil_iff_forall_not_mem.mpr fun e he => ?_
    exact (behind e he).1 rfl
  obtain ⟨rfl, queued⟩ := List.append_eq_nil_iff.mp ends
  have front : .shutdown ∉ a := by
    intro ha
    exact ((List.pairwise_append.mp (List.pairwise_append.mp log).2.1).2.2 _ ha _ List.mem_cons_self).1 rfl
  rw [split, entryTokens_append, entryTokens_singleton] at tokens
  have rest := nil_of_append_singleton (mt shutdown_mem_tokens front) tokens
  have unwritten : s.link.out.unwritten = [] := by
    have bytes := tokenBytes_itemTokens t
    rw [rest] at bytes
    rw [Out.unwritten, cur, batch]
    exact bytes.symm
  refine ⟨shut, ?_, close_mem_frames reach (shut.why.elim id fun hc => ?_) shut.free⟩
  · have written := carried.written
    rw [unwritten, List.append_nil] at written
    rw [written, Sys.frames, ← entryBytes_eq_frames, Out.log, queued, List.append_nil]
  · refine Classical.byContradiction fun hr => discipline.unrecorded (Bool.eq_false_iff.mpr hr) ?_
    rw [Out.log]
    simp [mem]

/-! ## The writer -/

/-- The writer comes to shut the sending side down at the `Shutdown` of its batch. -/
theorem shutting_step (hs : s.step cfg lab = some s') (before : s.wr.pc ≠ .shutting) (pc : s'.wr.pc = .shutting) :
    s.link.out.cur = none ∧ ∃ t, s.link.out.batch = .shutdown :: t := by
  cases hlab : lab.writes with
  | false =>
    rw [wr_step hs hlab] at pc
    exact absurd pc before
  | true =>
    cases lab with
    | writer =>
      have h := Sys.onRunning_some hs
      unfold Sys.writerStep at h
      split at h
      · unfold Sys.writePc Sys.swapBatch Sys.progress at h
        dsimp only at h
        repeat' split at h
        all_goals first
          | (cases h; cases pc)
          | cases h
          | (obtain ⟨out, -, rfl⟩ := Option.map_eq_some_iff.mp h; cases pc; done)
          | (obtain ⟨out, hp, rfl⟩ := Option.map_eq_some_iff.mp h; exact ⟨(Out.pop_some hp).1, _, ‹_›⟩)
      · split at h
        · cases h
          exact absurd pc before
        · cases h
    | write n =>
      obtain ⟨-, h⟩ := Option.ite_none_right_eq_some.mp (Sys.onRunning_some hs)
      split at h
      · cases h
        cases pc
      · cases h
    | writeError =>
      obtain ⟨-, h⟩ := Option.ite_none_right_eq_some.mp (Sys.onRunning_some hs)
      cases h
      cases pc
    | shutOut =>
      obtain ⟨-, h⟩ := Option.ite_none_right_eq_some.mp (Sys.onRunning_some hs)
      cases h
      cases pc
    | haltWriter =>
      obtain ⟨-, h⟩ := Option.ite_none_right_eq_some.mp (Sys.onRunning_some hs)
      repeat' split at h
      all_goals first | (cases h; cases pc) | cases h
    | _ => cases hlab

/-- The transport's sending side is shut down, or about to be. -/
def Sys.parting (s : Sys) : Prop := s.wr.pc = .shutting ∨ s.wr.pc = .shut ∨ s.wr.outShut = true

theorem Effect.parting (he : Effect cfg s lab s' used new) (hp : s'.parting) :
    s.parting ∨ s.wr.pc ≠ .shutting ∧ s'.wr.pc = .shutting := by
  have moves {pc : WritePc} (at_ : s.wr.pc ≠ .shutting) (pc' : s'.wr.pc = pc) (hpc : pc ≠ .shut)
      (outShut : s'.wr.outShut = s.wr.outShut) : s.parting ∨ s.wr.pc ≠ .shutting ∧ s'.wr.pc = .shutting := by
    rcases hp with hp | hp | hp
    · exact .inr ⟨at_, hp⟩
    · exact absurd (pc'.symm.trans hp) hpc
    · exact .inl (.inr (.inr (outShut ▸ hp)))
  cases he with
  | writing run idle hw =>
    by_cases at_ : s.wr.pc = .shutting
    · exact .inl (.inl at_)
    · cases hw with
      | shut pc => exact absurd pc at_
      | finished => exact moves at_ rfl nofun rfl
      | idle => exact moves at_ rfl nofun rfl
      | error => exact moves at_ rfl nofun rfl
      | stopped => exact moves at_ rfl nofun rfl
      | hub => exact moves at_ rfl nofun rfl
  | swap run idle at_ live hs goes =>
    exact moves (by rw [at_]; nofun) rfl (by rcases goes with rfl | rfl | rfl <;> nofun) rfl
  | pop run idle at_ hs goes => exact moves (by rw [at_]; nofun) rfl (by rcases goes with rfl | rfl <;> nofun) rfl
  | flushPong run idle at_ => exact moves (by rw [at_]; nofun) rfl nofun rfl
  | write run idle at_ => exact moves (by rw [at_]; nofun) rfl nofun rfl
  | progress run idle at_ => exact moves (by rw [at_]; nofun) rfl nofun rfl
  | drain run idle at_ => exact moves (by rw [at_]; nofun) rfl nofun rfl
  | stamp run idle at_ => exact moves (by rw [at_]; nofun) rfl nofun rfl
  | finish run idle at_ => exact moves (by rw [at_]; nofun) rfl nofun rfl
  | endShutdown run idle at_ => exact moves (by rw [at_]; nofun) rfl nofun rfl
  | _ => exact .inl hp

/-- The sending side is shut down behind everything. -/
theorem spent_of_parting (h : Reachable (Sys.step cfg) (.init cfg) s) (hp : s.parting) : Spent s := by
  refine h.invariant (I := fun s => s.parting → Spent s) (by rintro (hp | hp | hp) <;> cases hp) ?_ hp
  intro u l v hu hI hv hp
  obtain ⟨used, new, he⟩ := step_effect hv
  rcases he.parting hp with hp | ⟨before, pc⟩
  · exact (hI hp).step hu hv
  · obtain ⟨cur, t, batch⟩ := shutting_step hv before pc
    exact (spent_of_shutdown hu cur batch).step hu hv

/-! ## The reader -/

/-- `flush_close` returns because nothing is pending, because the link is stopped, or at its deadline. -/
theorem flushing_step {d : Instant} (hs : s.step cfg lab = some s') (pc : s.rd.pc = .flushing d)
    (passed : s'.rd.pc = .ending) : Sys.pending s.link = false ∨ s.link.stopped = true ∨ lab = .timer := by
  cases hlab : lab.reads with
  | false =>
    rw [(rd_step hs hlab).1, pc] at passed
    cases passed
  | true =>
    -- a read, and what ends one, is not possible here
    have elsewhere {c : Prop} [Decidable c] {t : Sys} {P : Prop}
        (h : (if s.rd.ops = [] ∧ c then some t else none) = some s') (hc : c → s.rd.pc ≠ .flushing d) : P :=
      absurd pc (hc (Option.ite_none_right_eq_some.mp h).1.2)
    cases lab with
    | reader =>
      have h := Sys.onRunning_some hs
      unfold Sys.readerStep at h
      split at h
      · rw [Sys.readPc, pc] at h
        dsimp only at h
        split at h
        · cases h
        · exact .inl (Bool.eq_false_iff.mpr ‹_›)
      · split at h
        · cases h
          exact absurd (pc.symm.trans passed) nofun
        · cases h
    | timer => exact .inr (.inr rfl)
    | haltReader =>
      have h := Sys.onRunning_some hs
      rw [Sys.haltReader, pc] at h
      split at h
      · cases h
      · dsimp only at h
        exact .inr (.inl (Option.ite_none_right_eq_some.mp h).1)
    | input bytes => exact elsewhere (Sys.onRunning_some hs) fun h => by rw [h.1]; nofun
    | eof => exact elsewhere (Sys.onRunning_some hs) fun h => by rw [h]; nofun
    | readError tls => exact elsewhere (Sys.onRunning_some hs) fun h => by rw [h]; nofun
    | wake => exact elsewhere (Sys.onRunning_some hs) fun h => by rcases h with h | h <;> rw [h] <;> nofun
    | _ => cases hlab

/-- A reader that goes on to `end` with the end recorded and in time leaves nothing to write. -/
theorem spent_of_passed (reach : Reachable (Sys.step cfg) (.init cfg) s) (hs : s.step cfg lab = some s')
    (intime : lab ≠ .timer) (before : s.rd.pc ≠ .ending) (passed : s'.rd.pc = .ending)
    (hr : s.link.flags.recorded = true) (alive : s.state ≠ .closed) : Spent s' := by
  obtain ⟨used, new, he⟩ := step_effect hs
  obtain ⟨idle, hs', hn⟩ := he.passes before passed
  have free : s.link.hold = [] := by
    refine (released_of_recorded reach hr).resolve_right ?_
    rw [idle]
    exact List.not_mem_nil
  have flushed : s.Flushed := by
    cases hn with
    | unrecorded pc why =>
      have dated := (Waiting.of_reachable reach).dated.recorded hr
      rw [Flags.recorded, Bool.or_eq_true] at hr
      rcases why with ⟨received, failed⟩ | deadline
      · rw [received, failed] at hr
        rcases hr with hr | hr <;> cases hr
      · rw [deadline] at dated
        cases dated
    | flushed pc why =>
      rcases flushing_step hs pc passed with idle | stopped | late
      · exact (closed_or_flushed reach hr free idle).resolve_left alive
      · exact absurd ((Halted.of_reachable reach).stopped stopped) alive
      · exact absurd late intime
  rw [hs']
  exact ⟨⟨free, .inl hr⟩, flushed.wire, flushed.close⟩

end Steps

end WebSocket.Net
